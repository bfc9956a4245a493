import BundleMerge.Script.Parse

/-! What reading a rule comes to, as a relation that knows no fuel. Whatever is read is spelled by
the trees that it is read as, and a script that can be read is read to its end. -/
namespace BundleMerge.Script

namespace Tree

/-- What holds of leaves, and of a tree if it holds of its children, holds of every tree. -/
@[elab_as_elim]
theorem induction {motive : Tree → Prop} (leaf : ∀ k lead lexeme, motive (.leaf k lead lexeme))
    (node : ∀ k ts, (∀ t ∈ ts, motive t) → motive (.node k ts)) (t : Tree) : motive t := by
  refine @Tree.rec motive (fun ts => ∀ t ∈ ts, motive t) leaf node ?nil ?cons t
  case nil => exact nofun
  case cons => exact fun t ts first others => List.forall_mem_cons.mpr ⟨first, others⟩

theorem textAll_eq (ts : List Tree) : textAll ts = ts.flatMap text := by
  induction ts with
  | nil => rfl
  | cons t ts ih => rw [textAll, ih, List.flatMap_cons]

theorem preorderAll_eq (ts : List Tree) : preorderAll ts = ts.flatMap preorder := by
  induction ts with
  | nil => rfl
  | cons t ts ih => rw [preorderAll, ih, List.flatMap_cons]

/-- Every name in the tree has a letter at least. -/
def Named (t : Tree) : Prop :=
  ∀ lead lexeme, .leaf .name lead lexeme ∈ t.preorder → lexeme ≠ []

theorem mem_preorder_node {u : Tree} {k : Kind} {ts : List Tree} :
    u ∈ (node k ts).preorder ↔ u = .node k ts ∨ ∃ t ∈ ts, u ∈ t.preorder := by
  rw [preorder, preorderAll_eq, List.mem_cons, List.mem_flatMap]

theorem named_node {k : Kind} {ts : List Tree} :
    (node k ts).Named ↔ ∀ t ∈ ts, t.Named := by
  simp only [Named, mem_preorder_node, reduceCtorEq, false_or]
  constructor
  · exact fun named t member lead lexeme inside => named lead lexeme ⟨t, member, inside⟩
  · exact fun named lead lexeme ⟨t, member, inside⟩ => named t member lead lexeme inside

end Tree

section
variable {Symbol Class : Type}

/-- How a rule is read: on top of which trees, the last one first, from which spot on, with which
trees after it and up to which spot. -/
inductive Reads (g : Grammar Symbol Class) :
    Rule Symbol Class → List Tree → Spot → List Tree → Spot → Prop where
  | lexeme {c trees s leaf rest} : g.scan c s = some (leaf, rest) →
      Reads g (.lexeme c) trees s (leaf :: trees) (.of rest)
  | nothing {trees s} : Reads g .nothing trees s trees s
  | seq {first second trees s trees₁ s₁ trees₂ s₂} : Reads g first trees s trees₁ s₁ →
      Reads g second trees₁ s₁ trees₂ s₂ → Reads g (.seq first second) trees s trees₂ s₂
  | first {first second trees s trees' s'} : Reads g first trees s trees' s' →
      Reads g (.alt first second) trees s trees' s'
  | second {first second trees s trees' s'} : Reads g second trees s trees' s' →
      Reads g (.alt first second) trees s trees' s'
  | done {r trees s} : Reads g (.many r) trees s trees s
  | again {r trees s trees₁ s₁ trees₂ s₂} : Reads g r trees s trees₁ s₁ →
      Reads g (.many r) trees₁ s₁ trees₂ s₂ → Reads g (.many r) trees s trees₂ s₂
  | ahead {r trees s} : Reads g (.ahead r) trees s trees s
  | never {r trees s} : Reads g (.never r) trees s trees s
  | symbol {x trees s trees' s'} : Reads g (g.rule x) trees s trees' s' →
      Reads g (.symbol x) trees s trees' s'
  | node {k r trees s ts s'} : Reads g r [] s ts s' →
      Reads g (.node k r) trees s (.node k ts.reverse :: trees) s'
  | extend {fit k r t trees s ts s'} : Reads g r [t] s ts s' → fit ts.reverse = true →
      Reads g (.extend fit k r) (t :: trees) s (.node k ts.reverse :: trees) s'
  | check {fit r trees s ts s'} : Reads g r [] s ts s' → ts.all fit = true →
      Reads g (.check fit r) trees s (ts ++ trees) s'
  | must {r trees s trees' s'} : Reads g r trees s trees' s' → Reads g (.must r) trees s trees' s'

variable {g : Grammar Symbol Class} {r : Rule Symbol Class} {trees trees' : List Tree}
  {s s' : Spot}

theorem Outcome.andThen_read {o : Outcome} {next : List Tree → Spot → Outcome}
    (read : o.andThen next = .read trees' s') :
    ∃ trees s, o = .read trees s ∧ next trees s = .read trees' s' := by
  cases o with
  | read trees s => exact ⟨trees, s, rfl, read⟩
  | miss | stuck | spent => cases read

theorem reads_of_run {fuel : Nat} (read : g.run fuel r trees s = .read trees' s') :
    Reads g r trees s trees' s' := by
  induction fuel generalizing r trees s trees' s' with
  | zero => cases read
  | succ fuel ih =>
    cases r with
    | lexeme c =>
      simp only [Grammar.run] at read
      split at read
      · cases read
        exact .lexeme ‹_›
      · cases read
    | nothing =>
      cases read
      exact .nothing
    | seq first second =>
      obtain ⟨trees₁, s₁, early, late⟩ := Outcome.andThen_read read
      exact .seq (ih early) (ih late)
    | alt first second =>
      simp only [Grammar.run] at read
      split at read
      · exact .second (ih read)
      · exact .first (ih read)
    | many r =>
      simp only [Grammar.run] at read
      split at read
      · exact .again (ih ‹_›) (ih read)
      · cases read
        exact .done
      · rename_i unread _
        exact absurd read (unread _ _)
    | ahead r =>
      simp only [Grammar.run] at read
      split at read <;> cases read
      exact .ahead
    | never r =>
      simp only [Grammar.run] at read
      split at read <;> cases read
      exact .never
    | symbol x => exact .symbol (ih read)
    | node k r =>
      obtain ⟨ts, s₁, inside, built⟩ := Outcome.andThen_read read
      cases built
      exact .node (ih inside)
    | extend fit k r =>
      cases trees with
      | nil => cases read
      | cons t trees =>
        obtain ⟨ts, s₁, inside, built⟩ := Outcome.andThen_read read
        split at built <;> cases built
        exact .extend (ih inside) ‹_›
    | check fit r =>
      obtain ⟨ts, s₁, inside, built⟩ := Outcome.andThen_read read
      split at built <;> cases built
      exact .check (ih inside) ‹_›
    | must r =>
      simp only [Grammar.run] at read
      split at read
      · cases read
      · exact .must (ih read)

/-! ### What every reading keeps -/

theorem Spot.here_of (cs : List Char) : (Spot.of cs).here = cs :=
  List.take_append_drop ..

/-- If leaves spell what is scanned, then trees spell what is read. -/
theorem Reads.text
    (spells : ∀ c s leaf rest, g.scan c s = some (leaf, rest) → leaf.text ++ rest = s.here)
    (reads : Reads g r trees s trees' s') :
    trees'.reverse.flatMap Tree.text ++ s'.here = trees.reverse.flatMap Tree.text ++ s.here := by
  induction reads with
  | lexeme scanned =>
    simp only [List.reverse_cons, List.flatMap_append, List.flatMap_cons, List.flatMap_nil,
      List.append_nil, List.append_assoc, Spot.here_of, spells _ _ _ _ scanned]
  | nothing | done | ahead | never => rfl
  | seq _ _ early late | again _ _ early late => exact late.trans early
  | first _ ih | second _ ih | symbol _ ih | must _ ih => exact ih
  | node _ ih | extend _ _ ih =>
    simp only [List.reverse_cons, List.reverse_nil, List.flatMap_append, List.flatMap_cons,
      List.flatMap_nil, List.nil_append, List.append_nil, List.append_assoc, Tree.text,
      Tree.textAll_eq] at ih ⊢
    rw [ih]
  | check _ _ ih =>
    simp only [List.reverse_nil, List.flatMap_nil, List.nil_append] at ih
    rw [List.reverse_append, List.flatMap_append, List.append_assoc, ih]

theorem Reads.named
    (named : ∀ c s leaf rest, g.scan c s = some (leaf, rest) → leaf.Named)
    (reads : Reads g r trees s trees' s') (before : ∀ t ∈ trees, t.Named) :
    ∀ t ∈ trees', t.Named := by
  induction reads with
  | lexeme scanned => exact List.forall_mem_cons.mpr ⟨named _ _ _ _ scanned, before⟩
  | nothing | done | ahead | never => exact before
  | seq _ _ early late | again _ _ early late => exact late (early before)
  | first _ ih | second _ ih | symbol _ ih | must _ ih => exact ih before
  | node _ ih =>
    refine List.forall_mem_cons.mpr ⟨Tree.named_node.mpr fun t member => ?_, before⟩
    exact ih nofun t (List.mem_reverse.mp member)
  | extend _ _ ih =>
    obtain ⟨here, others⟩ := List.forall_mem_cons.mp before
    refine List.forall_mem_cons.mpr ⟨Tree.named_node.mpr fun t member => ?_, others⟩
    exact ih (List.forall_mem_singleton.mpr here) t (List.mem_reverse.mp member)
  | check _ _ ih =>
    intro t member
    exact (List.mem_append.mp member).elim (ih nofun t) (before t)

end

/-! ### Lexemes -/

theorem unicodeEscape?_pos {cs : List Char} {n : Nat} (found : unicodeEscape? cs = some n) :
    0 < n := by
  unfold unicodeEscape? at found
  split at found
  · dsimp only at found
    split at found <;> cases found
    omega
  · split at found <;> cases found
    omega
  · cases found

theorem name?_ne_nil {cs : List Char} {n : Nat} (found : name? cs = some n) : cs.take n ≠ [] := by
  cases cs with
  | nil => cases found
  | cons c cs =>
    have positive : 0 < n := by
      simp only [name?] at found
      split at found
      · cases found
        omega
      · obtain ⟨k, escaped, rfl⟩ := Option.map_eq_some_iff.mp found
        obtain ⟨k, rfl⟩ := Nat.exists_eq_add_one.mpr (unicodeEscape?_pos escaped)
        simp [nameRest]
    obtain ⟨n, rfl⟩ := Nat.exists_eq_add_one.mpr positive
    simp

/-- A scan finds a leaf that takes the blanks before it with it, or a leaf that starts right
here, which is no name. -/
inductive Spot.Finds (s : Spot) : Tree × List Char → Prop where
  | leaf {kind n} : (kind = .name → s.next.take n ≠ []) → Finds s (s.leaf kind n)
  | here {kind n} : kind ≠ .name → Finds s (s.leafHere kind n)

theorem Spot.finds_of_map {s : Spot} {length? : Option Nat} {f : Nat → Tree × List Char}
    {found : Tree × List Char} (mapped : length?.map f = some found) (finds : ∀ n, s.Finds (f n)) :
    s.Finds found := by
  obtain ⟨n, -, rfl⟩ := Option.map_eq_some_iff.mp mapped
  exact finds n

theorem Token.scan_finds {t : Token} {s : Spot} {found : Tree × List Char}
    (scanned : t.scan s = some found) : s.Finds found := by
  cases t with
  | mark | word | oneOf | condition | privateName | number | string | regex | markupName
  | markupString | aside => exact Spot.finds_of_map scanned fun n => .leaf nofun
  | templateChars | markupText | reference | interpreterLine =>
    exact Spot.finds_of_map scanned fun n => .here nofun
  | exact | finish =>
    simp only [Token.scan] at scanned
    split at scanned <;> cases scanned
    exact .leaf nofun
  | templateMark | statementEnd =>
    simp only [Token.scan] at scanned
    split at scanned <;> cases scanned
    exact .here nofun
  | name | property =>
    obtain ⟨n, named, scanned⟩ := Option.bind_eq_some_iff.mp scanned
    split at scanned <;> cases scanned
    exact .leaf fun _ => name?_ne_nil named

theorem Token.scan_text {t : Token} {s : Spot} {leaf : Tree} {rest : List Char}
    (scanned : t.scan s = some (leaf, rest)) : leaf.text ++ rest = s.here := by
  cases Token.scan_finds scanned with
  | leaf => rw [Tree.text, List.append_assoc, List.take_append_drop, Spot.here]
  | here => rw [Tree.text, List.nil_append, List.take_append_drop]

theorem Token.scan_named {t : Token} {s : Spot} {leaf : Tree} {rest : List Char}
    (scanned : t.scan s = some (leaf, rest)) : leaf.Named := by
  intro lead lexeme member
  cases Token.scan_finds scanned with
  | leaf name =>
    cases List.mem_singleton.mp member
    exact name rfl
  | here other =>
    cases List.mem_singleton.mp member
    exact absurd rfl other

/-! ### Whole scripts -/

/-- What follows the interpreter line of a program. -/
def Syntax.statements : Syntax :=
  .seq (.many (.symbol .statement)) (.seq (.many (.lexeme .aside)) (.lexeme .finish))

theorem program_eq : grammar.rule .program =
    .node .program (.seq (.alt (.lexeme .interpreterLine) .nothing) Syntax.statements) := rfl

/-- The last lexeme of a script is its end. -/
theorem reads_statements {trees trees' : List Tree} {s s' : Spot}
    (reads : Reads grammar Syntax.statements trees s trees' s') : s'.here = [] := by
  cases reads with
  | seq _ reads =>
    cases reads with
    | seq _ reads =>
      cases reads with
      | lexeme scanned =>
        change (if _ then some _ else none) = some _ at scanned
        split at scanned <;> cases scanned
        rename_i finished
        rw [Spot.here_of, finished, List.drop_nil]

theorem reads_program {trees : List Tree} {s s' : Spot}
    (reads : Reads grammar (.symbol .program) [] s trees s') : s'.here = [] := by
  cases reads with
  | symbol reads =>
    rw [program_eq] at reads
    cases reads with
    | node reads =>
      cases reads with
      | seq _ reads => exact reads_statements reads

theorem parse_reads {script : List Char} {t : Tree} (read : parse script = some t) :
    ∃ s, Reads grammar (.symbol .program) [] (.of script) [t] s := by
  unfold parse at read
  split at read <;> cases read
  exact ⟨_, reads_of_run ‹_›⟩

/-- A tree spells the script that it was read from. -/
theorem parse_text {script : List Char} {t : Tree} (read : parse script = some t) :
    t.text = script := by
  obtain ⟨s, reads⟩ := parse_reads read
  have spelled := reads.text fun _ _ _ _ => Token.scan_text
  rw [reads_program reads, Spot.here_of] at spelled
  simpa using spelled

theorem parse_named {script : List Char} {t : Tree} (read : parse script = some t) : t.Named := by
  obtain ⟨s, reads⟩ := parse_reads read
  exact reads.named (fun _ _ _ _ => Token.scan_named) nofun t (List.mem_singleton_self t)

end BundleMerge.Script
