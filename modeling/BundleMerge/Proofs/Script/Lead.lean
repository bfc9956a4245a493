import BundleMerge.Proofs.Script.Blind
import BundleMerge.Proofs.Script.Ending

/-! What stands before the first lexeme of a statement, or what has been read before it, makes no
difference to how it is read. With other blanks and comments in front, the same comes of reading it,
in trees of the same shapes. -/
namespace BundleMerge.Script

section
variable {Symbol Class : Type}

/-! ### Other blanks in front -/

/-- Two trees of the same shape, as far as lexemes are leaves. -/
def SameScan (found found' : Option (Tree × List Char)) : Prop :=
  Option.Rel (fun a b => a.1.shape = b.1.shape ∧ a.2 = b.2) found found'

/-- What is known of the classes and symbols of a grammar: which of them may stand first, where
blanks and comments in front make no difference. -/
structure Openers (Symbol Class : Type) where
  classes : Class → Bool
  symbols : Symbol → Bool

namespace Rule

variable (p : Profile Symbol Class) (openers : Openers Symbol Class)

/-- Until the rule takes something, it does not look at the blanks and comments in front. -/
def Opens : Rule Symbol Class → Bool
  | .lexeme c => openers.classes c
  | .symbol x => openers.symbols x
  | .nothing => true
  | .seq first second => first.Opens && (first.takes p || second.Opens)
  | .alt first second => first.Opens && second.Opens
  | .many r | .ahead r | .never r | .node _ r | .extend _ _ r | .check _ r | .must r => r.Opens

end Rule

structure Openers.Right (openers : Openers Symbol Class) (p : Profile Symbol Class)
    (g : Grammar Symbol Class) : Prop where
  blind : ∀ x, (g.rule x).Blind
  scan : ∀ c, openers.classes c = true → ∀ lead lead' next,
    SameScan (g.scan c ⟨lead, next⟩) (g.scan c ⟨lead', next⟩)
  symbols : ∀ x, openers.symbols x = true → (g.rule x).Opens p openers = true

/-- Two outcomes from two spots: the same, up to the shapes of trees, unless nothing has been
taken from either text. -/
inductive Outcome.Alike (s s' : Spot) : Outcome → Outcome → Prop where
  | read {trees trees' : List Tree} {t : Spot} : trees.map Tree.shape = trees'.map Tree.shape →
      Alike s s' (.read trees t) (.read trees' t)
  | still {trees trees' : List Tree} : trees.map Tree.shape = trees'.map Tree.shape →
      Alike s s' (.read trees s) (.read trees' s')
  | miss : Alike s s' .miss .miss
  | stuck : Alike s s' .stuck .stuck
  | spent : Alike s s' .spent .spent

variable {g : Grammar Symbol Class} {p : Profile Symbol Class} {openers : Openers Symbol Class}
  {limit fuel : Nat} {r : Rule Symbol Class} {trees trees' : List Tree} {s s' : Spot}
  {o o' : Outcome}

namespace Outcome

/-- From one spot, two outcomes are alike from any two. -/
theorem Alike.apart (alike : Alike s s o o') (t t' : Spot) : Alike t t' o o' := by
  cases alike with
  | read shapes | still shapes => exact .read shapes
  | miss => exact .miss
  | stuck => exact .stuck
  | spent => exact .spent

theorem Alike.andThen {next next' : List Tree → Spot → Outcome} (alike : Alike s s' o o')
    (onward : ∀ trees trees' t, o = .read trees t → trees.map Tree.shape = trees'.map Tree.shape →
      Alike t t (next trees t) (next' trees' t))
    (stay : ∀ trees trees', o = .read trees s → trees.map Tree.shape = trees'.map Tree.shape →
      Alike s s' (next trees s) (next' trees' s')) :
    Alike s s' (o.andThen next) (o'.andThen next') := by
  cases alike with
  | read shapes => exact (onward _ _ _ rfl shapes).apart s s'
  | still shapes => exact stay _ _ rfl shapes
  | miss => exact .miss
  | stuck => exact .stuck
  | spent => exact .spent

end Outcome

theorem Tree.shape_node {k : Kind} {ts ts' : List Tree}
    (alike : ts.map Tree.shape = ts'.map Tree.shape) :
    (node k ts.reverse).shape = (node k ts'.reverse).shape := by
  rw [shape, shape, shapeAll_eq, shapeAll_eq, List.map_reverse, List.map_reverse, alike]

/-- What comes of reading a rule is the same with other blanks and comments in front, if the rule
opens there, and on top of other trees of the same shapes. -/
theorem run_alike (right : p.Right g limit) (open' : openers.Right p g) (blind : r.Blind)
    (spots : s = s' ∨ s.next = s'.next ∧ r.Opens p openers = true)
    (shapes : trees.map Tree.shape = trees'.map Tree.shape) :
    Outcome.Alike s s' (g.run fuel r trees s) (g.run fuel r trees' s') := by
  induction fuel generalizing r trees trees' s s' with
  | zero => exact .spent
  | succ fuel ih =>
    cases r with
    | lexeme c =>
      have same : SameScan (g.scan c s) (g.scan c s') := by
        rcases spots with rfl | ⟨next, opens⟩
        · cases g.scan c s with
          | none => exact .none
          | some found => exact .some ⟨rfl, rfl⟩
        · obtain ⟨lead, next⟩ := s
          obtain ⟨lead', next'⟩ := s'
          cases next
          exact open'.scan c opens lead lead' _
      rw [Grammar.run, Grammar.run]
      generalize g.scan c s = found, g.scan c s' = found' at same
      cases same with
      | none => exact .miss
      | @some a b both =>
        obtain ⟨leaf, rest⟩ := a
        obtain ⟨leaf', rest'⟩ := b
        obtain ⟨shape, rfl⟩ := both
        exact .read (by simp [shape, shapes])
    | nothing => exact .still shapes
    | seq first second =>
      refine (ih blind.1 (spots.imp_right fun both => ⟨both.1, (Bool.and_eq_true_iff.mp both.2).1⟩)
        shapes).andThen (fun _ _ _ _ shapes => ih blind.2 (.inl rfl) shapes) ?_
      intro ts ts' read shapes
      refine ih blind.2 (spots.imp_right fun both => ⟨both.1, ?_⟩) shapes
      have opens := (Bool.and_eq_true_iff.mp both.2).2
      refine (Bool.or_eq_true_iff.mp opens).resolve_left fun takes => ?_
      exact Nat.lt_irrefl _ ((reads_of_run read).shortens right takes)
    | alt first second =>
      have early := ih blind.1 (spots.imp_right fun both =>
        ⟨both.1, (Bool.and_eq_true_iff.mp both.2).1⟩) shapes
      rw [Grammar.run, Grammar.run]
      generalize g.run fuel first trees s = o, g.run fuel first trees' s' = o' at early
      cases early with
      | miss =>
        exact ih blind.2 (spots.imp_right fun both =>
          ⟨both.1, (Bool.and_eq_true_iff.mp both.2).2⟩) shapes
      | read shapes => exact .read shapes
      | still shapes => exact .still shapes
      | stuck => exact .stuck
      | spent => exact .spent
    | many r =>
      have once := ih (r := r) blind spots shapes
      rw [Grammar.run, Grammar.run]
      generalize g.run fuel r trees s = o, g.run fuel r trees' s' = o' at once
      cases once with
      | miss => exact .still shapes
      | read shapes =>
        exact (ih (r := .many r) blind (.inl rfl) shapes).apart s s'
      | still shapes => exact ih (r := .many r) blind spots shapes
      | stuck => exact .stuck
      | spent => exact .spent
    | ahead r | never r =>
      have inside : Outcome.Alike s s' (g.run fuel r [] s) (g.run fuel r [] s') :=
        ih blind spots rfl
      rw [Grammar.run, Grammar.run]
      generalize g.run fuel r [] s = o, g.run fuel r [] s' = o' at inside
      cases inside with
      | miss | stuck | read | still => first | exact .miss | exact .still shapes
      | spent => exact .spent
    | symbol x =>
      exact ih (open'.blind x) (spots.imp_right fun both => ⟨both.1, open'.symbols x both.2⟩) shapes
    | node k r =>
      have inside : Outcome.Alike s s' (g.run fuel r [] s) (g.run fuel r [] s') :=
        ih blind spots rfl
      refine inside.andThen (fun _ _ _ _ alike => .read ?_) (fun _ _ _ alike => .still ?_)
      all_goals rw [List.map_cons, List.map_cons, shapes, Tree.shape_node alike]
    | extend fit k r =>
      cases trees with
      | nil =>
        rw [List.map_nil, eq_comm, List.map_eq_nil_iff] at shapes
        rw [shapes]
        exact .miss
      | cons t trees =>
        obtain ⟨t', trees', rfl, first, shapes⟩ := List.map_eq_cons_iff.mp shapes.symm
        have inside : Outcome.Alike s s' (g.run fuel r [t] s) (g.run fuel r [t'] s') :=
          ih blind.2 spots (by simp [first])
        refine inside.andThen (fun ts ts' _ _ alike => ?_) (fun ts ts' _ alike => ?_)
        all_goals
          rw [fit_of_shapes blind.1 (show ts.reverse.map Tree.shape = ts'.reverse.map Tree.shape by
            rw [List.map_reverse, List.map_reverse, alike])]
          split
        · exact .read (by rw [List.map_cons, List.map_cons, shapes, Tree.shape_node alike])
        · exact .miss
        · exact .still (by rw [List.map_cons, List.map_cons, shapes, Tree.shape_node alike])
        · exact .miss
    | check fit r =>
      have inside : Outcome.Alike s s' (g.run fuel r [] s) (g.run fuel r [] s') :=
        ih blind.2 spots rfl
      refine inside.andThen (fun ts ts' _ _ alike => ?_) (fun ts ts' _ alike => ?_)
      all_goals
        rw [all_fit_of_shapes blind.1 alike]
        split
      · exact .read (by rw [List.map_append, List.map_append, alike, shapes])
      · exact .miss
      · exact .still (by rw [List.map_append, List.map_append, alike, shapes])
      · exact .miss
    | must r =>
      have inside := ih (r := r) blind spots shapes
      rw [Grammar.run, Grammar.run]
      generalize g.run fuel r trees s = o, g.run fuel r trees' s' = o' at inside
      cases inside with
      | miss => exact .stuck
      | read shapes => exact .read shapes
      | still shapes => exact .still shapes
      | stuck => exact .stuck
      | spent => exact .spent

/-- Where there is nothing that a rule may open with, the rule takes nothing. -/
theorem Reads.still (right : p.Right g limit) (open' : openers.Right p g)
    (reads : Reads g r trees s trees' s') (opens : r.Opens p openers = true)
    (nothing : ∀ c, openers.classes c = true → g.scan c s = none) : s' = s := by
  induction reads with
  | lexeme scanned => cases (nothing _ opens).symm.trans scanned
  | nothing | done | ahead | never => rfl
  | seq early _ first second =>
    obtain ⟨openFirst, openSecond⟩ := Bool.and_eq_true_iff.mp opens
    obtain rfl := first openFirst nothing
    refine second ((Bool.or_eq_true_iff.mp openSecond).resolve_left fun takes => ?_) nothing
    exact Nat.lt_irrefl _ (early.shortens right takes)
  | again _ _ first second =>
    obtain rfl := first opens nothing
    exact second opens nothing
  | first _ ih => exact ih (Bool.and_eq_true_iff.mp opens).1 nothing
  | second _ ih => exact ih (Bool.and_eq_true_iff.mp opens).2 nothing
  | symbol _ ih => exact ih (open'.symbols _ opens) nothing
  | must _ ih | node _ ih | extend _ _ ih | check _ _ ih => exact ih opens nothing

/-! ### Other trees before -/

namespace Rule

variable (symbols : Symbol → Bool)

/-- Whether the rule leaves alone what has been read before it. -/
def Alone : Rule Symbol Class → Bool
  | .lexeme _ | .nothing | .ahead _ | .never _ | .node .. | .check .. => true
  | .symbol x => symbols x
  | .seq first second | .alt first second => first.Alone && second.Alone
  | .many r | .must r => r.Alone
  | .extend .. => false

end Rule

/-- The outcome on top of other trees. -/
def Outcome.onto (below : List Tree) : Outcome → Outcome
  | .read trees s => .read (trees ++ below) s
  | .miss => .miss
  | .stuck => .stuck
  | .spent => .spent

theorem run_onto {symbols : Symbol → Bool} {below : List Tree}
    (known : ∀ x, symbols x = true → (g.rule x).Alone symbols = true)
    (alone : r.Alone symbols = true) :
    g.run fuel r (trees ++ below) s = (g.run fuel r trees s).onto below := by
  induction fuel generalizing r trees s with
  | zero => rfl
  | succ fuel ih =>
    cases r with
    | lexeme c =>
      rw [Grammar.run, Grammar.run]
      cases g.scan c s <;> rfl
    | nothing => rfl
    | seq first second =>
      obtain ⟨early, late⟩ := Bool.and_eq_true_iff.mp alone
      rw [Grammar.run, Grammar.run, ih early]
      cases g.run fuel first trees s with
      | read ts t => exact ih late
      | miss | stuck | spent => rfl
    | alt first second =>
      obtain ⟨early, late⟩ := Bool.and_eq_true_iff.mp alone
      rw [Grammar.run, Grammar.run, ih early]
      cases g.run fuel first trees s with
      | miss => exact ih late
      | read | stuck | spent => rfl
    | many r =>
      rw [Grammar.run, Grammar.run, ih (r := r) alone]
      cases g.run fuel r trees s with
      | read ts t => exact ih (r := .many r) alone
      | miss | stuck | spent => rfl
    | ahead r | never r =>
      rw [Grammar.run, Grammar.run]
      cases g.run fuel r [] s <;> rfl
    | symbol x => exact ih (known x alone)
    | node k r =>
      rw [Grammar.run, Grammar.run]
      cases g.run fuel r [] s <;> rfl
    | check fit r =>
      rw [Grammar.run, Grammar.run]
      cases g.run fuel r [] s with
      | read ts t =>
        simp only [Outcome.andThen]
        split
        · exact congrArg (Outcome.read · t) (List.append_assoc ..).symm
        · rfl
      | miss | stuck | spent => rfl
    | extend fit k r => cases alone
    | must r =>
      rw [Grammar.run, Grammar.run, ih (r := r) alone]
      cases g.run fuel r trees s <;> rfl

end

/-! ### Blanks in front -/

theorem gapFrom_add (state : GapState) (read sure n : Nat) (cs : List Char) :
    gapFrom state (read + n) (sure + n) cs = gapFrom state read sure cs + n := by
  induction cs generalizing state read sure with
  | nil => rfl
  | cons c cs ih =>
    rw [gapFrom, gapFrom]
    cases state.next? isBlank isLineEnd c with
    | none => rfl
    | some next =>
      dsimp only
      rw [Nat.add_right_comm, ← ih]
      split <;> rfl

/-- A blank in front of a text is part of the gap before its first lexeme. -/
theorem Spot.of_blank {c : Char} (blank : isBlank c = true) (cs : List Char) :
    Spot.of (c :: cs) = ⟨c :: (Spot.of cs).lead, (Spot.of cs).next⟩ := by
  have solid : c ≠ '/' := by
    rintro rfl
    cases blank
  have longer : gapLength (c :: cs) = gapLength cs + 1 := by
    rw [gapLength, gapFrom, gapLength, ← gapFrom_add]
    simp [GapState.next?, solid, blank, GapState.isClosed]
  rw [Spot.of, longer]
  rfl

theorem sameScan_map {found : Option Nat} {f f' : Nat → Tree × List Char}
    (same : ∀ n, (f n).1.shape = (f' n).1.shape ∧ (f n).2 = (f' n).2) :
    SameScan (found.map f) (found.map f') := by
  cases found with
  | none => exact .none
  | some n => exact .some (same n)

theorem Spot.shape_leaf (lead lead' next : List Char) (kind : LeafKind) (n : Nat) :
    ((Spot.mk lead next).leaf kind n).1.shape = ((Spot.mk lead' next).leaf kind n).1.shape ∧
      ((Spot.mk lead next).leaf kind n).2 = ((Spot.mk lead' next).leaf kind n).2 := by
  cases kind <;> exact ⟨rfl, rfl⟩

/-- Lexemes of these classes are looked for after the gap, and none of them is empty or starts with
a hash. -/
def Token.opens : Token → Bool
  | .mark m | .exact m | .word m => m.toList.head?.any (· ≠ '#')
  | .oneOf words => words.all fun w => w.toList.head?.any (· ≠ '#')
  | .templateChars | .templateMark _ | .markupText | .reference | .statementEnd _
  | .interpreterLine => false
  | _ => true

theorem Token.scan_same {t : Token} (opens : t.opens = true) (lead lead' next : List Char) :
    SameScan (t.scan ⟨lead, next⟩) (t.scan ⟨lead', next⟩) := by
  cases t with
  | mark | word | oneOf | privateName | number | string | regex | condition | markupName
  | markupString | aside => exact sameScan_map (Spot.shape_leaf lead lead' next _)
  | exact m =>
    simp only [Token.scan]
    split
    · exact .some (Spot.shape_leaf ..)
    · exact .none
  | name reserved =>
    simp only [Token.scan]
    cases name? next with
    | none => exact .none
    | some n =>
      simp only [Option.bind_some]
      split
      · exact .none
      · exact .some (Spot.shape_leaf ..)
  | property =>
    simp only [Token.scan]
    cases name? next with
    | none => exact .none
    | some n =>
      simp only [Option.bind_some]
      split
      · exact .none
      · exact .some (Spot.shape_leaf ..)
  | finish =>
    simp only [Token.scan]
    split
    · exact .some (Spot.shape_leaf ..)
    · exact .none
  | templateChars | templateMark | markupText | reference | statementEnd | interpreterLine =>
    cases opens

/-- Every symbol but the whole program, which may open with an interpreter line. -/
def openers : Openers Symbol Token where
  classes := Token.opens
  symbols
    | .program => false
    | _ => true

theorem openers_right : openers.Right profile grammar where
  blind := grammar_blind
  scan _ := Token.scan_same
  symbols x := by
    rcases x with _ | _ | _ | ⟨_ | _⟩ | ⟨_ | _, _ | _⟩ | ⟨_ | _, _ | _⟩ | ⟨_ | _, _ | _⟩ |
      ⟨_ | _, _ | _⟩ | _ <;> decide

end BundleMerge.Script
