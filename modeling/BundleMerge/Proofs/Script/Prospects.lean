import BundleMerge.Proofs.Script.Blind

/-! What may come of reading a text that is not wholly known. A guess says of each lexeme class
what a scan may find; from it follow the ways in which a rule may be read, and whether it may miss
or get stuck. If the guess is right about a text, then so are the prospects of every rule, with
any fuel that is enough for them. -/
namespace BundleMerge.Script

variable {Symbol Class : Type}

/-! ### Names in trees -/

namespace Tree

mutual

/-- The tree with other names in it. -/
def mapNames (f : List Char → List Char) : Tree → Tree
  | .leaf .name lead lexeme => .leaf .name lead (f lexeme)
  | .leaf k lead lexeme => .leaf k lead lexeme
  | .node k ts => .node k (mapNamesAll f ts)

def mapNamesAll (f : List Char → List Char) : List Tree → List Tree
  | [] => []
  | t :: ts => mapNames f t :: mapNamesAll f ts

end

theorem mapNamesAll_eq (f : List Char → List Char) (ts : List Tree) :
    mapNamesAll f ts = ts.map (mapNames f) := by
  induction ts with
  | nil => rfl
  | cons t ts ih => rw [mapNamesAll, ih, List.map_cons]

/-- With other names in it, a tree keeps its shape. -/
theorem shape_mapNames (f : List Char → List Char) (t : Tree) : (t.mapNames f).shape = t.shape := by
  induction t using Tree.induction with
  | leaf k lead lexeme => cases k <;> rfl
  | node k ts each =>
    rw [mapNames, shape, shape, mapNamesAll_eq, shapeAll_eq, shapeAll_eq, List.map_map]
    exact congrArg (node k) (List.map_congr_left each)

theorem shapes_mapNames (f : List Char → List Char) (ts : List Tree) :
    (ts.map (mapNames f)).map shape = ts.map shape := by
  rw [List.map_map]
  exact List.map_congr_left fun t _ => shape_mapNames f t

theorem mapNames_node_reverse (f : List Char → List Char) (k : Kind) (ts : List Tree) :
    (node k ts.reverse).mapNames f = .node k (ts.map (mapNames f)).reverse := by
  rw [mapNames, mapNamesAll_eq, List.map_reverse]

end Tree

/-! ### Prospects -/

/-- The ways in which something may be read, and whether reading may miss or get stuck. -/
structure Prospects where
  reads : List (List Tree × Spot)
  miss : Bool
  stuck : Bool

namespace Prospects

def sure (trees : List Tree) (s : Spot) : Prospects := ⟨[(trees, s)], false, false⟩

def missed : Prospects := ⟨[], true, false⟩

def union (p q : Prospects) : Prospects :=
  ⟨p.reads ++ q.reads, p.miss || q.miss, p.stuck || q.stuck⟩

/-- What may come of going on from each of some readings. -/
def each (go : List Tree → Spot → Option Prospects) : List (List Tree × Spot) → Option Prospects
  | [] => some ⟨[], false, false⟩
  | (trees, s) :: more => (go trees s).bind fun p => (each go more).map p.union

def andThen (p : Prospects) (go : List Tree → Spot → Option Prospects) : Option Prospects :=
  (each go p.reads).map fun q => ⟨q.reads, p.miss || q.miss, p.stuck || q.stuck⟩

end Prospects

/-- What a lexeme class may find at a spot, if that is known: nothing, or a leaf with the text after
it. -/
abbrev Guess (Class : Type) := Class → Spot → Option (List (Option (Tree × List Char)))

/-- What may come of reading a rule at a spot. -/
def prospects (rule : Symbol → Rule Symbol Class) (guess : Guess Class) :
    Nat → Rule Symbol Class → List Tree → Spot → Option Prospects
  | 0, _, _, _ => none
  | fuel + 1, r, trees, s =>
    match r with
    | .lexeme c => (guess c s).map fun found =>
      ⟨found.filterMap fun o => o.map fun (leaf, rest) => (leaf :: trees, .of rest),
        found.any (·.isNone), false⟩
    | .nothing => some (.sure trees s)
    | .seq first second =>
      (prospects rule guess fuel first trees s).bind (·.andThen (prospects rule guess fuel second))
    | .alt first second =>
      (prospects rule guess fuel first trees s).bind fun p =>
        if p.miss then
          (prospects rule guess fuel second trees s).map fun q =>
            ⟨p.reads ++ q.reads, q.miss, p.stuck || q.stuck⟩
        else some p
    | .many r =>
      (prospects rule guess fuel r trees s).bind fun p =>
        (Prospects.each (prospects rule guess fuel (.many r)) p.reads).map fun q =>
          ⟨(if p.miss then [(trees, s)] else []) ++ q.reads, q.miss, p.stuck || q.stuck⟩
    | .ahead r => (prospects rule guess fuel r [] s).map fun p =>
      ⟨if p.reads.isEmpty then [] else [(trees, s)], p.miss || p.stuck, false⟩
    | .never r => (prospects rule guess fuel r [] s).map fun p =>
      ⟨if p.miss || p.stuck then [(trees, s)] else [], !p.reads.isEmpty, false⟩
    | .symbol x => prospects rule guess fuel (rule x) trees s
    | .node k r => (prospects rule guess fuel r [] s).map fun p =>
      { p with reads := p.reads.map fun (ts, s) => (.node k ts.reverse :: trees, s) }
    | .extend fit k r =>
      match trees with
      | t :: trees => (prospects rule guess fuel r [t] s).bind (·.andThen fun ts s =>
        some (if fit ts.reverse then .sure (.node k ts.reverse :: trees) s else .missed))
      | [] => some .missed
    | .check fit r => (prospects rule guess fuel r [] s).bind (·.andThen fun ts s =>
      some (if ts.all fit then .sure (ts ++ trees) s else .missed))
    | .must r => (prospects rule guess fuel r trees s).map fun p =>
      ⟨p.reads, false, p.miss || p.stuck⟩

/-! ### Right guesses -/

section
variable {g : Grammar Symbol Class} {guess : Guess Class} {f text : List Char → List Char}
  {known : List Char → Prop} {p q : Prospects} {r : Rule Symbol Class} {trees : List Tree}
  {cs : List Char} {n fuel : Nat}

/-- The guess is right about texts of a kind, whatever texts are made of them, as long as names are
made of names. -/
structure Guess.Right (guess : Guess Class) (g : Grammar Symbol Class)
    (f text : List Char → List Char) (known : List Char → Prop) : Prop where
  blind : ∀ x, (g.rule x).Blind
  scan : ∀ c cs found, known cs → guess c (.of cs) = some found → ∃ o ∈ found,
    g.scan c (.of (text cs)) = o.map (fun (leaf, rest) => (leaf.mapNames f, text rest)) ∧
      ∀ leaf rest, o = some (leaf, rest) → known rest

/-- The outcome is among the prospects. -/
inductive Prospects.Include (p : Prospects) (f text : List Char → List Char)
    (known : List Char → Prop) : Outcome → Prop where
  | read {trees : List Tree} {cs : List Char} : (trees, .of cs) ∈ p.reads → known cs →
      Include p f text known (.read (trees.map (·.mapNames f)) (.of (text cs)))
  | miss : p.miss = true → Include p f text known .miss
  | stuck : p.stuck = true → Include p f text known .stuck

theorem Prospects.Include.read_cons {t : Tree} (member : (t :: trees, .of cs) ∈ p.reads)
    (here : known cs) : p.Include f text known
      (.read (t.mapNames f :: trees.map (·.mapNames f)) (.of (text cs))) :=
  .read member here

/-- All that is in prospect comes with other prospects too. -/
structure Prospects.Within (p q : Prospects) : Prop where
  reads : p.reads ⊆ q.reads
  miss : p.miss = true → q.miss = true
  stuck : p.stuck = true → q.stuck = true

namespace Prospects

theorem Include.mono {o : Outcome} (within : p.Within q) (included : p.Include f text known o) :
    q.Include f text known o := by
  cases included with
  | read member known => exact .read (within.reads member) known
  | miss missed => exact .miss (within.miss missed)
  | stuck stuck => exact .stuck (within.stuck stuck)

theorem within_each {go : List Tree → Spot → Option Prospects} {reads : List (List Tree × Spot)}
    {s : Spot} (found : each go reads = some q) (member : (trees, s) ∈ reads) :
    ∃ p, go trees s = some p ∧ p.Within q := by
  induction reads generalizing q with
  | nil => cases member
  | cons first more ih =>
    obtain ⟨p, here, found⟩ := Option.bind_eq_some_iff.mp found
    obtain ⟨q', rest, rfl⟩ := Option.map_eq_some_iff.mp found
    rcases List.mem_cons.mp member with rfl | member
    · refine ⟨p, here, List.subset_append_left _ _, ?_, ?_⟩ <;> simp +contextual [union]
    · obtain ⟨p', there, reads, miss, stuck⟩ := ih rest member
      refine ⟨p', there, List.subset_append_of_subset_right _ reads, ?_, ?_⟩
      · intro missed
        simp [union, miss missed]
      · intro failed
        simp [union, stuck failed]

/-- Where one thing is read after the other, the outcome is in prospect if it is after every first
part that is. -/
theorem Include.andThen {go : List Tree → Spot → Option Prospects}
    {next : List Tree → Spot → Outcome} {o : Outcome} (found : p.andThen go = some q)
    (included : p.Include f text known o)
    (goesOn : ∀ trees cs p, known cs → go trees (.of cs) = some p →
      p.Include f text known (next (trees.map (·.mapNames f)) (.of (text cs)))) :
    q.Include f text known (o.andThen next) := by
  obtain ⟨q', all, rfl⟩ := Option.map_eq_some_iff.mp found
  cases included with
  | @read trees cs member here =>
    obtain ⟨p', after, within⟩ := within_each all member
    refine (goesOn trees cs p' here after).mono ⟨within.reads, ?_, ?_⟩
    · intro missed
      simp [within.miss missed]
    · intro failed
      simp [within.stuck failed]
  | miss missed => exact .miss (by simp [missed])
  | stuck failed => exact .stuck (by simp [failed])

end Prospects

/-- What comes of reading a rule is in prospect, if the guess is right. -/
theorem include_run (right : guess.Right g f text known) (blind : r.Blind) (here : known cs)
    (found : prospects g.rule guess n r trees (.of cs) = some p) (enough : n ≤ fuel) :
    p.Include f text known (g.run fuel r (trees.map (·.mapNames f)) (.of (text cs))) := by
  induction n generalizing r trees cs p fuel with
  | zero => cases found
  | succ n ih =>
    obtain ⟨fuel, rfl⟩ := Nat.exists_eq_succ_of_ne_zero (Nat.ne_zero_of_lt enough)
    have enough : n ≤ fuel := Nat.le_of_succ_le_succ enough
    -- The prospects of a part of the rule, with what has been read before it.
    have part : ∀ {r : Rule Symbol Class} {p trees cs},
        prospects g.rule guess n r trees (.of cs) = some p → r.Blind → known cs →
        p.Include f text known (g.run fuel r (trees.map (·.mapNames f)) (.of (text cs))) :=
      fun found blind here => ih blind here found enough
    cases r with
    | lexeme c =>
      obtain ⟨scans, guessed, rfl⟩ := Option.map_eq_some_iff.mp found
      obtain ⟨o, among, scanned, stays⟩ := right.scan c cs scans here guessed
      simp only [Grammar.run, scanned]
      cases o with
      | none => exact .miss (List.any_eq_true.mpr ⟨none, among, rfl⟩)
      | some read =>
        obtain ⟨leaf, rest⟩ := read
        refine Prospects.Include.read_cons ?_ (stays leaf rest rfl)
        exact List.mem_filterMap.mpr ⟨_, among, rfl⟩
    | nothing =>
      cases found
      exact .read (List.mem_singleton_self _) here
    | seq first second =>
      obtain ⟨p', early, found⟩ := Option.bind_eq_some_iff.mp found
      exact .andThen found (part early blind.1 here) fun _ _ _ known late => part late blind.2 known
    | alt first second =>
      obtain ⟨p', early, found⟩ := Option.bind_eq_some_iff.mp found
      have tried := part early blind.1 here
      rw [Grammar.run]
      generalize g.run fuel first (trees.map (·.mapNames f)) (.of (text cs)) = o at tried
      cases missed : p'.miss with
      | false =>
        rw [missed, if_neg Bool.false_ne_true] at found
        cases found
        cases tried with
        | read member known => exact .read member known
        | miss miss => cases miss.symm.trans missed
        | stuck failed => exact .stuck failed
      | true =>
        rw [missed, if_pos rfl] at found
        obtain ⟨q, late, rfl⟩ := Option.map_eq_some_iff.mp found
        cases tried with
        | read member known => exact .read (List.mem_append_left _ member) known
        | stuck failed => exact .stuck (by simp [failed])
        | miss =>
          refine (part late blind.2 here).mono ⟨List.subset_append_right _ _, id, ?_⟩
          intro failed
          simp [failed]
    | many r =>
      obtain ⟨p', once, found⟩ := Option.bind_eq_some_iff.mp found
      obtain ⟨q, again, rfl⟩ := Option.map_eq_some_iff.mp found
      have early := part once blind here
      rw [Grammar.run]
      generalize g.run fuel r (trees.map (·.mapNames f)) (.of (text cs)) = o at early
      cases early with
      | @read trees' cs' member known =>
        obtain ⟨p'', more, within⟩ := Prospects.within_each again member
        refine (part more blind known).mono ⟨?_, within.miss, ?_⟩
        · exact List.subset_append_of_subset_right _ within.reads
        · intro failed
          simp [within.stuck failed]
      | miss missed => exact .read (by simp [missed]) here
      | stuck failed => exact .stuck (by simp [failed])
    | ahead r =>
      obtain ⟨p', inside, rfl⟩ := Option.map_eq_some_iff.mp found
      have ahead := part inside blind here
      rw [List.map_nil] at ahead
      rw [Grammar.run]
      generalize g.run fuel r [] (.of (text cs)) = o at ahead
      cases ahead with
      | read member => exact .read (by simp [List.ne_nil_of_mem member]) here
      | miss missed => exact .miss (by simp [missed])
      | stuck failed => exact .miss (by simp [failed])
    | never r =>
      obtain ⟨p', inside, rfl⟩ := Option.map_eq_some_iff.mp found
      have ahead := part inside blind here
      rw [List.map_nil] at ahead
      rw [Grammar.run]
      generalize g.run fuel r [] (.of (text cs)) = o at ahead
      cases ahead with
      | read member => exact .miss (by simp [List.ne_nil_of_mem member])
      | miss missed => exact .read (by simp [missed]) here
      | stuck failed => exact .read (by simp [failed]) here
    | symbol x => exact part found (right.blind x) here
    | node k r =>
      obtain ⟨p', inside, rfl⟩ := Option.map_eq_some_iff.mp found
      have read := part inside blind here
      rw [List.map_nil] at read
      rw [Grammar.run]
      generalize g.run fuel r [] (.of (text cs)) = o at read
      cases read with
      | read member known =>
        rw [Outcome.andThen, ← Tree.mapNames_node_reverse]
        refine .read_cons ?_ known
        exact List.mem_map.mpr ⟨_, member, rfl⟩
      | miss missed => exact .miss missed
      | stuck failed => exact .stuck failed
    | extend fit k r =>
      cases trees with
      | nil =>
        cases found
        exact .miss rfl
      | cons t trees =>
        obtain ⟨p', inside, found⟩ := Option.bind_eq_some_iff.mp found
        refine .andThen found (part inside blind.2 here) ?_
        intro ts cs p known found
        cases found
        rw [← List.map_reverse, fit_of_shapes blind.1 (Tree.shapes_mapNames f ts.reverse)]
        split
        · rw [List.map_reverse, ← Tree.mapNames_node_reverse]
          exact .read_cons (List.mem_singleton_self _) known
        · exact .miss rfl
    | check fit r =>
      obtain ⟨p', inside, found⟩ := Option.bind_eq_some_iff.mp found
      refine .andThen found (part inside blind.2 here) ?_
      intro ts cs p known found
      cases found
      rw [all_fit_of_shapes blind.1 (Tree.shapes_mapNames f ts), ← List.map_append]
      split
      · exact .read (List.mem_singleton_self _) known
      · exact .miss rfl
    | must r =>
      obtain ⟨p', inside, rfl⟩ := Option.map_eq_some_iff.mp found
      have read := part inside blind here
      rw [Grammar.run]
      generalize g.run fuel r (trees.map (·.mapNames f)) (.of (text cs)) = o at read
      cases read with
      | read member known => exact .read member known
      | miss missed => exact .stuck (by simp [missed])
      | stuck failed => exact .stuck (by simp [failed])

end
end BundleMerge.Script
