import Mathlib.Data.List.Induction
import BundleMerge.Proofs.Path.Parts

/-! Where paths lead that may hold `..`. A path from the root is resolved part by part, and `..`
takes back the name before it. What parts amount to, seen from any place, is a number of levels
up followed by names down: they leave a place exactly if they climb above it and do not name
again what they have climbed. -/
namespace BundleMerge.Path

variable {p q : Path} {a b base place names : List String} {parts rest : List Part}
  {part : Part} {s : String}

/-- One part further from a place. There is nothing above the root. -/
def enter (place : List String) : Part → List String
  | .root => []
  | .here => place
  | .up => place.dropLast
  | .name s => place ++ [s]

/-- The place that parts lead to from another one. -/
def resolve (place : List String) (parts : List Part) : List String :=
  parts.foldl enter place

/-- The place that a path from the root leads to. -/
def resolved (p : Path) : List String := resolve [] p.parts

/-- The place that a path leads to where relative paths start at another place. -/
def seenFrom (base : List String) (p : Path) : List String := resolve base p.parts

/-- The path leads to a place in the tree at the other path. -/
def Inside (p base : Path) : Prop := base.resolved <+: p.resolved

instance : Decidable (p.Inside q) := inferInstanceAs (Decidable (_ <+: _))

theorem resolve_append (place : List String) (parts rest : List Part) :
    resolve place (parts ++ rest) = resolve (resolve place parts) rest :=
  List.foldl_append

theorem resolve_snoc (place : List String) (parts : List Part) (part : Part) :
    resolve place (parts ++ [part]) = enter (resolve place parts) part := by
  rw [resolve_append]
  rfl

theorem resolve_names (place names : List String) :
    resolve place (names.map .name) = place ++ names := by
  induction names generalizing place with
  | nil => simp [resolve]
  | cons s names ih =>
    rw [List.map_cons, resolve, List.foldl_cons, ← resolve, ih, enter, List.append_assoc,
      List.singleton_append]

theorem LeadsTo.resolved (leads : p.LeadsTo a) : p.resolved = a := by
  rw [Path.resolved, leads, resolve, List.foldl_cons, ← resolve, resolve_names]
  rfl

/-! ### The parts of any path -/

theorem ordinary_of_mem_body {ps : List (List Char)} (single : ∀ piece ∈ ps, '/' ∉ piece)
    (member : Part.name s ∈ body ps) : Ordinary s := by
  obtain up | ⟨t, ordinary, same⟩ := name_of_mem_body single member
  · cases up
  · cases same
    exact ordinary

/-- Whatever a path is, the names on it are ordinary. -/
theorem ordinary_of_mem_parts (p : Path) (member : Part.name s ∈ p.parts) : Ordinary s := by
  have single : ∀ piece ∈ pieces p.text.toList, '/' ∉ piece := fun _ => single_of_mem_pieces
  have tail : ∀ {first rest}, pieces p.text.toList = first :: rest → Part.name s ∈ body rest →
      Ordinary s := by
    intro first rest split inside
    rw [split] at single
    exact ordinary_of_mem_body (List.forall_mem_cons.mp single).2 inside
  unfold Path.parts partsOf at member
  split at member
  · rename_i split
    split at member
    · cases member
    · rcases List.mem_cons.mp member with root | inside
      · cases root
      · exact tail split inside
  · rename_i split
    rcases List.mem_cons.mp member with here | inside
    · cases here
    · exact tail split inside
  · exact ordinary_of_mem_body single member

theorem root_not_mem_body {ps : List (List Char)} : Part.root ∉ body ps := by
  intro member
  simp only [body, List.mem_map, partOf] at member
  obtain ⟨piece, -, root⟩ := member
  split at root <;> cases root

/-- Only at its beginning does a path go to the root. -/
theorem root_not_mem_tail (split : p.parts = part :: rest) : Part.root ∉ rest := by
  unfold Path.parts partsOf at split
  split at split
  · split at split
    · cases split
    · obtain ⟨-, rfl⟩ := List.cons.inj split
      exact root_not_mem_body
  · obtain ⟨-, rfl⟩ := List.cons.inj split
    exact root_not_mem_body
  · intro member
    have whole : Part.root ∈ part :: rest := List.mem_cons_of_mem _ member
    rw [← split] at whole
    exact root_not_mem_body whole

/-- An absolute path begins at the root, and only there. -/
theorem parts_rooted (absolute : p.isAbsolute = true) :
    ∃ rest, p.parts = .root :: rest ∧ Part.root ∉ rest := by
  obtain ⟨tail, text⟩ := isAbsolute_iff.mp absolute
  exact ⟨body (pieces tail), by rw [parts, text, partsOf_slash], root_not_mem_body⟩

/-- A path whose parts go on from those of an absolute one is absolute. -/
theorem absolute_of_goesOn (absolute : p.isAbsolute = true) (goesOn : q.parts = p.parts ++ rest) :
    q.isAbsolute = true := by
  obtain ⟨more, begins, -⟩ := parts_rooted absolute
  rw [begins, List.cons_append] at goesOn
  exact absolute_of_root goesOn

theorem here_not_mem_parts (absolute : p.isAbsolute = true) : Part.here ∉ p.parts := by
  obtain ⟨tail, text⟩ := isAbsolute_iff.mp absolute
  rw [parts, text, partsOf_slash, List.mem_cons, not_or]
  refine ⟨Part.noConfusion, fun here => ?_⟩
  rcases name_of_mem_body (fun _ => single_of_mem_pieces) here with up | ⟨s, -, name⟩
  · cases up
  · cases name

/-- Parts that begin at the root, with ordinary names. -/
structure Rooted (parts : List Part) : Prop where
  root : parts.head? = some .root
  ordinary : ∀ s, Part.name s ∈ parts → Ordinary s

theorem rooted (absolute : p.isAbsolute = true) : Rooted p.parts := by
  obtain ⟨rest, split, -⟩ := parts_rooted absolute
  exact ⟨by rw [split, List.head?_cons], fun _ => ordinary_of_mem_parts p⟩

theorem Rooted.ne_nil (rooted : Rooted parts) : parts ≠ [] := by
  rintro rfl
  cases rooted.root

theorem Rooted.front {front : List Part} (rooted : Rooted parts) (inside : front <+: parts)
    (some : front ≠ []) : Rooted front := by
  obtain ⟨part, front, rfl⟩ := List.exists_cons_of_ne_nil some
  obtain ⟨rest, rfl⟩ := inside
  exact ⟨rooted.root, fun s member => rooted.ordinary s (List.mem_append_left _ member)⟩

theorem seenFrom_descend (ordinary : ∀ s ∈ names, Ordinary s) :
    (p.descend names).seenFrom base = p.seenFrom base ++ names := by
  rw [seenFrom, parts_descend ordinary, resolve_append, resolve_names, ← seenFrom]

theorem seenFrom_join_name (ordinary : Ordinary s) :
    (p.join ⟨s⟩).seenFrom base = p.seenFrom base ++ [s] := by
  rw [seenFrom, parts_join_name ordinary, resolve_snoc, ← seenFrom, enter]

theorem resolved_join_name (ordinary : Ordinary s) :
    (p.join ⟨s⟩).resolved = p.resolved ++ [s] :=
  seenFrom_join_name ordinary

/-! ### Climbing -/

/-- What one part adds to levels up and names down. -/
def climbOn : Nat × List String → Part → Nat × List String
  | (up, down), .name s => (up, down ++ [s])
  | (up, down), .up => if down = [] then (up + 1, []) else (up, down.dropLast)
  | way, .here | way, .root => way

/-- How many levels parts lead above where they start, and by which names down again. -/
def climb (parts : List Part) : Nat × List String :=
  parts.foldl climbOn (0, [])

/-- The names of a place that parts climb above are the first that they name on the way down. -/
def Returns (place : List String) (parts : List Part) : Prop :=
  place.drop (place.length - (climb parts).1) <+: (climb parts).2

instance : Decidable (Returns place parts) := inferInstanceAs (Decidable (_ <+: _))

theorem climb_append (parts rest : List Part) :
    climb (parts ++ rest) = rest.foldl climbOn (climb parts) :=
  List.foldl_append

theorem climb_append_names (parts : List Part) (names : List String) :
    climb (parts ++ names.map .name) = ((climb parts).1, (climb parts).2 ++ names) := by
  induction names using List.reverseRecOn with
  | nil => simp
  | append_singleton names s ih =>
    rw [List.map_append, List.map_singleton, ← List.append_assoc, climb_append, ih]
    simp [climbOn]

/-- Parts without `..` do not climb. -/
theorem climb_straight (straight : Part.up ∉ parts) : (climb parts).1 = 0 := by
  induction parts using List.reverseRecOn with
  | nil => rfl
  | append_singleton parts part ih =>
    simp only [List.mem_append, List.mem_singleton, not_or] at straight
    obtain ⟨before, last⟩ := straight
    have low := ih before
    rw [climb_append, List.foldl_cons, List.foldl_nil]
    cases part with
    | up => exact absurd rfl last
    | root | here | name => exact low

/-- Climbing takes the last names of a place away before others are added. -/
theorem resolve_eq (place : List String) (below : Part.root ∉ parts) :
    resolve place parts =
      place.take (place.length - (climb parts).1) ++ (climb parts).2 := by
  induction parts using List.reverseRecOn with
  | nil => simp [resolve, climb]
  | append_singleton parts part ih =>
    simp only [List.mem_append, List.mem_singleton, not_or] at below
    obtain ⟨before, last⟩ := below
    rw [resolve_snoc, ih before, climb_append, List.foldl_cons, List.foldl_nil]
    generalize climb parts = way
    obtain ⟨up, down⟩ := way
    cases part with
    | root => exact absurd rfl last
    | here => rfl
    | name s => simp [enter, climbOn]
    | up =>
      -- `..` takes back a name that was added, and climbs if there is none.
      by_cases level : down = []
      · subst level
        have shorter : (place.take (place.length - up)).dropLast =
            place.take (place.length - (up + 1)) := by
          rw [List.dropLast_eq_take, List.take_take, List.length_take]
          congr 1
          omega
        simpa [enter, climbOn] using shorter
      · simp only [enter, climbOn, level, if_false]
        exact List.dropLast_append_of_ne_nil level

/-- Parts stay in the tree where they start exactly if they come back after each climb. -/
theorem prefix_resolve_iff (below : Part.root ∉ parts) :
    place <+: resolve place parts ↔ Returns place parts := by
  rw [resolve_eq place below, Returns]
  conv_lhs =>
    lhs
    rw [← List.take_append_drop (place.length - (climb parts).1) place]
  exact List.prefix_append_right_inj _

/-- A path that goes on from another one stays inside it exactly if its further parts return. -/
theorem inside_iff (goesOn : p.parts = q.parts ++ rest) (below : Part.root ∉ rest) :
    p.Inside q ↔ Returns q.resolved rest := by
  rw [Inside, resolved, resolved, goesOn, resolve_append]
  exact prefix_resolve_iff below

theorem returns_of_level (level : (climb parts).1 = 0) : Returns place parts := by
  rw [Returns, level, Nat.sub_zero, List.drop_length]
  exact List.nil_prefix

/-! ### Paths seen from a place -/

theorem seenFrom_absolute (absolute : p.isAbsolute = true) : p.seenFrom base = p.resolved := by
  obtain ⟨rest, split, -⟩ := parts_rooted absolute
  rw [seenFrom, resolved, split]
  rfl

theorem LeadsTo.seenFrom (leads : p.LeadsTo a) : p.seenFrom base = a :=
  (seenFrom_absolute leads.absolute).trans leads.resolved

/-- Without `..` a path comes through the places above the one that it leads to. -/
theorem seenFrom_front {front : List Part} (straight : Part.up ∉ p.parts)
    (inside : front <+: p.parts) (some : front ≠ []) : resolve base front <+: p.seenFrom base := by
  obtain ⟨rest, whole⟩ := inside
  obtain ⟨part, front, rfl⟩ := List.exists_cons_of_ne_nil some
  have below : Part.root ∉ rest := fun root =>
    root_not_mem_tail whole.symm (List.mem_append_right _ root)
  have level : Part.up ∉ rest := fun up =>
    straight (whole ▸ List.mem_append_right _ up)
  rw [seenFrom, ← whole, resolve_append, prefix_resolve_iff below]
  exact returns_of_level (climb_straight level)

end BundleMerge.Path
