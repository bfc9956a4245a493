import BundleMerge.Proofs.Path.Relative
import BundleMerge.Proofs.Path.Resolved

/-! The absolute form of a path. It begins at the root or where relative paths start, and goes on
with the parts of the path, whatever the path has between them. -/
namespace BundleMerge.Path

variable {cwd p q : Path} {parts : List Part} {part : Part}

/-- The parts of a path, joined to another one after the other. -/
def rejoin (start : Path) (parts : List Part) : Path :=
  parts.foldl (fun p part => p.join ⟨part.text⟩) start

/-- Where the absolute form of a path starts. -/
def startOf (cwd p : Path) : Path :=
  if p.text.toList.take 2 = ['/', '/'] && p.text.toList.take 3 ≠ ['/', '/', '/'] then ⟨"//"⟩
  else if p.isAbsolute then ⟨"/"⟩ else cwd

/-- The parts without a leading `.`. -/
def plainParts (p : Path) : List Part :=
  match p.parts with
  | .here :: rest => rest
  | parts => parts

/-- The parts that the absolute form of a path has after its start. -/
def partsAfter (p : Path) : List Part :=
  if p.isAbsolute then p.plainParts.drop 1 else p.plainParts

theorem absolute?_eq : absolute? cwd p = if p.isEmpty then none else
    let plain := rejoin (startOf cwd p) (partsAfter p)
    some (if p.endsInSlash then plain.join ⟨""⟩ else plain) :=
  rfl

theorem absolute?_some (resolved : absolute? cwd p = some q) :
    let plain := rejoin (startOf cwd p) (partsAfter p)
    q = plain ∨ q = plain.join ⟨""⟩ := by
  rw [absolute?_eq] at resolved
  split at resolved
  · cases resolved
  · rw [Option.some.injEq] at resolved
    subst resolved
    split
    · exact .inr rfl
    · exact .inl rfl

theorem startOf_cases : startOf cwd p = ⟨"//"⟩ ∨ startOf cwd p = ⟨"/"⟩ ∨ startOf cwd p = cwd := by
  unfold startOf
  split
  · exact .inl rfl
  · split
    · exact .inr (.inl rfl)
    · exact .inr (.inr rfl)

theorem startOf_absolute (base : cwd.isAbsolute = true) : (startOf cwd p).isAbsolute = true := by
  rcases @startOf_cases cwd p with start | start | start
  · rw [start]
    rfl
  · rw [start]
    rfl
  · rwa [start]

theorem partsAfter_subset : partsAfter p ⊆ p.parts := by
  have plain : p.plainParts ⊆ p.parts := by
    unfold plainParts
    split
    · rename_i split
      rw [split]
      exact List.subset_cons_self ..
    · exact List.Subset.refl _
  unfold partsAfter
  split
  · exact fun part member => plain (List.mem_of_mem_drop member)
  · exact plain

theorem rejoin_absolute (absolute : p.isAbsolute = true) : (rejoin p parts).isAbsolute = true := by
  induction parts generalizing p with
  | nil => exact absolute
  | cons part parts ih => exact ih (absolute_join _ absolute)

theorem absolute?_absolute (base : cwd.isAbsolute = true) (resolved : absolute? cwd p = some q) :
    q.isAbsolute = true := by
  have plain : (rejoin (startOf cwd p) (partsAfter p)).isAbsolute = true :=
    rejoin_absolute (startOf_absolute base)
  rcases absolute?_some resolved with rfl | rfl
  · exact plain
  · exact absolute_join _ plain

theorem join_part_straight (absolute : p.isAbsolute = true)
    (ordinary : ∀ s, part = .name s → Ordinary s) (other : part ≠ .up)
    (base : Part.up ∉ p.parts) : Part.up ∉ (p.join ⟨part.text⟩).parts := by
  cases part with
  | up => exact absurd rfl other
  | root =>
    change Part.up ∉ (⟨"/"⟩ : Path).parts
    decide
  | here =>
    rw [parts_join (nonempty_of_absolute absolute) rfl]
    simpa [Part.text, pieces, body, silent] using base
  | name s =>
    change Part.up ∉ (p.join ⟨s⟩).parts
    rw [parts_join_name (ordinary s rfl)]
    simpa using base

/-- No `..` comes in where parts without it are joined. -/
theorem rejoin_straight (absolute : p.isAbsolute = true)
    (ordinary : ∀ s, Part.name s ∈ parts → Ordinary s) (straight : Part.up ∉ parts)
    (base : Part.up ∉ p.parts) : Part.up ∉ (rejoin p parts).parts := by
  induction parts generalizing p with
  | nil => exact base
  | cons part parts ih =>
    have first : Part.up ∉ (p.join ⟨part.text⟩).parts :=
      join_part_straight absolute (fun s here => ordinary s (here ▸ List.mem_cons_self ..))
        (fun here => straight (here ▸ List.mem_cons_self ..)) base
    refine ih (absolute_join _ absolute) ?_ ?_ first
    · exact fun s member => ordinary s (List.mem_cons_of_mem _ member)
    · exact fun up => straight (List.mem_cons_of_mem _ up)

theorem absolute?_straight (base : cwd.isAbsolute = true) (from_ : Part.up ∉ cwd.parts)
    (straight : Part.up ∉ p.parts) (resolved : absolute? cwd p = some q) : Part.up ∉ q.parts := by
  have absolute : (startOf cwd p).isAbsolute = true := startOf_absolute base
  have top : Part.up ∉ (startOf cwd p).parts := by
    rcases @startOf_cases cwd p with start | start | start
    · rw [start]
      decide
    · rw [start]
      decide
    · rwa [start]
  have joined : Part.up ∉ (rejoin (startOf cwd p) (partsAfter p)).parts :=
    rejoin_straight absolute (fun s member => ordinary_of_mem_parts p (partsAfter_subset member))
      (fun up => straight (partsAfter_subset up)) top
  rcases absolute?_some resolved with rfl | rfl
  · exact joined
  · rw [parts_join (nonempty_of_absolute (rejoin_absolute absolute)) rfl]
    simpa [pieces, body, silent] using joined

/-! ### The parts of the absolute form -/

/-- What may stand anywhere in a path: `..` and ordinary names. -/
def Follows (part : Part) : Prop := part = .up ∨ ∃ s, Ordinary s ∧ part = .name s

theorem follows_of_mem_body {cs : List Char} (member : part ∈ body (pieces cs)) : Follows part :=
  name_of_mem_body (fun _ => single_of_mem_pieces) member

theorem parts_join_part (absolute : p.isAbsolute = true) (follows : Follows part) :
    (p.join ⟨part.text⟩).parts = p.parts ++ [part] := by
  obtain rfl | ⟨s, ordinary, rfl⟩ := follows
  · exact parts_join (nonempty_of_absolute absolute) rfl
  · exact parts_join_name ordinary

theorem parts_rejoin (absolute : p.isAbsolute = true) (follow : ∀ part ∈ parts, Follows part) :
    (rejoin p parts).parts = p.parts ++ parts := by
  induction parts generalizing p with
  | nil => exact (List.append_nil _).symm
  | cons part parts ih =>
    obtain ⟨first, rest⟩ := List.forall_mem_cons.mp follow
    have next : (rejoin (p.join ⟨part.text⟩) parts).parts = (p.join ⟨part.text⟩).parts ++ parts :=
      ih (absolute_join _ absolute) rest
    rw [rejoin, List.foldl_cons, ← rejoin, next, parts_join_part absolute first,
      List.append_assoc, List.singleton_append]

theorem parts_join_nothing (absolute : p.isAbsolute = true) : (p.join ⟨""⟩).parts = p.parts := by
  rw [parts_join (nonempty_of_absolute absolute) rfl]
  exact List.append_nil _

theorem here_not_mem_body {cs : List Char} : Part.here ∉ body (pieces cs) := by
  intro here
  obtain up | ⟨s, -, name⟩ := follows_of_mem_body here <;> contradiction

theorem plainParts_of_not_mem (absent : Part.here ∉ p.parts) : p.plainParts = p.parts := by
  unfold plainParts
  split
  · rename_i split
    exact absurd (split ▸ List.mem_cons_self ..) absent
  · rfl

/-- A leading `.` is all that a relative path can have before the parts of its stretches. -/
theorem plainParts_relative (nonempty : p.text.toList ≠ []) (relative : p.isAbsolute = false) :
    p.plainParts = body (pieces p.text.toList) := by
  obtain ⟨piece, rest, split⟩ := List.exists_cons_of_ne_nil (pieces_ne_nil p.text.toList)
  have begins : piece ≠ [] := by
    rintro rfl
    obtain ⟨tail, text, -⟩ := pieces_head_nil split nonempty
    rw [isAbsolute_iff.mpr ⟨tail, text⟩] at relative
    cases relative
  by_cases here : piece = ['.']
  · subst here
    have parts : p.parts = .here :: body rest := by simp only [Path.parts, partsOf, split]
    rw [split, body_cons_silent rfl, plainParts, parts]
  · have parts : p.parts = body (pieces p.text.toList) := by
      rw [Path.parts, partsOf, split]
      split <;> simp_all
    rw [plainParts_of_not_mem (parts ▸ here_not_mem_body), parts]

theorem partsAfter_absolute (absolute : p.isAbsolute = true) :
    p.parts = .root :: p.partsAfter ∧ ∀ part ∈ p.partsAfter, Follows part := by
  obtain ⟨tail, text⟩ := isAbsolute_iff.mp absolute
  have rooted : p.parts = .root :: body (pieces tail) := by rw [Path.parts, text, partsOf_slash]
  have after : p.partsAfter = body (pieces tail) := by
    rw [partsAfter, if_pos absolute, plainParts_of_not_mem (here_not_mem_parts absolute), rooted]
    rfl
  rw [after]
  exact ⟨rooted, fun _ => follows_of_mem_body⟩

theorem partsAfter_relative (nonempty : p.text.toList ≠ []) (relative : p.isAbsolute = false) :
    p.partsAfter = body (pieces p.text.toList) := by
  rw [partsAfter, if_neg (by simp [relative]), plainParts_relative nonempty relative]

theorem startOf_relative (relative : p.isAbsolute = false) : startOf cwd p = cwd := by
  have single : p.text.toList.take 2 ≠ ['/', '/'] := by
    intro doubled
    have absolute : p.isAbsolute = true := by
      refine isAbsolute_iff.mpr ⟨'/' :: p.text.toList.drop 2, ?_⟩
      conv_lhs => rw [← List.take_append_drop 2 p.text.toList, doubled]
      rfl
    rw [relative] at absolute
    cases absolute
  simp [startOf, single, relative]

theorem parts_startOf_absolute (absolute : p.isAbsolute = true) :
    (startOf cwd p).parts = [.root] := by
  unfold startOf
  rw [if_pos absolute]
  split <;> rfl

theorem absolute?_isSome (cwd : Path) (nonempty : p.isEmpty = false) : ∃ q, absolute? cwd p = some q := by
  rw [absolute?_eq, nonempty]
  exact ⟨_, rfl⟩

theorem isEmpty_of_absolute? (resolved : absolute? cwd p = some q) : p.isEmpty = false := by
  rw [absolute?_eq] at resolved
  split at resolved
  · cases resolved
  · exact eq_false_of_ne_true ‹_›

/-- The absolute form of a path has the parts of the path, after those of the working directory if
the path is relative. -/
theorem parts_absolute? (base : cwd.isAbsolute = true) (resolved : absolute? cwd p = some q) :
    q.parts = if p.isAbsolute then p.parts else cwd.parts ++ body (pieces p.text.toList) := by
  have nonempty : p.text.toList ≠ [] := isEmpty_eq_false_iff.mp (isEmpty_of_absolute? resolved)
  have start : (startOf cwd p).isAbsolute = true := startOf_absolute base
  have same : q.parts = (rejoin (startOf cwd p) p.partsAfter).parts := by
    rcases absolute?_some resolved with rfl | rfl
    · rfl
    · exact parts_join_nothing (rejoin_absolute start)
  cases absolute : p.isAbsolute with
  | true =>
    obtain ⟨rooted, follow⟩ := partsAfter_absolute absolute
    rw [same, parts_rejoin start follow, parts_startOf_absolute absolute, if_pos rfl, rooted]
    rfl
  | false =>
    have after := partsAfter_relative nonempty absolute
    have follow : ∀ part ∈ p.partsAfter, Follows part := after ▸ fun _ => follows_of_mem_body
    rw [same, parts_rejoin start follow, startOf_relative absolute, after]
    simp

theorem parts_join_absolute? (base : cwd.isAbsolute = true) (resolved : absolute? cwd p = some q) :
    (cwd.join p).parts = q.parts := by
  rw [parts_absolute? base resolved]
  cases seen : p.isAbsolute with
  | true => rw [join, if_pos seen, if_pos rfl]
  | false =>
    rw [parts_join (nonempty_of_absolute base) seen]
    rfl

/-- A path and its spelling from the directory where relative paths start have absolute forms with
the same parts. -/
theorem absolute?_join (base : cwd.isAbsolute = true) (resolved : absolute? cwd p = some q) :
    ∃ q', absolute? cwd (cwd.join p) = some q' ∧ q'.parts = q.parts := by
  have absolute : (cwd.join p).isAbsolute = true := absolute_join p base
  obtain ⟨q', again⟩ := absolute?_isSome cwd <|
    isEmpty_eq_false_iff.mpr (nonempty_of_absolute absolute)
  refine ⟨q', again, ?_⟩
  rw [parts_absolute? base again, if_pos absolute, parts_join_absolute? base resolved]

end BundleMerge.Path
