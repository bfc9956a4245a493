import Mathlib.Data.List.Infix
import BundleMerge.Path

/-! The parts of paths that are put together. A name that is joined to a path becomes its last
part, and the parts of an absolute path without `..` are the names that lead there from the
root. -/
namespace BundleMerge.Path

/-- A name that stands for itself as one component of a path. -/
structure Ordinary (s : String) : Prop where
  nonempty : s ≠ ""
  here : s ≠ "."
  up : s ≠ ".."
  single : '/' ∉ s.toList

instance {s : String} : Decidable (Ordinary s) :=
  decidable_of_iff (s ≠ "" ∧ s ≠ "." ∧ s ≠ ".." ∧ '/' ∉ s.toList)
    ⟨fun ⟨nonempty, here, up, single⟩ => ⟨nonempty, here, up, single⟩,
      fun ordinary => ⟨ordinary.nonempty, ordinary.here, ordinary.up, ordinary.single⟩⟩

/-! ### Stretches -/

theorem pieces_ne_nil (cs : List Char) : pieces cs ≠ [] := by
  cases cs with
  | nil => simp [pieces]
  | cons c cs =>
    simp only [pieces]
    split
    · simp
    · split <;> simp

theorem pieces_append_slash (a b : List Char) : pieces (a ++ '/' :: b) = pieces a ++ pieces b := by
  induction a with
  | nil => simp [pieces]
  | cons c a ih =>
    by_cases slash : c = '/'
    · simp [pieces, slash, ih]
    · obtain ⟨piece, rest, split⟩ := List.exists_cons_of_ne_nil (pieces_ne_nil a)
      simp [pieces, slash, ih, split]

theorem pieces_of_single {cs : List Char} (single : '/' ∉ cs) : pieces cs = [cs] := by
  induction cs with
  | nil => rfl
  | cons c cs ih =>
    simp only [List.mem_cons, not_or] at single
    obtain ⟨first, rest⟩ := single
    simp [pieces, Ne.symm first, ih rest]

theorem single_of_mem_pieces {cs piece : List Char} (member : piece ∈ pieces cs) : '/' ∉ piece := by
  induction cs generalizing piece with
  | nil => simp_all [pieces]
  | cons c cs ih =>
    by_cases slash : c = '/'
    · simp only [pieces, slash, if_true, List.mem_cons] at member
      obtain rfl | member := member
      · simp
      · exact ih member
    · obtain ⟨first, rest, split⟩ := List.exists_cons_of_ne_nil (pieces_ne_nil cs)
      simp only [pieces, slash, if_false, split, List.mem_cons] at member
      obtain rfl | member := member
      · simp only [List.mem_cons, not_or]
        exact ⟨Ne.symm slash, ih (split ▸ List.mem_cons_self ..)⟩
      · exact ih (split ▸ List.mem_cons_of_mem _ member)

theorem pieces_head_nil {cs : List Char} {rest : List (List Char)} (split : pieces cs = [] :: rest)
    (nonempty : cs ≠ []) : ∃ tail, cs = '/' :: tail ∧ rest = pieces tail := by
  obtain ⟨c, tail, rfl⟩ := List.exists_cons_of_ne_nil nonempty
  by_cases slash : c = '/'
  · subst slash
    simp only [pieces, if_true, List.cons.injEq, true_and] at split
    exact ⟨tail, rfl, split.symm⟩
  · obtain ⟨first, more, inner⟩ := List.exists_cons_of_ne_nil (pieces_ne_nil tail)
    simp [pieces, slash, inner] at split

/-! ### Parts -/

@[simp] theorem body_append (ps qs : List (List Char)) : body (ps ++ qs) = body ps ++ body qs := by
  simp [body]

theorem Ordinary.loud {s : String} (ordinary : Ordinary s) : silent s.toList = false := by
  have nonempty : s.toList ≠ [] := fun h => ordinary.nonempty (String.toList_inj.mp h)
  have here : s.toList ≠ ['.'] := fun h => ordinary.here (@String.toList_inj s "." |>.mp h)
  simp [silent, nonempty, here]

theorem body_name {s : String} (ordinary : Ordinary s) : body [s.toList] = [.name s] := by
  have up : s.toList ≠ ['.', '.'] := fun h => ordinary.up (@String.toList_inj s ".." |>.mp h)
  simp [body, ordinary.loud, partOf, up]

theorem name_of_mem_body {ps : List (List Char)} {part : Part} (single : ∀ p ∈ ps, '/' ∉ p)
    (member : part ∈ body ps) : part = .up ∨ ∃ s, Ordinary s ∧ part = .name s := by
  simp only [body, List.mem_map, List.mem_filter] at member
  obtain ⟨piece, ⟨inside, loud⟩, rfl⟩ := member
  by_cases up : piece = ['.', '.']
  · exact .inl (by simp [partOf, up])
  · refine .inr ⟨String.ofList piece, ?_, by simp [partOf, up]⟩
    simp only [silent, Bool.not_eq_true', Bool.or_eq_false_iff, decide_eq_false_iff_not] at loud
    have spelled : ∀ t : String, String.ofList piece = t → piece = t.toList := fun t h => by
      rw [← h, String.toList_ofList]
    exact ⟨fun h => loud.1 (spelled _ h), fun h => loud.2 (spelled _ h), fun h => up (spelled _ h),
      by rw [String.toList_ofList]; exact single piece inside⟩

theorem partsOf_slash (cs : List Char) : partsOf ('/' :: cs) = .root :: body (pieces cs) := by
  simp [partsOf, pieces]

theorem partsOf_append_slash {a : List Char} (b : List Char) (nonempty : a ≠ []) :
    partsOf (a ++ '/' :: b) = partsOf a ++ body (pieces b) := by
  obtain ⟨piece, rest, split⟩ := List.exists_cons_of_ne_nil (pieces_ne_nil a)
  have joined : pieces (a ++ '/' :: b) = piece :: (rest ++ pieces b) := by
    rw [pieces_append_slash, split, List.cons_append]
  have apart : body (piece :: (rest ++ pieces b)) = body (piece :: rest) ++ body (pieces b) := by
    rw [← body_append, List.cons_append]
  unfold partsOf
  rw [split, joined]
  by_cases empty : piece = []
  · simp [empty, nonempty]
  · by_cases here : piece = ['.']
    · simp [here]
    · split <;> simp_all

theorem isEmpty_eq_false_iff {p : Path} : p.isEmpty = false ↔ p.text.toList ≠ [] := by
  simp [isEmpty]

theorem parts_ne_nil {p : Path} (nonempty : p.isEmpty = false) : p.parts ≠ [] := by
  obtain ⟨piece, rest, split⟩ := List.exists_cons_of_ne_nil (pieces_ne_nil p.text.toList)
  have text := isEmpty_eq_false_iff.mp nonempty
  unfold parts partsOf
  rw [split]
  split
  · simp [text]
  · simp
  · next noRoot noHere =>
    have loud : silent piece = false := by
      simp only [silent, Bool.or_eq_false_iff, decide_eq_false_iff_not]
      constructor
      · rintro rfl
        exact noRoot rest rfl
      · rintro rfl
        exact noHere rest rfl
    simp [body, loud]

theorem sameAs_iff {p q : Path} : p.sameAs q = true ↔ p.parts = q.parts :=
  decide_eq_true_iff

/-! ### Joining -/

/-- Between two paths that are joined there is one slash. -/
theorem text_join {p q : Path} (nonempty : p.text.toList ≠ []) (relative : q.isAbsolute = false) :
    ∃ front, (p.join q).text.toList = front ++ '/' :: q.text.toList ∧
      (p.text.toList = front ∨ p.text.toList = front ++ ['/']) := by
  by_cases slash : p.endsInSlash = true
  · have last : p.text.toList.getLast? = some '/' := by simpa [endsInSlash] using slash
    obtain ⟨front, text⟩ := List.getLast?_eq_some_iff.mp last
    exact ⟨front, by simp [join, relative, slash, text], .inr text⟩
  · have empty := isEmpty_eq_false_iff.mpr nonempty
    exact ⟨p.text.toList, by simp [join, relative, slash, empty], .inl rfl⟩

/-- A relative path that is joined to a path adds its parts, without a leading `.`. -/
theorem parts_join {p q : Path} (nonempty : p.text.toList ≠ []) (relative : q.isAbsolute = false) :
    (p.join q).parts = p.parts ++ body (pieces q.text.toList) := by
  obtain ⟨front, joined, text | text⟩ := text_join nonempty relative
  · rw [parts, parts, joined, text, partsOf_append_slash _ (text ▸ nonempty)]
  · rw [parts, parts, joined, text]
    cases front with
    | nil => simp [partsOf_slash, pieces, body, silent]
    | cons c front =>
      rw [partsOf_append_slash _ (by simp), partsOf_append_slash _ (by simp)]
      simp [pieces, body, silent]

theorem isAbsolute_iff {p : Path} : p.isAbsolute = true ↔ ∃ tail, p.text.toList = '/' :: tail := by
  rw [isAbsolute, decide_eq_true_iff, List.head?_eq_some_iff]

theorem absolute_of_root {p : Path} {rest : List Part} (root : p.parts = .root :: rest) :
    p.isAbsolute = true := by
  obtain ⟨piece, more, split⟩ := List.exists_cons_of_ne_nil (pieces_ne_nil p.text.toList)
  have outside : ∀ ps, body ps ≠ .root :: rest := fun ps same => by
    have member : Part.root ∈ body ps := same ▸ List.mem_cons_self ..
    simp only [body, List.mem_map, partOf] at member
    obtain ⟨piece, -, root⟩ := member
    split at root <;> cases root
  unfold parts partsOf at root
  rw [split] at root
  split at root
  · rename_i text
    split at root
    · cases root
    · rename_i nonempty
      obtain ⟨rfl, -⟩ := List.cons.inj text
      obtain ⟨tail, text, -⟩ := pieces_head_nil split nonempty
      exact isAbsolute_iff.mpr ⟨tail, text⟩
  · cases root
  · exact absurd root (outside _)

theorem Ordinary.relative {s : String} (ordinary : Ordinary s) :
    (⟨s⟩ : Path).isAbsolute = false := by
  rw [← Bool.not_eq_true, isAbsolute_iff]
  rintro ⟨tail, text⟩
  exact ordinary.single (by simp only at text; simp [text])

theorem absolute_join {p : Path} (q : Path) (absolute : p.isAbsolute = true) :
    (p.join q).isAbsolute = true := by
  obtain ⟨tail, text⟩ := isAbsolute_iff.mp absolute
  unfold join
  split
  · assumption
  · split <;> simp [isAbsolute, text]

theorem nonempty_of_absolute {p : Path} (absolute : p.isAbsolute = true) : p.text.toList ≠ [] := by
  obtain ⟨tail, text⟩ := isAbsolute_iff.mp absolute
  simp [text]

theorem Ordinary.parts {s : String} (ordinary : Ordinary s) : (⟨s⟩ : Path).parts = [.name s] := by
  have single : pieces s.toList = [s.toList] := pieces_of_single ordinary.single
  have loud := ordinary.loud
  rw [Path.parts, partsOf, single]
  split
  · simp_all [silent]
  · simp_all [silent]
  · exact body_name ordinary

/-- A name that is joined to a path is its last part. -/
theorem parts_join_name {p : Path} {s : String} (ordinary : Ordinary s) :
    (p.join ⟨s⟩).parts = p.parts ++ [.name s] := by
  by_cases empty : p.text.toList = []
  · obtain rfl : p = ⟨""⟩ := congrArg Path.mk (String.toList_inj.mp empty)
    have joined : (⟨""⟩ : Path).join ⟨s⟩ = ⟨s⟩ := by simp [join, isEmpty, ordinary.relative]
    rw [joined, ordinary.parts]
    rfl
  · have single : pieces s.toList = [s.toList] := pieces_of_single ordinary.single
    rw [parts_join empty ordinary.relative, single, body_name ordinary]

theorem parts_descend {p : Path} {names : List String} (ordinary : ∀ s ∈ names, Ordinary s) :
    (p.descend names).parts = p.parts ++ names.map .name := by
  induction names generalizing p with
  | nil => simp [descend]
  | cons s names ih =>
    obtain ⟨first, rest⟩ := List.forall_mem_cons.mp ordinary
    rw [descend, List.foldl_cons, ← descend, ih rest, parts_join_name first]
    simp

/-! ### Places -/

/-- The path leads to a place: by these names, from the root. -/
def LeadsTo (p : Path) (place : List String) : Prop :=
  p.parts = .root :: place.map .name

/-- The names on a path. -/
def names (p : Path) : List String :=
  p.parts.filterMap fun
    | .name s => some s
    | _ => none

variable {p q : Path} {a b : List String}

theorem LeadsTo.names_eq (leads : p.LeadsTo a) : p.names = a := by
  rw [names, leads, List.filterMap_cons_none rfl, List.filterMap_map]
  exact List.filterMap_some

theorem LeadsTo.unique (leads : p.LeadsTo a) (leads' : p.LeadsTo b) : a = b :=
  leads.names_eq.symm.trans leads'.names_eq

theorem LeadsTo.absolute (leads : p.LeadsTo a) : p.isAbsolute = true :=
  absolute_of_root leads

theorem exists_names {parts : List Part} (each : ∀ part ∈ parts, ∃ s, part = .name s) :
    ∃ names : List String, parts = names.map .name := by
  induction parts with
  | nil => exact ⟨[], rfl⟩
  | cons part parts ih =>
    obtain ⟨⟨s, rfl⟩, rest⟩ := List.forall_mem_cons.mp each
    obtain ⟨names, rfl⟩ := ih rest
    exact ⟨s :: names, rfl⟩

/-- An absolute path without `..` leads to the place that its names spell. -/
theorem leadsTo_names (absolute : p.isAbsolute = true) (straight : Part.up ∉ p.parts) :
    p.LeadsTo p.names ∧ ∀ s ∈ p.names, Ordinary s := by
  obtain ⟨tail, text⟩ := isAbsolute_iff.mp absolute
  have spelled : p.parts = .root :: body (pieces tail) := by rw [parts, text, partsOf_slash]
  have named : ∀ part ∈ body (pieces tail), ∃ s, Ordinary s ∧ part = .name s := by
    intro part member
    obtain rfl | named := name_of_mem_body (fun _ => single_of_mem_pieces) member
    · exact absurd (spelled ▸ List.mem_cons_of_mem _ member) straight
    · exact named
  obtain ⟨names, parts⟩ := exists_names fun part member =>
    (named part member).imp fun _ => And.right
  have leads : p.LeadsTo names := by rw [LeadsTo, spelled, parts]
  rw [leads.names_eq]
  refine ⟨leads, fun s member => ?_⟩
  obtain ⟨t, ordinary, same⟩ := named (.name s) (parts ▸ List.mem_map_of_mem member)
  cases same
  exact ordinary

theorem LeadsTo.straight (leads : p.LeadsTo a) : Part.up ∉ p.parts := by
  unfold LeadsTo at leads
  simp [leads]

theorem LeadsTo.ordinary (leads : p.LeadsTo a) : ∀ s ∈ a, Ordinary s := by
  rw [← leads.names_eq]
  exact (leadsTo_names leads.absolute leads.straight).2

theorem LeadsTo.join {s : String} (leads : p.LeadsTo a) (ordinary : Ordinary s) :
    (p.join ⟨s⟩).LeadsTo (a ++ [s]) := by
  rw [LeadsTo, parts_join_name ordinary, leads]
  simp

theorem LeadsTo.descend {names : List String} (leads : p.LeadsTo a)
    (ordinary : ∀ s ∈ names, Ordinary s) : (p.descend names).LeadsTo (a ++ names) := by
  rw [LeadsTo, parts_descend ordinary, leads]
  simp

theorem descend_append (p : Path) (names more : List String) :
    p.descend (names ++ more) = (p.descend names).descend more :=
  List.foldl_append

theorem startsWith_iff (leads : p.LeadsTo a) (base : q.LeadsTo b) :
    p.startsWith q = true ↔ b <+: a := by
  have injective : Function.Injective Part.name := fun _ _ same => Part.name.inj same
  rw [startsWith, List.isPrefixOf_iff_prefix, leads, base, List.cons_prefix_cons,
    List.prefix_map_iff_of_injective injective]
  simp

end BundleMerge.Path
