import Mathlib.Data.List.Nodup
import BundleMerge.Disk.Copy
import BundleMerge.Proofs.Disk.Tree

/-! What there is to be copied. A walk lists exactly what is in a tree, and of that an exclusion
leaves what no excluded path leads to. -/
namespace BundleMerge.Disk

variable {d d' : Disk} {src dest : Path} {source place : Place} {exclude : Exclusion}
  {names : List String} {n : Node} {entries : List (List String × Node)}

/-! ### The entries of a walk -/

/-- What a walk from a place lists for a node: nothing, unless the node lies below. -/
def entryBelow (place : Place) (entry : Place × Node) : Option (List String × Node) :=
  if place.isPrefixOf entry.1 && entry.1 ≠ place then some (entry.1.drop place.length, entry.2)
  else none

theorem entryBelow_eq_some {q : Place} {m : Node} :
    entryBelow place (q, m) = some (names, n) ↔ names ≠ [] ∧ q = place ++ names ∧ m = n := by
  unfold entryBelow
  constructor
  · intro found
    split at found
    · rename_i inside
      simp only [Bool.and_eq_true, List.isPrefixOf_iff_prefix, decide_eq_true_eq] at inside
      obtain ⟨⟨rest, rfl⟩, proper⟩ := inside
      cases found
      rw [List.drop_left]
      refine ⟨?_, rfl, rfl⟩
      rintro rfl
      exact proper (List.append_nil _)
    · cases found
  · rintro ⟨proper, rfl, rfl⟩
    simp [List.isPrefixOf_iff_prefix, proper]

theorem walk_eq (there : d.node? place = some n) :
    d.walk place = ([], n) :: d.nodes.toList.filterMap (entryBelow place) := by
  rw [walk, there]
  rfl

theorem mem_walk_iff : (names, n) ∈ d.walk place ↔
    (d.node? place).isSome ∧ d.node? (place ++ names) = some n := by
  cases there : d.node? place with
  | none => simp [walk, there]
  | some top =>
    simp only [walk_eq there, List.mem_cons, Prod.mk.injEq, List.mem_filterMap, Prod.exists,
      entryBelow_eq_some, Std.TreeMap.mem_toList_iff_getElem?_eq_some, Option.isSome_some, true_and]
    constructor
    · rintro (⟨rfl, rfl⟩ | ⟨q, m, listed, proper, rfl, rfl⟩)
      · rwa [List.append_nil]
      · rwa [node?, if_neg (by simp [proper])]
    · intro below
      by_cases here : names = []
      · subst here
        rw [List.append_nil, there] at below
        exact .inl ⟨rfl, (Option.some.inj below).symm⟩
      · rw [node?, if_neg (by simp [here])] at below
        exact .inr ⟨_, _, below, here, rfl, rfl⟩

theorem mem_walk (tree : d.WellFormed) :
    (names, n) ∈ d.walk place ↔ d.node? (place ++ names) = some n := by
  rw [mem_walk_iff]
  refine and_iff_right_of_imp fun there => ?_
  by_cases here : names = []
  · rw [here, List.append_nil] at there
    exact Option.isSome_of_eq_some there
  · exact Option.isSome_of_eq_some (tree.above there here)

/-! ### The order of a walk -/

/-- Entries that come one after another in the order of their names. -/
def Sorted (entries : List (List String × Node)) : Prop :=
  entries.Pairwise fun a b => compare a.1 b.1 = .lt

theorem compare_append (above names names' : List String) :
    compare (above ++ names) (above ++ names') = compare names names' := by
  induction above with
  | nil => rfl
  | cons s above ih =>
    have self : compare s s = .eq := Std.ReflCmp.compare_self
    rw [List.cons_append, List.cons_append, List.compare_cons_cons, ih, self]
    rfl

theorem walk_sorted (d : Disk) (place : Place) : Sorted (d.walk place) := by
  cases there : d.node? place with
  | none =>
    rw [walk, there]
    exact .nil
  | some top =>
    rw [walk_eq there]
    refine List.pairwise_cons.mpr ⟨?_, ?_⟩
    · rintro ⟨names, n⟩ member
      obtain ⟨⟨q, m⟩, -, found⟩ := List.mem_filterMap.mp member
      obtain ⟨proper, -, -⟩ := entryBelow_eq_some.mp found
      cases names with
      | nil => exact absurd rfl proper
      | cons name names => rfl
    · refine List.Pairwise.filterMap _ ?_ Std.TreeMap.ordered_keys_toList
      rintro ⟨q, m⟩ ⟨q', m'⟩ less ⟨names, n⟩ found ⟨names', n'⟩ found'
      obtain ⟨-, rfl, rfl⟩ := entryBelow_eq_some.mp found
      obtain ⟨-, rfl, rfl⟩ := entryBelow_eq_some.mp found'
      exact (compare_append place names names').symm.trans less

theorem Sorted.nodup_names (sorted : Sorted entries) : (entries.map (·.1)).Nodup :=
  List.pairwise_map.mpr (sorted.imp fun less equal => by simp [equal] at less)

/-- Sorted lists with the same entries are equal. -/
theorem Sorted.eq {entries' : List (List String × Node)} (sorted : Sorted entries)
    (sorted' : Sorted entries') (same : ∀ entry, entry ∈ entries ↔ entry ∈ entries') :
    entries = entries' := by
  have distinct := List.Nodup.of_map _ sorted.nodup_names
  have distinct' := List.Nodup.of_map _ sorted'.nodup_names
  refine List.Perm.eq_of_pairwise (fun a b _ _ less more => ?_) sorted sorted'
    ((List.perm_ext_iff_of_nodup distinct distinct').mpr same)
  exact absurd more (Std.OrientedCmp.not_lt_of_lt less)

/-- Disks that agree at a place and below it are walked alike from there. -/
theorem walk_congr (same : ∀ names, d'.node? (place ++ names) = d.node? (place ++ names)) :
    d'.walk place = d.walk place := by
  have here := same []
  rw [List.append_nil] at here
  refine (walk_sorted d' place).eq (walk_sorted d place) fun ⟨names, n⟩ => ?_
  rw [mem_walk_iff, mem_walk_iff, here, same]

/-! ### What is left out -/

/-- An entry is left out exactly if a path on the way to it is excluded. -/
theorem cutOff_eq_false_iff : cutOff exclude src dest names = false ↔
    ∀ front, front <+: names → exclude (src.descend front) (dest.descend front) = false := by
  induction names generalizing src dest with
  | nil => simp [cutOff, Path.descend]
  | cons name names ih =>
    rw [cutOff, Bool.or_eq_false_iff, ih]
    constructor
    · rintro ⟨top, below⟩ front inside
      cases front with
      | nil => exact top
      | cons first front =>
        obtain ⟨rfl, deeper⟩ := List.cons_prefix_cons.mp inside
        exact below front deeper
    · intro clear
      refine ⟨clear [] List.nil_prefix, fun front inside => ?_⟩
      exact clear (name :: front) (List.cons_prefix_cons.mpr ⟨rfl, inside⟩)

theorem cutOff_of_excluded (top : exclude src dest = true) (names : List String) :
    cutOff exclude src dest names = true := by
  cases names <;> simp [cutOff, top]

theorem mem_entriesToCopy (tree : d.WellFormed)
    (listed : d.entriesToCopy exclude src dest = .ok entries) :
    (names, n) ∈ entries ↔
      d.node? (src.seenFrom d.cwd ++ names) = some n ∧ cutOff exclude src dest names = false := by
  unfold entriesToCopy at listed
  split at listed
  · cases listed
  · cases listed
  · rename_i located
    cases listed
    rw [← locate_place located]
    simp [mem_walk tree]

/-- The names that lead to the entries of a list are ordinary. -/
def OrdinaryEntries (entries : List (List String × Node)) : Prop :=
  ∀ entry ∈ entries, ∀ name ∈ entry.1, Path.Ordinary name

theorem entriesToCopy_ordinary (tree : d.WellFormed)
    (listed : d.entriesToCopy exclude src dest = .ok entries) : OrdinaryEntries entries := by
  rintro ⟨names, n⟩ member name inside
  have there := ((mem_entriesToCopy tree listed).mp member).1
  exact tree.names there name (List.mem_append_right _ inside)

/-! ### The files that are copied -/

/-- The files that a copy makes, each with where it comes from and where it goes. -/
def copies (d : Disk) (exclude : Exclusion) (src dest : Path) : List (Path × Path) :=
  match d.entriesToCopy exclude src dest with
  | .error _ => []
  | .ok entries =>
    (entries.filter (·.2 ≠ .dir)).map fun entry => (src.descend entry.1, dest.descend entry.1)

theorem entriesToCopy_ok_iff : (∃ entries, d.entriesToCopy exclude src dest = .ok entries) ↔
    d.existsAt src = true := by
  unfold entriesToCopy existsAt
  cases located : d.locate src with
  | error e => simp [stat, located, Except.isOk, Except.toBool]
  | ok place => cases d.stat src <;> simp [Except.isOk, Except.toBool]

theorem entriesToCopy_of_present (absolute : src.isAbsolute = true)
    (present : d.existsAt src = true) :
    d.entriesToCopy exclude src dest =
      .ok ((d.walk src.resolved).filter (!cutOff exclude src dest ·.1)) := by
  obtain ⟨entries, listed⟩ := entriesToCopy_ok_iff.mpr present
  rw [listed]
  unfold entriesToCopy at listed
  split at listed
  · cases listed
  · cases listed
  · rename_i located
    obtain ⟨-, rfl, -⟩ := (locate_ok_iff absolute).mp located
    exact listed.symm

/-- A path that a file lies at or below is there, if its text can be looked up. -/
theorem existsAt_iff_of_file {bytes : ByteArray} (tree : d.WellFormed) (leads : src.LeadsTo source)
    (file : d.fileAt (source ++ names) = some bytes) :
    d.existsAt src = true ↔ src.NulFree ∧ (src.namesDirectory = true → names ≠ []) := by
  simp only [existsAt_iff, stat_ok_iff tree leads]
  have there := fileAt_eq_some_iff.mp file
  by_cases here : names = []
  · subst here
    rw [List.append_nil] at there
    simp [there]
  · simp [tree.above there here, here]

/-- The files among what is to be copied. -/
def filesToCopy (d : Disk) (exclude : Exclusion) (src dest : Path) : List (List String × Node) :=
  match d.entriesToCopy exclude src dest with
  | .error _ => []
  | .ok entries => entries.filter (·.2 ≠ .dir)

theorem copies_eq : d.copies exclude src dest =
    (d.filesToCopy exclude src dest).map fun entry =>
      (src.descend entry.1, dest.descend entry.1) := by
  unfold copies filesToCopy
  cases d.entriesToCopy exclude src dest <;> rfl

theorem filesToCopy_sorted : Sorted (d.filesToCopy exclude src dest) := by
  unfold filesToCopy entriesToCopy
  split
  · exact .nil
  · rename_i listed
    split at listed
    · cases listed
    · cases listed
    · cases listed
      exact ((walk_sorted ..).filter _).filter _

theorem mem_filesToCopy (tree : d.WellFormed) (absolute : src.isAbsolute = true) :
    (names, n) ∈ d.filesToCopy exclude src dest ↔ d.existsAt src = true ∧
      cutOff exclude src dest names = false ∧
        ∃ bytes, n = .file bytes ∧ d.fileAt (src.resolved ++ names) = some bytes := by
  have listing : (∃ entries, d.entriesToCopy exclude src dest = .ok entries) ↔
      d.existsAt src = true := entriesToCopy_ok_iff
  rw [← listing]
  unfold filesToCopy
  cases listed : d.entriesToCopy exclude src dest with
  | error e => simp
  | ok entries =>
    have inside := @mem_entriesToCopy d src dest exclude names n entries tree listed
    rw [Path.seenFrom_absolute absolute] at inside
    simp only [List.mem_filter, inside, decide_eq_true_eq, Except.ok.injEq, exists_eq', true_and,
      fileAt_eq_some_iff]
    cases n with
    | dir => simp
    | file bytes => simp [and_comm]

/-- Disks with the same files at a path and below it have the same copies of it. -/
theorem copies_congr (tree : d.WellFormed) (tree' : d'.WellFormed) (from_ : src.LeadsTo source)
    (same : ∀ names, d'.fileAt (source ++ names) = d.fileAt (source ++ names)) :
    d'.copies exclude src dest = d.copies exclude src dest := by
  rw [copies_eq, copies_eq]
  congr 1
  refine filesToCopy_sorted.eq filesToCopy_sorted fun ⟨names, n⟩ => ?_
  rw [mem_filesToCopy tree' from_.absolute, mem_filesToCopy tree from_.absolute, from_.resolved,
    same]
  -- Where a file lies below, whether a path is there is a matter of its text.
  refine and_congr_left fun listed => ?_
  obtain ⟨-, bytes, -, file⟩ := listed
  rw [existsAt_iff_of_file tree' from_ ((same names).trans file),
    existsAt_iff_of_file tree from_ file]

theorem mem_copies (tree : d.WellFormed) (absolute : src.isAbsolute = true) {copy : Path × Path} :
    copy ∈ d.copies exclude src dest ↔ d.existsAt src = true ∧ ∃ names,
      (d.fileAt (src.resolved ++ names)).isSome ∧ cutOff exclude src dest names = false ∧
        copy = (src.descend names, dest.descend names) := by
  simp only [copies_eq, List.mem_map, Prod.exists, mem_filesToCopy tree absolute]
  constructor
  · rintro ⟨names, n, ⟨present, left, bytes, -, file⟩, rfl⟩
    exact ⟨present, names, by rw [file]; rfl, left, rfl⟩
  · rintro ⟨present, names, there, left, rfl⟩
    obtain ⟨bytes, file⟩ := Option.isSome_iff_exists.mp there
    exact ⟨names, .file bytes, ⟨present, left, bytes, rfl, file⟩, rfl⟩

end BundleMerge.Disk
