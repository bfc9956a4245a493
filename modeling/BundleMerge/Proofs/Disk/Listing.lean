import Mathlib.Algebra.Order.BigOperators.Group.List
import Mathlib.Algebra.Order.Group.Nat
import Mathlib.Data.List.Nodup
import Mathlib.Data.List.Perm.Basic
import BundleMerge.Proofs.Disk.Walk

/-! Trees that are listed one directory at a time, each in an order of its own. Such a listing has
what a walk has, and a listing in the order of the names is the walk. -/
namespace BundleMerge.Disk

variable {d d' : Disk} {src : Path} {place : Place} {names : List String} {name : String} {n : Node}
  {depth : Nat} {entries : List (List String × Node)}

/-- The names of what lies in the directory at a place, in order. -/
def children (d : Disk) (place : Place) : List String :=
  (d.walk place).filterMap fun entry =>
    match entry.1 with
    | [name] => some name
    | _ => none

theorem mem_children (tree : d.WellFormed) :
    name ∈ d.children place ↔ ∃ n, d.node? (place ++ [name]) = some n := by
  simp only [← mem_walk tree, children, List.mem_filterMap, Prod.exists]
  constructor
  · rintro ⟨names, n, member, named⟩
    split at named
    · cases named
      exact ⟨n, member⟩
    · cases named
  · rintro ⟨n, member⟩
    exact ⟨[name], n, member, rfl⟩

/-- Whatever lies deeper lies in one of the children. -/
theorem mem_children_of_below (tree : d.WellFormed)
    (there : d.node? (place ++ name :: names) = some n) : name ∈ d.children place := by
  apply (mem_children tree).mpr
  by_cases last : names = []
  · subst last
    exact ⟨n, there⟩
  · rw [List.append_cons] at there
    exact ⟨.dir, tree.above there last⟩

theorem children_sorted (d : Disk) (place : Place) :
    (d.children place).Pairwise fun a b => compare a b = .lt := by
  refine List.Pairwise.filterMap _ ?_ (walk_sorted d place)
  rintro ⟨names, n⟩ ⟨names', n'⟩ less name found name' found'
  dsimp only at less found found'
  split at found
  · split at found'
    · cases found
      cases found'
      rw [List.compare_cons_cons] at less
      revert less
      cases compare name name' <;> simp
    · cases found'
  · cases found

theorem children_congr
    (same : ∀ names, d'.node? (place ++ names) = d.node? (place ++ names)) :
    d'.children place = d.children place := by
  rw [children, children, walk_congr same]

/-! ### Listings -/

/-- In what order each directory lists its names. -/
abbrev Order := Path → List String → List String

def inOrder : Order := fun _ names => names

/-- Every directory lists all its names, each once. -/
def Order.Lists (order : Order) : Prop := ∀ p names, (order p names).Perm names

theorem inOrder_lists : inOrder.Lists := fun _ _ => .refl _

/-- An entry as it is seen from one directory further up. -/
def below (name : String) (entry : List String × Node) : List String × Node :=
  (name :: entry.1, entry.2)

/-- What is at a place and below it, down to a depth, as it is met on a descent from a path. -/
def spread (order : Order) (d : Disk) : Nat → Path → Place → List (List String × Node)
  | 0, _, _ => []
  | depth + 1, src, place =>
    match d.node? place with
    | none => []
    | some (.file bytes) => [([], .file bytes)]
    | some .dir => ([], .dir) :: (order src (d.children place)).flatMap fun name =>
        (spread order d depth (src.join ⟨name⟩) (place ++ [name])).map (below name)

/-- Nothing below the place lies as deep as that. -/
def Shallower (d : Disk) (place : Place) (depth : Nat) : Prop :=
  ∀ names n, d.node? (place ++ names) = some n → names.length < depth

theorem Shallower.child (shallow : d.Shallower place (depth + 1)) (name : String) :
    d.Shallower (place ++ [name]) depth := by
  intro names n there
  have shorter := shallow (name :: names) n (by simpa using there)
  simpa using shorter

theorem exists_shallower (tree : d.WellFormed) (place : Place) :
    ∃ least, ∀ depth, least ≤ depth → d.Shallower place depth := by
  refine ⟨((d.walk place).map (·.1.length)).sum + 1, fun depth deep names n there => ?_⟩
  have listed : names.length ∈ (d.walk place).map (·.1.length) :=
    List.mem_map_of_mem ((mem_walk tree).mpr there)
  exact Nat.lt_of_lt_of_le (Nat.lt_succ_of_le (List.le_sum_of_mem listed)) deep

variable {order : Order}

theorem mem_spread (lists : order.Lists) (tree : d.WellFormed) :
    (names, n) ∈ spread order d depth src place ↔
      d.node? (place ++ names) = some n ∧ names.length < depth := by
  induction depth generalizing src place names n with
  | zero => simp [spread]
  | succ depth ih =>
    rw [spread]
    split
    · rename_i absent
      refine ⟨nofun, fun ⟨there, _⟩ => ?_⟩
      by_cases here : names = []
      · simp [here, absent] at there
      · rw [tree.above there here] at absent
        cases absent
    · rename_i bytes file
      by_cases here : names = []
      · simp [here, file, eq_comm]
      · refine ⟨fun member => ?_, fun ⟨there, _⟩ => ?_⟩
        · simp [here] at member
        · rw [tree.above there here] at file
          cases file
    · rename_i dir
      simp only [List.mem_cons, Prod.mk.injEq, List.mem_flatMap, (lists src _).mem_iff,
        List.mem_map, below, Prod.exists]
      cases names with
      | nil => simp [dir, eq_comm]
      | cons name names =>
        have deeper := fun m => @ih (src.join ⟨name⟩) (place ++ [name]) names m
        simp only [List.append_assoc, List.singleton_append] at deeper
        simp only [reduceCtorEq, false_and, false_or, List.cons.injEq, List.length_cons,
          Nat.add_lt_add_iff_right]
        constructor
        · rintro ⟨name', -, names', m, member, ⟨rfl, rfl⟩, rfl⟩
          exact (deeper m).mp member
        · rintro ⟨there, short⟩
          exact ⟨name, mem_children_of_below tree there, names, n, (deeper n).mpr ⟨there, short⟩,
            ⟨rfl, rfl⟩, rfl⟩

theorem spread_sorted : Sorted (spread inOrder d depth src place) := by
  induction depth generalizing src place with
  | zero => exact .nil
  | succ depth ih =>
    rw [spread]
    split
    · exact .nil
    · exact List.pairwise_singleton ..
    · refine List.pairwise_cons.mpr ⟨?_, List.pairwise_flatMap.mpr ⟨fun name _ => ?_, ?_⟩⟩
      · intro entry member
        obtain ⟨name, -, inside⟩ := List.mem_flatMap.mp member
        obtain ⟨entry, -, rfl⟩ := List.mem_map.mp inside
        rfl
      · refine List.pairwise_map.mpr (ih.imp fun less => ?_)
        exact (compare_append [name] ..).trans less
      · refine (children_sorted d place).imp fun {name name'} less => ?_
        intro entry inside entry' inside'
        obtain ⟨entry, -, rfl⟩ := List.mem_map.mp inside
        obtain ⟨entry', -, rfl⟩ := List.mem_map.mp inside'
        rw [below, below, List.compare_cons_cons, less]
        rfl

theorem spread_inOrder (tree : d.WellFormed) (shallow : d.Shallower place depth) :
    spread inOrder d depth src place = d.walk place := by
  refine spread_sorted.eq (walk_sorted d place) fun ⟨names, n⟩ => ?_
  rw [mem_spread inOrder_lists tree, mem_walk tree]
  exact and_iff_left_of_imp (shallow names n)

/-- What is met does not depend on how deep a descent could go. -/
theorem spread_deeper {deeper : Nat} (shallow : d.Shallower place depth) (deep : depth ≤ deeper) :
    spread order d deeper src place = spread order d depth src place := by
  induction depth generalizing deeper src place with
  | zero =>
    have absent : d.node? place = none := by
      rw [Option.eq_none_iff_forall_ne_some]
      intro n there
      have lower := shallow [] n (by simpa using there)
      simp at lower
    cases deeper with
    | zero => rfl
    | succ deeper => simp [spread, absent]
  | succ depth ih =>
    obtain ⟨deeper, rfl⟩ := Nat.exists_eq_add_one.mpr (Nat.zero_lt_of_lt deep)
    have below : ∀ name, spread order d deeper (src.join ⟨name⟩) (place ++ [name]) =
        spread order d depth (src.join ⟨name⟩) (place ++ [name]) := fun name =>
      ih (shallow.child name) (Nat.le_of_succ_le_succ deep)
    simp only [spread, below]

/-- In whatever order the directories are listed, a descent meets what a walk meets. -/
theorem spread_perm (lists : order.Lists) (tree : d.WellFormed)
    (shallow : d.Shallower place depth) : (spread order d depth src place).Perm (d.walk place) := by
  rw [← @spread_inOrder d src place depth tree shallow]
  clear shallow
  induction depth generalizing src place with
  | zero => exact .refl _
  | succ depth ih =>
    rw [spread, spread]
    split
    · exact .refl _
    · exact .refl _
    · have deeper : ∀ name ∈ d.children place,
          ((spread order d depth (src.join ⟨name⟩) (place ++ [name])).map (below name)).Perm
            ((spread inOrder d depth (src.join ⟨name⟩) (place ++ [name])).map (below name)) :=
        fun name _ => ih.map _
      exact .cons _ (((lists src _).flatMap_right _).trans (List.Perm.flatMap_left _ deeper))

end BundleMerge.Disk
