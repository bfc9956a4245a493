import BundleMerge.Proofs.Disk.Copy
import BundleMerge.Proofs.Disk.Listing

/-! Copying by descent. A directory is made, then listed, and what it lists is copied in turn, while
the disk changes under the descent. As long as source and destination lie apart, the source is
met as it was at the start: the descent comes to an end, and does what copying the entries of a
list does. -/
namespace BundleMerge.Disk

variable {d d' : Disk} {s s' : Site} {src dest : Path} {base source target place : Place}
  {exclude : Exclusion} {order : Order} {name : String} {n : Node} {depth : Nat}
  {entries more : List (List String × Node)}

/-- The names that a directory holds. -/
def list (d : Disk) (p : Path) : Except DiskError (List String) :=
  match d.stat p, d.locate p with
  | .error e, _ | _, .error e => .error e
  | .ok (.file _), _ => .error .notDirectory
  | .ok .dir, .ok place => .ok (d.children place)

/-- Acts on one name after the other, and adds up the answers. -/
def total {ε : Type} (act : String → Action ε Nat) : List String → Action ε Nat
  | [] => pure 0
  | name :: names => do
    let n ← act name
    let more ← total act names
    pure (n + more)

def failed (src dest : Path) (e : DiskError) : Option Failure :=
  some (.copyFailure src dest e)

/-- Copies a file, or a directory and what it lists, down to a depth. It fails without a cause if
the tree is deeper than that. -/
def copyDown (order : Order) (exclude : Exclusion) :
    Nat → Path → Path → Action (Option Failure) Nat
  | 0, _, _ => throw none
  | depth + 1, src, dest =>
    if exclude src dest then pure 0
    else do
      match ← Action.withError (failed src dest) (Action.look (·.stat src)) with
      | .file _ => do
        Action.withError (failed src dest) (copyFile src dest)
        pure 1
      | .dir => do
        Action.withError (failed src dest) (makeDirsFor dest)
        let names ← Action.withError (failed src dest) (Action.look (·.list src))
        total (fun name => copyDown order exclude depth (src.join ⟨name⟩) (dest.join ⟨name⟩))
          (order src names)

/-- What a descent copies, in the order in which it does. -/
def metBy (order : Order) (exclude : Exclusion) (d : Disk) (depth : Nat) (src dest : Path)
    (place : Place) : List (List String × Node) :=
  (spread order d depth src place).filter (!cutOff exclude src dest ·.1)

/-! ### Lists of entries -/

theorem copyEntries_append : copyEntries src dest (entries ++ more) = (do
    let n ← copyEntries src dest entries
    let m ← copyEntries src dest more
    pure (n + m)) := by
  induction entries with
  | nil => simp only [List.nil_append, copyEntries, pure_bind, Nat.zero_add, bind_pure]
  | cons entry entries ih =>
    simp only [List.cons_append, copyEntries, ih, bind_assoc, pure_bind, Nat.add_assoc]

theorem copyEntries_below : copyEntries src dest (entries.map (below name)) =
    copyEntries (src.join ⟨name⟩) (dest.join ⟨name⟩) entries := by
  induction entries with
  | nil => rfl
  | cons entry entries ih =>
    rw [List.map_cons, copyEntries, copyEntries, ih]
    rfl

theorem metBy_excluded (top : exclude src dest = true) :
    metBy order exclude d depth src dest place = [] := by
  simp [metBy, cutOff_of_excluded top]

theorem metBy_file {bytes : ByteArray} (left : exclude src dest = false)
    (there : d.node? place = some (.file bytes)) :
    metBy order exclude d (depth + 1) src dest place = [([], .file bytes)] := by
  simp [metBy, spread, there, cutOff, left]

/-- A directory comes before what it lists. -/
theorem metBy_dir (left : exclude src dest = false) (there : d.node? place = some .dir) :
    metBy order exclude d (depth + 1) src dest place =
      ([], .dir) :: (order src (d.children place)).flatMap fun name =>
        (metBy order exclude d depth (src.join ⟨name⟩) (dest.join ⟨name⟩) (place ++ [name])).map
          (below name) := by
  have inside : ∀ name, (fun entry => !cutOff exclude src dest entry.1) ∘ below name =
      fun entry : List String × Node =>
        !cutOff exclude (src.join ⟨name⟩) (dest.join ⟨name⟩) entry.1 := by
    intro name
    funext entry
    simp [below, cutOff, left]
  simp only [metBy, spread, there, List.filter_cons, cutOff, left, Bool.not_false, if_true,
    List.filter_flatMap, List.filter_map, inside]

/-- What lies at the place itself comes first. -/
theorem metBy_first (depth : Nat) (left : exclude src dest = false)
    (there : d.node? place = some n) :
    ∃ rest, metBy order exclude d (depth + 1) src dest place = ([], n) :: rest := by
  cases n with
  | dir => exact ⟨_, metBy_dir left there⟩
  | file bytes => exact ⟨[], metBy_file left there⟩

theorem metBy_ordinary (lists : order.Lists) (tree : d.WellFormed) :
    OrdinaryEntries (metBy order exclude d depth src dest place) := by
  rintro ⟨names, n⟩ member name inside
  obtain ⟨met, -⟩ := List.mem_filter.mp member
  obtain ⟨there, -⟩ := (mem_spread lists tree).mp met
  exact tree.names there name (List.mem_append_right _ inside)

/-! ### What a descent changes -/

/-- On the way to a path without `..`, and to what is below it, lies what is around its place. -/
theorem passed_around {names : List String} {q : Place} (straight : Path.Part.up ∉ dest.parts)
    (ordinary : ∀ name ∈ names, Path.Ordinary name)
    (on : passed base (dest.descend names).parts q) : q <+: dest.seenFrom base ++ names := by
  obtain ⟨front, inside, some, rfl⟩ := on
  have below : Path.Part.up ∉ (dest.descend names).parts := by
    rw [Path.parts_descend ordinary]
    simpa using straight
  rw [← Path.seenFrom_descend ordinary]
  exact Path.seenFrom_front below inside some

theorem copyEntries_around (straight : Path.Part.up ∉ dest.parts)
    (ordinary : OrdinaryEntries entries) :
    Action.BuildsFrom base (around (dest.seenFrom base)) (under (dest.seenFrom base))
      (copyEntries src dest entries) := by
  refine (copyEntries_builds ordinary).mono ?_ ?_
  · rintro q ⟨entry, member, on⟩
    exact around_of_above (List.prefix_append ..)
      (passed_around straight (ordinary entry member) on)
  · rintro q ⟨entry, -, -, rfl⟩
    exact List.prefix_append ..

theorem makeDirsFor_around (straight : Path.Part.up ∉ dest.parts) :
    Action.BuildsFrom base (around (dest.seenFrom base)) (under (dest.seenFrom base))
      (makeDirsFor dest) := by
  refine makeDirsFor_builds.mono (fun q on => ?_) nofun
  obtain ⟨front, inside, some, rfl⟩ := on
  exact .inl (Path.seenFrom_front straight inside some)

/-- On a descent the source is met as it was on the disk at the start. -/
structure Descends (d : Disk) (src dest : Path) (source target : Place) (s : Site) : Prop where
  tree : s.disk.WellFormed
  from_ : src.seenFrom s.disk.cwd = source
  to_ : dest.seenFrom s.disk.cwd = target
  straight : Path.Part.up ∉ dest.parts
  apart : Apart source target
  same : ∀ names, s.disk.node? (source ++ names) = d.node? (source ++ names)

namespace Descends

variable (at_ : Descends d src dest source target s)

include at_

theorem child (ordinary : Path.Ordinary name) :
    Descends d (src.join ⟨name⟩) (dest.join ⟨name⟩) (source ++ [name]) (target ++ [name]) s where
  tree := at_.tree
  from_ := by rw [Path.seenFrom_join_name ordinary, at_.from_]
  to_ := by rw [Path.seenFrom_join_name ordinary, at_.to_]
  straight := by
    rw [Path.parts_join_name ordinary]
    simpa using at_.straight
  apart := at_.apart.mono (List.prefix_append ..) (List.prefix_append ..)
  same names := by
    rw [List.append_assoc]
    exact at_.same _

theorem after (built : Builds (around target) (under target) s.disk s'.disk) :
    Descends d src dest source target s' where
  tree := built.wellFormed at_.tree
  from_ := by rw [built.cwd_eq, at_.from_]
  to_ := by rw [built.cwd_eq, at_.to_]
  straight := at_.straight
  apart := at_.apart
  same names := (built.node?_apart at_.apart (List.prefix_append ..)).trans (at_.same names)

/-- What is copied into a part of the destination is copied into the destination. -/
theorem after_child {answer : Except Failure Nat} (ordinary : Path.Ordinary name)
    (each : OrdinaryEntries entries)
    (ran : (copyEntries (src.join ⟨name⟩) (dest.join ⟨name⟩) entries).run s = (answer, s')) :
    Builds (around target) (under target) s.disk s'.disk := by
  have inside : target <+: target ++ [name] := List.prefix_append ..
  have built := (copyEntries_around (at_.child ordinary).straight each).of_run at_.tree ran
  rw [(at_.child ordinary).to_] at built
  refine built.mono (fun q => around_mono inside) fun q below => ?_
  exact inside.trans below

theorem children_eq : s.disk.children source = d.children source :=
  children_congr at_.same

end Descends

/-! ### The course of a descent -/

/-- What the source leads to. A path that cannot be looked up at all has a destination of that
kind, so that copying fails there too. -/
def Meets (src dest : Path) (n : Node) (d : Disk) : Prop :=
  d.stat src = .ok n ∨ d.stat src = .error .nulInPath ∧ ¬ dest.NulFree

theorem stat_nul (nul : ¬ src.NulFree) : d.stat src = .error .nulInPath := by
  have found : '\x00' ∈ src.text.toList := by simpa [Path.NulFree] using nul
  simp [stat, locate, found]

theorem Meets.child (dir : d.stat src = .ok .dir)
    (ordinary : Path.Ordinary name) (there : d.node? (src.seenFrom d.cwd ++ [name]) = some n) :
    Meets (src.join ⟨name⟩) (dest.join ⟨name⟩) n d := by
  obtain ⟨place, located, -⟩ := stat_ok_iff_locate.mp dir
  obtain ⟨free, -⟩ := locate_iff.mp located
  by_cases clean : '\x00' ∉ name.toList
  · exact .inl (stat_join_name dir ordinary there
      ((Path.nulFree_join_name ordinary).mpr ⟨free, clean⟩))
  · refine .inr ⟨stat_nul ?_, ?_⟩
    · exact fun whole => clean ((Path.nulFree_join_name ordinary).mp whole).2
    · exact fun whole => clean ((Path.nulFree_join_name ordinary).mp whole).2

/-- Nothing is copied to a path that cannot be looked up. -/
theorem copyEntry_nul (nul : ¬ dest.NulFree) :
    (copyEntry src dest ([], n)).run s = (.error (.copyFailure src dest .nulInPath), s) := by
  have found : dest.text.toList.contains '\x00' = true := by simpa [Path.NulFree] using nul
  have dirs : makeDirsFor dest = throw .nulInPath := if_pos found
  have parents : makeParents dest = throw .nulInPath := if_pos found
  cases n with
  | dir =>
    change (Action.withError _ (makeDirsFor dest >>= fun _ => pure 0)).run s = _
    rw [dirs]
    rfl
  | file bytes =>
    change (Action.withError _ (copyFile src dest >>= fun _ => pure 1)).run s = _
    rw [copyFile, parents]
    rfl

theorem copyEntries_file {bytes : ByteArray} :
    Action.withError some (copyEntries src dest [([], .file bytes)]) = (do
      Action.withError (failed src dest) (copyFile src dest)
      pure 1) := by
  have single : copyEntries src dest [([], .file bytes)] =
      Action.withError (Failure.copyFailure src dest) (copyFile src dest >>= fun _ => pure 1) := by
    simp only [copyEntries, pure_bind, Nat.add_zero, bind_pure]
    rfl
  rw [single, Action.withError_withError, Action.withError_bind]
  rfl

theorem copyEntries_dir :
    Action.withError some (copyEntries src dest (([], .dir) :: entries)) = (do
      Action.withError (failed src dest) (makeDirsFor dest)
      Action.withError some (copyEntries src dest entries)) := by
  have first : copyEntry src dest ([], .dir) =
      Action.withError (Failure.copyFailure src dest) (makeDirsFor dest >>= fun _ => pure 0) := rfl
  rw [copyEntries, first, Action.withError_bind, Action.withError_withError, Action.withError_bind]
  simp only [Action.withError_pure, bind_assoc, pure_bind, Nat.zero_add, bind_pure]
  rfl

theorem list_dir (dir : d.stat src = .ok .dir) :
    d.list src = .ok (d.children (src.seenFrom d.cwd)) := by
  obtain ⟨place, located, -⟩ := stat_ok_iff_locate.mp dir
  rw [list, dir, located, ← locate_place located]

/-- Acting on names is copying lists of entries if that is so for each name. -/
theorem total_run {act : String → Action (Option Failure) Nat}
    {met : String → List (List String × Node)} {names : List String} (inv : Site → Prop)
    (each : ∀ name ∈ names, ∀ s, inv s → (act name).run s =
      (Action.withError some (copyEntries (src.join ⟨name⟩) (dest.join ⟨name⟩) (met name))).run s)
    (kept : ∀ name ∈ names, ∀ s a s', inv s →
      (copyEntries (src.join ⟨name⟩) (dest.join ⟨name⟩) (met name)).run s = (.ok a, s') → inv s')
    (start : inv s) : (total act names).run s = (Action.withError some
      (copyEntries src dest (names.flatMap fun name => (met name).map (below name)))).run s := by
  induction names generalizing s with
  | nil => rfl
  | cons name names ih =>
    obtain ⟨first, others⟩ := List.forall_mem_cons.mp each
    obtain ⟨firstKept, othersKept⟩ := List.forall_mem_cons.mp kept
    rw [total, List.flatMap_cons, copyEntries_append, copyEntries_below, Action.withError_bind]
    refine Action.run_bind_congr (first s start) fun a s₁ ran => ?_
    have start₁ := firstKept s a s₁ start (Action.withError_ok ran)
    rw [Action.withError_bind]
    refine Action.run_bind_congr (ih others othersKept start₁) fun b s₂ _ => ?_
    rfl

/-- A directory is made and listed, and a list of entries goes on as the descent does. -/
theorem copyDown_dir (lists : order.Lists) (tree : d.WellFormed)
    (at_ : Descends d src dest source target s) (left : exclude src dest = false)
    (there : d.node? source = some .dir) (seen : s.disk.stat src = .ok .dir)
    (deeper : ∀ name n s,
      Descends d (src.join ⟨name⟩) (dest.join ⟨name⟩) (source ++ [name]) (target ++ [name]) s →
      d.node? (source ++ [name]) = some n → Meets (src.join ⟨name⟩) (dest.join ⟨name⟩) n s.disk →
      (copyDown order exclude depth (src.join ⟨name⟩) (dest.join ⟨name⟩)).run s =
        (Action.withError some (copyEntries (src.join ⟨name⟩) (dest.join ⟨name⟩) (metBy order exclude
          d depth (src.join ⟨name⟩) (dest.join ⟨name⟩) (source ++ [name])))).run s) :
    (do
      Action.withError (failed src dest) (makeDirsFor dest)
      let names ← Action.withError (failed src dest) (Action.look (·.list src))
      total (fun name => copyDown order exclude depth (src.join ⟨name⟩) (dest.join ⟨name⟩))
        (order src names) : Action (Option Failure) Nat).run s =
      (Action.withError some (copyEntries src dest
        (metBy order exclude d (depth + 1) src dest source))).run s := by
  rw [metBy_dir left there, copyEntries_dir]
  refine Action.run_bind_congr rfl fun _ s₁ ran => ?_
  have made := (makeDirsFor_around at_.straight).of_run at_.tree (Action.withError_ok ran)
  rw [at_.to_] at made
  have at₁ := at_.after made
  have listed := list_dir (made.covers.stat_dir made.cwd_eq seen)
  rw [at₁.from_, at₁.children_eq] at listed
  rw [Action.run_bind, Action.run_withError, Action.run_look, listed]
  have child : ∀ name ∈ order src (d.children source), ∃ n, d.node? (source ++ [name]) = some n :=
    fun name member => (mem_children tree).mp ((lists src _).mem_iff.mp member)
  -- While the names are gone through, the source stays a directory that is met as it was.
  refine total_run (fun s => Descends d src dest source target s ∧ s.disk.stat src = .ok .dir)
    ?_ ?_ ⟨at₁, made.covers.stat_dir made.cwd_eq seen⟩
  · rintro name member s ⟨here, dir⟩
    obtain ⟨n, there⟩ := child name member
    have ordinary := tree.ordinary there
    have found : s.disk.node? (src.seenFrom s.disk.cwd ++ [name]) = some n := by
      rw [here.from_, here.same, there]
    exact deeper name n s (here.child ordinary) there (.child dir ordinary found)
  · rintro name member s a s' ⟨here, dir⟩ ran
    obtain ⟨n, there⟩ := child name member
    have built := here.after_child (tree.ordinary there) (metBy_ordinary lists tree) ran
    exact ⟨here.after built, built.covers.stat_dir built.cwd_eq dir⟩

/-- A descent into a tree that is shallow enough does what copying its entries does. -/
theorem copyDown_run (lists : order.Lists) (tree : d.WellFormed)
    (at_ : Descends d src dest source target s) (there : d.node? source = some n)
    (meets : Meets src dest n s.disk) (shallow : d.Shallower source depth) :
    (copyDown order exclude depth src dest).run s =
      (Action.withError some (copyEntries src dest
        (metBy order exclude d depth src dest source))).run s := by
  induction depth generalizing src dest source target s n with
  | zero =>
    have deep := shallow [] n (by simpa using there)
    simp at deep
  | succ depth ih =>
    cases left : exclude src dest with
    | true =>
      rw [copyDown, left, if_pos rfl, metBy_excluded left]
      rfl
    | false =>
      rw [copyDown, left, if_neg Bool.false_ne_true, Action.run_bind, Action.run_withError,
        Action.run_look]
      obtain seen | ⟨unseen, nul⟩ := meets
      · rw [seen]
        cases n with
        | file bytes =>
          rw [metBy_file left there, copyEntries_file]
          rfl
        | dir =>
          refine copyDown_dir lists tree at_ left there seen fun name n s below there meets => ?_
          exact ih below there meets (shallow.child name)
      · obtain ⟨rest, met⟩ := metBy_first depth left there
        rw [unseen, met, copyEntries, Action.run_withError, Action.run_bind, copyEntry_nul nul]
        rfl

/-! ### The outcome -/

/-- The descent comes to an end with this outcome: at some depth, and at each further one. -/
def Ends (order : Order) (exclude : Exclusion) (src dest : Path) (s : Site)
    (outcome : Except Failure Nat × Site) : Prop :=
  ∃ least, ∀ depth, least ≤ depth →
    (copyDown order exclude depth src dest).run s = (outcome.1.mapError some, outcome.2)

/-- The entries of a tree that a copy does not leave out. -/
def copyable (d : Disk) (exclude : Exclusion) (src dest : Path) : List (List String × Node) :=
  (d.walk (src.seenFrom d.cwd)).filter (!cutOff exclude src dest ·.1)

theorem copy_excluded (top : exclude src dest = true) :
    (copy exclude src dest).run s = (.ok 0, s) := by
  rw [copy, top]
  rfl

theorem copy_unread {e : DiskError} (open_ : exclude src dest = false)
    (unread : s.disk.stat src = .error e) :
    (copy exclude src dest).run s = (.error (.copyFailure src dest e), s) := by
  rw [copy, open_, if_neg Bool.false_ne_true, Action.run_bind, Action.run_withError,
    Action.run_look, entriesToCopy, unread]
  rfl

theorem copy_read (open_ : exclude src dest = false) (seen : s.disk.stat src = .ok n) :
    (copy exclude src dest).run s =
      (copyEntries src dest (s.disk.copyable exclude src dest)).run s := by
  obtain ⟨place, located, -⟩ := stat_ok_iff_locate.mp seen
  rw [copy, open_, if_neg Bool.false_ne_true, Action.run_bind, Action.run_withError,
    Action.run_look, entriesToCopy, seen, located, locate_place located]
  rfl

theorem ends_excluded (top : exclude src dest = true) :
    Ends order exclude src dest s (.ok 0, s) := by
  refine ⟨1, fun depth deep => ?_⟩
  obtain ⟨depth, rfl⟩ := Nat.exists_eq_add_one.mpr deep
  rw [copyDown, top]
  rfl

theorem ends_unread {e : DiskError} (open_ : exclude src dest = false)
    (unread : s.disk.stat src = .error e) :
    Ends order exclude src dest s (.error (.copyFailure src dest e), s) := by
  refine ⟨1, fun depth deep => ?_⟩
  obtain ⟨depth, rfl⟩ := Nat.exists_eq_add_one.mpr deep
  rw [copyDown, open_, if_neg Bool.false_ne_true, Action.run_bind, Action.run_withError,
    Action.run_look, unread]
  rfl

/-- In whatever order directories are listed, the descent copies the same entries. -/
theorem ends_read (lists : order.Lists) (tree : s.disk.WellFormed)
    (straight : Path.Part.up ∉ dest.parts)
    (apart : Apart (src.seenFrom s.disk.cwd) (dest.seenFrom s.disk.cwd))
    (seen : s.disk.stat src = .ok n) :
    ∃ entries, entries.Perm (s.disk.copyable exclude src dest) ∧
      (order = inOrder → entries = s.disk.copyable exclude src dest) ∧
      Ends order exclude src dest s ((copyEntries src dest entries).run s) := by
  obtain ⟨place, located, there, -⟩ := stat_ok_iff_locate.mp seen
  rw [locate_place located] at there
  obtain ⟨least, shallow⟩ := exists_shallower tree (src.seenFrom s.disk.cwd)
  have at_ : Descends s.disk src dest (src.seenFrom s.disk.cwd) (dest.seenFrom s.disk.cwd) s :=
    ⟨tree, rfl, rfl, straight, apart, fun _ => rfl⟩
  have enough := shallow least le_rfl
  refine ⟨metBy order exclude s.disk least src dest (src.seenFrom s.disk.cwd), ?_, ?_, least, ?_⟩
  · exact (spread_perm lists tree enough).filter _
  · rintro rfl
    rw [metBy, spread_inOrder tree enough, copyable]
  · intro depth deep
    rw [copyDown_run lists tree at_ there (.inl seen) (shallow depth deep), metBy,
      spread_deeper enough deep]
    rfl

end BundleMerge.Disk
