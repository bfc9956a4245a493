import BundleMerge.Proofs.Disk.Walk
import BundleMerge.Proofs.Disk.Write

/-! What copying a tree does. When it succeeds, each file that an exclusion leaves has its bytes at
the destination too, while every other file is what it was. -/
namespace BundleMerge.Disk

variable {d d' : Disk} {s s' : Site} {src dest : Path} {base source target place q : Place}
  {exclude : Exclusion} {names : List String} {n : Node} {bytes : ByteArray}
  {entries : List (List String × Node)} {entry : List String × Node}

/-! ### Copying entries -/

/-- Where the ways to the entries of a list pass that is copied to a path. -/
def dirsOf (base : Place) (dest : Path) (entries : List (List String × Node)) (q : Place) : Prop :=
  ∃ entry ∈ entries, passed base (dest.descend entry.1).parts q

/-- Where the files of a list lie under a place. -/
def filesOf (target : Place) (entries : List (List String × Node)) (q : Place) : Prop :=
  ∃ entry ∈ entries, entry.2 ≠ .dir ∧ q = target ++ entry.1

theorem copyEntry_builds (ordinary : ∀ name ∈ entry.1, Path.Ordinary name) :
    Action.BuildsFrom base (dirsOf base dest [entry]) (filesOf (dest.seenFrom base) [entry])
      (copyEntry src dest entry) := by
  obtain ⟨names, n⟩ := entry
  have on : ∀ q, passed base (dest.descend names).parts q → dirsOf base dest [(names, n)] q :=
    fun q on => ⟨(names, n), List.mem_singleton_self _, on⟩
  refine .withError ?_
  cases n with
  | dir => exact .bind (makeDirsFor_builds.mono on nofun) fun _ => (Action.Builds.pure 0).from_ base
  | file bytes =>
    have copied : Action.BuildsFrom base _ _ (copyFile (src.descend names) (dest.descend names)) :=
      copyFile_builds
    rw [Path.seenFrom_descend ordinary] at copied
    refine .bind (copied.mono on fun q here => ?_) fun _ => (Action.Builds.pure 1).from_ base
    exact ⟨(names, .file bytes), List.mem_singleton_self _, by simp, here⟩

theorem copyEntries_builds (ordinary : OrdinaryEntries entries) :
    Action.BuildsFrom base (dirsOf base dest entries) (filesOf (dest.seenFrom base) entries)
      (copyEntries src dest entries) := by
  induction entries with
  | nil => exact (Action.Builds.pure 0).from_ base
  | cons entry rest ih =>
    obtain ⟨first, others⟩ := List.forall_mem_cons.mp ordinary
    rw [copyEntries]
    refine .bind ((copyEntry_builds first).mono ?_ ?_) fun n =>
      .bind ((ih others).mono ?_ ?_) fun more => (Action.Builds.pure _).from_ base
    · rintro q ⟨e, member, above⟩
      exact ⟨e, by simp_all, above⟩
    · rintro q ⟨e, member, file, here⟩
      exact ⟨e, by simp_all, file, here⟩
    · rintro q ⟨e, member, above⟩
      exact ⟨e, List.mem_cons_of_mem _ member, above⟩
    · rintro q ⟨e, member, file, here⟩
      exact ⟨e, List.mem_cons_of_mem _ member, file, here⟩

/-- Files that lie apart from the target are what they were. -/
theorem filesOf_apart (apart : Apart source target) (below : source <+: q) :
    ¬ filesOf target entries q := by
  rintro ⟨entry, -, -, rfl⟩
  exact apart.not_below below (List.prefix_append ..)

section Apart

variable {count : Nat} (tree : s.disk.WellFormed) (from_ : src.seenFrom s.disk.cwd = source)
  (to_ : dest.seenFrom s.disk.cwd = target) (apart : Apart source target)

include tree from_ to_ apart

theorem copyEntry_ok (ordinary : ∀ name ∈ names, Path.Ordinary name)
    (ran : (copyEntry src dest (names, .file bytes)).run s = (.ok count, s')) :
    s'.disk.fileAt (target ++ names) = s.disk.fileAt (source ++ names) := by
  have copied := Action.withError_ok ran
  obtain ⟨_, s₁, copying, counted⟩ := Action.bind_ok copied
  obtain ⟨-, rfl⟩ := Action.pure_ok counted
  have different : source ++ names ≠ target ++ names := fun same =>
    apart.not_below (List.prefix_append source names) (same ▸ List.prefix_append target names)
  have from' : (src.descend names).seenFrom s.disk.cwd = source ++ names := by
    rw [Path.seenFrom_descend ordinary, from_]
  have to' : (dest.descend names).seenFrom s.disk.cwd = target ++ names := by
    rw [Path.seenFrom_descend ordinary, to_]
  obtain ⟨written, read, wrote⟩ := copyFile_ok tree (by rwa [from', to']) copying
  rw [from'] at read
  rw [to'] at wrote
  rw [read, wrote]

/-- Each file of the list is copied. That a file is copied over by a later entry is no harm, since
that entry has the same source. -/
theorem copyEntries_ok (ordinary : OrdinaryEntries entries)
    (ran : (copyEntries src dest entries).run s = (.ok count, s'))
    (listed : (names, .file bytes) ∈ entries) :
    s'.disk.fileAt (target ++ names) = s.disk.fileAt (source ++ names) := by
  induction entries generalizing s bytes count with
  | nil => cases listed
  | cons entry rest ih =>
    obtain ⟨first, others⟩ := List.forall_mem_cons.mp ordinary
    obtain ⟨_, s₁, copying, copyingRest⟩ := Action.bind_ok ran
    obtain ⟨_, s₂, copiedRest, counted⟩ := Action.bind_ok copyingRest
    obtain ⟨-, rfl⟩ := Action.pure_ok counted
    have built := (copyEntry_builds first).of_run tree copying
    rw [to_] at built
    have tree₁ := built.wellFormed tree
    rw [← built.cwd_eq] at from_ to_
    have kept : s₁.disk.fileAt (source ++ names) = s.disk.fileAt (source ++ names) :=
      built.fileAt_eq (filesOf_apart apart (List.prefix_append ..))
    have later : ∀ bytes, (names, .file bytes) ∈ rest →
        s'.disk.fileAt (target ++ names) = s.disk.fileAt (source ++ names) := fun bytes again =>
      (ih tree₁ from_ to_ others copiedRest again).trans kept
    obtain rfl | listed := List.mem_cons.mp listed
    · by_cases again : filesOf target rest (target ++ names)
      · obtain ⟨⟨names', n⟩, member, file, same⟩ := again
        obtain rfl := List.append_cancel_left same
        cases n with
        | dir => exact absurd rfl file
        | file bytes' => exact later bytes' member
      · have builtRest := (copyEntries_builds others).of_run tree₁ copiedRest
        rw [to_] at builtRest
        rw [builtRest.fileAt_eq again]
        rw [built.cwd_eq] at from_ to_
        exact copyEntry_ok tree from_ to_ apart first copying
    · exact later _ listed

end Apart

/-! ### Copying trees -/

/-- The places of the files that a copy is about to make. -/
def arrivals (d : Disk) (exclude : Exclusion) (src dest : Path) (q : Place) : Prop :=
  ∃ names, q = dest.resolved ++ names ∧ (d.fileAt (src.resolved ++ names)).isSome ∧
    cutOff exclude src dest names = false

theorem absolute_descend (absolute : dest.isAbsolute = true)
    (ordinary : ∀ name ∈ names, Path.Ordinary name) : (dest.descend names).isAbsolute = true :=
  Path.absolute_of_goesOn absolute (Path.parts_descend ordinary)

/-- A copy makes directories on the way to the destination and below it, and puts files below it
where files of the source are that it does not leave out. -/
theorem copy_built (tree : s.disk.WellFormed) (from_ : src.isAbsolute = true)
    (to_ : dest.isAbsolute = true) :
    Builds (fun q => along dest.parts q ∨ dest.resolved <+: q)
      (arrivals s.disk exclude src dest) s.disk ((copy exclude src dest).run s).2.disk := by
  unfold copy
  split
  · exact .refl
  rw [Action.run_bind, Action.run_withError, Action.run_look]
  cases listed : s.disk.entriesToCopy exclude src dest with
  | error e => exact .refl
  | ok entries =>
    have ordinary := entriesToCopy_ordinary tree listed
    have built : Builds _ _ s.disk ((copyEntries src dest entries).run s).2.disk :=
      copyEntries_builds ordinary s tree rfl
    rw [Path.seenFrom_absolute to_] at built
    refine built.mono ?_ ?_
    · rintro q ⟨⟨names, n⟩, member, on⟩
      have below := Path.rooted (absolute_descend to_ (ordinary _ member))
      obtain ⟨front, inside, rfl⟩ := passed_along below on
      rw [Path.parts_descend (ordinary _ member)] at inside
      rcases List.prefix_or_prefix_of_prefix inside (List.prefix_append ..) with early | late
      · exact .inl ⟨front, early, rfl⟩
      · obtain ⟨more, rfl⟩ := late
        obtain ⟨down, -, rfl⟩ :=
          List.prefix_map_iff.mp ((List.prefix_append_right_inj _).mp inside)
        rw [Path.resolve_append, Path.resolve_names]
        exact .inr (List.prefix_append ..)
    · rintro q ⟨⟨names, n⟩, member, notDir, rfl⟩
      obtain ⟨there, left⟩ := (mem_entriesToCopy tree listed).mp member
      rw [Path.seenFrom_absolute from_] at there
      cases n with
      | dir => exact absurd rfl notDir
      | file bytes => exact ⟨names, rfl, by simp [fileAt_eq_some_iff.mpr there], left⟩

theorem copy_along (from_ : src.isAbsolute = true) (to_ : dest.isAbsolute = true) :
    Action.Builds (fun q => along dest.parts q ∨ dest.resolved <+: q) (under dest.resolved)
      (copy exclude src dest) := by
  intro s tree
  refine (copy_built tree from_ to_).mono (fun _ => id) ?_
  rintro q ⟨names, rfl, -⟩
  exact List.prefix_append ..

theorem copy_builds (from_ : src.LeadsTo source) (to_ : dest.LeadsTo target) :
    Action.Builds (around target) (under target) (copy exclude src dest) := by
  have built : Action.Builds _ _ (copy exclude src dest) := copy_along from_.absolute to_.absolute
  rw [to_.resolved] at built
  refine built.mono (fun q near => ?_) fun _ => id
  exact near.imp_left (along_straight to_)

/-- The file that a copy puts at `names`, if there is one. -/
def copied (exclude : Exclusion) (src dest : Path) (source : Place) (d : Disk)
    (names : List String) : Option ByteArray :=
  if cutOff exclude src dest names then none else d.fileAt (source ++ names)

theorem copied_allowed : copied copyAllowed src dest source d names = d.fileAt (source ++ names) := by
  have whole : cutOff copyAllowed src dest names = false :=
    cutOff_eq_false_iff.mpr fun _ _ => rfl
  rw [copied, if_neg (by simp [whole])]

/-- A copy that does not leave out everything copies something that is there. -/
theorem exists_of_copy {count : Nat} (ran : (copy exclude src dest).run s = (.ok count, s'))
    (left : cutOff exclude src dest names = false) : s.disk.existsAt src = true := by
  unfold copy at ran
  split at ran
  · rename_i top
    simp [cutOff_of_excluded top] at left
  · obtain ⟨entries, _, looked, -⟩ := Action.bind_ok ran
    exact entriesToCopy_ok_iff.mp ⟨entries, (Action.look_ok (Action.withError_ok looked)).1⟩

/-- After a copy the destination has the files that are not cut off, over those it had before. -/
theorem copy_ok {count : Nat} (tree : s.disk.WellFormed) (from_ : src.LeadsTo source)
    (to_ : dest.LeadsTo target) (apart : Apart source target)
    (ran : (copy exclude src dest).run s = (.ok count, s')) (names : List String) :
    s'.disk.fileAt (target ++ names) =
      (copied exclude src dest source s.disk names).or (s.disk.fileAt (target ++ names)) := by
  unfold copy at ran
  split at ran
  · rename_i top
    obtain ⟨-, rfl⟩ := Action.pure_ok ran
    rw [copied, if_pos (cutOff_of_excluded top names), Option.none_or]
  · obtain ⟨entries, s₁, looked, copying⟩ := Action.bind_ok ran
    obtain ⟨listed, rfl⟩ := Action.look_ok (Action.withError_ok looked)
    have ordinary := entriesToCopy_ordinary tree listed
    have listing := fun names n => @mem_entriesToCopy _ src dest exclude names n entries tree listed
    have built := (copyEntries_builds ordinary).of_run tree copying
    have here : src.seenFrom s₁.disk.cwd = source := from_.seenFrom
    have there : dest.seenFrom s₁.disk.cwd = target := to_.seenFrom
    rw [there] at built
    rw [here] at listing
    by_cases file : ∃ bytes, copied exclude src dest source s₁.disk names = some bytes
    · obtain ⟨bytes, file⟩ := file
      rw [file, Option.some_or]
      unfold copied at file
      split at file
      · cases file
      · rename_i left
        have found := fileAt_eq_some_iff.mp file
        have inside := (listing _ _).mpr ⟨found, by simpa using left⟩
        rw [copyEntries_ok tree here there apart ordinary copying inside, file]
    · have nothing : copied exclude src dest source s₁.disk names = none := by
        simpa [Option.eq_none_iff_forall_ne_some] using file
      rw [nothing, Option.none_or]
      refine built.fileAt_eq ?_
      rintro ⟨⟨names', n⟩, inside, notDir, same⟩
      obtain rfl := List.append_cancel_left same
      obtain ⟨there, left⟩ := (listing _ _).mp inside
      cases n with
      | dir => exact notDir rfl
      | file bytes => exact file ⟨bytes, by simp [copied, left, fileAt_eq_some_iff.mpr there]⟩

/-! ### Counting files -/

theorem copyEntries_count {count : Nat} (ran : (copyEntries src dest entries).run s = (.ok count, s')) :
    count = (entries.filter (·.2 ≠ .dir)).length := by
  induction entries generalizing s s' count with
  | nil => exact (Action.pure_ok ran).1.symm
  | cons entry rest ih =>
    obtain ⟨first, s₁, copying, copyingRest⟩ := Action.bind_ok ran
    obtain ⟨others, s₂, copiedRest, counted⟩ := Action.bind_ok copyingRest
    obtain ⟨rfl, -⟩ := Action.pure_ok counted
    obtain ⟨names, n⟩ := entry
    have copied := Action.withError_ok copying
    rw [ih copiedRest]
    cases n <;>
    · obtain ⟨_, _, -, answered⟩ := Action.bind_ok copied
      obtain ⟨rfl, -⟩ := Action.pure_ok answered
      simp [Nat.add_comm]

/-- A copy answers how many files it has made. -/
theorem copy_count {count : Nat} (ran : (copy exclude src dest).run s = (.ok count, s')) :
    count = (s.disk.copies exclude src dest).length := by
  unfold copy at ran
  split at ran
  · rename_i top
    obtain ⟨rfl, -⟩ := Action.pure_ok ran
    unfold copies entriesToCopy
    split
    · rfl
    · rename_i listed
      split at listed <;> cases listed
      simp [cutOff_of_excluded top]
  · obtain ⟨entries, s₁, looked, copying⟩ := Action.bind_ok ran
    obtain ⟨listed, rfl⟩ := Action.look_ok (Action.withError_ok looked)
    rw [copies, listed, List.length_map]
    exact copyEntries_count copying

end BundleMerge.Disk
