import BundleMerge.Proofs.Disk.Tree

/-! How a disk changes. A change adds a directory where nothing was, or puts a file where no
directory is, in both cases in a directory that is there. Where it may do so is said by two
regions, one for directories and one for files; everything outside them stays as it was. -/
namespace BundleMerge.Disk

variable {d d' d'' : Disk} {dirs files dirs' files' : Place → Prop}
  {place q source target : Place}
  {name : String} {n : Node} {bytes : ByteArray}

/-- `d'` comes from `d` by making directories in one region and putting files in another. -/
inductive Builds (dirs files : Place → Prop) (d : Disk) : Disk → Prop where
  | refl : Builds dirs files d d
  | dir {d' : Disk} {place : Place} {name : String} : Builds dirs files d d' → dirs (place ++ [name]) →
      Path.Ordinary name → d'.node? place = some .dir → d'.node? (place ++ [name]) = none →
      Builds dirs files d (d'.assign (place ++ [name]) .dir)
  | file {d' : Disk} {place : Place} {name : String} (bytes : ByteArray) :
      Builds dirs files d d' → files (place ++ [name]) →
      Path.Ordinary name → d'.node? place = some .dir → d'.node? (place ++ [name]) ≠ some .dir →
      Builds dirs files d (d'.assign (place ++ [name]) (.file bytes))

theorem WellFormed.assign (tree : d.WellFormed) (ordinary : Path.Ordinary name)
    (parent : d.node? place = some .dir) (free : d.node? (place ++ [name]) ≠ some .dir) :
    (d.assign (place ++ [name]) n).WellFormed := by
  have nonempty : place ++ [name] ≠ [] := by simp
  have before : ∀ {q other m}, (d.assign (place ++ [name]) n).node? (q ++ [other]) = some m →
      d.node? q = some .dir ∧ Path.Ordinary other := by
    intro q other m there
    rw [node?_assign nonempty] at there
    split at there
    · rename_i here
      obtain ⟨rfl, same⟩ := List.append_inj' here rfl
      obtain rfl : other = name := by simpa using same
      exact ⟨parent, ordinary⟩
    · exact ⟨tree.parent there, tree.ordinary there⟩
  refine ⟨fun there => ?_, fun there => (before there).2⟩
  rw [node?_assign nonempty]
  split
  · rename_i below
    exact absurd (below ▸ (before there).1) free
  · exact (before there).1

theorem fileAt_assign_other (other : q ≠ place ++ [name]) :
    (d.assign (place ++ [name]) n).fileAt q = d.fileAt q :=
  fileAt_congr (by rw [node?_assign (by simp), if_neg other])

namespace Builds

theorem wellFormed (built : Builds dirs files d d') (tree : d.WellFormed) : d'.WellFormed := by
  induction built with
  | refl => exact tree
  | dir _ _ ordinary parent absent ih => exact ih.assign ordinary parent (by simp [absent])
  | file _ _ _ ordinary parent free ih => exact ih.assign ordinary parent free

theorem trans (first : Builds dirs files d d') (second : Builds dirs files d' d'') :
    Builds dirs files d d'' := by
  induction second with
  | refl => exact first
  | dir _ inside ordinary parent absent ih => exact .dir ih inside ordinary parent absent
  | file bytes _ inside ordinary parent free ih => exact .file bytes ih inside ordinary parent free

theorem mono (built : Builds dirs files d d') (moreDirs : ∀ q, dirs q → dirs' q)
    (moreFiles : ∀ q, files q → files' q) : Builds dirs' files' d d' := by
  induction built with
  | refl => exact .refl
  | dir _ inside ordinary parent absent ih =>
    exact .dir ih (moreDirs _ inside) ordinary parent absent
  | file bytes _ inside ordinary parent free ih =>
    exact .file bytes ih (moreFiles _ inside) ordinary parent free

theorem node?_eq (built : Builds dirs files d d') (noDir : ¬ dirs q) (noFile : ¬ files q) :
    d'.node? q = d.node? q := by
  induction built with
  | refl => rfl
  | dir _ inside _ _ _ ih | file _ _ inside _ _ _ ih =>
    rw [node?_assign (by simp), if_neg (by rintro rfl; contradiction)]
    exact ih

theorem cwd_eq (built : Builds dirs files d d') : d'.cwd = d.cwd := by
  induction built with
  | refl => rfl
  | dir _ _ _ _ _ ih | file _ _ _ _ _ _ ih => exact ih

/-- What is a directory stays one. -/
theorem dir_kept (built : Builds dirs files d d') (there : d.node? q = some .dir) :
    d'.node? q = some .dir := by
  induction built with
  | refl => exact there
  | dir _ _ _ _ _ ih =>
    rw [node?_assign (by simp)]
    split
    · rfl
    · exact ih
  | file _ _ _ _ _ free ih =>
    rw [node?_assign (by simp)]
    split
    · rename_i same
      exact absurd (same ▸ ih) free
    · exact ih

/-- A directory that is new lies where directories were to be made. -/
theorem dir_new (built : Builds dirs files d d') (there : d'.node? q = some .dir) :
    d.node? q = some .dir ∨ dirs q := by
  induction built with
  | refl => exact .inl there
  | dir _ inside _ _ _ ih =>
    rw [node?_assign (by simp)] at there
    split at there
    · rename_i here
      exact .inr (here ▸ inside)
    · exact ih there
  | file _ _ _ _ _ _ ih =>
    rw [node?_assign (by simp)] at there
    split at there
    · cases there
    · exact ih there

theorem passes {parts : List Path.Part} (built : Builds dirs files d d')
    (open_ : d.Passes parts) : d'.Passes parts :=
  fun front inside proper => built.dir_kept (open_ front inside proper)

/-- Files stay as they are outside the region for files. -/
theorem fileAt_eq (built : Builds dirs files d d') (noFile : ¬ files q) :
    d'.fileAt q = d.fileAt q := by
  induction built with
  | refl => rfl
  | @dir d' place name _ _ _ _ absent ih =>
    by_cases same : q = place ++ [name]
    · rw [← ih, fileAt, fileAt, node?_assign (by simp), if_pos same, same, absent]
    · rw [fileAt_assign_other same, ih]
  | file _ _ inside _ _ _ ih =>
    rw [fileAt_assign_other (by rintro rfl; contradiction), ih]

/-- A file outside the region for files is read as before, if the way to it was open. -/
theorem readText_iff {p : Path} {text : String} (built : Builds dirs files d d')
    (absolute : p.isAbsolute = true) (open_ : d.Passes p.parts) (noFile : ¬ files p.resolved) :
    d'.readText p = .ok text ↔ d.readText p = .ok text := by
  rw [readText_ok_iff, readText_ok_iff]
  refine exists_congr fun bytes => and_congr_left fun _ => ?_
  rw [read_ok_iff_passes absolute, read_ok_iff_passes absolute, built.fileAt_eq noFile]
  simp only [open_, built.passes open_]

end Builds

/-! ### Disks that have more -/

/-- Whatever the other disk has, this one has something of the same kind there. -/
structure Covers (d d' : Disk) : Prop where
  dir : ∀ {q}, d'.node? q = some .dir → d.node? q = some .dir
  file : ∀ {q}, (d'.fileAt q).isSome → (d.fileAt q).isSome

namespace Covers

theorem refl : Covers d d := ⟨id, id⟩

theorem trans (first : Covers d d') (second : Covers d' d'') : Covers d d'' :=
  ⟨fun there => first.dir (second.dir there), fun there => first.file (second.file there)⟩

variable {parts : List Path.Part} {p : Path} (covers : Covers d' d) (cwd : d'.cwd = d.cwd)

include covers cwd

theorem follow_ok (followed : d.follow parts = .ok q) : d'.follow parts = .ok q := by
  have start : d'.start parts = d.start parts := by rw [Disk.start, Disk.start, cwd]
  obtain ⟨here, passes⟩ := follow_iff.mp followed
  rw [follow_iff, start]
  exact ⟨here, fun front inside proper => covers.dir (passes front inside proper)⟩

theorem locate_ok (located : d.locate p = .ok q) : d'.locate p = .ok q := by
  obtain ⟨free, nonempty, followed⟩ := locate_iff.mp located
  exact locate_iff.mpr ⟨free, nonempty, covers.follow_ok cwd followed⟩

/-- A path that leads to a directory still does. -/
theorem stat_dir (dir : d.stat p = .ok .dir) : d'.stat p = .ok .dir := by
  obtain ⟨place, located, there, -⟩ := stat_ok_iff_locate.mp dir
  exact stat_ok_iff_locate.mpr ⟨place, covers.locate_ok cwd located, covers.dir there, fun _ => rfl⟩

end Covers

theorem Builds.covers (built : Builds dirs files d d') : Covers d' d where
  dir := built.dir_kept
  file {q} there := by
    induction built with
    | refl => exact there
    | @dir d' place name _ _ _ _ absent ih =>
      by_cases same : q = place ++ [name]
      · simp [same, fileAt, absent] at ih
      · rw [fileAt_assign_other same]
        exact ih
    | @file d' place name bytes _ _ _ _ _ ih =>
      by_cases same : q = place ++ [name]
      · simp [fileAt, node?_assign, same]
      · rw [fileAt_assign_other same]
        exact ih

/-! ### Around a place -/

/-- Neither place is at or below the other. -/
structure Apart (a b : Place) : Prop where
  left : ¬ a <+: b
  right : ¬ b <+: a

/-- Nothing lies below two places that are apart. -/
theorem Apart.not_below {a b q : Place} (apart : Apart a b) (below : a <+: q) : ¬ b <+: q := by
  intro below'
  obtain h | h := List.prefix_or_prefix_of_prefix below below'
  · exact apart.left h
  · exact apart.right h

/-- What lies below places that are apart is apart. -/
theorem Apart.mono {a a' b b' : Place} (apart : Apart a b) (left : a <+: a') (right : b <+: b') :
    Apart a' b' := by
  constructor
  · intro above
    exact apart.not_below (left.trans above) right
  · intro above
    exact apart.not_below left (right.trans above)

/-- At or below a place. -/
def under (target : Place) : Place → Prop := fun q => target <+: q

/-- At or below a place, or on the way there. -/
def around (target : Place) : Place → Prop := fun q => q <+: target ∨ target <+: q

theorem around_of_above (below : target <+: place) (above : q <+: place) : around target q :=
  List.prefix_or_prefix_of_prefix above below

theorem around_mono (below : target <+: place) (near : around place q) : around target q := by
  obtain above | inside := near
  · exact around_of_above below above
  · exact .inr (below.trans inside)

/-- Where parts pass on their way, its end included. -/
def along (parts : List Path.Part) : Place → Prop :=
  fun q => ∃ front, front <+: parts ∧ q = Path.resolve [] front

/-- A path that leads straight to a place passes what is above it. -/
theorem along_straight {p : Path} (leads : p.LeadsTo place) (on : along p.parts q) :
    q <+: place := by
  obtain ⟨front, inside, rfl⟩ := on
  rw [leads] at inside
  cases front with
  | nil => exact List.nil_prefix
  | cons first front =>
    obtain ⟨rfl, deeper⟩ := List.cons_prefix_cons.mp inside
    obtain ⟨names, above, rfl⟩ := List.prefix_map_iff.mp deeper
    rw [Path.resolve, List.foldl_cons, ← Path.resolve, Path.resolve_names]
    exact above

/-- What is built around a place leaves everything as it was that lies apart from it. -/
theorem Builds.node?_apart (built : Builds (around target) (under target) d d')
    (apart : Apart source target) (below : source <+: q) : d'.node? q = d.node? q := by
  refine built.node?_eq ?_ (apart.not_below below)
  rintro (above | inside)
  · exact apart.left (below.trans above)
  · exact apart.not_below below inside

end BundleMerge.Disk
