import BundleMerge.Proofs.Disk.Descent

/-! What a copy amounts to, whatever the order in which directories are listed: the files and the
directories that no excluded path leads to are at the destination, and nothing else is new. -/
namespace BundleMerge.Disk

variable {d d' : Disk} {s s' : Site} {src dest : Path} {base source target place q : Place}
  {exclude : Exclusion} {names : List String} {n : Node} {count : Nat}
  {entries : List (List String × Node)} {dirs files : Place → Prop}

/-- No path from the root of the tree to the entry is excluded, the root and the entry included. -/
def Reached (exclude : Exclusion) (src dest : Path) (names : List String) : Prop :=
  ∀ front, front <+: names → exclude (src.descend front) (dest.descend front) = false

/-- What a copy of a tree has done to a disk. -/
structure CopiedExactly (exclude : Exclusion) (src dest : Path) (count : Nat) (d d' : Disk) :
    Prop where
  files : ∀ names bytes, Reached exclude src dest names →
    d.fileAt (src.seenFrom d.cwd ++ names) = some bytes →
    d'.fileAt (dest.seenFrom d.cwd ++ names) = some bytes
  count : ∃ copied : List (List String), copied.Nodup ∧ copied.length = count ∧ ∀ names,
    names ∈ copied ↔ Reached exclude src dest names ∧
      (d.fileAt (src.seenFrom d.cwd ++ names)).isSome
  dirs : ∀ names, Reached exclude src dest names →
    d.node? (src.seenFrom d.cwd ++ names) = some .dir →
    d'.node? (dest.seenFrom d.cwd ++ names) = some .dir
  /-- No other file is created, changed or removed. -/
  others : ∀ q, d'.fileAt q ≠ d.fileAt q → ∃ names, Reached exclude src dest names ∧
    (d.fileAt (src.seenFrom d.cwd ++ names)).isSome ∧ q = dest.seenFrom d.cwd ++ names
  /-- A directory is new only if one was reached that it copies, or above the destination. -/
  made : ∀ q, d'.node? q = some .dir → d.node? q = some .dir ∨
    (∃ names, Reached exclude src dest names ∧
      d.node? (src.seenFrom d.cwd ++ names) = some .dir ∧ q = dest.seenFrom d.cwd ++ names) ∨
    (q <+: dest.seenFrom d.cwd ∧ q ≠ dest.seenFrom d.cwd)
  kept : ∀ q, d.node? q = some .dir → d'.node? q = some .dir

/-! ### Directories -/

/-- Each directory of the list is there after the copy. -/
theorem copyEntries_dir_ok (tree : s.disk.WellFormed) (ordinary : OrdinaryEntries entries)
    (some : (dest.descend names).parts ≠ [])
    (ran : (copyEntries src dest entries).run s = (.ok count, s'))
    (listed : (names, .dir) ∈ entries) :
    s'.disk.node? (dest.seenFrom s.disk.cwd ++ names) = .some .dir := by
  induction entries generalizing s count with
  | nil => cases listed
  | cons entry rest ih =>
    obtain ⟨first, others⟩ := List.forall_mem_cons.mp ordinary
    obtain ⟨_, s₁, copying, copyingRest⟩ := Action.bind_ok ran
    obtain ⟨_, s₂, copiedRest, counted⟩ := Action.bind_ok copyingRest
    obtain ⟨-, rfl⟩ := Action.pure_ok counted
    have built := (copyEntry_builds first).of_run tree copying
    have tree₁ := built.wellFormed tree
    obtain rfl | listed := List.mem_cons.mp listed
    · obtain ⟨_, s₃, making, made⟩ := Action.bind_ok (Action.withError_ok copying)
      obtain ⟨-, rfl⟩ := Action.pure_ok made
      have there := makeDirsFor_ok some tree making
      rw [Path.seenFrom_descend first] at there
      exact ((copyEntries_builds others).of_run tree₁ copiedRest).dir_kept there
    · rw [← built.cwd_eq]
      exact ih tree₁ others copiedRest listed

/-! ### The whole copy -/

theorem mem_copyable (tree : d.WellFormed) : (names, n) ∈ d.copyable exclude src dest ↔
    d.node? (src.seenFrom d.cwd ++ names) = some n ∧ Reached exclude src dest names := by
  rw [copyable, List.mem_filter, mem_walk tree, Bool.not_eq_true', cutOff_eq_false_iff]
  rfl

section Entries

variable (tree : s.disk.WellFormed) (all : entries.Perm (s.disk.copyable exclude src dest))

include tree all

theorem mem_of_all : (names, n) ∈ entries ↔
    s.disk.node? (src.seenFrom s.disk.cwd ++ names) = some n ∧ Reached exclude src dest names :=
  all.mem_iff.trans (mem_copyable tree)

theorem ordinary_of_all : OrdinaryEntries entries := by
  rintro ⟨names, n⟩ member name inside
  exact tree.names ((mem_of_all tree all).mp member).1 name (List.mem_append_right _ inside)

theorem count_of_all (ran : (copyEntries src dest entries).run s = (.ok count, s')) :
    ∃ copied : List (List String), copied.Nodup ∧ copied.length = count ∧ ∀ names,
      names ∈ copied ↔ Reached exclude src dest names ∧
        (s.disk.fileAt (src.seenFrom s.disk.cwd ++ names)).isSome := by
  have distinct : (entries.map (·.1)).Nodup := by
    rw [(all.map _).nodup_iff]
    exact Sorted.nodup_names ((walk_sorted ..).filter _)
  refine ⟨(entries.filter (·.2 ≠ .dir)).map (·.1), ?_, ?_, fun names => ?_⟩
  · exact distinct.sublist (List.filter_sublist.map _)
  · rw [List.length_map]
    exact (copyEntries_count ran).symm
  · simp only [List.mem_map, List.mem_filter, Prod.exists, mem_of_all tree all, decide_eq_true_eq,
      Option.isSome_iff_exists, fileAt_eq_some_iff]
    constructor
    · rintro ⟨names, n, ⟨⟨there, reached⟩, notDir⟩, rfl⟩
      cases n with
      | dir => exact absurd rfl notDir
      | file bytes => exact ⟨reached, bytes, there⟩
    · rintro ⟨reached, bytes, there⟩
      exact ⟨names, .file bytes, ⟨⟨there, reached⟩, by simp⟩, rfl⟩

theorem file_of_all {bytes : ByteArray}
    (apart : Apart (src.seenFrom s.disk.cwd) (dest.seenFrom s.disk.cwd))
    (ran : (copyEntries src dest entries).run s = (.ok count, s'))
    (reached : Reached exclude src dest names)
    (file : s.disk.fileAt (src.seenFrom s.disk.cwd ++ names) = some bytes) :
    s'.disk.fileAt (dest.seenFrom s.disk.cwd ++ names) = some bytes := by
  have listed := (mem_of_all tree all).mpr ⟨fileAt_eq_some_iff.mp file, reached⟩
  rw [copyEntries_ok tree rfl rfl apart (ordinary_of_all tree all) ran listed, file]

theorem dir_of_all (home : dest.parts = [] → s.disk.node? s.disk.cwd = some .dir)
    (ran : (copyEntries src dest entries).run s = (.ok count, s'))
    (reached : Reached exclude src dest names)
    (dir : s.disk.node? (src.seenFrom s.disk.cwd ++ names) = some .dir) :
    s'.disk.node? (dest.seenFrom s.disk.cwd ++ names) = some .dir := by
  have ordinary := ordinary_of_all tree all
  have listed := (mem_of_all tree all).mpr ⟨dir, reached⟩
  by_cases some : (dest.descend names).parts = []
  · -- The empty path is where relative ones start, and no directory is made for it.
    rw [Path.parts_descend (ordinary _ listed), List.append_eq_nil_iff, List.map_eq_nil_iff] at some
    obtain ⟨empty, rfl⟩ := some
    rw [Path.seenFrom, empty, List.append_nil]
    exact ((copyEntries_builds ordinary).of_run tree ran).dir_kept (home empty)
  · exact copyEntries_dir_ok tree ordinary some ran listed

/-- Where a directory is made, one was reached, or a file that lies in it, or it is above the
destination. -/
theorem dirs_of_all (straight : Path.Part.up ∉ dest.parts)
    (on : dirsOf s.disk.cwd dest entries q) :
    (∃ names n, Reached exclude src dest names ∧
      s.disk.node? (src.seenFrom s.disk.cwd ++ names) = some n ∧
      q = dest.seenFrom s.disk.cwd ++ names) ∨
    (q <+: dest.seenFrom s.disk.cwd ∧ q ≠ dest.seenFrom s.disk.cwd) := by
  obtain ⟨⟨names, n⟩, member, way⟩ := on
  obtain ⟨there, reached⟩ := (mem_of_all tree all).mp member
  have above := passed_around straight (ordinary_of_all tree all _ member) way
  -- A prefix of an entry's way is an entry too, or ends above the destination.
  have inner : dest.seenFrom s.disk.cwd <+: q → ∃ names n, Reached exclude src dest names ∧
      s.disk.node? (src.seenFrom s.disk.cwd ++ names) = some n ∧
      q = dest.seenFrom s.disk.cwd ++ names := by
    rintro ⟨front, rfl⟩
    obtain ⟨rest, rfl⟩ := (List.prefix_append_right_inj _).mp above
    have open_ : Reached exclude src dest front := fun early inside =>
      reached early (inside.trans (List.prefix_append ..))
    by_cases last : rest = []
    · subst last
      rw [List.append_nil] at there
      exact ⟨front, n, open_, there, rfl⟩
    · rw [← List.append_assoc] at there
      exact ⟨front, .dir, open_, tree.above there last, rfl⟩
  by_cases inside : dest.seenFrom s.disk.cwd <+: q
  · exact .inl (inner inside)
  · refine .inr ⟨?_, ?_⟩
    · have order := List.prefix_or_prefix_of_prefix above (List.prefix_append ..)
      exact order.resolve_right inside
    · rintro rfl
      exact inside List.prefix_rfl

end Entries

/-- Copying the entries of a tree, in whatever order, copies the tree exactly. -/
theorem copyEntries_exact (tree : s.disk.WellFormed)
    (home : dest.parts = [] → s.disk.node? s.disk.cwd = some .dir)
    (straight : Path.Part.up ∉ dest.parts)
    (apart : Apart (src.seenFrom s.disk.cwd) (dest.seenFrom s.disk.cwd))
    (all : entries.Perm (s.disk.copyable exclude src dest))
    (ran : (copyEntries src dest entries).run s = (.ok count, s')) :
    CopiedExactly exclude src dest count s.disk s'.disk := by
  have built := (copyEntries_builds (ordinary_of_all tree all)).of_run tree ran
  constructor
  · intro names bytes reached file
    exact file_of_all tree all apart ran reached file
  · exact count_of_all tree all ran
  · intro names reached dir
    exact dir_of_all tree all home ran reached dir
  · intro q changed
    by_contra none
    refine changed (built.fileAt_eq ?_)
    rintro ⟨⟨names, n⟩, member, notDir, rfl⟩
    obtain ⟨there, reached⟩ := (mem_of_all tree all).mp member
    cases n with
    | dir => exact notDir rfl
    | file bytes =>
      exact none ⟨names, reached, by rw [fileAt_eq_some_iff.mpr there]; rfl, rfl⟩
  · intro q dir
    obtain old | on := built.dir_new dir
    · exact .inl old
    · refine .inr ((dirs_of_all tree all straight on).imp_left ?_)
      rintro ⟨names, n, reached, there, rfl⟩
      cases n with
      | dir => exact ⟨names, reached, there, rfl⟩
      | file bytes =>
        have file := file_of_all tree all apart ran reached (fileAt_eq_some_iff.mpr there)
        rw [fileAt_eq_some_iff, dir] at file
        cases file
  · exact fun q => built.dir_kept

/-- Each order of listing has its outcome, which is exact. -/
theorem ends_exact {order : Order} (lists : order.Lists) (tree : s.disk.WellFormed)
    (home : s.disk.node? s.disk.cwd = some .dir) (straight : Path.Part.up ∉ dest.parts)
    (apart : Apart (src.seenFrom s.disk.cwd) (dest.seenFrom s.disk.cwd)) :
    ∃ outcome, Ends order exclude src dest s outcome ∧
      (order = inOrder → (copy exclude src dest).run s = outcome) ∧
      ∀ count s', outcome = (.ok count, s') →
        CopiedExactly exclude src dest count s.disk s'.disk := by
  cases open_ : exclude src dest with
  | true =>
    refine ⟨_, ends_excluded open_, fun _ => copy_excluded open_, fun count s' same => ?_⟩
    have nothing : s.disk.copyable exclude src dest = [] := by
      simp [copyable, cutOff_of_excluded open_]
    exact copyEntries_exact tree (fun _ => home) straight apart (.of_eq nothing.symm) same
  | false =>
    cases seen : s.disk.stat src with
    | error e =>
      refine ⟨_, ends_unread open_ seen, fun _ => copy_unread open_ seen, ?_⟩
      intro count s' same
      cases same
    | ok n =>
      obtain ⟨entries, all, ordered, ends⟩ := ends_read lists tree straight apart seen
      refine ⟨_, ends, fun listed => ?_, fun count s' ran => ?_⟩
      · rw [ordered listed]
        exact copy_read open_ seen
      · exact copyEntries_exact tree (fun _ => home) straight apart all ran

/-- A copy between trees that lie apart comes to an end, in whatever order directories are listed
once those above them have been made; if it succeeds, it has copied the source exactly. What is
copied by a list that is made in advance is the outcome for directories listed in order. -/
theorem copy_exact (tree : s.disk.WellFormed) (home : s.disk.node? s.disk.cwd = some .dir)
    (straight : Path.Part.up ∉ dest.parts)
    (apart : Apart (src.seenFrom s.disk.cwd) (dest.seenFrom s.disk.cwd)) :
    (∀ order : Order, order.Lists → ∃ outcome, Ends order exclude src dest s outcome ∧
      ∀ count s', outcome = (.ok count, s') →
        CopiedExactly exclude src dest count s.disk s'.disk) ∧
    Ends inOrder exclude src dest s ((copy exclude src dest).run s) ∧
    ∀ count s', (copy exclude src dest).run s = (.ok count, s') →
      CopiedExactly exclude src dest count s.disk s'.disk := by
  refine ⟨fun order lists => ?_, ?_⟩
  · obtain ⟨outcome, ends, -, exact_⟩ := ends_exact lists tree home straight apart
    exact ⟨outcome, ends, exact_⟩
  · obtain ⟨outcome, ends, ordered, exact_⟩ :=
      ends_exact inOrder_lists tree home straight apart
    rw [ordered rfl]
    exact ⟨ends, exact_⟩

/-- A copy that succeeds copies all that there is to be copied. -/
theorem copyEntries_of_copy (ran : (copy exclude src dest).run s = (.ok count, s')) :
    (copyEntries src dest (s.disk.copyable exclude src dest)).run s = (.ok count, s') := by
  cases open_ : exclude src dest with
  | true =>
    have nothing : s.disk.copyable exclude src dest = [] := by
      simp [copyable, cutOff_of_excluded open_]
    rw [copy_excluded open_] at ran
    rw [nothing]
    exact ran
  | false =>
    cases seen : s.disk.stat src with
    | error e =>
      rw [copy_unread open_ seen] at ran
      cases ran
    | ok n => rwa [← copy_read open_ seen]

/-- A copy that is not left out altogether begins with the destination itself. -/
theorem nulFree_of_copy (open_ : exclude src dest = false)
    (ran : (copy exclude src dest).run s = (.ok count, s')) : dest.NulFree := by
  by_contra nul
  have top : cutOff exclude src dest [] = false := open_
  obtain ⟨n, seen⟩ := existsAt_iff.mp (exists_of_copy ran top)
  obtain ⟨place, located, there, -⟩ := stat_ok_iff_locate.mp seen
  rw [locate_place located] at there
  obtain ⟨rest, first⟩ : ∃ rest, s.disk.copyable exclude src dest = ([], n) :: rest := by
    rw [copyable, walk_eq there, List.filter_cons_of_pos (by simp [top])]
    exact ⟨_, rfl⟩
  rw [copy_read open_ seen, first, copyEntries, Action.run_bind, copyEntry_nul nul] at ran
  cases ran

/-- Where a copy has directories: one for each that it reaches, and those above the destination. -/
def CopiesDir (d : Disk) (exclude : Exclusion) (src dest : Path) (source target q : Place) : Prop :=
  exclude src dest = false ∧
    ((∃ names, Reached exclude src dest names ∧ d.node? (source ++ names) = some .dir ∧
      q = target ++ names) ∨ (q <+: target ∧ q ≠ target))

/-- After a copy there are the directories that it has, besides those that there were. -/
theorem copy_dirs (tree : s.disk.WellFormed) (from_ : src.LeadsTo source)
    (to_ : dest.LeadsTo target) (apart : Apart source target)
    (ran : (copy exclude src dest).run s = (.ok count, s')) :
    s'.disk.node? q = some .dir ↔
      s.disk.node? q = some .dir ∨ CopiesDir s.disk exclude src dest source target q := by
  have here : src.seenFrom s.disk.cwd = source := from_.seenFrom
  have there : dest.seenFrom s.disk.cwd = target := to_.seenFrom
  have some : dest.parts ≠ [] := (Path.rooted to_.absolute).ne_nil
  have exact_ := copyEntries_exact tree (fun empty => absurd empty some) to_.straight
    (by rwa [here, there]) (.refl _) (copyEntries_of_copy ran)
  obtain ⟨files, -, dirs, -, made, kept⟩ := exact_
  rw [here, there] at files dirs made
  constructor
  · intro dir
    cases open_ : exclude src dest with
    | true =>
      rw [copy_excluded open_] at ran
      cases ran
      exact .inl dir
    | false => exact (made q dir).imp_right fun new => ⟨open_, new⟩
  · rintro (old | ⟨open_, ⟨names, reached, dir, rfl⟩ | ⟨above, proper⟩⟩)
    · exact kept q old
    · exact dirs names reached dir
    · -- Something is at the destination now, and what lies above that is a directory.
      have top : Reached exclude src dest [] := cutOff_eq_false_iff.mp open_
      obtain ⟨n, seen⟩ := existsAt_iff.mp (exists_of_copy ran (cutOff_eq_false_iff.mpr top))
      obtain ⟨-, there, -⟩ := (stat_ok_iff tree from_).mp seen
      have arrived : ∃ n, s'.disk.node? target = .some n := by
        rw [← List.append_nil source] at there
        rw [← List.append_nil target]
        cases n with
        | dir => exact ⟨.dir, dirs [] top there⟩
        | file bytes =>
          exact ⟨_, fileAt_eq_some_iff.mp (files [] bytes top (fileAt_eq_some_iff.mpr there))⟩
      obtain ⟨n, arrived⟩ := arrived
      obtain ⟨rest, rfl⟩ := above
      have tree' := ((copy_builds from_ to_).of_run tree ran).wellFormed tree
      exact tree'.above arrived (by simpa using proper)

/-- A directory where relative paths start, with a tree in it. -/
def prunedDisk : Disk :=
  [(["w"], .dir), (["w", "src"], .dir), (["w", "src", "a"], .file ⟨#[49]⟩),
    (["w", "src", "sub"], .dir), (["w", "src", "sub", "b"], .file ⟨#[50]⟩),
    (["w", "src", "tmp"], .dir), (["w", "src", "tmp", "c"], .file ⟨#[51]⟩)].foldl
    (fun d entry => d.assign entry.1 entry.2) (.empty ["w"])

def pruned : Exclusion := fun src _ => src.endsWith ⟨"tmp"⟩

/-- Of the tree two files are copied, and nothing of the directory that is excluded. -/
theorem copy_exact_pruned :
    ∃ s', (copy pruned ⟨"src"⟩ ⟨"/out/new"⟩).run ⟨prunedDisk, []⟩ = (.ok 2, s') ∧
      CopiedExactly pruned ⟨"src"⟩ ⟨"/out/new"⟩ 2 prunedDisk s'.disk ∧
      s'.disk.fileAt ["out", "new", "sub", "b"] = some ⟨#[50]⟩ ∧
      s'.disk.node? ["out", "new", "tmp"] = none := by
  have tree : prunedDisk.WellFormed := .of_nodes (by decide +kernel)
  have home : prunedDisk.node? prunedDisk.cwd = some .dir := by decide +kernel
  have straight : Path.Part.up ∉ (⟨"/out/new"⟩ : Path).parts := by decide +kernel
  have apart : Apart ((⟨"src"⟩ : Path).seenFrom prunedDisk.cwd)
      ((⟨"/out/new"⟩ : Path).seenFrom prunedDisk.cwd) := ⟨by decide +kernel, by decide +kernel⟩
  have counted : ((copy pruned ⟨"src"⟩ ⟨"/out/new"⟩).run ⟨prunedDisk, []⟩).1.toOption = some 2 := by
    decide +kernel
  have left : ((copy pruned ⟨"src"⟩ ⟨"/out/new"⟩).run ⟨prunedDisk, []⟩).2.disk.node?
      ["out", "new", "tmp"] = none := by
    decide +kernel
  generalize ran : (copy pruned ⟨"src"⟩ ⟨"/out/new"⟩).run ⟨prunedDisk, []⟩ = outcome at counted left
  obtain ⟨answer, s'⟩ := outcome
  cases answer with
  | error e => cases counted
  | ok count =>
    cases counted
    obtain ⟨-, -, copied⟩ := copy_exact (s := ⟨prunedDisk, []⟩) tree home straight apart
    have exact_ := copied 2 s' ran
    refine ⟨s', rfl, exact_, ?_, left⟩
    refine exact_.files ["sub", "b"] ⟨#[50]⟩ ?_ (by decide +kernel)
    exact cutOff_eq_false_iff.mp (by decide +kernel)

end BundleMerge.Disk
