import BundleMerge.Proofs.Merger.PerFile

/-! What the two passes over the output tree copy. The full-tree pass leaves out whatever lies
below an excluded path. The per-file pass comes into the tree at a path of its queue and does not
look at the directories above it, so that it copies more. -/
namespace BundleMerge.Merger

variable {m : Merger} {d : Disk} {src rel : Path} {queue : List Path} {copy : Path × Path}
  {names : List String}

/-- The files that the full-tree pass copies. -/
def treeCopies (m : Merger) (d : Disk) : List (Path × Path) :=
  d.copies m.excluded m.config.output m.config.target

/-- Both copies come from one place and go to one place. -/
def SamePlaces (copy other : Path × Path) : Prop :=
  copy.1.sameAs other.1 = true ∧ copy.2.sameAs other.2 = true

/-- The full-tree pass copies whatever the per-file pass copies for the queue. -/
def Covered (m : Merger) (d : Disk) (queue : List Path) : Prop :=
  ∀ copy ∈ m.queueCopies d queue, ∃ other ∈ m.treeCopies d, SamePlaces copy other

instance {copy other : Path × Path} : Decidable (SamePlaces copy other) :=
  inferInstanceAs (Decidable (_ ∧ _))

instance : Decidable (m.Covered d queue) :=
  inferInstanceAs (Decidable (∀ copy ∈ m.queueCopies d queue, ∃ other ∈ m.treeCopies d, _))

theorem copyFullTree_count {s s' : Site} {count : Nat}
    (ran : m.copyFullTree.run s = (.ok count, s')) : count = (m.treeCopies s.disk).length :=
  Disk.copy_count ran

/-! ### One copy -/

theorem mem_treeCopies (tree : d.WellFormed)
    (output : m.config.output.LeadsTo m.config.output.names) :
    copy ∈ m.treeCopies d ↔ d.existsAt m.config.output = true ∧ ∃ names,
      (d.fileAt (m.config.output.names ++ names)).isSome ∧ m.kept names = true ∧
        copy = (m.config.output.descend names, m.config.target.descend names) := by
  rw [treeCopies, Disk.mem_copies tree output.absolute, output.resolved]
  simp only [kept_eq, Bool.not_eq_true']

/-- A copy of the per-file pass is one of the full-tree pass exactly if no path on the way to its
source is excluded. -/
theorem copy_covered_iff (accepted : m.options.Accepted) (tree : d.WellFormed)
    (queued : m.InOutput src) (copied : copy ∈ m.copiesOf d src) :
    (∃ other ∈ m.treeCopies d, SamePlaces copy other) ↔
      d.existsAt m.config.output = true ∧ m.kept (m.within copy.1) = true := by
  have output := queued.output accepted
  obtain ⟨rel, found, destination⟩ := queued.relative accepted
  obtain ⟨-, names, ordinary, there, -, rfl, leads⟩ :=
    copiesOf_below accepted tree queued found copied
  have below : ∀ s ∈ names, Path.Ordinary s := fun s member =>
    ordinary s (List.mem_append_right _ member)
  rw [within_eq leads]
  constructor
  · rintro ⟨other, member, source, -⟩
    obtain ⟨present, names', there', left, rfl⟩ := (mem_treeCopies tree output).mp member
    have leads' : (src.descend names).LeadsTo (m.config.output.names ++ names') := by
      rw [Path.LeadsTo, Path.sameAs_iff.mp source]
      exact output.descend (tree.names_below there')
    obtain rfl := List.append_cancel_left (leads.unique leads')
    exact ⟨present, left⟩
  · rintro ⟨present, left⟩
    refine ⟨_, (mem_treeCopies tree output).mpr ⟨present, _, there, left, rfl⟩, ?_, ?_⟩
    · have leads' := output.descend ordinary
      rw [Path.sameAs, decide_eq_true_iff]
      exact leads.trans leads'.symm
    · rw [Path.sameAs, decide_eq_true_iff]
      exact destination names below

theorem covered_iff_kept (accepted : m.options.Accepted) (tree : d.WellFormed)
    (queued : ∀ src ∈ queue, m.InOutput src) :
    m.Covered d queue ↔ ∀ copy ∈ m.queueCopies d queue,
      d.existsAt m.config.output = true ∧ m.kept (m.within copy.1) = true := by
  refine forall_congr' fun copy => forall_congr' fun member => ?_
  obtain ⟨src, listed, copied⟩ := List.mem_flatMap.mp member
  exact copy_covered_iff accepted tree (queued src listed) copied

/-! ### Paths that are spelled plainly -/

/-- The path is spelled as the output tree, followed by the names that lead on from there. -/
structure Plain (m : Merger) (src : Path) : Prop where
  below : m.within src ≠ []
  spelled : src = m.config.output.descend (m.within src)

/-- No directory above the path is excluded, from the output tree on. -/
def OpenAbove (m : Merger) (src : Path) : Prop :=
  ∀ front, front <+: m.within src → front ≠ m.within src →
    m.excluded (m.config.output.descend front) (m.config.target.descend front) = false

theorem Plain.relativeTo? (accepted : m.options.Accepted) (queued : m.InOutput src)
    (plain : m.Plain src) :
    src.relativeTo? m.config.output = some (Path.plain (m.within src)) ∧
      m.config.target.join (Path.plain (m.within src)) =
        m.config.target.descend (m.within src) := by
  have target := target_absolute accepted
  have output := (queued.output accepted).absolute
  have ordinary := queued.ordinary accepted
  constructor
  · conv_lhs => rw [plain.spelled]
    rw [Path.descend_eq_join (Path.nonempty_of_absolute output) plain.below ordinary]
    exact Path.relativeTo?_join_plain output plain.below ordinary
  · exact (Path.descend_eq_join (Path.nonempty_of_absolute target) plain.below ordinary).symm

/-- What a plain path leads to lies in an output tree that is there. -/
theorem Plain.output_exists (accepted : m.options.Accepted) (tree : d.WellFormed)
    (queued : m.InOutput src) (plain : m.Plain src) (present : d.existsAt src = true) :
    d.existsAt m.config.output = true := by
  have output := queued.output accepted
  have ordinary := queued.ordinary accepted
  obtain ⟨n, found⟩ := Disk.existsAt_iff.mp present
  obtain ⟨free, there, -⟩ := (Disk.stat_ok_iff tree (queued.leads accepted)).mp found
  have dir := tree.above there plain.below
  have nonempty := Path.nonempty_of_absolute output.absolute
  rw [plain.spelled, Path.descend_eq_join nonempty plain.below ordinary] at free
  have free' := free.of_join nonempty (Path.plain_relative ordinary)
  exact Disk.existsAt_iff.mpr
    ⟨.dir, (Disk.stat_ok_iff tree output).mpr ⟨free', dir, fun _ => rfl⟩⟩

/-- From a plain path on, both passes look at the same paths. -/
theorem Plain.kept_iff (accepted : m.options.Accepted) (queued : m.InOutput src)
    (plain : m.Plain src) (left : Disk.cutOff m.excluded src
      (m.config.target.join (Path.plain (m.within src))) names = false) :
    m.kept (m.within src ++ names) = true ↔ m.OpenAbove src := by
  rw [(plain.relativeTo? accepted queued).2, Disk.cutOff_eq_false_iff] at left
  rw [Merger.kept_iff]
  constructor
  · exact fun clear front above _ => clear front (above.trans (List.prefix_append ..))
  · intro clear front above
    obtain early | late := List.prefix_or_prefix_of_prefix above (List.prefix_append (m.within src) names)
    · by_cases here : front = m.within src
      · have top := left [] List.nil_prefix
        rw [here, ← plain.spelled]
        exact top
      · exact clear front early here
    · obtain ⟨rest, rfl⟩ := late
      have inside : rest <+: names := (List.prefix_append_right_inj _).mp above
      rw [Path.descend_append, Path.descend_append, ← plain.spelled]
      exact left rest inside

/-- Options that exclude a directory. -/
def privateOptions : Options where
  config :=
    { input := ⟨"/src"⟩, output := ⟨"/dist"⟩, target := ⟨"/out"⟩, exclude := ["**/private"] }
  excludes := [⟨.components :: "private".toList.map .char⟩]

def privately : Merger := .ofOptions privateOptions

/-- A disk with a file in the excluded directory, and one outside it. -/
def privateDisk : Disk :=
  [(["dist"], .dir), (["dist", "app.js"], .file ⟨#[49]⟩), (["dist", "b.js"], .file ⟨#[50]⟩),
    (["dist", "private"], .dir), (["dist", "private", "a.js"], .file ⟨#[51]⟩)].foldl
    (fun d entry => d.assign entry.1 entry.2) (.empty [])

theorem privately_accepted : privately.options.Accepted :=
  ⟨⟨"/"⟩, privateOptions.config, privateOptions, by decide, rfl, rfl⟩

theorem privateDisk_wellFormed : privateDisk.WellFormed :=
  .of_nodes (by decide)

end BundleMerge.Merger
