import BundleMerge.Proofs.Disk.Write

/-! Files that are written as a whole, wherever the path starts. A write that succeeds puts one
file, which is then found at its path, and every other file is as it was. -/
namespace BundleMerge.Disk

variable {d d' : Disk} {s s' : Site} {p : Path} {place q : Place} {parts : List Path.Part}
  {bytes : ByteArray} {n : Node} {answer : Except DiskError Unit}

/-- No file has changed, and nothing has been asked. -/
structure Spares (s s' : Site) : Prop where
  asked : s'.asked = s.asked
  files : ∀ q, s'.disk.fileAt q = s.disk.fileAt q

theorem Spares.refl (s : Site) : Spares s s := ⟨rfl, fun _ => rfl⟩

theorem Spares.trans {s'' : Site} (first : Spares s s') (second : Spares s' s'') : Spares s s'' :=
  ⟨second.asked.trans first.asked, fun q => (second.files q).trans (first.files q)⟩

theorem fileAt_assign_dir (free : d.node? place = none) (q : Place) :
    (d.assign place .dir).fileAt q = d.fileAt q := by
  have nonempty : place ≠ [] := by
    rintro rfl
    cases (node?_root d).symm.trans free
  by_cases here : q = place
  · subst here
    simp [fileAt, node?_assign nonempty, free]
  · exact fileAt_congr (by rw [node?_assign nonempty, if_neg here])

theorem makeDir_files (made : d.makeDir parts = .ok d') (q : Place) :
    d'.fileAt q = d.fileAt q := by
  unfold makeDir at made
  split at made
  · cases made
  · split at made
    · cases made
    · cases made
      exact fileAt_assign_dir ‹_› q

theorem ensureDir_spares (ran : (ensureDir parts).run s = (answer, s')) : Spares s s' := by
  rw [ensureDir, Action.run_change] at ran
  split at ran
  · cases ran
    exact .refl s
  · rename_i d' ensured
    cases ran
    split at ensured
    · cases ensured
      exact ⟨rfl, makeDir_files ‹_›⟩
    · split at ensured
      · cases ensured
        exact .refl s
      · cases ensured

theorem makeDirsBack_spares {back : List Path.Part}
    (ran : (makeDirsBack back).run s = (answer, s')) : Spares s s' := by
  induction back generalizing s' answer with
  | nil =>
    cases ran
    exact .refl s
  | cons part above ih =>
    rw [makeDirsBack_cons, Action.run_bind, Action.run_get] at ran
    dsimp only at ran
    split at ran
    · rw [if_pos rfl, Action.run_bind] at ran
      split at ran
      · exact (ih ‹_›).trans (ensureDir_spares ran)
      · cases ran
        exact ih ‹_›
    · exact ensureDir_spares ran

theorem makeParents_spares (ran : (makeParents p).run s = (answer, s')) : Spares s s' := by
  unfold makeParents at ran
  split at ran
  · cases ran
    exact .refl s
  · exact makeDirsBack_spares ran

/-- The way to a place leads through directories, so it is not changed by a file. -/
theorem foldlM_advance_assign (free : d.node? place ≠ some .dir) {from_ : Place}
    (found : parts.foldlM d.advance from_ = .ok q) :
    parts.foldlM (d.assign place n).advance from_ = .ok q := by
  have nonempty : place ≠ [] := by
    rintro rfl
    exact free (node?_root d)
  obtain ⟨rfl, dirs⟩ := foldlM_advance.mp found
  refine foldlM_advance.mpr ⟨rfl, fun front inside proper => ?_⟩
  have dir := dirs front inside proper
  have other : Path.resolve from_ front ≠ place := by
    rintro rfl
    exact free dir
  rwa [node?_assign nonempty, if_neg other]

theorem locate_assign (free : d.node? place ≠ some .dir) (found : d.locate p = .ok q) :
    (d.assign place n).locate p = .ok q := by
  unfold locate at found ⊢
  split_ifs at found ⊢
  unfold follow at found ⊢
  split at found
  · exact foldlM_advance_assign free found
  · exact foldlM_advance_assign free found

/-- What a write leaves that puts one file as a whole. -/
structure Wrote (p : Path) (bytes : ByteArray) (s s' : Site) : Prop where
  asked : s'.asked = s.asked
  read : s'.disk.read p = .ok bytes
  place : ∃ place, s'.disk.locate p = .ok place ∧ s'.disk.fileAt place = some bytes ∧
    ∀ other, other ≠ place → s'.disk.fileAt other = s.disk.fileAt other

theorem writeAtomic_wrote (ran : (writeAtomic p bytes).run s = (.ok (), s')) :
    Wrote p bytes s s' := by
  obtain ⟨_, s₁, parents, ran⟩ := Action.bind_ok ran
  obtain ⟨d, written, rfl⟩ := Action.change_ok ran
  obtain ⟨asked, files⟩ := makeParents_spares parents
  obtain ⟨place, located, free, ⟨-, file, -⟩, rfl⟩ := replace_ok_iff.mp written
  have nonempty : place ≠ [] := by
    rintro rfl
    exact free (node?_root _)
  have here : (s₁.disk.assign place (.file bytes)).node? place = some (.file bytes) := by
    rw [node?_assign nonempty, if_pos rfl]
  have found := locate_assign (n := .file bytes) free located
  refine ⟨asked, ?_, place, found, fileAt_eq_some_iff.mpr here, fun other apart => ?_⟩
  · simp only [Disk.read, stat, found, here, file, Bool.false_eq_true, if_false]
  · exact (fileAt_congr (by rw [node?_assign nonempty, if_neg apart])).trans (files other)

end BundleMerge.Disk
