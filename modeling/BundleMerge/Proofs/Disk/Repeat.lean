import BundleMerge.Proofs.Action.Repeat
import BundleMerge.Proofs.Disk.Copy
import BundleMerge.Proofs.Disk.Whole

/-! Writing and copying can be repeated, as long as nothing is written where it is read. A directory
that has been made is found, and a file that has been put is put again in its place. -/
namespace BundleMerge.Disk

variable {d d' e e' : Disk} {s s' t : Site} {p src dest : Path} {source target : Place}
  {parts : List Path.Part} {names : List String} {bytes : ByteArray} {exclude : Exclusion}
  {reads : Place → Prop} {pre : Disk → Prop} {entry : List String × Node}
  {entries : List (List String × Node)}

/-- Nothing is read where the path leads, or on the way there. -/
structure Clear (reads : Place → Prop) (p : Path) : Prop where
  way : ∀ base q, passed base p.parts q → ¬ reads q
  place : ∀ base, ¬ reads (p.seenFrom base)

/-- A path into a tree is clear if nothing is read around the tree. -/
theorem clear_of_around (unread : ∀ q, around target q → ¬ reads q)
    (leads : p.LeadsTo (target ++ names)) : Clear reads p := by
  have inside : target <+: target ++ names := List.prefix_append ..
  constructor
  · intro base q on
    have above := along_straight leads (passed_along (Path.rooted leads.absolute) on)
    exact unread q (around_of_above inside above)
  · intro base
    rw [Path.seenFrom_absolute leads.absolute, leads.resolved]
    exact unread _ (.inr inside)

/-! ### Directories -/

theorem makeDirs_again (named : Named parts) (tree : s.disk.WellFormed)
    (ran : (makeDirs parts).run s = (.ok (), s')) (covers : t.disk.Covers s'.disk)
    (cwd : t.disk.cwd = s.disk.cwd) : (makeDirs parts).run t = (.ok (), t) := by
  by_cases empty : parts = []
  · subst empty
    rfl
  · have built := (makeDirs_builds named).of_run tree ran
    obtain ⟨place, followed, dir⟩ := isDirAt_iff.mp (makeDirs_ok empty named tree ran)
    have same : t.disk.cwd = s'.disk.cwd := cwd.trans built.cwd_eq.symm
    exact makeDirs_done (isDirAt_iff.mpr ⟨place, covers.follow_ok same followed, covers.dir dir⟩)

theorem makeDirs_repeats (named : Named parts) (clear : ∀ base q, passed base parts q → ¬ reads q) :
    Action.Repeats reads pre (makeDirs parts) := by
  refine .of_done (fun s tree _ => ?_) fun s t _ s' alike _ _ ran covers => ?_
  · exact (makeDirs_builds named s tree rfl).mono (clear s.disk.cwd) fun _ => id
  · exact ⟨t, makeDirs_again named alike.first ran covers alike.cwd, rfl⟩

theorem makeDirsFor_repeats (clear : Clear reads p) : Action.Repeats reads pre (makeDirsFor p) := by
  unfold makeDirsFor
  split
  · exact .throw _
  · exact makeDirs_repeats (fun _ => Path.ordinary_of_mem_parts p) clear.way

theorem makeParents_repeats (clear : Clear reads p) : Action.Repeats reads pre (makeParents p) := by
  have front := parentParts_prefix p
  have named : Named p.parts := fun _ => Path.ordinary_of_mem_parts p
  unfold makeParents
  split
  · exact .throw _
  · refine makeDirs_repeats (named.front front) fun base q on => ?_
    exact clear.way base q (passed_mono front on)

/-! ### Files -/

/-- A change that puts a file at a path, wherever it can be put. -/
structure PutsAt (p : Path) (bytes : ByteArray) (f : Disk → Except DiskError Disk) : Prop where
  puts : ∀ d d', d.WellFormed → f d = .ok d' → Puts (p.seenFrom d.cwd) bytes d d'
  located : ∀ d d', f d = .ok d' → ∃ place, d.locate p = .ok place
  fits : ∀ d d' e place, f d = .ok d' → e.locate p = .ok place → e.node? place ≠ some .dir →
    ∃ e', f e = .ok e'

theorem truncate_at : PutsAt p ByteArray.empty (·.truncate p) where
  puts d d' := truncate_puts
  located d d' opened := by
    obtain ⟨place, located, -⟩ := truncate_ok_iff.mp opened
    exact ⟨place, located⟩
  fits d d' e place opened located free := by
    obtain ⟨-, -, -, file, -⟩ := truncate_ok_iff.mp opened
    exact ⟨_, truncate_ok_iff.mpr ⟨place, located, free, file, rfl⟩⟩

theorem put_at : PutsAt p bytes (·.put p bytes) where
  puts d d' := put_puts
  located d d' written := by
    obtain ⟨d₁, -, opened, -⟩ := put_ok_iff.mp written
    exact truncate_at.located d d₁ opened
  fits d d' e place written located free := by
    obtain ⟨d₁, -, opened, -⟩ := put_ok_iff.mp written
    obtain ⟨e₁, emptied⟩ := truncate_at.fits d d₁ e place opened located free
    obtain ⟨place', located', free', -, rfl⟩ := truncate_ok_iff.mp emptied
    exact ⟨_, put_ok_iff.mpr ⟨_, place', emptied, locate_assign free' located', rfl⟩⟩

theorem replace_at : PutsAt p bytes (·.replace p bytes) where
  puts d d' := replace_puts
  located d d' written := by
    obtain ⟨place, located, -⟩ := replace_ok_iff.mp written
    exact ⟨place, located⟩
  fits d d' e place written located free := by
    obtain ⟨-, -, -, named, -⟩ := replace_ok_iff.mp written
    exact ⟨_, replace_ok_iff.mpr ⟨place, located, free, named, rfl⟩⟩

/-- A file that has been put is put again in its place. -/
theorem PutsAt.repeats {f : Disk → Except DiskError Disk} (put : PutsAt p bytes f)
    (clear : Clear reads p) : Action.Repeats reads pre (Action.change f) where
  builds s tree _ := by
    rw [Action.run_change]
    split
    · exact .refl
    · rename_i d changed
      refine (put.puts _ _ tree changed).built.mono nofun ?_
      rintro q rfl
      exact clear.place s.disk.cwd
  again s t _ s' alike _ _ ran covers := by
    obtain ⟨d, changed, rfl⟩ := Action.change_ok ran
    have left := put.puts _ _ alike.first changed
    obtain ⟨place, located⟩ := put.located _ _ changed
    obtain rfl := locate_place located
    have located' := (covers.trans left.built.covers).locate_ok alike.cwd located
    have there := covers.file (Option.isSome_iff_exists.mpr ⟨bytes, left.file⟩)
    obtain ⟨old, there⟩ := Option.isSome_iff_exists.mp there
    have file := fileAt_eq_some_iff.mp there
    obtain ⟨e, changed'⟩ := put.fits _ _ t.disk _ changed located' (by simp [file])
    have right := put.puts _ _ alike.second changed'
    rw [alike.cwd] at right
    refine ⟨{ t with disk := e }, by rw [Action.run_change, changed'], ⟨?_, ?_⟩, fun q => ?_⟩
    · intro q dir
      by_cases here : q = p.seenFrom s.disk.cwd
      · subst here
        cases (fileAt_eq_some_iff.mp right.file).symm.trans dir
      · rwa [right.built.node?_eq id here] at dir
    · intro q found
      by_cases here : q = p.seenFrom s.disk.cwd
      · subst here
        rw [there]
        rfl
      · rwa [right.built.fileAt_eq here] at found
    · by_cases here : q = p.seenFrom s.disk.cwd
      · subst here
        exact .inl (right.file.trans left.file.symm)
      · exact .inr ⟨right.built.fileAt_eq here, left.built.fileAt_eq here⟩

/-- A file is read again where nothing is written. -/
theorem read_repeats (known : ∀ base, reads (src.seenFrom base)) :
    Action.Repeats reads pre (Action.look (·.read src)) := by
  refine .look fun d e bytes alike _ _ covers found => ?_
  obtain ⟨place, located, file, names⟩ := read_ok_iff_locate.mp found
  refine read_ok_iff_locate.mpr ⟨place, covers.locate_ok alike.cwd located, ?_, names⟩
  have read : reads place := by
    rw [locate_place located]
    exact known d.cwd
  rw [fileAt_congr (alike.same place read), file]

theorem copyFile_repeats (known : ∀ base, reads (src.seenFrom base)) (clear : Clear reads dest) :
    Action.Repeats reads pre (copyFile src dest) := by
  refine .bind (makeParents_repeats clear) fun _ => .bind (read_repeats known) fun _ => ?_
  refine .bind (truncate_at.repeats clear) fun _ => .bind (read_repeats known) fun bytes => ?_
  exact put_at.repeats clear

theorem writeAtomic_repeats (clear : Clear reads p) :
    Action.Repeats reads pre (writeAtomic p bytes) :=
  .bind (makeParents_repeats clear) fun _ => replace_at.repeats clear

/-! ### Trees -/

/-- A tree is listed alike where nothing is written. -/
theorem entriesToCopy_repeats (from_ : src.LeadsTo source)
    (known : ∀ q, source <+: q → reads q) :
    Action.Repeats reads pre (Action.look (entriesToCopy · exclude src dest)) := by
  refine .look fun d e entries alike _ _ _ listed => ?_
  have same : ∀ names, e.node? (source ++ names) = d.node? (source ++ names) := fun names =>
    alike.same _ (known _ (List.prefix_append ..))
  have here : e.node? source = d.node? source := alike.same _ (known _ List.prefix_rfl)
  have present : d.existsAt src = true := entriesToCopy_ok_iff.mp ⟨entries, listed⟩
  have present' : e.existsAt src = true := by
    rwa [existsAt_congr alike.first alike.second from_ here]
  rw [entriesToCopy_of_present from_.absolute present] at listed
  rw [entriesToCopy_of_present from_.absolute present', ← listed, from_.resolved, walk_congr same]

section Copy

variable (from_ : src.LeadsTo source) (to_ : dest.LeadsTo target)
  (known : ∀ q, source <+: q → reads q) (unread : ∀ q, around target q → ¬ reads q)

include from_ to_ known unread

theorem copyEntry_repeats (ordinary : ∀ name ∈ entry.1, Path.Ordinary name) :
    Action.Repeats reads pre (copyEntry src dest entry) := by
  obtain ⟨names, n⟩ := entry
  have clear : Clear reads (dest.descend names) := clear_of_around unread (to_.descend ordinary)
  have knows : ∀ base, reads ((src.descend names).seenFrom base) := by
    intro base
    have leads := from_.descend ordinary
    rw [Path.seenFrom_absolute leads.absolute, leads.resolved]
    exact known _ (List.prefix_append ..)
  refine .withError ?_
  cases n with
  | dir => exact .bind (makeDirsFor_repeats clear) fun _ => .pure 0
  | file bytes => exact .bind (copyFile_repeats knows clear) fun _ => .pure 1

theorem copyEntries_repeats (ordinary : OrdinaryEntries entries) :
    Action.Repeats reads pre (copyEntries src dest entries) := by
  induction entries generalizing pre with
  | nil => exact .pure 0
  | cons entry rest ih =>
    obtain ⟨first, others⟩ := List.forall_mem_cons.mp ordinary
    rw [copyEntries]
    refine .bind (copyEntry_repeats from_ to_ known unread first) fun n => ?_
    exact .bind (ih others) fun more => .pure _

theorem copy_repeats : Action.Repeats reads pre (copy exclude src dest) := by
  unfold copy
  split
  · exact .pure 0
  · refine .bind_of (fun entries _ => OrdinaryEntries entries)
      (.withError (entriesToCopy_repeats from_ known))
      (fun s entries s' tree _ looked => ?_) fun entries =>
        .assume (copyEntries_repeats from_ to_ known unread)
    obtain ⟨listed, rfl⟩ := Action.look_ok (Action.withError_ok looked)
    exact entriesToCopy_ordinary tree listed

end Copy

end BundleMerge.Disk
