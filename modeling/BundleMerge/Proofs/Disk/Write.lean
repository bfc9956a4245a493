import BundleMerge.Disk.Write
import BundleMerge.Proofs.Action.Region

/-! What writing does to a disk. Directories are made on the way to a file, and only the file is
put; once the write succeeds, the file has the bytes that were written. This holds of every path,
seen from where relative ones start. One from the root that has no `..` leads straight to a place,
and its way is what lies above. -/
namespace BundleMerge.Disk

variable {d d' : Disk} {s s' : Site} {p src dest : Path} {base place source q : Place}
  {parts : List Path.Part} {bytes : ByteArray}

/-- A region without any place. -/
def nowhere : Place → Prop := fun _ => False

/-! ### Directories -/

/-- Where parts lead to on their way from a place. -/
def passed (base : Place) (parts : List Path.Part) : Place → Prop :=
  fun q => ∃ front, front <+: parts ∧ front ≠ [] ∧ q = Path.resolve base front

theorem passed_mono {front : List Path.Part} (inside : front <+: parts)
    (on : passed base front q) : passed base parts q := by
  obtain ⟨first, early, some, rfl⟩ := on
  exact ⟨first, early.trans inside, some, rfl⟩

theorem passed_along (rooted : Path.Rooted parts) (on : passed base parts q) : along parts q := by
  obtain ⟨front, inside, some, rfl⟩ := on
  obtain ⟨rest, split⟩ := List.head?_eq_some_iff.mp (rooted.front inside some).root
  exact ⟨front, inside, by rw [split]; rfl⟩

/-- The names among parts are ordinary. -/
def Named (parts : List Path.Part) : Prop :=
  ∀ s, Path.Part.name s ∈ parts → Path.Ordinary s

theorem Named.front {front : List Path.Part} (named : Named parts) (inside : front <+: parts) :
    Named front :=
  fun s member => named s (inside.subset member)

theorem makeDir_builds (tree : d.WellFormed) (some : parts ≠ []) (named : Named parts)
    (made : d.makeDir parts = .ok d') : Builds (passed d.cwd parts) nowhere d d' := by
  unfold makeDir at made
  split at made
  · cases made
  · rename_i at_ followed
    obtain ⟨rfl, dirs⟩ := follow_iff.mp followed
    split at made
    · cases made
    · rename_i absent
      cases made
      obtain ⟨above, name, here, ordinary, parent, -⟩ :=
        tree.arrives some named dirs (by simp [absent])
      have on : passed d.cwd parts (above ++ [name]) :=
        ⟨parts, List.prefix_rfl, some, by rw [← here, resolve_start]⟩
      rw [here] at absent ⊢
      exact .dir .refl on ordinary parent absent

theorem ensureDir_builds (some : parts ≠ []) (named : Named parts) :
    Action.BuildsFrom base (passed base parts) nowhere (ensureDir parts) := by
  refine .change fun {d d'} tree start ensured => ?_
  subst start
  split at ensured
  · cases ensured
    exact makeDir_builds tree some named ‹_›
  · split at ensured
    · cases ensured
      exact .refl
    · cases ensured

theorem makeDirsBack_cons (part : Path.Part) (above : List Path.Part) :
    makeDirsBack (part :: above) = (do
      let s ← get
      if s.disk.makeDir (part :: above).reverse matches .error (.system 2) then
        makeDirsBack above
        ensureDir (part :: above).reverse
      else ensureDir (part :: above).reverse) := by
  refine (makeDirsBack.eq_2 part above).trans (bind_congr fun s => ?_)
  cases s.disk.makeDir (part :: above).reverse with
  | ok d => rfl
  | error fault => split <;> simp_all

/-- Making a directory makes directories on the way there, and nothing else. -/
theorem makeDirs_builds (named : Named parts) :
    Action.BuildsFrom base (passed base parts) nowhere (makeDirs parts) := by
  unfold makeDirs
  induction parts using List.reverseRecOn with
  | nil => exact (Action.Builds.pure ()).from_ base
  | append_singleton above part ih =>
    have last : Action.BuildsFrom base (passed base (above ++ [part])) nowhere
        (ensureDir (above ++ [part])) :=
      ensureDir_builds (by simp) named
    have inside : above <+: above ++ [part] := List.prefix_append ..
    have before : Action.BuildsFrom base (passed base (above ++ [part])) nowhere
        (makeDirsBack above.reverse) :=
      (ih (named.front inside)).mono (fun q => passed_mono inside) fun _ => id
    rw [List.reverse_append, List.reverse_singleton, List.singleton_append, makeDirsBack_cons,
      List.reverse_cons, List.reverse_reverse]
    refine .bind (Action.Builds.get.from_ base) fun s => ?_
    split
    · exact .bind before fun _ => last
    · exact last

theorem isDirAt_iff : d.isDirAt parts = true ↔
    ∃ place, d.follow parts = .ok place ∧ d.node? place = some .dir := by
  unfold isDirAt
  cases d.follow parts <;> simp

/-- Once a directory has been made, it is there. -/
theorem ensureDir_ok (some : parts ≠ []) (named : Named parts) (tree : s.disk.WellFormed)
    (ran : (ensureDir parts).run s = (.ok (), s')) : s'.disk.isDirAt parts = true := by
  obtain ⟨d, ensured, rfl⟩ := Action.change_ok ran
  split at ensured
  · rename_i made
    have built := makeDir_builds tree some named made
    cases ensured
    unfold makeDir at made
    split at made
    · cases made
    · rename_i place followed
      have still := built.covers.follow_ok built.cwd_eq followed
      split at made
      · cases made
      · rename_i absent
        have nonempty : place ≠ [] := by
          rintro rfl
          cases (node?_root s.disk).symm.trans absent
        cases made
        exact isDirAt_iff.mpr ⟨place, still, by rw [node?_assign nonempty, if_pos rfl]⟩
  · split at ensured
    · cases ensured
      assumption
    · cases ensured

theorem makeDirs_ok (some : parts ≠ []) (named : Named parts) (tree : s.disk.WellFormed)
    (ran : (makeDirs parts).run s = (.ok (), s')) : s'.disk.isDirAt parts = true := by
  obtain rfl | ⟨above, part, rfl⟩ := parts.eq_nil_or_concat'
  · exact absurd rfl some
  · rw [makeDirs, List.reverse_append, List.reverse_singleton, List.singleton_append,
      makeDirsBack_cons, List.reverse_cons, List.reverse_reverse] at ran
    obtain ⟨s₀, _, got, making⟩ := Action.bind_ok ran
    cases got
    split at making
    · obtain ⟨_, s₁, before, ensuring⟩ := Action.bind_ok making
      have inside : above <+: above ++ [part] := List.prefix_append ..
      have built : Builds (passed s.disk.cwd above) nowhere s.disk s₁.disk :=
        (makeDirs_builds (named.front inside)).of_run tree before
      exact ensureDir_ok some named (built.wellFormed tree) ensuring
    · exact ensureDir_ok some named tree making

/-- Nothing is made for a directory that is there. -/
theorem makeDirs_done (there : s.disk.isDirAt parts = true) :
    (makeDirs parts).run s = (.ok (), s) := by
  obtain rfl | ⟨above, part, rfl⟩ := parts.eq_nil_or_concat'
  · rfl
  · obtain ⟨place, followed, dir⟩ := isDirAt_iff.mp there
    have exists_ : s.disk.makeDir (above ++ [part]) = .error .alreadyExists := by
      simp only [makeDir, followed, dir]
    have ensured : (ensureDir (above ++ [part])).run s = (.ok (), s) := by
      simp only [ensureDir, Action.run_change, exists_, there, if_true]
    rw [makeDirs, List.reverse_append, List.reverse_singleton, List.singleton_append,
      makeDirsBack_cons, List.reverse_cons, List.reverse_reverse, Action.run_bind, Action.run_get]
    dsimp only
    rw [exists_]
    exact ensured

theorem parentParts_prefix (p : Path) : p.parentParts <+: p.parts := by
  unfold Path.parentParts
  split
  · next root => rw [root]
  · exact List.dropLast_prefix _

theorem makeParents_builds :
    Action.BuildsFrom base (passed base p.parts) nowhere (makeParents p) := by
  have front := parentParts_prefix p
  have named : Named p.parts := fun _ => Path.ordinary_of_mem_parts p
  unfold makeParents
  split
  · exact (Action.Builds.throw _).from_ base
  · exact (makeDirs_builds (named.front front)).mono (fun q => passed_mono front) fun _ => id

theorem makeDirsFor_builds :
    Action.BuildsFrom base (passed base p.parts) nowhere (makeDirsFor p) := by
  unfold makeDirsFor
  split
  · exact (Action.Builds.throw _).from_ base
  · exact makeDirs_builds fun _ => Path.ordinary_of_mem_parts p

theorem makeDirsFor_ok (some : p.parts ≠ []) (tree : s.disk.WellFormed)
    (ran : (makeDirsFor p).run s = (.ok (), s')) :
    s'.disk.node? (p.seenFrom s.disk.cwd) = .some .dir := by
  unfold makeDirsFor at ran
  split at ran
  · cases ran
  · have named : Named p.parts := fun _ => Path.ordinary_of_mem_parts p
    have built := (makeDirs_builds named).of_run tree ran
    obtain ⟨place, followed, dir⟩ := isDirAt_iff.mp (makeDirs_ok some named tree ran)
    obtain ⟨rfl, -⟩ := follow_iff.mp followed
    rwa [resolve_start, built.cwd_eq] at dir

/-! ### Files -/

/-- One file is put at a place, and nothing else changes. -/
structure Puts (place : Place) (bytes : ByteArray) (d d' : Disk) : Prop where
  built : Builds nowhere (· = place) d d'
  file : d'.fileAt place = some bytes

theorem puts_assign (tree : d.WellFormed) (located : d.locate p = .ok place)
    (free : d.node? place ≠ some .dir) : Puts place bytes d (d.assign place (.file bytes)) := by
  obtain ⟨-, nonempty, followed⟩ := locate_iff.mp located
  obtain ⟨rfl, dirs⟩ := follow_iff.mp followed
  obtain ⟨above, name, here, ordinary, parent, -⟩ :=
    tree.arrives (Path.parts_ne_nil nonempty) (fun _ => Path.ordinary_of_mem_parts p) dirs free
  rw [here] at free ⊢
  refine ⟨.file bytes .refl rfl ordinary parent free, ?_⟩
  rw [fileAt_eq_some_iff, node?_assign (by simp), if_pos rfl]

theorem truncate_ok_iff : d.truncate p = .ok d' ↔ ∃ place, d.locate p = .ok place ∧
    d.node? place ≠ some .dir ∧ p.namesDirectory = false ∧
    d' = d.assign place (.file ByteArray.empty) := by
  unfold truncate
  cases d.locate p with
  | error e => simp
  | ok place =>
    simp only [Except.ok.injEq, exists_eq_left']
    cases d.node? place with
    | none => cases p.namesDirectory <;> simp [eq_comm]
    | some n =>
      cases n with
      | dir => simp
      | file old => cases p.namesDirectory <;> simp [eq_comm]

theorem truncate_puts (tree : d.WellFormed) (opened : d.truncate p = .ok d') :
    Puts (p.seenFrom d.cwd) ByteArray.empty d d' := by
  obtain ⟨place, located, free, -, rfl⟩ := truncate_ok_iff.mp opened
  rw [← locate_place located]
  exact puts_assign tree located free

theorem put_ok_iff : d.put p bytes = .ok d' ↔ ∃ e place, d.truncate p = .ok e ∧
    e.locate p = .ok place ∧ d' = e.assign place (.file bytes) := by
  unfold put
  cases d.truncate p with
  | error fault => simp
  | ok e =>
    simp only [Except.ok.injEq, exists_and_left, exists_eq_left']
    cases e.locate p <;> simp [eq_comm]

theorem put_puts (tree : d.WellFormed) (written : d.put p bytes = .ok d') :
    Puts (p.seenFrom d.cwd) bytes d d' := by
  obtain ⟨e, place, opened, located, rfl⟩ := put_ok_iff.mp written
  have first := truncate_puts tree opened
  have same := locate_place located
  rw [first.built.cwd_eq] at same
  subst same
  have free := fileAt_eq_some_iff.mp first.file
  have second : Puts (p.seenFrom d.cwd) bytes e _ :=
    puts_assign (first.built.wellFormed tree) located (by simp [free])
  exact ⟨first.built.trans second.built, second.file⟩

theorem replace_ok_iff : d.replace p bytes = .ok d' ↔ ∃ place, d.locate p = .ok place ∧
    d.node? place ≠ some .dir ∧
    (p.endsInSlash = false ∧ p.namesDirectory = false ∧ ∃ s, p.parts.getLast? = some (.name s)) ∧
    d' = d.assign place (.file bytes) := by
  unfold replace
  cases d.locate p with
  | error e => simp
  | ok place =>
    simp only [Except.ok.injEq, exists_eq_left']
    cases p.endsInSlash with
    | true => simp
    | false =>
      rw [if_neg Bool.false_ne_true]
      split
      · rename_i s last names
        rw [last, names]
        cases d.node? place with
        | none => simp [eq_comm]
        | some n => cases n <;> simp [eq_comm]
      · rename_i other
        refine ⟨nofun, ?_⟩
        rintro ⟨-, ⟨-, names, s, last⟩, -⟩
        exact absurd names (other s last)

theorem replace_puts (tree : d.WellFormed) (written : d.replace p bytes = .ok d') :
    Puts (p.seenFrom d.cwd) bytes d d' := by
  obtain ⟨place, located, free, -, rfl⟩ := replace_ok_iff.mp written
  rw [← locate_place located]
  exact puts_assign tree located free

/-- A change that puts a file at a path puts nothing else. -/
theorem puts_builds {f : Disk → Except DiskError Disk} {dirs : Place → Prop}
    (puts : ∀ {d d'}, d.WellFormed → f d = .ok d' → ∃ bytes, Puts (p.seenFrom d.cwd) bytes d d') :
    Action.BuildsFrom base dirs (· = p.seenFrom base) (Action.change f) := by
  refine .change fun tree start changed => ?_
  subst start
  obtain ⟨bytes, put⟩ := puts tree changed
  exact put.built.mono nofun fun _ => id

theorem parents_builds :
    Action.BuildsFrom base (passed base p.parts) (· = p.seenFrom base) (makeParents p) :=
  makeParents_builds.mono (fun _ => id) nofun

theorem copyFile_builds :
    Action.BuildsFrom base (passed base dest.parts) (· = dest.seenFrom base) (copyFile src dest) := by
  have opens := @puts_builds dest base (·.truncate dest) (passed base dest.parts)
    fun tree opened => ⟨_, truncate_puts tree opened⟩
  refine .bind parents_builds fun _ => .bind ((Action.Builds.look _).from_ base) fun _ => ?_
  refine .bind opens fun _ => .bind ((Action.Builds.look _).from_ base) fun bytes => ?_
  exact puts_builds fun tree written => ⟨bytes, put_puts tree written⟩

/-- A file that is copied has the bytes of its source, unless it is copied onto itself. -/
theorem copyFile_ok (tree : s.disk.WellFormed)
    (apart : src.seenFrom s.disk.cwd ≠ dest.seenFrom s.disk.cwd)
    (ran : (copyFile src dest).run s = (.ok (), s')) :
    ∃ bytes, s.disk.fileAt (src.seenFrom s.disk.cwd) = some bytes ∧
      s'.disk.fileAt (dest.seenFrom s.disk.cwd) = some bytes := by
  obtain ⟨_, s₁, parents, opening⟩ := Action.bind_ok ran
  obtain ⟨_, s₂, looked, opening⟩ := Action.bind_ok opening
  obtain ⟨-, same⟩ := Action.look_ok looked
  obtain ⟨_, s₃, truncated, reading⟩ := Action.bind_ok opening
  obtain ⟨d₃, opened, rfl⟩ := Action.change_ok truncated
  obtain ⟨bytes, s₄, again, writing⟩ := Action.bind_ok reading
  obtain ⟨read, rfl⟩ := Action.look_ok again
  obtain ⟨d₄, written, rfl⟩ := Action.change_ok writing
  subst same
  have made := makeParents_builds.of_run tree parents
  have emptied := truncate_puts (made.wellFormed tree) opened
  have put := put_puts (emptied.built.wellFormed (made.wellFormed tree)) written
  obtain ⟨place, located, found, -⟩ := read_ok_iff_locate.mp read
  have here := locate_place located
  rw [emptied.built.cwd_eq, made.cwd_eq] at put here
  rw [made.cwd_eq] at emptied
  refine ⟨bytes, ?_, put.file⟩
  rw [← found, here, emptied.built.fileAt_eq apart, made.fileAt_eq id]

theorem writeAtomic_along (absolute : p.isAbsolute = true) :
    Action.Builds (along p.parts) (· = p.resolved) (writeAtomic p bytes) := by
  refine Action.builds_iff.mpr fun base => ?_
  have built : Action.BuildsFrom base (passed base p.parts) (· = p.seenFrom base)
      (writeAtomic p bytes) :=
    .bind parents_builds fun _ => puts_builds fun tree written => ⟨bytes, replace_puts tree written⟩
  rw [Path.seenFrom_absolute absolute] at built
  exact built.mono (fun _ => passed_along (Path.rooted absolute)) fun _ => id

theorem writeAtomic_ok (tree : s.disk.WellFormed) (absolute : p.isAbsolute = true)
    (ran : (writeAtomic p bytes).run s = (.ok (), s')) :
    s'.disk.fileAt p.resolved = some bytes := by
  obtain ⟨_, s₁, parents, ran⟩ := Action.bind_ok ran
  obtain ⟨d, written, rfl⟩ := Action.change_ok ran
  have made := makeParents_builds.of_run tree parents
  have put := replace_puts (made.wellFormed tree) written
  rw [Path.seenFrom_absolute absolute] at put
  exact put.file

theorem writeAtomic_builds (leads : p.LeadsTo place) :
    Action.Builds (· <+: place) (· = place) (writeAtomic p bytes) := by
  have built : Action.Builds _ _ (writeAtomic p bytes) := writeAtomic_along leads.absolute
  rw [leads.resolved] at built
  exact built.mono (fun q => along_straight leads) fun _ => id

theorem nulFree_of_writeAtomic (ran : (writeAtomic p bytes).run s = (.ok (), s')) : p.NulFree := by
  obtain ⟨_, s₁, -, ran⟩ := Action.bind_ok ran
  obtain ⟨d, written, -⟩ := Action.change_ok ran
  obtain ⟨place, located, -⟩ := replace_ok_iff.mp written
  exact (locate_iff.mp located).1

/-- What lies above a file that has been written is a directory, and no other directory is new. -/
theorem writeAtomic_dirs (tree : s.disk.WellFormed) (leads : p.LeadsTo place)
    (ran : (writeAtomic p bytes).run s = (.ok (), s')) :
    s'.disk.node? q = some .dir ↔ s.disk.node? q = some .dir ∨ (q <+: place ∧ q ≠ place) := by
  have built := (writeAtomic_builds leads).of_run tree ran
  have written := writeAtomic_ok tree leads.absolute ran
  rw [leads.resolved] at written
  have there := fileAt_eq_some_iff.mp written
  constructor
  · intro dir
    refine (built.dir_new dir).imp_right fun above => ⟨above, ?_⟩
    rintro rfl
    rw [there] at dir
    cases dir
  · rintro (old | ⟨⟨rest, rfl⟩, proper⟩)
    · exact built.dir_kept old
    · exact (built.wellFormed tree).above there (by simpa using proper)

end BundleMerge.Disk
