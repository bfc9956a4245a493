import BundleMerge.Proofs.Disk.Whole

/-! Writes that fail. By then directories may have been made on the way to the file, but no file
has changed; and a file is written as a whole unless there is nothing to be read in its place. -/
namespace BundleMerge

namespace Path

variable {p : Path}

/-- A path with a slash at its end does not name a file. -/
theorem namesDirectory_of_slash (slash : p.endsInSlash = true) : p.namesDirectory = true := by
  have last : p.text.toList.getLast? = some '/' := of_decide_eq_true slash
  obtain ⟨front, text⟩ := List.getLast?_eq_some_iff.mp last
  simp [namesDirectory, text, pieces_append_slash, pieces, silent]

/-- Only the root contains itself. -/
theorem parts_of_parentParts (same : p.parentParts = p.parts) :
    p.parts = [.root] ∨ p.parts = [] := by
  unfold parentParts at same
  split at same
  · exact .inl ‹_›
  · refine .inr (List.eq_nil_iff_length_eq_zero.mpr ?_)
    have short := congrArg List.length same
    rw [List.length_dropLast] at short
    omega

end Path

namespace Disk

variable {d d' : Disk} {s s' : Site} {p : Path} {q : Place} {parts front : List Path.Part}
  {bytes old : ByteArray} {e : DiskError} {dirs : Place → Prop}

/-! ### Where only directories are made -/

namespace Builds

theorem read_ok (built : Builds dirs nowhere d d') (found : d.read p = .ok bytes) :
    d'.read p = .ok bytes := by
  obtain ⟨place, located, file, names⟩ := read_ok_iff_locate.mp found
  obtain ⟨free, nonempty, followed⟩ := locate_iff.mp located
  have located' : d'.locate p = .ok place :=
    locate_iff.mpr ⟨free, nonempty, built.covers.follow_ok built.cwd_eq followed⟩
  exact read_ok_iff_locate.mpr ⟨place, located', by rw [built.fileAt_eq id, file], names⟩

end Builds

/-! ### What stops a write -/

/-- What stops the making of directories is that one on the way is none. -/
theorem makeDirsBack_stuck {back : List Path.Part}
    (ran : (makeDirsBack back).run s = (.error e, s')) :
    ∃ front, front <+: back.reverse ∧ front ≠ [] ∧ s'.disk.isDirAt front = false := by
  induction back generalizing s s' e with
  | nil => cases ran
  | cons part above ih =>
    have last : ∀ {s}, (ensureDir (part :: above).reverse).run s = (.error e, s') →
        s'.disk.isDirAt (part :: above).reverse = false := by
      intro s ensuring
      obtain ⟨failed, rfl⟩ := Action.change_error ensuring
      split at failed
      · cases failed
      · split at failed
        · cases failed
        · exact Bool.eq_false_iff.mpr ‹_›
    have whole : ∀ {s}, (ensureDir (part :: above).reverse).run s = (.error e, s') →
        ∃ front, front <+: (part :: above).reverse ∧ front ≠ [] ∧ s'.disk.isDirAt front = false :=
      fun ensuring => ⟨_, List.prefix_rfl, by simp, last ensuring⟩
    rw [makeDirsBack_cons] at ran
    obtain got | ⟨s₀, s₁, -, making⟩ := Action.bind_error ran
    · cases got
    · split at making
      · obtain stuck | ⟨_, s₂, -, ensuring⟩ := Action.bind_error making
        · obtain ⟨front, inside, some, none⟩ := ih stuck
          rw [List.reverse_cons]
          exact ⟨front, inside.trans (List.prefix_append ..), some, none⟩
        · exact whole ensuring
      · exact whole making

/-- On the way to a file there are directories. -/
theorem isDirAt_of_read (found : d.read p = .ok bytes) (inside : front <+: p.parts)
    (some : front ≠ []) (proper : front ≠ p.parts) : d.isDirAt front = true := by
  obtain ⟨place, located, -⟩ := read_ok_iff_locate.mp found
  obtain ⟨-, -, followed⟩ := locate_iff.mp located
  obtain ⟨-, passes⟩ := follow_iff.mp followed
  have start := d.start_front inside some
  have reached : d.follow front = .ok (Path.resolve (d.start p.parts) front) := by
    rw [follow_iff, start]
    refine ⟨rfl, fun first early shorter => passes first (early.trans inside) ?_⟩
    rintro rfl
    exact shorter (early.eq_of_length_le inside.length_le)
  simp [isDirAt, reached, passes front inside proper]

/-- Where a file can be read, another one can be put in its place. -/
theorem replace_of_read (tree : d.WellFormed) (found : d.read p = .ok old) :
    ∃ d', d.replace p bytes = .ok d' := by
  obtain ⟨place, located, file, names⟩ := read_ok_iff_locate.mp found
  obtain ⟨-, nonempty, followed⟩ := locate_iff.mp located
  obtain ⟨rfl, passes⟩ := follow_iff.mp followed
  have here := fileAt_eq_some_iff.mp file
  have slash : p.endsInSlash = false := by
    rw [← Bool.not_eq_true]
    intro slash
    rw [Path.namesDirectory_of_slash slash] at names
    cases names
  obtain ⟨above, name, -, -, -, last⟩ := tree.arrives (Path.parts_ne_nil nonempty)
    (fun _ => Path.ordinary_of_mem_parts p) passes (by simp [here])
  exact ⟨_, replace_ok_iff.mpr ⟨_, located, by simp [here], ⟨slash, names, name, last⟩, rfl⟩⟩

theorem makeParents_stuck (ran : (makeParents p).run s = (.error e, s')) :
    s'.disk.read p ≠ .ok old := by
  intro found
  obtain ⟨place, located, file, -⟩ := read_ok_iff_locate.mp found
  obtain ⟨free, nonempty, followed⟩ := locate_iff.mp located
  have clean : p.text.toList.contains '\x00' = false := by simpa [Path.NulFree] using free
  rw [makeParents, clean] at ran
  obtain ⟨front, inside, some, none⟩ := makeDirsBack_stuck ran
  rw [List.reverse_reverse] at inside
  have above := parentParts_prefix p
  by_cases whole : front = p.parts
  · -- The only path that is its own parent is the root, and that is no file.
    have same := above.eq_of_length_le (whole ▸ inside.length_le)
    obtain root | empty := Path.parts_of_parentParts same
    · obtain ⟨rfl, -⟩ := follow_iff.mp followed
      rw [root, fileAt_eq_some_iff] at file
      cases (node?_root s'.disk).symm.trans file
    · exact Path.parts_ne_nil nonempty empty
  · rw [isDirAt_of_read found (inside.trans above) some whole] at none
    cases none

/-- A write that fails has made directories at most, and there is no file that could be read in
its place, neither before nor after. -/
theorem writeAtomic_failed (tree : s.disk.WellFormed)
    (ran : (writeAtomic p bytes).run s = (.error e, s')) :
    s'.asked = s.asked ∧ Builds (passed s.disk.cwd p.parts) nowhere s.disk s'.disk ∧
      ∀ old, s'.disk.read p ≠ .ok old := by
  obtain parents | ⟨_, s₁, parents, replacing⟩ := Action.bind_error ran
  · exact ⟨(makeParents_spares parents).asked, makeParents_builds.of_run tree parents,
      fun old => makeParents_stuck parents⟩
  · obtain ⟨failed, rfl⟩ := Action.change_error replacing
    have built := makeParents_builds.of_run tree parents
    refine ⟨(makeParents_spares parents).asked, built, fun old found => ?_⟩
    obtain ⟨d, written⟩ : ∃ d, s'.disk.replace p bytes = .ok d :=
      replace_of_read (built.wellFormed tree) found
    rw [written] at failed
    cases failed

end Disk
end BundleMerge
