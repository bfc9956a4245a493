import BundleMerge.Proofs.Action.Region

/-! Actions that can be repeated: run once more where everything lies that they have left, they
answer the same and leave the same. Two runs are compared, of which the second starts from a disk
that has at least what the first one ends with, and that reads the same. Then each file is put by
both runs, alike, or by none of them; that is what goes from the parts of an action to the whole. -/
namespace BundleMerge

namespace Disk

variable {d d' e e' f f' : Disk} {reads : Place → Prop}

/-- The disks are alike where they are read. -/
structure Alike (reads : Place → Prop) (d e : Disk) : Prop where
  first : d.WellFormed
  second : e.WellFormed
  cwd : e.cwd = d.cwd
  same : ∀ q, reads q → e.node? q = d.node? q

/-- What is built where nothing is read leaves disks alike. -/
theorem Alike.built (alike : Alike reads d e)
    (left : Builds (fun q => ¬ reads q) (fun q => ¬ reads q) d d')
    (right : Builds (fun q => ¬ reads q) (fun q => ¬ reads q) e e') : Alike reads d' e' where
  first := left.wellFormed alike.first
  second := right.wellFormed alike.second
  cwd := by rw [left.cwd_eq, right.cwd_eq, alike.cwd]
  same q read := by
    rw [left.node?_eq (not_not_intro read) (not_not_intro read),
      right.node?_eq (not_not_intro read) (not_not_intro read), alike.same q read]

/-- From `d` to `d'` and from `e` to `e'` each file is put alike, or stays as it was. -/
def Settles (d d' e e' : Disk) : Prop :=
  ∀ q, e'.fileAt q = d'.fileAt q ∨ e'.fileAt q = e.fileAt q ∧ d'.fileAt q = d.fileAt q

theorem Settles.trans (first : Settles d d' e e') (second : Settles d' f e' f') :
    Settles d f e f' := by
  intro q
  obtain put | ⟨right, left⟩ := second q
  · exact .inl put
  · rw [right, left]
    exact first q

end Disk

namespace Action

variable {ε δ α β : Type} {reads : Place → Prop} {pre : Disk → Prop}

/-- Any disk at all. -/
def anyDisk : Disk → Prop := fun _ => True

/-- The action builds where nothing is read; and what it has done to one disk, it does again to a
disk that has as much and reads the same, where it adds nothing. -/
structure Repeats (reads : Place → Prop) (pre : Disk → Prop) (act : Action ε α) : Prop where
  builds : ∀ s, s.disk.WellFormed → pre s.disk →
    Disk.Builds (fun q => ¬ reads q) (fun q => ¬ reads q) s.disk (act.run s).2.disk
  again : ∀ s t a s', Disk.Alike reads s.disk t.disk → pre s.disk → pre t.disk →
    act.run s = (.ok a, s') → t.disk.Covers s'.disk →
    ∃ t', act.run t = (.ok a, t') ∧ t.disk.Covers t'.disk ∧
      Disk.Settles s.disk s'.disk t.disk t'.disk

namespace Repeats

theorem built {act : Action ε α} {s s' : Site} {answer : Except ε α}
    (repeats : Repeats reads pre act) (tree : s.disk.WellFormed) (held : pre s.disk)
    (ran : act.run s = (answer, s')) :
    Disk.Builds (fun q => ¬ reads q) (fun q => ¬ reads q) s.disk s'.disk := by
  have whole := repeats.builds s tree held
  rwa [ran] at whole

/-- A condition that does not depend on the disk may be taken for granted. -/
theorem assume {act : Action ε α} {fact : Prop} (repeats : fact → Repeats reads anyDisk act) :
    Repeats reads (fun _ => fact) act where
  builds s tree held := (repeats held).builds s tree trivial
  again s t a s' alike left _ := (repeats left).again s t a s' alike trivial trivial

/-- An action that changes no file, and nothing at all if it is repeated. -/
theorem of_done {act : Action ε α}
    (builds : ∀ s, s.disk.WellFormed → pre s.disk →
      Disk.Builds (fun q => ¬ reads q) (fun _ => False) s.disk (act.run s).2.disk)
    (done : ∀ s t a s', Disk.Alike reads s.disk t.disk → pre s.disk → pre t.disk →
      act.run s = (.ok a, s') → t.disk.Covers s'.disk →
      ∃ t', act.run t = (.ok a, t') ∧ t'.disk = t.disk) : Repeats reads pre act where
  builds s tree held := (builds s tree held).mono (fun _ => id) nofun
  again s t a s' alike left right ran covers := by
    obtain ⟨t', again, same⟩ := done s t a s' alike left right ran covers
    have built := builds s alike.first left
    rw [ran] at built
    rw [← same]
    exact ⟨t', again, .refl, fun q => .inr ⟨rfl, built.fileAt_eq id⟩⟩

theorem pure (a : α) : Repeats reads pre (pure a : Action ε α) :=
  .of_done (fun _ _ _ => .refl) fun s t a' s' _ _ _ ran _ => by
    cases ran
    exact ⟨t, rfl, rfl⟩

theorem throw (e : ε) : Repeats reads pre (throw e : Action ε α) :=
  .of_done (fun _ _ _ => .refl) fun _ _ _ _ _ _ _ => nofun

theorem note (q : Question) : Repeats reads pre (note q : Action ε Unit) :=
  .of_done (fun _ _ _ => .refl) fun s t a s' _ _ _ ran _ => by
    cases ran
    exact ⟨_, rfl, rfl⟩

theorem look {f : Disk → Except ε α}
    (given : ∀ d e a, Disk.Alike reads d e → pre d → pre e → e.Covers d → f d = .ok a →
      f e = .ok a) : Repeats reads pre (look f) := by
  refine .of_done (fun s _ _ => ?_) fun s t a s' alike left right ran covers => ?_
  · rw [run_look]
    exact .refl
  · obtain ⟨found, rfl⟩ := look_ok ran
    exact ⟨t, by rw [run_look, given _ _ _ alike left right covers found], rfl⟩

theorem withError {g : ε → δ} {act : Action ε α} (repeats : Repeats reads pre act) :
    Repeats reads pre (withError g act) where
  builds s tree held := by
    rw [run_withError]
    exact repeats.builds s tree held
  again s t a s' alike left right ran covers := by
    obtain ⟨t', again, rest⟩ :=
      repeats.again s t a s' alike left right (withError_ok ran) covers
    exact ⟨t', by rw [run_withError, again]; rfl, rest⟩

/-- What goes on may rely on what has been found, as long as it is found in both runs. -/
theorem bind_of {act : Action ε α} {next : α → Action ε β} (post : α → Disk → Prop)
    (first : Repeats reads pre act)
    (found : ∀ s a s', s.disk.WellFormed → pre s.disk → act.run s = (.ok a, s') → post a s'.disk)
    (rest : ∀ a, Repeats reads (post a) (next a)) : Repeats reads pre (act >>= next) where
  builds s tree held := by
    have built := first.builds s tree held
    rw [run_bind]
    split
    · rename_i a s₁ ran
      rw [ran] at built
      have more := (rest a).builds s₁ (built.wellFormed tree) (found s a s₁ tree held ran)
      exact built.trans more
    · rename_i e s₁ ran
      rw [ran] at built
      exact built
  again s t b s' alike left right ran covers := by
    obtain ⟨a, s₁, ran₁, ran₂⟩ := bind_ok ran
    have built := first.built alike.first left ran₁
    have built' := (rest a).built (built.wellFormed alike.first)
      (found s a s₁ alike.first left ran₁) ran₂
    obtain ⟨t₁, again₁, least₁, settles₁⟩ :=
      first.again s t a s₁ alike left right ran₁ (covers.trans built'.covers)
    have onward := first.built alike.second right again₁
    obtain ⟨t', again₂, least₂, settles₂⟩ := (rest a).again s₁ t₁ b s' (alike.built built onward)
      (found s a s₁ alike.first left ran₁) (found t a t₁ alike.second right again₁) ran₂
      (onward.covers.trans covers)
    refine ⟨t', ?_, least₁.trans least₂, settles₁.trans settles₂⟩
    rw [run_bind, again₁]
    exact again₂

theorem bind {act : Action ε α} {next : α → Action ε β} (first : Repeats reads pre act)
    (rest : ∀ a, Repeats reads anyDisk (next a)) : Repeats reads pre (act >>= next) :=
  .bind_of (fun _ => anyDisk) first (fun _ _ _ _ _ _ => trivial) rest

theorem map {act : Action ε α} (f : α → β) (repeats : Repeats reads pre act) :
    Repeats reads pre (f <$> act) := by
  rw [← bind_pure_comp]
  exact .bind repeats fun a => .pure (f a)

/-- Repeated where it has just been run, an action leaves everything as it is. -/
theorem settled {act : Action ε α} {s s' : Site} {a : α} (repeats : Repeats reads pre act)
    (tree : s.disk.WellFormed) (held : pre s.disk) (held' : pre s'.disk)
    (ran : act.run s = (.ok a, s')) :
    ∃ s'', act.run s' = (.ok a, s'') ∧ ∀ q, s''.disk.node? q = s'.disk.node? q := by
  have built := repeats.built tree held ran
  have alike : Disk.Alike reads s.disk s'.disk := by
    refine ⟨tree, built.wellFormed tree, built.cwd_eq, fun q read => ?_⟩
    exact built.node?_eq (not_not_intro read) (not_not_intro read)
  obtain ⟨s'', again, least, settles⟩ := repeats.again s s' a s' alike held held' ran .refl
  have kept := (repeats.built alike.second held' again).covers
  have files : ∀ q, s''.disk.fileAt q = s'.disk.fileAt q := fun q =>
    (settles q).elim id And.left
  refine ⟨s'', again, fun q => ?_⟩
  cases there : s'.disk.node? q with
  | some n =>
    cases n with
    | dir => exact kept.dir there
    | file bytes =>
      have file := files q
      rw [Disk.fileAt_eq_some_iff.mpr there] at file
      exact Disk.fileAt_eq_some_iff.mp file
  | none =>
    -- Nothing is new: what the second run has left, the first had left before.
    rw [Option.eq_none_iff_forall_ne_some]
    intro n new
    cases n with
    | dir =>
      rw [least.dir new] at there
      cases there
    | file bytes =>
      have file := files q
      rw [Disk.fileAt_eq_some_iff.mpr new] at file
      rw [Disk.fileAt_eq_some_iff.mp file.symm] at there
      cases there

end Repeats
end Action
end BundleMerge
