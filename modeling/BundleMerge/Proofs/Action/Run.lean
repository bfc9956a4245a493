import BundleMerge.Action

/-! What the run of an action is made of, one lemma for each way to put actions together. From a
run that succeeds the runs of its parts can be read off. -/
namespace BundleMerge.Action

variable {ε δ α β : Type} {s s' : Site} {a : α} {b : β}

theorem run_pure : (pure a : Action ε α).run s = (.ok a, s) := rfl

theorem run_get : (get : Action ε Site).run s = (.ok s, s) := rfl

/-- A run whose answer is known. -/
theorem run_of_answer {act : Action ε α} {answer : Except ε α} (known : (act.run s).1 = answer) :
    act.run s = (answer, (act.run s).2) := by
  rw [← known]

theorem run_bind (act : Action ε α) (next : α → Action ε β) :
    (act >>= next).run s =
      match act.run s with
      | (.ok a, s') => (next a).run s'
      | (.error e, s') => (.error e, s') := by
  change (match act.run s with
    | (answer, s') => StateT.run (ExceptT.bindCont next answer) s') = _
  obtain ⟨answer, s'⟩ := act.run s
  cases answer <;> rfl

theorem run_look (f : Disk → Except ε α) : (look f).run s = (f s.disk, s) := by
  unfold look
  rw [run_bind, run_get]
  dsimp only
  cases f s.disk <;> rfl

theorem run_change (f : Disk → Except ε Disk) :
    (change f).run s =
      match f s.disk with
      | .error e => (.error e, s)
      | .ok d => (.ok (), { s with disk := d }) := by
  unfold change
  rw [run_bind, run_get]
  dsimp only
  cases f s.disk <;> rfl

theorem run_note (q : Question) :
    (note q : Action ε Unit).run s = (.ok (), { s with asked := s.asked ++ [q] }) := rfl

theorem run_withError (f : ε → δ) (act : Action ε α) :
    (withError f act).run s = ((act.run s).1.mapError f, (act.run s).2) := rfl

theorem run_tryCatch (act : Action ε α) (handle : ε → Action ε α) :
    (tryCatch act handle).run s =
      match act.run s with
      | (.ok a, s') => (.ok a, s')
      | (.error e, s') => (handle e).run s' := by
  change (match act.run s with
    | (answer, s') => StateT.run (match answer with
      | Except.ok a => (pure (.ok a) : StateM Site (Except ε α))
      | .error e => handle e) s') = _
  obtain ⟨answer, s'⟩ := act.run s
  cases answer <;> rfl

/-- Actions that run alike are the same. -/
theorem ext_run {act act' : Action ε α} (same : ∀ s, act.run s = act'.run s) : act = act' :=
  funext same

theorem withError_pure (f : ε → δ) : withError f (pure a : Action ε α) = pure a := rfl

theorem withError_bind (f : ε → δ) (act : Action ε α) (next : α → Action ε β) :
    withError f (act >>= next) = withError f act >>= fun a => withError f (next a) := by
  apply ext_run
  intro s
  rw [run_withError, run_bind, run_bind, run_withError]
  obtain ⟨answer, s'⟩ := act.run s
  cases answer <;> rfl

theorem withError_withError {γ : Type} (f : ε → δ) (g : δ → γ) (act : Action ε α) :
    withError g (withError f act) = withError (g ∘ f) act := by
  apply ext_run
  intro s
  rw [run_withError, run_withError, run_withError]
  obtain ⟨answer, s'⟩ := act.run s
  cases answer <;> rfl

/-- Actions that go on from runs that are alike run alike if they go on alike after success. -/
theorem run_bind_congr {act act' : Action ε α} {next next' : α → Action ε β}
    (first : act.run s = act'.run s)
    (rest : ∀ a s', act'.run s = (.ok a, s') → (next a).run s' = (next' a).run s') :
    (act >>= next).run s = (act' >>= next').run s := by
  rw [run_bind, run_bind, first]
  generalize ran : act'.run s = outcome
  obtain ⟨answer, s'⟩ := outcome
  cases answer with
  | error e => rfl
  | ok a => exact rest a s' ran

/-! ### Runs that succeed -/

theorem pure_ok {a' : α} (ran : (pure a : Action ε α).run s = (.ok a', s')) :
    a = a' ∧ s' = s := by
  cases ran
  exact ⟨rfl, rfl⟩

theorem bind_ok {act : Action ε α} {next : α → Action ε β}
    (ran : (act >>= next).run s = (.ok b, s')) :
    ∃ a s₁, act.run s = (.ok a, s₁) ∧ (next a).run s₁ = (.ok b, s') := by
  rw [run_bind] at ran
  split at ran
  · exact ⟨_, _, ‹_›, ran⟩
  · cases ran

theorem map_ok {act : Action ε α} {f : α → β} (ran : (f <$> act).run s = (.ok b, s')) :
    ∃ a, act.run s = (.ok a, s') ∧ f a = b := by
  rw [← bind_pure_comp] at ran
  obtain ⟨a, s₁, first, last⟩ := bind_ok ran
  obtain ⟨rfl, rfl⟩ := pure_ok last
  exact ⟨a, first, rfl⟩

theorem look_ok {f : Disk → Except ε α} (ran : (look f).run s = (.ok a, s')) :
    f s.disk = .ok a ∧ s' = s := by
  rw [run_look, Prod.mk.injEq] at ran
  exact ⟨ran.1, ran.2.symm⟩

theorem change_ok {f : Disk → Except ε Disk} (ran : (change f).run s = (.ok (), s')) :
    ∃ d, f s.disk = .ok d ∧ s' = { s with disk := d } := by
  rw [run_change] at ran
  split at ran
  · cases ran
  · cases ran
    exact ⟨_, ‹_›, rfl⟩

theorem withError_ok {f : ε → δ} {act : Action ε α}
    (ran : (withError f act).run s = (.ok a, s')) : act.run s = (.ok a, s') := by
  rw [run_withError] at ran
  generalize act.run s = outcome at ran ⊢
  obtain ⟨answer, s₁⟩ := outcome
  cases answer <;> cases ran
  rfl

/-! ### Runs that fail -/

theorem bind_error {act : Action ε α} {next : α → Action ε β} {e : ε}
    (ran : (act >>= next).run s = (.error e, s')) :
    act.run s = (.error e, s') ∨
      ∃ a s₁, act.run s = (.ok a, s₁) ∧ (next a).run s₁ = (.error e, s') := by
  rw [run_bind] at ran
  split at ran
  · exact .inr ⟨_, _, ‹_›, ran⟩
  · cases ran
    exact .inl ‹_›

theorem look_error {f : Disk → Except ε α} {e : ε} (ran : (look f).run s = (.error e, s')) :
    f s.disk = .error e ∧ s' = s := by
  rw [run_look, Prod.mk.injEq] at ran
  exact ⟨ran.1, ran.2.symm⟩

theorem change_error {f : Disk → Except ε Disk} {e : ε}
    (ran : (change f).run s = (.error e, s')) : f s.disk = .error e ∧ s' = s := by
  rw [run_change] at ran
  split at ran
  · cases ran
    exact ⟨‹_›, rfl⟩
  · cases ran

theorem withError_error {f : ε → δ} {act : Action ε α} {e : δ}
    (ran : (withError f act).run s = (.error e, s')) :
    ∃ cause, act.run s = (.error cause, s') ∧ f cause = e := by
  rw [run_withError] at ran
  generalize act.run s = outcome at ran ⊢
  obtain ⟨answer, s₁⟩ := outcome
  cases answer with
  | error cause =>
    cases ran
    exact ⟨cause, rfl, rfl⟩
  | ok a => cases ran

theorem tryCatch_error {act : Action ε α} {handle : ε → Action ε α} {e : ε}
    (ran : (tryCatch act handle).run s = (.error e, s')) :
    ∃ cause s₁, act.run s = (.error cause, s₁) ∧ (handle cause).run s₁ = (.error e, s') := by
  rw [run_tryCatch] at ran
  split at ran
  · cases ran
  · exact ⟨_, _, ‹_›, ran⟩

end BundleMerge.Action
