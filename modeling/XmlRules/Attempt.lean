namespace XmlRules

-- A step over a state that may fail. What it did before it failed stays done.
abbrev Attempt (ε σ : Type) := ExceptT ε (StateM σ)

namespace Attempt
variable {ε σ α β : Type}

def perform (step : Attempt ε σ α) (s : σ) : Except ε α × σ := step.run s

@[simp] theorem perform_pure (a : α) (s : σ) : perform (pure a : Attempt ε σ α) s = (.ok a, s) := rfl

@[simp] theorem perform_throw (e : ε) (s : σ) :
    perform (throw e : Attempt ε σ α) s = (.error e, s) := rfl

@[simp] theorem perform_get (s : σ) : perform (get : Attempt ε σ σ) s = (.ok s, s) := rfl

@[simp] theorem perform_set (s t : σ) : perform (set t : Attempt ε σ PUnit) s = (.ok (), t) := rfl

@[simp] theorem perform_modify (f : σ → σ) (s : σ) :
    perform (modify f : Attempt ε σ PUnit) s = (.ok (), f s) := rfl

theorem perform_bind (step : Attempt ε σ α) (next : α → Attempt ε σ β) (s : σ) :
    perform (step >>= next) s = match perform step s with
      | (.ok a, t) => perform (next a) t
      | (.error e, t) => (.error e, t) := by
  cases h : perform step s with
  | mk result t =>
    have run : step s = (result, t) := h
    cases result <;> simp [perform, bind, ExceptT.bind, ExceptT.mk, ExceptT.run, StateT.bind, run,
      ExceptT.bindCont] <;> rfl

theorem perform_bind_ok {step : Attempt ε σ α} {s t : σ} {a : α} (h : perform step s = (.ok a, t))
    (next : α → Attempt ε σ β) : perform (step >>= next) s = perform (next a) t := by
  rw [perform_bind, h]

theorem perform_bind_error {step : Attempt ε σ α} {s t : σ} {e : ε}
    (h : perform step s = (.error e, t)) (next : α → Attempt ε σ β) :
    perform (step >>= next) s = (.error e, t) := by
  rw [perform_bind, h]

theorem ok_of_bind {step : Attempt ε σ α} {next : α → Attempt ε σ β}
    {s u : σ} {b : β} (ran : perform (step >>= next) s = (.ok b, u)) :
    ∃ a t, perform step s = (.ok a, t) ∧ perform (next a) t = (.ok b, u) := by
  rw [perform_bind] at ran
  cases run : perform step s with
  | mk result t =>
    rw [run] at ran
    cases result with
    | ok a => exact ⟨a, t, rfl, ran⟩
    | error e => cases ran

theorem error_of_bind {step : Attempt ε σ α} {next : α → Attempt ε σ β}
    {s u : σ} {e : ε} (failed : perform (step >>= next) s = (.error e, u)) :
    perform step s = (.error e, u) ∨
      ∃ a t, perform step s = (.ok a, t) ∧ perform (next a) t = (.error e, u) := by
  rw [perform_bind] at failed
  cases run : perform step s with
  | mk result t =>
    rw [run] at failed
    cases result with
    | ok a => exact .inr ⟨a, t, rfl, failed⟩
    | error other =>
      cases failed
      exact .inl rfl

theorem perform_tryCatch (step : Attempt ε σ α) (handler : ε → Attempt ε σ α) (s : σ) :
    perform (tryCatch step handler) s = match perform step s with
      | (.ok a, t) => (.ok a, t)
      | (.error e, t) => perform (handler e) t := by
  cases h : perform step s with
  | mk result t =>
    have run : step s = (result, t) := h
    cases result <;> simp [perform, tryCatch, tryCatchThe, MonadExceptOf.tryCatch, ExceptT.tryCatch,
      ExceptT.mk, ExceptT.run, bind, StateT.bind, run] <;> rfl

end Attempt
end XmlRules
