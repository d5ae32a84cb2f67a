import Mathlib

/-!
# Successful steps

The program is written in three monads: steps on a state that keep it when they fail, plain
computations that may fail, and computations that may fail and lose their state. In each of them
a sequence succeeds exactly when its parts do, one after the other.

The theorems are simp lemmas, so `simp` with the name of a function turns "this call succeeded"
into what its parts came to. Read from right to left they build a successful call.
-/

namespace Synopsis

/-! ## Steps that keep their state -/

section Keeping

variable {ε σ α β : Type} {s s' : σ}

@[simp] theorem keeping_bind_ok_iff {x : EStateM ε σ α} {f : α → EStateM ε σ β} {b : β} :
    (x >>= f) s = .ok b s' ↔ ∃ a s₁, x s = .ok a s₁ ∧ f a s₁ = .ok b s' := by
  constructor
  · intro h
    cases hx : x s with
    | ok a s₁ => exact ⟨a, s₁, rfl, by simpa [bind, EStateM.bind, hx] using h⟩
    | error e s₁ => simp [bind, EStateM.bind, hx] at h
  · rintro ⟨a, s₁, hx, hf⟩
    simp [bind, EStateM.bind, hx, hf]

/-- A sequence fails where its first part does, or the second after it. -/
theorem keeping_bind_error_iff {x : EStateM ε σ α} {f : α → EStateM ε σ β} {e : ε} :
    (x >>= f) s = .error e s' ↔
      x s = .error e s' ∨ ∃ a s₁, x s = .ok a s₁ ∧ f a s₁ = .error e s' := by
  cases h : x s <;> simp [bind, EStateM.bind, h]

@[simp] theorem keeping_pure_ok_iff {a b : α} :
    (pure a : EStateM ε σ α) s = .ok b s' ↔ b = a ∧ s' = s := by
  simp [pure, EStateM.pure, eq_comm]

@[simp] theorem keeping_map_ok_iff {f : α → β} {x : EStateM ε σ α} {b : β} :
    (f <$> x) s = .ok b s' ↔ ∃ a, x s = .ok a s' ∧ b = f a := by
  rw [← bind_pure_comp, keeping_bind_ok_iff]
  simp

@[simp] theorem keeping_ite_ok_iff {c : Prop} [Decidable c] {x y : EStateM ε σ α} {a : α} :
    (if c then x else y) s = .ok a s' ↔ c ∧ x s = .ok a s' ∨ ¬c ∧ y s = .ok a s' := by
  by_cases hc : c <;> simp [hc]

@[simp] theorem keeping_throw_ok_iff {e : ε} {a : α} :
    (throw e : EStateM ε σ α) s = .ok a s' ↔ False := by
  simp [throw, throwThe, MonadExceptOf.throw, EStateM.throw]

@[simp] theorem keeping_get_ok_iff {a : σ} :
    (get : EStateM ε σ σ) s = .ok a s' ↔ a = s ∧ s' = s := by
  simp [get, getThe, MonadStateOf.get, EStateM.get, eq_comm]

@[simp] theorem keeping_set_ok_iff {t : σ} {u : PUnit} :
    (set t : EStateM ε σ PUnit) s = .ok u s' ↔ s' = t := by
  simp [set, MonadStateOf.set, EStateM.set, eq_comm]

@[simp] theorem keeping_modify_ok_iff {f : σ → σ} {u : PUnit} :
    (modify f : EStateM ε σ PUnit) s = .ok u s' ↔ s' = f s := by
  simp [modify, modifyGet, MonadStateOf.modifyGet, EStateM.modifyGet, eq_comm]

/-- The run has a result, which satisfies `p` together with the state after it. -/
def succeedsWith (run : EStateM.Result ε σ α) (p : α → σ → Bool) : Bool :=
  match run with
  | .ok a s => p a s
  | .error _ _ => false

/-- A run that evaluates to a result comes to it. -/
theorem exists_of_succeedsWith (run : EStateM.Result ε σ α) (p : α → σ → Bool)
    (h : succeedsWith run p = true) : ∃ a s, run = .ok a s ∧ p a s = true := by
  cases run with
  | ok a s => exact ⟨a, s, rfl, h⟩
  | error e s => cases h

end Keeping

/-! ## Computations that may fail -/

section Failing

variable {ε α β : Type}

@[simp] theorem failing_bind_ok_iff {x : Except ε α} {f : α → Except ε β} {b : β} :
    x >>= f = .ok b ↔ ∃ a, x = .ok a ∧ f a = .ok b := by
  cases x <;> simp [bind, Except.bind]

@[simp] theorem failing_pure_ok_iff {a b : α} : (pure a : Except ε α) = .ok b ↔ b = a := by
  simp [pure, Except.pure, eq_comm]

@[simp] theorem failing_map_ok_iff {f : α → β} {x : Except ε α} {b : β} :
    f <$> x = .ok b ↔ ∃ a, x = .ok a ∧ b = f a := by
  cases x <;> simp [Functor.map, Except.map, eq_comm]

@[simp] theorem failing_throw_ok_iff {e : ε} {a : α} :
    (throw e : Except ε α) = .ok a ↔ False := by
  simp [throw, throwThe, MonadExceptOf.throw]

@[simp] theorem failing_mapError_ok_iff {ε' : Type} {f : ε → ε'} {x : Except ε α} {a : α} :
    x.mapError f = .ok a ↔ x = .ok a := by
  cases x <;> simp [Except.mapError]

@[simp] theorem failing_isOk_iff {x : Except ε α} : x.isOk = true ↔ ∃ a, x = .ok a := by
  cases x <;> simp [Except.isOk, Except.toBool]

@[simp] theorem failing_any_toOption_iff {x : Except ε α} {p : α → Bool} :
    x.toOption.any p = true ↔ ∃ a, x = .ok a ∧ p a = true := by
  cases x <;> simp [Except.toOption]

end Failing

/-! ## Steps that lose their state -/

section Losing

variable {ε σ α β : Type} {s s' : σ}

@[simp] theorem losing_bind_ok_iff {x : StateT σ (Except ε) α} {f : α → StateT σ (Except ε) β}
    {b : β} : (x >>= f) s = .ok (b, s') ↔ ∃ a s₁, x s = .ok (a, s₁) ∧ f a s₁ = .ok (b, s') := by
  rcases h : x s with e | ⟨a, s₁⟩ <;> simp [bind, StateT.bind, Except.bind, h]

@[simp] theorem losing_pure_ok_iff {a b : α} :
    (pure a : StateT σ (Except ε) α) s = .ok (b, s') ↔ b = a ∧ s' = s := by
  simp [pure, StateT.pure, Except.pure, eq_comm]

@[simp] theorem losing_map_ok_iff {f : α → β} {x : StateT σ (Except ε) α} {b : β} :
    (f <$> x) s = .ok (b, s') ↔ ∃ a, x s = .ok (a, s') ∧ b = f a := by
  rw [← bind_pure_comp, losing_bind_ok_iff]
  simp

@[simp] theorem losing_throw_ok_iff {e : ε} {a : α} :
    (throw e : StateT σ (Except ε) α) s = .ok (a, s') ↔ False := by
  simp [throw, throwThe, MonadExceptOf.throw, StateT.lift, bind, Except.bind]

@[simp] theorem losing_get_ok_iff {a : σ} :
    (get : StateT σ (Except ε) σ) s = .ok (a, s') ↔ a = s ∧ s' = s := by
  simp [get, getThe, MonadStateOf.get, StateT.get, pure, Except.pure, eq_comm]

@[simp] theorem losing_set_ok_iff {t : σ} {u : PUnit} :
    (set t : StateT σ (Except ε) PUnit) s = .ok (u, s') ↔ s' = t := by
  simp [set, MonadStateOf.set, StateT.set, pure, Except.pure, eq_comm]

end Losing

end Synopsis
