import TensorIR.Lowering.State
import TensorIR.Run.State

/-! Steps with a local state over a shared one.

Both the lowering of a function body and the evaluation of a call are steps of this kind: a local
state (`Scope`, `Frame`) that failures discard, over a shared one (`Progress`, `Machine`) that they
keep. A compound step succeeds exactly when its parts do, one after the other. -/

namespace TensorIR

section

variable {ε σ τ α β : Type}

theorem bind_apply (x : StateT σ (EStateM ε τ) α) (f : α → StateT σ (EStateM ε τ) β) (s : σ)
    (t : τ) :
    (x >>= f) s t = match x s t with
      | .ok (a, s') t' => f a s' t'
      | .error e t' => .error e t' := by
  simp only [bind, StateT.bind, EStateM.bind]
  cases x s t <;> rfl

theorem bind_eq_ok {x : StateT σ (EStateM ε τ) α} {f : α → StateT σ (EStateM ε τ) β} {s s'' : σ}
    {t t'' : τ} {b : β} :
    (x >>= f) s t = .ok (b, s'') t'' ↔
      ∃ a s' t', x s t = .ok (a, s') t' ∧ f a s' t' = .ok (b, s'') t'' := by
  rw [bind_apply]
  cases x s t with
  | ok r t' =>
    refine ⟨fun h => ⟨r.1, r.2, t', rfl, h⟩, ?_⟩
    rintro ⟨a, s', t', h, hf⟩
    cases h
    exact hf
  | error e t' => simp

theorem pure_eq_ok {a b : α} {s s' : σ} {t t' : τ} :
    (pure a : StateT σ (EStateM ε τ) α) s t = .ok (b, s') t' ↔ b = a ∧ s' = s ∧ t' = t := by
  constructor
  · intro h
    cases h
    exact ⟨rfl, rfl, rfl⟩
  · rintro ⟨rfl, rfl, rfl⟩
    rfl

theorem throw_ne_ok {e : ε} {s s' : σ} {t t' : τ} {a : α} :
    (throw e : StateT σ (EStateM ε τ) α) s t ≠ .ok (a, s') t' := nofun

theorem get_eq_ok {a s s' : σ} {t t' : τ} :
    (get : StateT σ (EStateM ε τ) σ) s t = .ok (a, s') t' ↔ a = s ∧ s' = s ∧ t' = t :=
  pure_eq_ok

theorem get_bind_apply (f : σ → StateT σ (EStateM ε τ) α) (s : σ) (t : τ) :
    (get >>= f) s t = f s s t := rfl

theorem modify_eq_ok {f : σ → σ} {s s' : σ} {t t' : τ} {a : PUnit} :
    (modify f : StateT σ (EStateM ε τ) PUnit) s t = .ok (a, s') t' ↔ s' = f s ∧ t' = t := by
  refine Iff.trans ?_ (and_iff_right (a := a = ⟨⟩) rfl)
  exact pure_eq_ok (s := f s)

theorem shared_get_bind (f : τ → EStateM ε τ α) (t : τ) : (get >>= f) t = f t t := rfl

/-- The bind rule for steps on the shared state alone. -/
theorem shared_bind_eq_ok {x : EStateM ε τ α} {f : α → EStateM ε τ β} {t t'' : τ} {b : β} :
    (x >>= f) t = .ok b t'' ↔ ∃ a t', x t = .ok a t' ∧ f a t' = .ok b t'' := by
  simp only [bind, EStateM.bind]
  cases x t with
  | ok a t' =>
    refine ⟨fun h => ⟨a, t', rfl, h⟩, ?_⟩
    rintro ⟨a, t', h, hf⟩
    cases h
    exact hf
  | error e t' => simp

/-- A step that is refused if a test of the state says so. -/
theorem shared_refused (test : τ → Bool) (e : ε) (rest : EStateM ε τ α) (t : τ) :
    (do if test (← get) then throw e
        rest : EStateM ε τ α) t = if test t then .error e t else rest t := by
  cases h : test t with
  | true =>
    simp only [shared_get_bind, h]
    rfl
  | false =>
    simp only [shared_get_bind, h]
    rfl

theorem shared_bind_of_ok {x : EStateM ε τ α} {f : α → EStateM ε τ β} {t t' : τ} {a : α}
    (h : x t = .ok a t') : (x >>= f) t = f a t' := by
  simp only [bind, EStateM.bind, h]

theorem shared_bind_of_error {x : EStateM ε τ α} {f : α → EStateM ε τ β} {t t' : τ} {e : ε}
    (h : x t = .error e t') : (x >>= f) t = .error e t' := by
  simp only [bind, EStateM.bind, h]

theorem exists_eq_ok_of_run' {x : EStateM ε τ α} {t : τ} {a : α} (h : x.run' t = some a) :
    ∃ t', x t = .ok a t' := by
  unfold EStateM.run' EStateM.run at h
  cases hx : x t with
  | ok b t' =>
    rw [hx] at h
    cases h
    exact ⟨t', rfl⟩
  | error e t' =>
    rw [hx] at h
    cases h

theorem lift_eq_ok {x : EStateM ε τ α} {s s' : σ} {t t' : τ} {a : α} :
    (liftM x : StateT σ (EStateM ε τ) α) s t = .ok (a, s') t' ↔ x t = .ok a t' ∧ s' = s := by
  change (x >>= fun a => pure (a, s)) t = _ ↔ _
  rw [shared_bind_eq_ok]
  constructor
  · rintro ⟨b, t₁, hx, h⟩
    cases h
    exact ⟨hx, rfl⟩
  · rintro ⟨hx, rfl⟩
    exact ⟨a, t', hx, rfl⟩

/-- The bind rule without a state. -/
theorem except_bind_eq_ok {x : Except ε α} {f : α → Except ε β} {b : β} :
    (x >>= f) = .ok b ↔ ∃ a, x = .ok a ∧ f a = .ok b := by
  cases x with
  | error e => exact ⟨nofun, fun ⟨_, h, _⟩ => by cases h⟩
  | ok a => exact ⟨fun h => ⟨a, rfl, h⟩, fun ⟨_, h, hf⟩ => by cases h; exact hf⟩

end

end TensorIR
