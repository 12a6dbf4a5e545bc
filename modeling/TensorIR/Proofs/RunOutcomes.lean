import TensorIR.Proofs.Steps
import TensorIR.Run.Invocation

/-! What is known of the end of a run, whether it succeeds or fails. -/

namespace TensorIR.Run

section

variable {α γ : Type}

/-- A success has the one property together with the machine it leaves, and a failure the other
one. -/
def Concludes (E : RunError → Machine → Prop) (Q : α → Machine → Prop) :
    EStateM.Result RunError Machine α → Prop
  | .ok a M => Q a M
  | .error e M => E e M

namespace Concludes

variable {E E' : RunError → Machine → Prop} {F : Frame} {M : Machine}

theorem imp {Q Q' : α → Machine → Prop} {x : EStateM.Result RunError Machine α}
    (h : Concludes E Q x) (hE : ∀ e M, E e M → E' e M) (hQ : ∀ a M, Q a M → Q' a M) :
    Concludes E' Q' x := by
  cases x with
  | ok a M => exact hQ a M h
  | error e M => exact hE e M h

theorem bind {Q : α × Frame → Machine → Prop} {Q' : γ × Frame → Machine → Prop} {x : CallM α}
    {f : α → CallM γ} (h : Concludes E Q (x F M)) (hE : ∀ e M', E e M' → E' e M')
    (hf : ∀ a F' M', Q (a, F') M' → Concludes E' Q' (f a F' M')) :
    Concludes E' Q' ((x >>= f) F M) := by
  rw [bind_apply]
  cases hx : x F M with
  | ok p M' =>
    rw [hx] at h
    exact hf p.1 p.2 M' h
  | error e M' =>
    rw [hx] at h
    exact hE e M' h

theorem shared_bind {Q : α → Machine → Prop} {Q' : γ → Machine → Prop} {x : RunM α}
    {f : α → RunM γ} (h : Concludes E Q (x M)) (hE : ∀ e M', E e M' → E' e M')
    (hf : ∀ a M', Q a M' → Concludes E' Q' (f a M')) : Concludes E' Q' ((x >>= f) M) := by
  change Concludes E' Q' (EStateM.bind x f M)
  rw [EStateM.bind]
  cases hx : x M with
  | ok a M' =>
    rw [hx] at h
    exact hf a M' h
  | error e M' =>
    rw [hx] at h
    exact hE e M' h

theorem run' {Q : α → Machine → Prop} {x : CallM α} (h : Concludes E (fun p => Q p.1) (x F M)) :
    Concludes E Q (x.run' F M) := by
  change Concludes E Q (EStateM.map _ (x F) M)
  rw [EStateM.map]
  cases hx : x F M with
  | ok p M' =>
    rw [hx] at h
    exact h
  | error e M' =>
    rw [hx] at h
    exact h

/-- An open call ends as its step does, if the number of open calls does not matter. -/
theorem opened {Q : Value → Machine → Prop} {step : RunM Value}
    (h : Concludes E Q (step { M with depth := M.depth + 1, peak := max M.peak (M.depth + 1) }))
    (hE : ∀ e M' depth, E e M' → E e { M' with depth := depth })
    (hQ : ∀ v M' depth, Q v M' → Q v { M' with depth := depth }) :
    Concludes E Q (CompiledUnit.opened step M) := by
  rw [CompiledUnit.opened]
  cases hr : step { M with depth := M.depth + 1, peak := max M.peak (M.depth + 1) } with
  | ok v M' =>
    rw [hr] at h
    exact hQ v M' _ h
  | error e M' =>
    rw [hr] at h
    exact hE e M' _ h

end Concludes

/-- A success has the one property, and a failure the other one. -/
def Settles (E : RunError → Prop) (Q : α → Prop) (x : EStateM.Result RunError Machine α) : Prop :=
  Concludes (fun e _ => E e) (fun a _ => Q a) x

namespace Settles

variable {E E' : RunError → Prop} {F : Frame} {M : Machine}

theorem imp {Q Q' : α → Prop} {x : EStateM.Result RunError Machine α} (h : Settles E Q x)
    (hE : ∀ e, E e → E' e) (hQ : ∀ a, Q a → Q' a) : Settles E' Q' x :=
  Concludes.imp h (fun e _ => hE e) fun a _ => hQ a

theorem bind {Q : α × Frame → Prop} {Q' : γ × Frame → Prop} {x : CallM α} {f : α → CallM γ}
    (h : Settles E Q (x F M)) (hE : ∀ e, E e → E' e)
    (hf : ∀ a F' M', Q (a, F') → Settles E' Q' (f a F' M')) : Settles E' Q' ((x >>= f) F M) :=
  Concludes.bind h (fun e _ => hE e) hf

theorem shared_bind {Q : α → Prop} {Q' : γ → Prop} {x : RunM α} {f : α → RunM γ}
    (h : Settles E Q (x M)) (hE : ∀ e, E e → E' e)
    (hf : ∀ a M', Q a → Settles E' Q' (f a M')) : Settles E' Q' ((x >>= f) M) :=
  Concludes.shared_bind h (fun e _ => hE e) hf

theorem lift {Q : α → Prop} {x : RunM α} (h : Settles E Q (x M)) :
    Settles E (fun p => Q p.1 ∧ p.2 = F) ((liftM x : CallM α) F M) :=
  h.shared_bind (fun _ he => he) fun _ _ ha => ⟨ha, rfl⟩

theorem run' {Q : α → Prop} {x : CallM α} (h : Settles E (fun p => Q p.1) (x F M)) :
    Settles E Q (x.run' F M) :=
  Concludes.run' h

theorem opened {Q : Value → Prop} {step : RunM Value} (h : ∀ M, Settles E Q (step M)) (M : Machine) :
    Settles E Q (CompiledUnit.opened step M) :=
  Concludes.opened (h _) (fun _ _ _ he => he) fun _ _ _ hv => hv

end Settles

end

/-! ## The kernels that have started -/

/-- A kernel that has started in a run, with its arguments. -/
structure KernelStart where
  kernel : String
  args : List Value

def Event.start? : Event → Option KernelStart
  | .kernel name args => some ⟨name, args⟩
  | _ => none

/-- The kernels that have started, in order. -/
def Machine.starts (M : Machine) : List KernelStart := M.trace.toList.filterMap Event.start?

theorem Machine.starts_push (M : Machine) (e : Event) :
    Machine.starts { M with trace := M.trace.push e } = M.starts ++ e.start?.toList := by
  cases h : e.start? <;> simp [starts, h]

theorem Machine.starts_push_of_none (M : Machine) {e : Event} (h : e.start? = none) :
    Machine.starts { M with trace := M.trace.push e } = M.starts := by
  rw [starts_push, h]
  exact List.append_nil _

section

variable {α γ : Type}

/-- A success has the one property together with the kernels that have started since, and a failure
the other one. -/
def Traces (E : List KernelStart → RunError → Prop) (Q : List KernelStart → α → Prop) (M : Machine)
    (x : EStateM.Result RunError Machine α) : Prop :=
  Concludes (fun e M' => ∃ cs, M'.starts = M.starts ++ cs ∧ E cs e)
    (fun a M' => ∃ cs, M'.starts = M.starts ++ cs ∧ Q cs a) x

namespace Traces

variable {E E' : List KernelStart → RunError → Prop} {F : Frame} {M : Machine}

theorem ok {Q : List KernelStart → α → Prop} {a : α} (h : Q [] a) : Traces E Q M (.ok a M) :=
  ⟨[], (List.append_nil _).symm, h⟩

theorem error {Q : List KernelStart → α → Prop} {e : RunError} (h : E [] e) :
    Traces E Q M (.error e M) :=
  ⟨[], (List.append_nil _).symm, h⟩

theorem imp {Q Q' : List KernelStart → α → Prop} {x : EStateM.Result RunError Machine α}
    (h : Traces E Q M x) (hE : ∀ cs e, E cs e → E' cs e) (hQ : ∀ cs a, Q cs a → Q' cs a) :
    Traces E' Q' M x :=
  Concludes.imp h (fun e _ => Exists.imp fun cs hcs => ⟨hcs.1, hE cs e hcs.2⟩)
    fun a _ => Exists.imp fun cs hcs => ⟨hcs.1, hQ cs a hcs.2⟩

/-- What has started before counts as well. -/
theorem after {Q : List KernelStart → α → Prop} {M' : Machine} {cs : List KernelStart}
    {x : EStateM.Result RunError Machine α} (hcs : M'.starts = M.starts ++ cs)
    (h : Traces (fun cs' => E (cs ++ cs')) (fun cs' => Q (cs ++ cs')) M' x) : Traces E Q M x := by
  refine Concludes.imp h ?_ ?_
  · rintro e M'' ⟨cs', hcs', he⟩
    exact ⟨cs ++ cs', by rw [hcs', hcs, List.append_assoc], he⟩
  · rintro a M'' ⟨cs', hcs', ha⟩
    exact ⟨cs ++ cs', by rw [hcs', hcs, List.append_assoc], ha⟩

theorem bind {Q : List KernelStart → α × Frame → Prop} {Q' : List KernelStart → γ × Frame → Prop}
    {x : CallM α} {f : α → CallM γ} (h : Traces E Q M (x F M)) (hE : ∀ cs e, E cs e → E' cs e)
    (hf : ∀ cs a F' M', Q cs (a, F') →
      Traces (fun cs' => E' (cs ++ cs')) (fun cs' => Q' (cs ++ cs')) M' (f a F' M')) :
    Traces E' Q' M ((x >>= f) F M) := by
  refine Concludes.bind h (fun e M' => Exists.imp fun cs hcs => ⟨hcs.1, hE cs e hcs.2⟩) ?_
  rintro a F' M' ⟨cs, hcs, ha⟩
  exact (hf cs a F' M' ha).after hcs

theorem shared_bind {Q : List KernelStart → α → Prop} {Q' : List KernelStart → γ → Prop}
    {x : RunM α} {f : α → RunM γ} (h : Traces E Q M (x M)) (hE : ∀ cs e, E cs e → E' cs e)
    (hf : ∀ cs a M', Q cs a →
      Traces (fun cs' => E' (cs ++ cs')) (fun cs' => Q' (cs ++ cs')) M' (f a M')) :
    Traces E' Q' M ((x >>= f) M) := by
  refine Concludes.shared_bind h (fun e M' => Exists.imp fun cs hcs => ⟨hcs.1, hE cs e hcs.2⟩) ?_
  rintro a M' ⟨cs, hcs, ha⟩
  exact (hf cs a M' ha).after hcs

theorem lift {Q : List KernelStart → α → Prop} {x : RunM α} (h : Traces E Q M (x M)) :
    Traces E (fun cs p => Q cs p.1 ∧ p.2 = F) M ((liftM x : CallM α) F M) := by
  refine h.shared_bind (fun _ _ he => he) fun cs a M' ha => .ok ⟨?_, rfl⟩
  rwa [List.append_nil]

theorem run' {Q : List KernelStart → α → Prop} {x : CallM α}
    (h : Traces E (fun cs p => Q cs p.1) M (x F M)) : Traces E Q M (x.run' F M) :=
  Concludes.run' h

theorem opened {Q : List KernelStart → Value → Prop} {step : RunM Value}
    (h : ∀ M, Traces E Q M (step M)) (M : Machine) : Traces E Q M (CompiledUnit.opened step M) :=
  Concludes.opened (h { M with depth := M.depth + 1, peak := max M.peak (M.depth + 1) })
    (fun _ _ _ he => he) fun _ _ _ hv => hv

theorem settles {E : RunError → Prop} {Q : α → Prop} {x : EStateM.Result RunError Machine α}
    (h : Traces (fun _ => E) (fun _ => Q) M x) : Settles E Q x :=
  Concludes.imp h (fun _ _ ⟨_, _, he⟩ => he) fun _ _ ⟨_, _, ha⟩ => ha

end Traces

end

end TensorIR.Run
