import TensorIR.Proofs.TwinRuns

/-! The check of what kernels return.

A unit with the check and the same unit without it run side by side. The check hands a value on as it
is or refuses it, so the runs are the same up to the first value that is refused: until then no value
that a branch, a pattern, a closure or a further kernel sees depends on the option. -/

namespace TensorIR.Run

open Lowered

/-- The unit with the check of kernel results switched on or off. -/
def CompiledUnit.checking (u : CompiledUnit) (check : Bool) : CompiledUnit :=
  { u with options := { u.options with checkKernelOutputs := check } }

/-- The failure of the check: a kernel has returned a value that is not of the declared type. -/
inductive RunError.Unfit (types : Source.TypeTable) : RunError → Prop
  | intro {ty : Ty} {v : Value} : v.conformsTo types ty = false →
    Unfit types (.typeMismatch .kernelCall ty.text v)

section

variable {u : CompiledUnit}

/-- A kernel call with the check ends as the one without it, or the result is refused. -/
theorem callKernel_checking (k : Kernel) (name : String) (arity : Nat) (ty : Ty) (tupled : Bool)
    (args : List Value) (M : Machine) :
    Repeats (RunError.Unfit u.types) (fun _ => True)
      ((u.checking true).callKernel k name arity ty tupled args M)
      ((u.checking false).callKernel k name arity ty tupled args M) := by
  refine (Repeats.self (kernelArgs_keeps name arity tupled args trivial)).shared_bind ?_
  intro args' M₁ _
  refine Repeats.shared_bind (x := record _) (y := record _) (.ok trivial) fun _ M₂ _ => ?_
  cases k.checkArity args' with
  | error e => exact .error trivial
  | ok =>
    refine Repeats.shared_bind (x := record _) (y := record _) (.ok trivial) fun _ M₃ _ => ?_
    cases k.body args' with
    | error e => exact .error trivial
    | ok v =>
      cases hfit : v.conformsTo u.types ty with
      | true =>
        simp only [CompiledUnit.checking, hfit]
        exact .ok trivial
      | false =>
        simp only [CompiledUnit.checking, hfit]
        exact .inl (.intro hfit)

theorem Twins.checking {call call' : Call}
    (hcall : ∀ f label bound args M, Repeats (RunError.Unfit u.types) (fun _ => True)
      (call f label bound args M) (call' f label bound args M)) :
    Twins (RunError.Unfit u.types) (fun _ => True) (u.checking true) (u.checking false) call
      call' where
  program := rfl
  kernels := rfl
  types := rfl
  record _ _ _ := trivial
  kernelCall k name arity ty tupled args M _ := callKernel_checking k name arity ty tupled args M
  call f label bound args M _ := hcall f label bound args M

/-- Calls end alike, however many of them may be open. -/
theorem callWithin_checking (room : Nat) (f : Function) (label : String) (bound : Frame)
    (args : List Value) (M : Machine) :
    Repeats (RunError.Unfit u.types) (fun _ => True)
      ((u.checking true).callWithin room f label bound args M)
      ((u.checking false).callWithin room f label bound args M) := by
  induction room generalizing f label bound args M with
  | zero =>
    rw [CompiledUnit.callWithin, CompiledUnit.callWithin]
    split
    · exact .error trivial
    · exact .error trivial
  | succ room ih =>
    rw [CompiledUnit.callWithin, CompiledUnit.callWithin]
    split
    · exact (Twins.checking ih).opened_repeats f.body _ trivial fun _ _ => trivial
    · exact .error trivial

end

/-- Switching the check of kernel results off never changes a run that passes it: an invocation without
the check, of a function by its place or by its name, ends exactly as the one with the check, in the
same machine, unless this one is refused a value that a kernel has returned. -/
theorem unchecked_kernels_keep_outcome (u : CompiledUnit) (args : List Value) (M : Machine) :
    (∀ id, (∃ e M', RunError.Unfit u.types e ∧ (u.checking true).run id args M = .error e M') ∨
      (u.checking false).run id args M = (u.checking true).run id args M) ∧
    ∀ name, (∃ e M', RunError.Unfit u.types e ∧ (u.checking true).invoke name args M = .error e M') ∨
      (u.checking false).invoke name args M = (u.checking true).invoke name args M := by
  have htwins := Twins.checking (callWithin_checking (u := u) u.options.maxCallDepth)
  refine ⟨fun id => ?_, fun name => ?_⟩
  · rw [CompiledUnit.run_eq, CompiledUnit.run_eq]
    exact (htwins.runThrough_repeats id args (M := M) trivial).lost_or_eq
  · rw [CompiledUnit.invoke_eq, CompiledUnit.invoke_eq]
    exact (htwins.invokeThrough_repeats name args (M := M) trivial).lost_or_eq

/-- Branches on the result of a kernel that returns a number where a truth value is declared. -/
def miscount : Function where
  name := none
  params := []
  captures := []
  body := .ite (.packed "count" 0 [] (.scalar .bool) false) (.literal (.scalarBool true))
    (.literal (.scalarBool false)) (.scalar .bool)
  ret := .scalar .bool

def miscountUnit : CompiledUnit where
  program := ⟨[("miscount", miscount)]⟩
  kernels := ⟨[.const "count" (.fixed 0) (.tensor (.scalarInt32 0))]⟩
  types := []

/-- Without the check, the number goes on to the branch. -/
example :
    (∃ M, (miscountUnit.checking true).invoke "miscount" [] {} =
      .error (.typeMismatch .kernelCall (Ty.scalar .bool).text (.tensor (.scalarInt32 0))) M) ∧
    ∃ M, (miscountUnit.checking false).invoke "miscount" [] {} =
      .error (.typeMismatch .condition "a bool scalar condition" (.tensor (.scalarInt32 0))) M :=
  ⟨⟨_, rfl⟩, ⟨_, rfl⟩⟩

end TensorIR.Run
