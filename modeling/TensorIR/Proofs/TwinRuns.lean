import TensorIR.Proofs.Frames
import TensorIR.Proofs.RunOutcomes

/-! Two runs of the same code, side by side.

Units with the same program may make calls in different ways, or check different things of kernels. As
long as these steps end alike, so do whole runs. Which failures of the first unit say nothing about
the second one, and what is known of the machine in between, is left open (`Repeats`); of a unit and
itself, this tells what a run does to the machine. -/

namespace TensorIR.Run

open Lowered Matching

section

variable {α β : Type}

/-- The second step ends as the first one does, in the same machine, which has the property. Nothing is
said if the first one fails in a way that is left out. -/
def Repeats (Lost : RunError → Prop) (I : Machine → Prop) :
    EStateM.Result RunError Machine α → EStateM.Result RunError Machine α → Prop
  | .ok a M, r' => r' = .ok a M ∧ I M
  | .error e M, r' => Lost e ∨ r' = .error e M ∧ I M

namespace Repeats

variable {Lost : RunError → Prop} {I J : Machine → Prop} {F : Frame} {M : Machine}

theorem ok {a : α} (h : I M) : Repeats Lost I (.ok a M) (.ok a M) := ⟨rfl, h⟩

theorem error {e : RunError} (h : I M) :
    Repeats Lost I (.error e M : EStateM.Result RunError Machine α) (.error e M) := .inr ⟨rfl, h⟩

/-- A step repeats itself. -/
theorem self {r : EStateM.Result RunError Machine α}
    (h : Concludes (fun _ => I) (fun _ => I) r) : Repeats Lost I r r := by
  cases r with
  | ok a M => exact .ok h
  | error e M => exact .error h

theorem concludes {r r' : EStateM.Result RunError Machine α}
    (h : Repeats (fun _ => False) I r r') : Concludes (fun _ => I) (fun _ => I) r := by
  cases r with
  | ok a M => exact h.2
  | error e M => exact (h.resolve_left id).2

theorem eq {r r' : EStateM.Result RunError Machine α} (h : Repeats (fun _ => False) I r r') :
    r' = r := by
  cases r with
  | ok a M => exact h.1
  | error e M => exact (h.resolve_left id).1

theorem lost_or_eq {r r' : EStateM.Result RunError Machine α} (h : Repeats Lost I r r') :
    (∃ e M, Lost e ∧ r = .error e M) ∨ r' = r := by
  cases r with
  | ok a M => exact .inr h.1
  | error e M => exact h.imp (fun hlost => ⟨e, M, hlost, rfl⟩) And.left

theorem shared_bind {x y : RunM α} {f g : α → RunM β} (hx : Repeats Lost I (x M) (y M))
    (hf : ∀ a M', I M' → Repeats Lost I (f a M') (g a M')) :
    Repeats Lost I ((x >>= f) M) ((y >>= g) M) := by
  cases hr : x M with
  | ok a M' =>
    rw [hr] at hx
    rw [shared_bind_of_ok hr, shared_bind_of_ok hx.1]
    exact hf a M' hx.2
  | error e M' =>
    rw [hr] at hx
    rw [shared_bind_of_error hr]
    rcases hx with hlost | ⟨hr', hM'⟩
    · exact .inl hlost
    · rw [shared_bind_of_error hr']
      exact .error hM'

theorem bind {x x' : CallM α} {f f' : α → CallM β} (hx : Repeats Lost I (x F M) (x' F M))
    (hf : ∀ a F' M', I M' → Repeats Lost I (f a F' M') (f' a F' M')) :
    Repeats Lost I ((x >>= f) F M) ((x' >>= f') F M) :=
  shared_bind (x := x F) (y := x' F) hx fun r M' => hf r.1 r.2 M'

theorem lift {x x' : RunM α} (h : Repeats Lost I (x M) (x' M)) :
    Repeats Lost I ((liftM x : CallM α) F M) ((liftM x' : CallM α) F M) :=
  h.shared_bind (f := fun a => pure (a, F)) (g := fun a => pure (a, F)) fun _ _ => .ok

theorem run' {x x' : CallM α} (h : Repeats Lost I (x F M) (x' F M)) :
    Repeats Lost I (x.run' F M) (x'.run' F M) :=
  h.shared_bind (x := x F) (y := x' F) (f := fun r => pure r.1) (g := fun r => pure r.1)
    fun _ _ => .ok

/-- The body of a call is evaluated with one more call open. -/
theorem opened {step step' : RunM Value}
    (h : Repeats Lost J (step { M with depth := M.depth + 1, peak := max M.peak (M.depth + 1) })
      (step' { M with depth := M.depth + 1, peak := max M.peak (M.depth + 1) }))
    (hJ : ∀ M', J M' → I { M' with depth := M'.depth - 1 }) :
    Repeats Lost I (CompiledUnit.opened step M) (CompiledUnit.opened step' M) := by
  rw [CompiledUnit.opened, CompiledUnit.opened]
  cases hr : step { M with depth := M.depth + 1, peak := max M.peak (M.depth + 1) } with
  | ok v M' =>
    rw [hr] at h
    rw [h.1]
    exact .ok (hJ M' h.2)
  | error e M' =>
    rw [hr] at h
    rcases h with hlost | ⟨hr', hM'⟩
    · exact .inl hlost
    · rw [hr']
      exact .error (hJ M' hM')

end Repeats

end

/-! ## Steps that change the trace only -/

/-- What is recorded makes no difference to the property. -/
def Recordable (I : Machine → Prop) : Prop :=
  ∀ M e, I M → I { M with trace := M.trace.push e }

section

variable {I : Machine → Prop} {F : Frame} {M : Machine}

theorem lookup_keeps (x : String) (h : I M) :
    Concludes (fun _ => I) (fun _ => I) (lookup x F M) := by
  cases hx : F.lookup x with
  | some v =>
    rw [lookup_of_eq_some hx]
    exact h
  | none =>
    rw [lookup_of_eq_none hx]
    exact h

theorem captureAll_keeps (captures : List Param) (h : I M) :
    Concludes (fun _ => I) (fun _ => I) (CompiledUnit.captureAll captures F M) := by
  induction captures generalizing F M with
  | nil => exact h
  | cons c captures ih =>
    refine (lookup_keeps c.name h).bind (fun _ _ he => he) fun v F' M' hM' => ?_
    exact (ih hM').bind (fun _ _ he => he) fun vs F'' M'' hM'' => hM''

theorem kernelArgs_keeps (name : String) (arity : Nat) (tupled : Bool) (args : List Value)
    (h : I M) :
    Concludes (fun _ => I) (fun _ => I) (CompiledUnit.kernelArgs name arity tupled args M) := by
  unfold CompiledUnit.kernelArgs
  cases tupled with
  | false => exact h
  | true =>
    simp only [if_true]
    cases args.getLast? with
    | none => exact h
    | some v =>
      cases v with
      | tuple fields =>
        dsimp only
        split
        · exact h
        · exact h
      | _ => exact h

theorem callKernel_keeps (hI : Recordable I) (u : CompiledUnit) (k : Kernel) (name : String)
    (arity : Nat) (ty : Ty) (tupled : Bool) (args : List Value) (h : I M) :
    Concludes (fun _ => I) (fun _ => I) (u.callKernel k name arity ty tupled args M) := by
  refine (kernelArgs_keeps name arity tupled args h).shared_bind (fun _ _ he => he) ?_
  intro args' M₁ h₁
  have h₂ := hI M₁ (.packedCall name arity tupled) h₁
  refine Concludes.shared_bind (E := fun _ => I) (Q := fun _ => I) h₂ (fun _ _ he => he) ?_
  intro _ M₂ h₂
  cases k.checkArity args' with
  | error e => exact h₂
  | ok =>
    have h₃ := hI M₂ (.kernel name args') h₂
    refine Concludes.shared_bind (E := fun _ => I) (Q := fun _ => I) h₃ (fun _ _ he => he) ?_
    intro _ M₃ h₃
    cases k.body args' with
    | error e => exact h₃
    | ok v =>
      dsimp only
      split
      · exact h₃
      · exact h₃

theorem checkArgs_keeps (types : Source.TypeTable) (params : List Param) (args : List Value)
    (h : I M) :
    Concludes (fun _ => I) (fun _ => I) (CompiledUnit.checkArgs types params args M) := by
  induction params generalizing args with
  | nil => exact h
  | cons p params ih =>
    cases args with
    | nil => exact h
    | cons v vs =>
      rw [CompiledUnit.checkArgs]
      split
      · exact ih vs
      · exact h

end

/-! ## Code -/

/-- Units with the same program, kernels and types, whose calls and kernel calls end alike where the
machine has the property. -/
structure Twins (Lost : RunError → Prop) (I : Machine → Prop) (u u' : CompiledUnit)
    (call call' : Call) : Prop where
  program : u'.program = u.program
  kernels : u'.kernels = u.kernels
  types : u'.types = u.types
  record : Recordable I
  kernelCall : ∀ k name arity ty tupled args M, I M →
    Repeats Lost I (u.callKernel k name arity ty tupled args M)
      (u'.callKernel k name arity ty tupled args M)
  call : ∀ f label bound args M, I M →
    Repeats Lost I (call f label bound args M) (call' f label bound args M)

namespace Twins

variable {Lost : RunError → Prop} {I : Machine → Prop} {u u' : CompiledUnit} {call call' : Call}

/-- Units that check the same of kernels, and differ in how they make calls. -/
theorem of_calls (hprogram : u'.program = u.program) (hkernels : u'.kernels = u.kernels)
    (htypes : u'.types = u.types)
    (hcheck : u'.options.checkKernelOutputs = u.options.checkKernelOutputs) (hI : Recordable I)
    (hcall : ∀ f label bound args M, I M →
      Repeats Lost I (call f label bound args M) (call' f label bound args M)) :
    Twins Lost I u u' call call' where
  program := hprogram
  kernels := hkernels
  types := htypes
  record := hI
  kernelCall k name arity ty tupled args M hM := by
    have hsame : u'.callKernel k name arity ty tupled args =
        u.callKernel k name arity ty tupled args := by
      unfold CompiledUnit.callKernel
      rw [htypes, hcheck]
    rw [hsame]
    exact .self (callKernel_keeps hI u k name arity ty tupled args hM)
  call := hcall

section

variable (H : Twins Lost I u u' call call')
include H

theorem callGlobal_repeats (id : FunctionId) (args : List Value) {M : Machine} (hM : I M) :
    Repeats Lost I (u.callGlobal call id args M) (u'.callGlobal call' id args M) := by
  unfold CompiledUnit.callGlobal
  rw [H.program]
  cases u.program.functions[id.index]? with
  | none => exact .error hM
  | some entry => exact H.call _ _ _ _ _ (H.record M _ hM)

theorem applyValue_repeats (v : Value) (args : List Value) {M : Machine} (hM : I M) :
    Repeats Lost I (u.applyValue call v args M) (u'.applyValue call' v args M) := by
  cases v with
  | global id => exact H.callGlobal_repeats id args hM
  | closure f captures => exact H.call _ _ _ _ _ (H.record M _ hM)
  | tensor | tuple | adt => exact .error hM

theorem kernel_repeats (name : String) {M : Machine} (hM : I M) :
    Repeats Lost I (u.kernel name M) (u'.kernel name M) := by
  unfold CompiledUnit.kernel
  rw [H.kernels]
  cases u.kernels.get? name with
  | none => exact .error hM
  | some k => exact .ok hM

end

mutual

/-- Nodes are evaluated alike. -/
theorem eval_repeats (H : Twins Lost I u u' call call') : ∀ (n : Node) (F : Frame) {M : Machine},
    I M → Repeats Lost I (u.eval call n F M) (u'.eval call' n F M)
  | .var x, F, M, hM => .self (lookup_keeps x hM)
  | .literal _, _, _, hM => .ok hM
  | .global _, _, _, hM => .ok hM
  | .decl bindings body, F, M, hM => by
    rw [CompiledUnit.eval, CompiledUnit.eval]
    exact (evalBindings_repeats H bindings F hM).bind fun _ F' M' hM' => eval_repeats H body F' hM'
  | .packed name arity args ty tupled, F, M, hM => by
    rw [CompiledUnit.eval, CompiledUnit.eval]
    refine (H.kernel_repeats name hM).lift.bind fun k F₁ M₁ hM₁ => ?_
    refine (evalAll_repeats H args F₁ hM₁).bind fun vs F₂ M₂ hM₂ => ?_
    exact (H.kernelCall k name arity ty tupled vs M₂ hM₂).lift
  | .invoke target args, F, M, hM => by
    rw [CompiledUnit.eval, CompiledUnit.eval]
    refine (evalAll_repeats H args F hM).bind fun vs F' M' hM' => ?_
    exact (H.callGlobal_repeats target.id vs hM').lift
  | .apply callee args, F, M, hM => by
    rw [CompiledUnit.eval, CompiledUnit.eval]
    refine (eval_repeats H callee F hM).bind fun v F₁ M₁ hM₁ => ?_
    refine (evalAll_repeats H args F₁ hM₁).bind fun vs F₂ M₂ hM₂ => ?_
    exact (H.applyValue_repeats v vs hM₂).lift
  | .func _ _ captures _ _, F, M, hM => by
    rw [CompiledUnit.eval, CompiledUnit.eval]
    exact (Repeats.self (captureAll_keeps captures hM)).bind fun _ _ _ => .ok
  | .ite cond onTrue onFalse _, F, M, hM => by
    rw [CompiledUnit.eval, CompiledUnit.eval]
    refine (eval_repeats H cond F hM).bind fun v F' M' hM' => ?_
    cases v.asBool? with
    | none => exact .error hM'
    | some b =>
      cases b with
      | true => exact eval_repeats H onTrue F' hM'
      | false => exact eval_repeats H onFalse F' hM'
  | .tuple fields _, F, M, hM => by
    rw [CompiledUnit.eval, CompiledUnit.eval]
    exact (evalAll_repeats H fields F hM).bind fun _ _ _ => .ok
  | .matchOn data clauses _, F, M, hM => by
    rw [CompiledUnit.eval, CompiledUnit.eval]
    exact (eval_repeats H data F hM).bind fun v F' M' hM' => evalClauses_repeats H v clauses F' hM'
  | .ctor _ _ fields _, F, M, hM => by
    rw [CompiledUnit.eval, CompiledUnit.eval]
    exact (evalAll_repeats H fields F hM).bind fun _ _ _ => .ok

theorem evalAll_repeats (H : Twins Lost I u u' call call') : ∀ (ns : List Node) (F : Frame)
    {M : Machine}, I M → Repeats Lost I (u.evalAll call ns F M) (u'.evalAll call' ns F M)
  | [], _, _, hM => .ok hM
  | n :: ns, F, M, hM => by
    rw [CompiledUnit.evalAll, CompiledUnit.evalAll]
    refine (eval_repeats H n F hM).bind fun v F' M' hM' => ?_
    exact (evalAll_repeats H ns F' hM').bind fun _ _ _ => .ok

theorem evalBindings_repeats (H : Twins Lost I u u' call call') :
    ∀ (bindings : List (String × Node)) (F : Frame) {M : Machine}, I M →
      Repeats Lost I (u.evalBindings call bindings F M) (u'.evalBindings call' bindings F M)
  | [], _, _, hM => .ok hM
  | (x, n) :: rest, F, M, hM => by
    rw [CompiledUnit.evalBindings, CompiledUnit.evalBindings]
    refine (eval_repeats H n F hM).bind fun v F' M' hM' => ?_
    exact evalBindings_repeats H rest ((x, v) :: F') hM'

theorem evalClauses_repeats (H : Twins Lost I u u' call call') (v : Value) :
    ∀ (clauses : List (Lowered.Pattern × Node)) (F : Frame) {M : Machine}, I M →
      Repeats Lost I (u.evalClauses call v clauses F M) (u'.evalClauses call' v clauses F M)
  | [], _, _, hM => .error hM
  | (p, body) :: rest, F, M, hM => by
    rw [CompiledUnit.evalClauses_cons, CompiledUnit.evalClauses_cons]
    cases matchPattern? p v with
    | none => exact evalClauses_repeats H v rest F hM
    | some entries => exact eval_repeats H body (F.extend entries) hM

end

end Twins

/-- The bodies of open calls are evaluated alike. -/
theorem Twins.opened_repeats {Lost : RunError → Prop} {I J : Machine → Prop} {u u' : CompiledUnit}
    {call call' : Call} (H : Twins Lost J u u' call call') (body : Node) (F : Frame) {M : Machine}
    (hM : J { M with depth := M.depth + 1, peak := max M.peak (M.depth + 1) })
    (hJ : ∀ M', J M' → I { M' with depth := M'.depth - 1 }) :
    Repeats Lost I (CompiledUnit.opened ((u.eval call body).run' F) M)
      (CompiledUnit.opened ((u'.eval call' body).run' F) M) :=
  (H.eval_repeats body F hM).run'.opened hJ

/-! ## Runs -/

namespace CompiledUnit

/-- Runs a global function as `run` does, with calls made in the given way. -/
def runThrough (u : CompiledUnit) (call : Call) (id : FunctionId) (args : List Value) :
    RunM Value := do
  match u.program.functions[id.index]? with
  | none => throw (.unknownFunction id.text)
  | some (name, f) =>
    if args.length ≠ f.params.length then
      throw (.arityMismatch ("function '" ++ name ++ "'") f.params.length args.length)
    checkArgs u.types f.params args
    let v ← u.callGlobal call id args
    if v.conformsTo u.types f.ret then return v
    else throw (.typeMismatch .returnValue f.ret.text v)

/-- Runs the global function with the given name as `invoke` does, with calls made in the given way. -/
def invokeThrough (u : CompiledUnit) (call : Call) (name : String) (args : List Value) :
    RunM Value :=
  match u.program.idOf? name with
  | some id => u.runThrough call id args
  | none => throw (.unknownFunction name)

variable (u : CompiledUnit)

theorem run_eq : u.run = u.runThrough (u.callWithin u.options.maxCallDepth) := rfl

theorem invoke_eq : u.invoke = u.invokeThrough (u.callWithin u.options.maxCallDepth) := rfl

end CompiledUnit

namespace Twins

variable {Lost : RunError → Prop} {I : Machine → Prop} {u u' : CompiledUnit} {call call' : Call}

theorem runThrough_repeats (H : Twins Lost I u u' call call') (id : FunctionId) (args : List Value)
    {M : Machine} (hM : I M) :
    Repeats Lost I (u.runThrough call id args M) (u'.runThrough call' id args M) := by
  unfold CompiledUnit.runThrough
  rw [H.program, H.types]
  cases u.program.functions[id.index]? with
  | none => exact .error hM
  | some entry =>
    dsimp only
    split
    · exact .error hM
    · refine (Repeats.self (checkArgs_keeps u.types entry.2.params args hM)).shared_bind ?_
      intro _ M₁ hM₁
      refine (H.callGlobal_repeats id args hM₁).shared_bind fun v M₂ hM₂ => ?_
      split
      · exact .ok hM₂
      · exact .error hM₂

theorem invokeThrough_repeats (H : Twins Lost I u u' call call') (name : String) (args : List Value)
    {M : Machine} (hM : I M) :
    Repeats Lost I (u.invokeThrough call name args M) (u'.invokeThrough call' name args M) := by
  unfold CompiledUnit.invokeThrough
  rw [H.program]
  cases u.program.idOf? name with
  | none => exact .error hM
  | some id => exact H.runThrough_repeats id args hM

end Twins

end TensorIR.Run
