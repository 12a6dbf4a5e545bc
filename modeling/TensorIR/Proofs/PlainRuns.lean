import TensorIR.Proofs.Frames
import TensorIR.Proofs.PlainCode
import TensorIR.Run.Invocation

/-! Runs of plain code.

A program and its plain form run alike: each step of the plain one ends in the plain form of what the
other one ends in, if no kernel looks into code. So two programs with one plain form have the same
outcomes, up to the code in functions. -/

namespace TensorIR.Run

open Lowered Matching

/-! ## Plain machines -/

def Event.plain : Event → Event
  | .kernel name args => .kernel name (Value.plainAll args)
  | e => e

def Machine.plain (M : Machine) : Machine := { M with trace := M.trace.map Event.plain }

def RunError.plain : RunError → RunError
  | .typeMismatch site expected found => .typeMismatch site expected found.plain
  | .nonExhaustiveMatch value => .nonExhaustiveMatch value.plain
  | e => e

theorem RunError.message_plain (e : RunError) : e.plain.message = e.message := by
  cases e with
  | typeMismatch site expected found =>
    unfold message plain
    dsimp only
    rw [Value.describe_plain]
  | nonExhaustiveMatch value =>
    unfold message plain
    dsimp only
    rw [Value.describe_plain]
  | _ => rfl

section

variable {α α' β β' : Type} {F : Frame} {M : Machine}

/-- The outcome in plain form, whose result is given by the function. -/
def plainResult (g : α → α') :
    EStateM.Result RunError Machine α → EStateM.Result RunError Machine α'
  | .ok a M => .ok (g a) M.plain
  | .error e M => .error e.plain M.plain

/-- The result of a step inside a call in plain form, with the frame after it. -/
def plainStep (g : α → α') (r : α × Frame) : α' × Frame := (g r.1, plainEntries r.2)

theorem plain_shared_bind {x : RunM α} {x' : RunM α'} {f : α → RunM β} {f' : α' → RunM β'}
    {g : α → α'} {h : β → β'} (hx : x' M.plain = plainResult g (x M))
    (hf : ∀ a M, f' (g a) M.plain = plainResult h (f a M)) :
    (x' >>= f') M.plain = plainResult h ((x >>= f) M) := by
  cases hr : x M with
  | ok a M' =>
    rw [hr] at hx
    rw [shared_bind_of_ok hr, shared_bind_of_ok hx]
    exact hf a M'
  | error e M' =>
    rw [hr] at hx
    rw [shared_bind_of_error hr, shared_bind_of_error hx]
    rfl

theorem plain_bind {x : CallM α} {x' : CallM α'} {f : α → CallM β} {f' : α' → CallM β'}
    {g : α → α'} {h : β → β'}
    (hx : x' (plainEntries F) M.plain = plainResult (plainStep g) (x F M))
    (hf : ∀ a F M, f' (g a) (plainEntries F) M.plain = plainResult (plainStep h) (f a F M)) :
    (x' >>= f') (plainEntries F) M.plain = plainResult (plainStep h) ((x >>= f) F M) :=
  plain_shared_bind (x := x F) hx fun r M => hf r.1 r.2 M

theorem plain_lift {x : RunM α} {x' : RunM α'} {g : α → α'}
    (hx : x' M.plain = plainResult g (x M)) :
    (liftM x' : CallM α') (plainEntries F) M.plain =
      plainResult (plainStep g) ((liftM x : CallM α) F M) :=
  plain_shared_bind (f := fun a => pure (a, F)) hx fun _ _ => rfl

theorem plain_run' {x : CallM α} {x' : CallM α'} {g : α → α'}
    (hx : x' (plainEntries F) M.plain = plainResult (plainStep g) (x F M)) :
    x'.run' (plainEntries F) M.plain = plainResult g (x.run' F M) :=
  plain_shared_bind (x := x F) (f := fun r => pure r.1) hx fun _ _ => rfl

theorem plain_opened {step step' : RunM Value}
    (h : ∀ M : Machine, step' M.plain = plainResult Value.plain (step M)) :
    CompiledUnit.opened step' M.plain = plainResult Value.plain (CompiledUnit.opened step M) := by
  have hstep : step' { M.plain with
      depth := M.plain.depth + 1, peak := max M.plain.peak (M.plain.depth + 1) } = _ :=
    h { M with depth := M.depth + 1, peak := max M.peak (M.depth + 1) }
  rw [CompiledUnit.opened, CompiledUnit.opened, hstep]
  cases step { M with depth := M.depth + 1, peak := max M.peak (M.depth + 1) } with
  | ok v M' => rfl
  | error e M' => rfl

theorem plain_record (e : Event) : record e.plain M.plain = plainResult id (record e M) := by
  have hstep : ∀ (e : Event) (M : Machine),
      record e M = .ok () { M with trace := M.trace.push e } := fun _ _ => rfl
  rw [hstep, hstep]
  simp [plainResult, Machine.plain]

end

/-! ## Steps of a unit -/

/-- The unit with plain code. -/
def CompiledUnit.plain (u : CompiledUnit) : CompiledUnit :=
  { u with program := u.program.plain, kernels := u.kernels.plain }

/-- The second way to call functions does with plain code and values what the first one does. -/
def CallsPlain (call call' : Call) : Prop :=
  ∀ f label bound args (M : Machine), call' f.plain label (plainEntries bound) (Value.plainAll args)
    M.plain = plainResult Value.plain (call f label bound args M)

theorem lookup_plain (x : String) (F : Frame) (M : Machine) :
    lookup x (plainEntries F) M.plain = plainResult (plainStep Value.plain) (lookup x F M) := by
  have hplain := lookup_plainEntries F x
  cases hx : F.lookup x with
  | some v =>
    rw [hx] at hplain
    rw [lookup_of_eq_some hx, lookup_of_eq_some hplain]
    rfl
  | none =>
    rw [hx] at hplain
    rw [lookup_of_eq_none hx, lookup_of_eq_none hplain]
    rfl

theorem captureAll_plain (captures : List Param) (F : Frame) (M : Machine) :
    CompiledUnit.captureAll captures (plainEntries F) M.plain =
      plainResult (plainStep Value.plainAll) (CompiledUnit.captureAll captures F M) := by
  induction captures generalizing F M with
  | nil => rfl
  | cons c captures ih =>
    refine plain_bind (lookup_plain c.name F M) fun v F' M' => ?_
    exact plain_bind (ih F' M') fun vs F'' M'' => rfl

theorem kernelArgs_plain (name : String) (arity : Nat) (tupled : Bool) (args : List Value)
    (M : Machine) : CompiledUnit.kernelArgs name arity tupled (Value.plainAll args) M.plain =
      plainResult Value.plainAll (CompiledUnit.kernelArgs name arity tupled args M) := by
  unfold CompiledUnit.kernelArgs
  cases tupled with
  | false => rfl
  | true =>
    rw [Value.plainAll_eq_map, List.getLast?_map]
    cases args.getLast? with
    | none => rfl
    | some v =>
      cases v with
      | tuple fields =>
        simp only [if_true, Option.map_some, Value.plain, Value.length_plainAll]
        split
        · rfl
        · rfl
      | _ => rfl

theorem extend_plainEntries (F : Frame) (entries : List (String × Value)) :
    Frame.extend (plainEntries F) (plainEntries entries) = plainEntries (F.extend entries) := by
  simp [Frame.extend, plainEntries]

theorem checkArity_plain (k : Kernel) (args : List Value) :
    k.plain.checkArity (Value.plainAll args) = k.checkArity args := by
  rw [Kernel.checkArity, Kernel.checkArity, Value.length_plainAll]
  rfl

theorem body_plain {k : Kernel} (hk : k.Blind) (args : List Value) :
    k.plain.body (Value.plainAll args) = (k.body args).map Value.plain :=
  hk args

section

variable {u : CompiledUnit} {call call' : Call}

theorem callKernel_plain {k : Kernel} (hk : k.Blind) (name : String) (arity : Nat) (ty : Ty)
    (tupled : Bool) (args : List Value) (M : Machine) :
    u.plain.callKernel k.plain name arity ty tupled (Value.plainAll args) M.plain =
      plainResult Value.plain (u.callKernel k name arity ty tupled args M) := by
  refine plain_shared_bind (kernelArgs_plain name arity tupled args M) fun args M => ?_
  refine plain_shared_bind (plain_record (.packedCall name arity tupled)) fun _ M => ?_
  rw [checkArity_plain]
  cases k.checkArity args with
  | error e => rfl
  | ok =>
    refine plain_shared_bind (plain_record (.kernel name args)) fun _ M => ?_
    rw [body_plain hk]
    cases k.body args with
    | error e => rfl
    | ok v =>
      have hcheck : (u.plain.options.checkKernelOutputs && !v.plain.conformsTo u.plain.types ty) =
          (u.options.checkKernelOutputs && !v.conformsTo u.types ty) := by
        rw [Value.conformsTo_plain]
        rfl
      simp only [Except.map, hcheck]
      cases u.options.checkKernelOutputs && !v.conformsTo u.types ty with
      | true => rfl
      | false => rfl

theorem callGlobal_plain (hcall : CallsPlain call call') (id : FunctionId) (args : List Value)
    (M : Machine) : u.plain.callGlobal call' id (Value.plainAll args) M.plain =
      plainResult Value.plain (u.callGlobal call id args M) := by
  have hfunction : u.plain.program.functions[id.index]? =
      u.program.functions[id.index]?.map fun function => (function.1, function.2.plain) :=
    List.getElem?_map
  unfold CompiledUnit.callGlobal
  rw [hfunction]
  cases u.program.functions[id.index]? with
  | none => rfl
  | some function =>
    refine plain_shared_bind (x := get) (g := Machine.plain) rfl fun M₀ M => ?_
    refine plain_shared_bind (plain_record (.invoke function.1 M₀.depth)) fun _ M => ?_
    exact hcall function.2 function.1 [] args M

/-- What a local function finds in its frame. -/
theorem boundEntries_plain (f : Lowered.Function) (v : Value) (captures : List Value) :
    Frame.extend [] (f.name.toList.map (fun name => (name, v.plain)) ++
        (f.captures.map Param.name).zip (Value.plainAll captures)) =
      plainEntries (Frame.extend [] (f.name.toList.map (fun name => (name, v)) ++
        (f.captures.map Param.name).zip captures)) := by
  rw [zip_plainAll]
  simp [Frame.extend, plainEntries]

theorem applyValue_plain (hcall : CallsPlain call call') (v : Value) (args : List Value)
    (M : Machine) : u.plain.applyValue call' v.plain (Value.plainAll args) M.plain =
      plainResult Value.plain (u.applyValue call v args M) := by
  cases v with
  | global id => exact callGlobal_plain hcall id args M
  | closure f captures =>
    refine plain_shared_bind (x := get) (g := Machine.plain) rfl fun M₀ M => ?_
    refine plain_shared_bind (plain_record (.invoke (f.name.getD "<closure>") M₀.depth)) fun _ M => ?_
    rw [← hcall f (f.name.getD "<closure>") _ args M, ← boundEntries_plain]
    rfl
  | tensor | tuple | adt => rfl

theorem plain_kernel_bind {β β' : Type} (hu : u.kernels.Blind) (name : String)
    {f : Kernel → CallM β} {f' : Kernel → CallM β'} {g : β → β'}
    (hf : ∀ k, k.Blind → ∀ F M,
      f' k.plain (plainEntries F) M.plain = plainResult (plainStep g) (f k F M))
    (F : Frame) (M : Machine) :
    ((liftM (u.plain.kernel name) : CallM Kernel) >>= f') (plainEntries F) M.plain =
      plainResult (plainStep g) (((liftM (u.kernel name) : CallM Kernel) >>= f) F M) := by
  have hplain : u.plain.kernels.get? name = (u.kernels.get? name).map Kernel.plain :=
    u.kernels.get?_plain name
  unfold CompiledUnit.kernel
  rw [hplain]
  cases hk : u.kernels.get? name with
  | none => rfl
  | some k => exact hf k (hu hk) F M

/-- To apply a global as a function value is to call it. -/
theorem eval_apply_global (target : GlobalRef) (args : List Node) :
    u.eval call (.apply (.global target) args) = u.eval call (.invoke target args) := by
  rw [CompiledUnit.eval, CompiledUnit.eval, CompiledUnit.eval]
  rfl

end

/-! ## Evaluation -/

section

variable {u : CompiledUnit} {call call' : Call}

mutual

/-- Plain nodes are evaluated as the nodes themselves are. -/
theorem eval_plain (hu : u.kernels.Blind) (hcall : CallsPlain call call') :
    ∀ (n : Node) (F : Frame) (M : Machine), u.plain.eval call' n.plain (plainEntries F) M.plain =
      plainResult (plainStep Value.plain) (u.eval call n F M)
  | .var x, F, M => lookup_plain x F M
  | .literal _, _, _ => rfl
  | .global _, _, _ => rfl
  | .decl bindings body, F, M => by
    rw [Node.plain, CompiledUnit.eval, CompiledUnit.eval]
    exact plain_bind (evalBindings_plain hu hcall bindings F M) fun _ => eval_plain hu hcall body
  | .packed name arity args ty tupled, F, M => by
    rw [Node.plain, CompiledUnit.eval, CompiledUnit.eval]
    refine plain_kernel_bind hu name (fun k hk F M => ?_) F M
    exact plain_bind (evalAll_plain hu hcall args F M) fun vs F M =>
      plain_lift (callKernel_plain hk name arity ty tupled vs M)
  | .invoke target args, F, M => by
    rw [Node.plain, eval_apply_global, CompiledUnit.eval, CompiledUnit.eval]
    exact plain_bind (evalAll_plain hu hcall args F M) fun vs F M =>
      plain_lift (callGlobal_plain hcall target.id vs M)
  | .apply callee args, F, M => by
    rw [Node.plain, CompiledUnit.eval, CompiledUnit.eval]
    refine plain_bind (eval_plain hu hcall callee F M) fun f F M => ?_
    exact plain_bind (evalAll_plain hu hcall args F M) fun vs F M =>
      plain_lift (applyValue_plain hcall f vs M)
  | .func _ _ captures _ _, F, M => by
    rw [Node.plain, CompiledUnit.eval, CompiledUnit.eval]
    exact plain_bind (captureAll_plain captures F M) fun _ _ _ => rfl
  | .ite cond onTrue onFalse _, F, M => by
    rw [Node.plain, CompiledUnit.eval, CompiledUnit.eval]
    refine plain_bind (eval_plain hu hcall cond F M) fun v F M => ?_
    rw [Value.asBool?_plain]
    cases v.asBool? with
    | none => rfl
    | some b =>
      cases b with
      | true => exact eval_plain hu hcall onTrue F M
      | false => exact eval_plain hu hcall onFalse F M
  | .tuple fields _, F, M => by
    rw [Node.plain, CompiledUnit.eval, CompiledUnit.eval]
    exact plain_bind (evalAll_plain hu hcall fields F M) fun _ _ _ => rfl
  | .matchOn data clauses _, F, M => by
    rw [Node.plain, CompiledUnit.eval, CompiledUnit.eval]
    exact plain_bind (eval_plain hu hcall data F M) fun v => evalClauses_plain hu hcall v clauses
  | .ctor _ _ fields _, F, M => by
    rw [Node.plain, CompiledUnit.eval, CompiledUnit.eval]
    exact plain_bind (evalAll_plain hu hcall fields F M) fun _ _ _ => rfl

theorem evalAll_plain (hu : u.kernels.Blind) (hcall : CallsPlain call call') :
    ∀ (ns : List Node) (F : Frame) (M : Machine),
      u.plain.evalAll call' (Node.plainAll ns) (plainEntries F) M.plain =
        plainResult (plainStep Value.plainAll) (u.evalAll call ns F M)
  | [], _, _ => rfl
  | n :: ns, F, M => by
    rw [Node.plainAll, CompiledUnit.evalAll, CompiledUnit.evalAll]
    refine plain_bind (eval_plain hu hcall n F M) fun v F M => ?_
    exact plain_bind (evalAll_plain hu hcall ns F M) fun _ _ _ => rfl

theorem evalBindings_plain (hu : u.kernels.Blind) (hcall : CallsPlain call call') :
    ∀ (bs : List (String × Node)) (F : Frame) (M : Machine),
      u.plain.evalBindings call' (Node.plainBindings bs) (plainEntries F) M.plain =
        plainResult (plainStep id) (u.evalBindings call bs F M)
  | [], _, _ => rfl
  | (x, n) :: bs, F, M => by
    rw [Node.plainBindings, CompiledUnit.evalBindings, CompiledUnit.evalBindings]
    refine plain_bind (eval_plain hu hcall n F M) fun v F M => ?_
    exact evalBindings_plain hu hcall bs ((x, v) :: F) M

theorem evalClauses_plain (hu : u.kernels.Blind) (hcall : CallsPlain call call') (v : Value) :
    ∀ (clauses : List (Lowered.Pattern × Node)) (F : Frame) (M : Machine),
      u.plain.evalClauses call' v.plain (Node.plainClauses clauses) (plainEntries F) M.plain =
        plainResult (plainStep Value.plain) (u.evalClauses call v clauses F M)
  | [], _, _ => rfl
  | (p, body) :: rest, F, M => by
    rw [Node.plainClauses, CompiledUnit.evalClauses_cons, CompiledUnit.evalClauses_cons,
      matchPattern?_plain]
    cases matchPattern? p v with
    | none => exact evalClauses_plain hu hcall v rest F M
    | some entries =>
      have hbody := eval_plain hu hcall body (F.extend entries) M
      rw [← extend_plainEntries] at hbody
      exact hbody

end

/-- Calls of plain code end as calls of the code itself do, however many of them may be open. -/
theorem callWithin_plain (hu : u.kernels.Blind) (room : Nat) :
    CallsPlain (u.callWithin room) (u.plain.callWithin room) := by
  induction room with
  | zero =>
    intro f label bound args M
    rw [CompiledUnit.callWithin, CompiledUnit.callWithin, Value.length_plainAll,
      Function.params_plain]
    by_cases hlen : args.length = f.params.length
    · rw [if_pos hlen, if_pos hlen]
      rfl
    · rw [if_neg hlen, if_neg hlen]
      rfl
  | succ room ih =>
    intro f label bound args M
    rw [CompiledUnit.callWithin, CompiledUnit.callWithin, Value.length_plainAll,
      Function.params_plain]
    by_cases hlen : args.length = f.params.length
    · rw [if_pos hlen, if_pos hlen, zip_plainAll, extend_plainEntries]
      exact plain_opened fun M => plain_run' (eval_plain hu ih f.body _ M)
    · rw [if_neg hlen, if_neg hlen]
      rfl

theorem checkArgs_plain (types : Source.TypeTable) (params : List Param) (args : List Value)
    (M : Machine) : CompiledUnit.checkArgs types params (Value.plainAll args) M.plain =
      plainResult id (CompiledUnit.checkArgs types params args M) := by
  induction params generalizing args with
  | nil => rfl
  | cons p params ih =>
    cases args with
    | nil => rfl
    | cons v vs =>
      rw [Value.plainAll, CompiledUnit.checkArgs, CompiledUnit.checkArgs, Value.conformsTo_plain]
      split
      · exact ih vs
      · rfl

theorem run_plain (hu : u.kernels.Blind) (id : FunctionId) (args : List Value) (M : Machine) :
    u.plain.run id (Value.plainAll args) M.plain = plainResult Value.plain (u.run id args M) := by
  have hfunction : u.plain.program.functions[id.index]? =
      u.program.functions[id.index]?.map fun function => (function.1, function.2.plain) :=
    List.getElem?_map
  unfold CompiledUnit.run
  rw [hfunction]
  cases u.program.functions[id.index]? with
  | none => rfl
  | some function =>
    dsimp only [Option.map_some]
    rw [Value.length_plainAll, Function.params_plain]
    by_cases hlen : args.length ≠ function.2.params.length
    · rw [if_pos hlen, if_pos hlen]
      rfl
    · rw [if_neg hlen, if_neg hlen]
      refine plain_shared_bind (checkArgs_plain u.types function.2.params args M) fun _ M => ?_
      refine plain_shared_bind (callGlobal_plain (callWithin_plain hu _) id args M) fun v M => ?_
      have hconforms : v.plain.conformsTo u.plain.types function.2.plain.ret =
          v.conformsTo u.types function.2.ret := Value.conformsTo_plain u.types v function.2.ret
      rw [hconforms]
      cases v.conformsTo u.types function.2.ret with
      | true => rfl
      | false => rfl

/-- Invocations of plain code end as those of the code itself do. -/
theorem invoke_plain (hu : u.kernels.Blind) (name : String) (args : List Value) (M : Machine) :
    u.plain.invoke name (Value.plainAll args) M.plain =
      plainResult Value.plain (u.invoke name args M) := by
  have hid : u.plain.program.idOf? name = u.program.idOf? name := by
    rw [Program.idOf?, Program.idOf?]
    exact congrArg _ List.findIdx?_map
  unfold CompiledUnit.invoke
  rw [hid]
  cases u.program.idOf? name with
  | none => rfl
  | some id => exact run_plain hu id args M

end

/-! ## Programs with one plain form -/

/-- The outcomes are the same up to the code in functions. Results without functions are equal, and
errors have the same message. -/
def SameOutcome : (r r' : EStateM.Result RunError Machine Value) → Prop
  | .ok v M, .ok v' M' => v'.plain = v.plain ∧ (v.isData = true → v' = v) ∧ M'.plain = M.plain
  | .error e M, .error e' M' => e'.plain = e.plain ∧ e'.message = e.message ∧ M'.plain = M.plain
  | _, _ => False

theorem sameOutcome_of_plainResult_eq {r r' : EStateM.Result RunError Machine Value}
    (h : plainResult Value.plain r' = plainResult Value.plain r) : SameOutcome r r' := by
  cases r with
  | ok v M =>
    cases r' with
    | ok v' M' =>
      injection h with hv hM
      exact ⟨hv, Value.eq_of_plain_eq hv, hM⟩
    | error e' M' => cases h
  | error e M =>
    cases r' with
    | ok v' M' => cases h
    | error e' M' =>
      injection h with he hM
      refine ⟨he, ?_, hM⟩
      rw [← RunError.message_plain e', he, RunError.message_plain]

/-- Units that differ in what is neither printed nor evaluated have the same outcomes. -/
theorem invoke_sameOutcome {u u' : CompiledUnit} (hu : u.kernels.Blind)
    (hkernels : u'.kernels = u.kernels) (h : u'.plain = u.plain) (name : String) (args : List Value)
    (M : Machine) : SameOutcome (u.invoke name args M) (u'.invoke name args M) := by
  apply sameOutcome_of_plainResult_eq
  rw [← invoke_plain hu, ← invoke_plain (hkernels ▸ hu), h]

end TensorIR.Run
