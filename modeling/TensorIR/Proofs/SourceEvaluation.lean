import TensorIR.Kernel.Basic
import TensorIR.Source.Module

/-! The meaning of source programs: strict evaluation, by value, in lexical scope.

Arguments are evaluated from left to right. A function literal keeps the environment it stands in,
and a literal that a `let` binds can call itself. Globals are called through the module, constructors
and their patterns have the tags of the module, and type annotations play no part. What kernels do to
values is a parameter. As on the machine, the calls that are open at once are bounded, so that every
evaluation ends. -/

namespace TensorIR.Source

/-! ## Values -/

/-- A value. A local function has the variable that it is bound to, if a `let` binds it, and the
environment of its literal. -/
inductive Val where
  | tensor (value : Tensor)
  | tuple (fields : List Val)
  | adt (tag : Nat) (fields : List Val)
  | global (name : String)
  | closure (own : Option Nat) (params : List Var) (body : Expr) (env : List (Nat × Val))

/-- The values of variables, the innermost binder first. -/
abbrev ValEnv := List (Nat × Val)

/-- Binds variables one after the other. -/
def ValEnv.extend (env : ValEnv) (entries : List (Nat × Val)) : ValEnv := entries.reverse ++ env

namespace Val

/-- The value of a boolean scalar. -/
def asBool? : Val → Option Bool
  | .tensor t => t.asBool?
  | _ => none

mutual

/-- The run-time value with the same data in it. Functions have none. -/
def toValue? : Val → Option Value
  | .tensor t => some (.tensor t)
  | .tuple ws => (toValues? ws).map .tuple
  | .adt tag ws => (toValues? ws).map (.adt tag)
  | .global _ | .closure .. => none

def toValues? : List Val → Option (List Value)
  | [] => some []
  | w :: ws => do
    let v ← w.toValue?
    let vs ← toValues? ws
    return v :: vs

end

mutual

/-- The value with the data of a run-time value in it. -/
def ofValue? : Value → Option Val
  | .tensor t => some (.tensor t)
  | .tuple vs => (ofValues? vs).map .tuple
  | .adt tag vs => (ofValues? vs).map (.adt tag)
  | .global _ | .closure .. => none

def ofValues? : List Value → Option (List Val)
  | [] => some []
  | v :: vs => do
    let w ← ofValue? v
    let ws ← ofValues? vs
    return w :: ws

end

end Val

/-! ## Outcomes -/

/-- Why an evaluation fails. -/
inductive EvalError where
  | unboundVariable (name : String)
  | undefinedGlobal (name : String)
  | unknownKernel (name : String)
  | unknownConstructor (name : String)
  | bareOperator (name : String)
  | arityMismatch (expected found : Nat)
  | notAFunction
  | notACondition
  | notPacked
  | nonExhaustiveMatch
  | kernel (name : String) (cause : KernelError)
  | depthExceeded

/-- A kernel that has started, with its arguments. -/
structure KernelCall where
  kernel : String
  args : List Val

/-- What an evaluation comes to: its result, and the kernels it has called, in order. -/
structure Outcome (α : Type) where
  calls : List KernelCall
  result : Except EvalError α

namespace Outcome

variable {α β : Type}

instance : Monad Outcome where
  pure a := ⟨[], .ok a⟩
  bind x f :=
    match x.result with
    | .ok a => ⟨x.calls ++ (f a).calls, (f a).result⟩
    | .error e => ⟨x.calls, .error e⟩

def fail (e : EvalError) : Outcome α := ⟨[], .error e⟩

def note (call : KernelCall) : Outcome Unit := ⟨[call], .ok ()⟩

theorem bind_eq (x : Outcome α) (f : α → Outcome β) :
    x >>= f =
      match x.result with
      | .ok a => ⟨x.calls ++ (f a).calls, (f a).result⟩
      | .error e => ⟨x.calls, .error e⟩ := rfl

theorem bind_of_ok {x : Outcome α} {a : α} (h : x.result = .ok a) (f : α → Outcome β) :
    x >>= f = ⟨x.calls ++ (f a).calls, (f a).result⟩ := by
  rw [bind_eq, h]

theorem bind_of_error {x : Outcome α} {e : EvalError} (h : x.result = .error e)
    (f : α → Outcome β) : x >>= f = ⟨x.calls, .error e⟩ := by
  rw [bind_eq, h]

@[simp] theorem result_bind (x : Outcome α) (f : α → Outcome β) :
    (x >>= f).result = x.result >>= fun a => (f a).result := by
  rw [bind_eq]
  cases x.result <;> rfl

/-- An evaluation that goes on keeps the calls it has made. -/
theorem calls_prefix_bind (x : Outcome α) (f : α → Outcome β) : x.calls <+: (x >>= f).calls := by
  cases h : x.result with
  | ok a =>
    rw [bind_of_ok h]
    exact List.prefix_append _ _
  | error e =>
    have hcalls : (x >>= f).calls = x.calls := congrArg calls (bind_of_error h f)
    exact hcalls ▸ List.prefix_refl _

end Outcome

/-! ## Evaluation -/

/-- The way to call a function value. -/
abbrev ValCall := Val → List Val → Outcome Val

/-- What kernels do to values. -/
abbrev KernelMeaning := Kernel → List Val → Except KernelError Val

/-- The kernels take and return data only. -/
def KernelMeaning.onData : KernelMeaning := fun kernel inputs =>
  match (Val.toValues? inputs).map kernel.body with
  | none => .error (.invalid "a function is no input of a kernel")
  | some (.error e) => .error e
  | some (.ok v) =>
    match Val.ofValue? v with
    | some w => .ok w
    | none => .error (.invalid "a function is no result of a kernel")

namespace Module

variable (m : Module) (kernels : KernelRegistry) (meaning : KernelMeaning) (call : ValCall)

mutual

/-- The values that a pattern gives to its variables, in order, if it accepts the value. -/
def matches? : Pattern → Val → Option (List (Nat × Val))
  | .wildcard, _ => some []
  | .var v, w => some [(v.id, w)]
  | .ctor name ps, .adt tag ws =>
    match m.ctor? name with
    | some info => if info.tag = tag then matchesAll? ps ws else none
    | none => none
  | .tuple ps, .tuple ws => matchesAll? ps ws
  | _, _ => none

def matchesAll? : List Pattern → List Val → Option (List (Nat × Val))
  | [], [] => some []
  | p :: ps, w :: ws => do
    let xs ← matches? p w
    let ys ← matchesAll? ps ws
    return xs ++ ys
  | _, _ => none

end

/-- What a kernel works on: as many arguments as it takes, or the fields of its one tuple. -/
def kernelInputs : KernelArity → List Val → Outcome (List Val)
  | .fixed n, ws => if ws.length = n then pure ws else .fail (.arityMismatch n ws.length)
  | .packed, [.tuple ws] => pure ws
  | .packed, _ => .fail .notPacked

/-- Calls a kernel. -/
def applyKernel (name : String) (args : List Val) : Outcome Val := do
  match kernels.get? name with
  | none => .fail (.unknownKernel name)
  | some kernel =>
    let inputs ← kernelInputs kernel.arity args
    .note ⟨name, inputs⟩
    match meaning kernel inputs with
    | .ok w => pure w
    | .error e => .fail (.kernel name e)

mutual

/-- The value of an expression. -/
def eval : Expr → ValEnv → Outcome Val
  | .var v, env =>
    match env.lookup v.id with
    | some w => pure w
    | none => .fail (.unboundVariable v.name)
  | .const t, _ => pure (.tensor t)
  | .letIn v (.func params fbody _) body, env =>
    eval body ((v.id, .closure (some v.id) params fbody env) :: env)
  | .letIn v value body, env => do
    let w ← eval value env
    eval body ((v.id, w) :: env)
  | .func params body _, env => pure (.closure none params body env)
  | .global name, _ =>
    match m.function? name with
    | some _ => pure (.global name)
    | none => .fail (.undefinedGlobal name)
  | .op name, _ => .fail (.bareOperator name)
  | .call (.op name) args _, env => do
    let ws ← evalAll args env
    applyKernel kernels meaning name ws
  | .call callee args _, env => do
    let w ← eval callee env
    let ws ← evalAll args env
    call w ws
  | .ite cond onTrue onFalse _, env => do
    let w ← eval cond env
    match w.asBool? with
    | some true => eval onTrue env
    | some false => eval onFalse env
    | none => .fail .notACondition
  | .tuple fields _, env => do
    let ws ← evalAll fields env
    return .tuple ws
  | .matchOn data clauses _, env => do
    let w ← eval data env
    evalClauses w clauses env
  | .construct name fields _, env =>
    match m.ctor? name with
    | some info => do
      let ws ← evalAll fields env
      return .adt info.tag ws
    | none => .fail (.unknownConstructor name)

def evalAll : List Expr → ValEnv → Outcome (List Val)
  | [], _ => pure []
  | e :: es, env => do
    let w ← eval e env
    let ws ← evalAll es env
    return w :: ws

/-- Takes the first clause whose pattern accepts the value. -/
def evalClauses (w : Val) : List (Pattern × Expr) → ValEnv → Outcome Val
  | [], _ => .fail .nonExhaustiveMatch
  | (p, e) :: rest, env =>
    match m.matches? p w with
    | some entries => eval e (env.extend entries)
    | none => evalClauses w rest env

end

/-- Calls a function value whose body is evaluated by `run`. A local function finds itself and what
its literal could see in its environment. -/
def callWith (run : Expr → ValEnv → Outcome Val) : ValCall
  | .global name, args =>
    match m.function? name with
    | some f => enter f.params f.body [] args
    | none => .fail (.undefinedGlobal name)
  | .closure own params body env, args =>
    enter params body ((own.toList.map fun y => (y, .closure own params body env)) ++ env) args
  | _, _ => .fail .notAFunction
where
  enter (params : List Var) (body : Expr) (env : ValEnv) (args : List Val) : Outcome Val :=
    if args.length = params.length then run body (env.extend ((params.map Var.id).zip args))
    else .fail (.arityMismatch params.length args.length)

/-- Calls a function value when `room` more calls may be opened inside each other. -/
def callWithin : (room : Nat) → ValCall
  | 0 => m.callWith fun _ _ => .fail .depthExceeded
  | room + 1 => m.callWith (m.eval kernels meaning (callWithin room))

/-- The global takes the arguments to the value, with kernels that work on data and at most `depth`
calls open at once. -/
def Yields (depth : Nat) (name : String) (args : List Value) (v : Value) : Prop :=
  ∃ ws w, Val.ofValues? args = some ws ∧
    (m.callWithin kernels .onData depth (.global name) ws).result = .ok w ∧ w.toValue? = some v

end Module

end TensorIR.Source
