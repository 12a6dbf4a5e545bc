import TensorIR.Matching.Binding
import TensorIR.Run.State
import TensorIR.Value.Conformance

/-! The evaluator: strict, by value, arguments from left to right.

Every call has one flat frame. Bindings and the names of match clauses stay in it until the call
returns, since all names of a lowered function differ. -/

namespace TensorIR.Run

open Lowered Matching

/-- The way to call a function: its code, the name to report, the entries its frame starts with, and
its arguments. -/
abbrev Call :=
  Lowered.Function → (label : String) → (bound : Frame) → (args : List Value) → RunM Value

namespace CompiledUnit

variable (u : CompiledUnit) (call : Call)

def callGlobal (id : FunctionId) (args : List Value) : RunM Value := do
  match u.program.functions[id.index]? with
  | none => throw (.unknownFunction id.text)
  | some (name, f) =>
    record (.invoke name (← get).depth)
    call f name [] args

/-- Calls a function value. A local function finds itself and its captures in its frame. -/
def applyValue (v : Value) (args : List Value) : RunM Value :=
  match v with
  | .global id => u.callGlobal call id args
  | .closure f captures => do
    let label := f.name.getD "<closure>"
    let self := f.name.toList.map fun name => (name, v)
    record (.invoke label (← get).depth)
    call f label (Frame.extend [] (self ++ (f.captures.map Param.name).zip captures)) args
  | _ => throw (.typeMismatch .application "a function value" v)

/-- The arguments for the kernel itself: the fields of the one tuple if `tupled` holds. -/
def kernelArgs (name : String) (arity : Nat) (tupled : Bool) (args : List Value) :
    RunM (List Value) :=
  if tupled then
    match args.getLast? with
    | some (.tuple fields) =>
      if fields.length = arity then pure fields
      else throw (.arityMismatch ("kernel '" ++ name ++ "'") arity fields.length)
    | some v => throw (.typeMismatch .kernelCall "a packed tuple argument" v)
    | none => throw (.arityMismatch ("kernel '" ++ name ++ "'") 1 0)
  else pure args

/-- Calls a kernel and compares its result with the declared type, if the options ask for it. -/
def callKernel (kernel : Kernel) (name : String) (arity : Nat) (ty : Ty) (tupled : Bool)
    (args : List Value) : RunM Value := do
  let args ← kernelArgs name arity tupled args
  record (.packedCall name arity tupled)
  match kernel.checkArity args with
  | .error e => throw (.kernel name e)
  | .ok () =>
    record (.kernel name args)
    match kernel.body args with
    | .error e => throw (.kernel name e)
    | .ok v =>
      if u.options.checkKernelOutputs && !v.conformsTo u.types ty then
        throw (.typeMismatch .kernelCall ty.text v)
      else return v

def kernel (name : String) : RunM Kernel :=
  match u.kernels.get? name with
  | some k => pure k
  | none => throw (.kernel name (.invalid "kernel is not registered with this module"))

/-- The values of the captured names. -/
def captureAll : List Param → CallM (List Value)
  | [] => return []
  | p :: ps => do
    let v ← lookup p.name
    let vs ← captureAll ps
    return v :: vs

mutual

/-- The value of a node in the current frame. -/
def eval : Node → CallM Value
  | .var name => lookup name
  | .literal value => return .tensor value
  | .global target => return .global target.id
  | .decl bindings body => do
    evalBindings bindings
    eval body
  | .packed name arity args ty tupled => do
    let kernel ← u.kernel name
    let vs ← evalAll args
    u.callKernel kernel name arity ty tupled vs
  | .invoke target args => do
    let vs ← evalAll args
    u.callGlobal call target.id vs
  | .apply callee args => do
    let f ← eval callee
    let vs ← evalAll args
    u.applyValue call f vs
  | .func name params captures body ret => do
    let vs ← captureAll captures
    return .closure ⟨name, params, captures, body, ret⟩ vs
  | .ite cond onTrue onFalse _ => do
    let v ← eval cond
    match v.asBool? with
    | some true => eval onTrue
    | some false => eval onFalse
    | none => throw (.typeMismatch .condition "a bool scalar condition" v)
  | .tuple fields _ => do
    let vs ← evalAll fields
    return .tuple vs
  | .matchOn data clauses _ => do
    let v ← eval data
    evalClauses v clauses
  | .ctor tag _ fields _ => do
    let vs ← evalAll fields
    return .adt tag vs

def evalAll : List Node → CallM (List Value)
  | [] => return []
  | n :: ns => do
    let v ← eval n
    let vs ← evalAll ns
    return v :: vs

/-- Adds one binding after the other to the frame. -/
def evalBindings : List (String × Node) → CallM Unit
  | [] => return ()
  | (name, n) :: rest => do
    let v ← eval n
    modify fun frame => (name, v) :: frame
    evalBindings rest

/-- Takes the first clause whose pattern accepts the value. -/
def evalClauses (v : Value) : List (Lowered.Pattern × Node) → CallM Value
  | [] => throw (.nonExhaustiveMatch v)
  | (p, body) :: rest =>
    let bound := bindPattern p v []
    if bound.1 then do
      modify fun frame => Frame.extend frame bound.2
      eval body
    else evalClauses v rest

end

/-- A clause runs with the entries of its pattern, and leaves no trace if the pattern does not accept the
value. -/
theorem evalClauses_cons (v : Value) (p : Lowered.Pattern) (body : Node)
    (rest : List (Lowered.Pattern × Node)) :
    evalClauses u call v ((p, body) :: rest) =
      (matchPattern? p v).elim (evalClauses u call v rest) (fun entries => do
        modify fun frame => Frame.extend frame entries
        eval u call body) := by
  have hp := bindPattern_noted p v []
  rw [evalClauses]
  generalize matchPattern? p v = accepted, bindPattern p v [] = bound at hp ⊢
  cases hp with
  | accepted entries => rfl
  | failed partly => rfl

end CompiledUnit

end TensorIR.Run
