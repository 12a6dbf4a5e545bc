import TensorIR.Run.Evaluator

/-! Calls of functions, and invocations of a unit from outside.

Every call uses up room, of which the options give as much as calls may be open at once, so that
every invocation ends. A host runs an invocation on a thread of its own, if it can start one. -/

namespace TensorIR.Run

open Lowered

namespace CompiledUnit

variable (u : CompiledUnit)

/-- Runs a step as the body of a call, which is open until the step ends, however it ends. -/
def opened (step : RunM Value) : RunM Value := fun m =>
  match step { m with depth := m.depth + 1, peak := max m.peak (m.depth + 1) } with
  | .ok v m => .ok v { m with depth := m.depth - 1 }
  | .error e m => .error e { m with depth := m.depth - 1 }

/-- Calls a function when `room` more calls may be opened inside each other. -/
def callWithin : (room : Nat) → Call
  | room, f, label, bound, args =>
    if args.length = f.params.length then
      match room with
      | 0 => throw (.depthExceeded u.options.maxCallDepth)
      | room + 1 =>
        opened ((eval u (callWithin room) f.body).run'
          (Frame.extend bound ((f.params.map Param.name).zip args)))
    else throw (.arityMismatch ("function '" ++ label ++ "'") f.params.length args.length)

/-- The arguments must have the types of the parameters. -/
def checkArgs (types : Source.TypeTable) : List Param → List Value → RunM Unit
  | p :: ps, v :: vs =>
    if v.conformsTo types p.ty then checkArgs types ps vs
    else throw (.typeMismatch .argument p.ty.text v)
  | _, _ => pure ()

/-- Runs a global function on checked arguments and checks its result. -/
def run (id : FunctionId) (args : List Value) : RunM Value := do
  match u.program.functions[id.index]? with
  | none => throw (.unknownFunction id.text)
  | some (name, f) =>
    if args.length ≠ f.params.length then
      throw (.arityMismatch ("function '" ++ name ++ "'") f.params.length args.length)
    checkArgs u.types f.params args
    let v ← u.callGlobal (u.callWithin u.options.maxCallDepth) id args
    if v.conformsTo u.types f.ret then return v
    else throw (.typeMismatch .returnValue f.ret.text v)

/-- Runs the global function with the given name. -/
def invoke (name : String) (args : List Value) : RunM Value :=
  match u.program.idOf? name with
  | some id => u.run id args
  | none => throw (.unknownFunction name)

/-- Runs a global function on a thread of the host. -/
def runOn (host : Host) (id : FunctionId) (args : List Value) : RunM Value :=
  match host.refusal? u.options.threadStack with
  | some detail => throw (.executor detail)
  | none => u.run id args

/-- Runs the global function with the given name on a thread of the host. -/
def invokeOn (host : Host) (name : String) (args : List Value) : RunM Value :=
  match u.program.idOf? name with
  | some id => u.runOn host id args
  | none => throw (.unknownFunction name)

variable {u} in
/-- Where the thread runs makes no difference once it has been started. -/
theorem invokeOn_eq {host : Host} (h : host.refusal? u.options.threadStack = none) (name : String)
    (args : List Value) : u.invokeOn host name args = u.invoke name args := by
  simp only [invokeOn, invoke, runOn, h]

end CompiledUnit

end TensorIR.Run
