import TensorIR.Lowering.Body

/-! Compilation units: globals lowered on first reference, and the finished program.

The name and the signature of a global are reserved before its body is lowered, so that functions
can refer to themselves and to each other. -/

namespace TensorIR.Lowering

open Source Lowered

/-- An operation on the function table. Whatever goes wrong there, the function exists already. -/
def onTable {α : Type} (name : String)
    (step : FunctionTable → Except TableError (α × FunctionTable)) : LowerM α := do
  let p ← get
  match step p.table with
  | .ok (a, table) =>
    set { p with table }
    return a
  | .error _ => throw (.duplicateFunction name)

namespace Setting

/-- The signature of a global, as far as it can be known before its body is lowered. -/
def signature (s : Setting) (name : String) (f : Source.Function) : LowerM Signature := do
  if f.params.any fun v => !v.ty.isResolved then
    throw (.unresolvedType name "function parameter")
  match ← s.retType name f with
  | some ret => return ⟨f.params.map Var.ty, ret⟩
  | none => throw (.unresolvedType name "function return type")

/-- Reserves the name, lowers the function and installs it. The globals that it refers to are
obtained through `ensure`, which takes the name of the global and that of the function. -/
def lowerGlobalWith (s : Setting) (ensure : String → String → LowerM FunctionId) (name : String)
    (f : Source.Function) : LowerM FunctionId := do
  if ((← get).table.lookup? name).isSome then throw (.duplicateFunction name)
  let sig ← s.signature name f
  let id ← onTable name (·.reserve name sig)
  record (.reserved name id sig.params.length)
  let c : BodyContext := ⟨s, name, fun global => ensure global name⟩
  let (lowered, scope) ← (c.function none f [] (some sig.ret) (lowerExpr c f.body)).run {}
  onTable name fun table => (table.define id lowered).map ((), ·)
  record (.finalized name id scope.counter)
  return id

/-- The place of a global, which is lowered if this is the first reference to it. At most `pending`
globals can still be started inside each other; with none left, all that are defined have been. -/
def ensureWithin (s : Setting) : (pending : Nat) → (name requester : String) → LowerM FunctionId
  | pending, name, requester => do
    match (← get).table.lookup? name with
    | some id => return id
    | none =>
      match s.module.function? name, pending with
      | some f, pending + 1 => s.lowerGlobalWith (ensureWithin s pending) name f
      | _, _ => throw (.undefinedGlobal requester name)

/-- The place of a global on behalf of the function `requester`. -/
def ensureGlobal (s : Setting) (name requester : String) : LowerM FunctionId :=
  s.ensureWithin s.module.globals.length name requester

/-- Adds a function to the unit under a new name. -/
def lowerGlobal (s : Setting) (name : String) (f : Source.Function) : LowerM FunctionId :=
  s.lowerGlobalWith s.ensureGlobal name f

/-- Closes the unit. A name without a function makes it fail. -/
def finish (s : Setting) : LowerM Program := do
  match (← get).table.freeze with
  | .ok program =>
    if s.options.dumpLowered then record (.finished program)
    return program
  | .error e => throw (.undefinedGlobal e.message e.message)

/-- Obtains one global after the other, each on its own behalf. -/
def ensureAll (s : Setting) : List (String × Source.Function) → LowerM Unit
  | [] => return ()
  | (name, _) :: rest => do
    let _ ← s.ensureGlobal name name
    s.ensureAll rest

/-- Lowers all globals of the module in the order of their definition. -/
def lowerModule (s : Setting) : LowerM Program := do
  s.ensureAll s.module.globals
  s.finish

/-- Lowers an entry function and all globals that it reaches. -/
def compile (s : Setting) (f : Source.Function) : LowerM (FunctionId × Program) := do
  let name := s.options.entryName
  if (s.module.function? name).isSome then throw (.duplicateFunction name)
  let entry ← s.lowerGlobal name f
  let program ← s.finish
  return (entry, program)

end Setting

end TensorIR.Lowering
