import TensorIR.Kernel.Basic
import TensorIR.Lowered.Table
import TensorIR.Lowering.Error
import TensorIR.Source.Module

/-! What lowering works with: options, events, and the two layers of state.

A unit has one function table, which outlives failures of single functions. Each top-level function
has its own environment, open bindings and name counter. -/

namespace TensorIR.Lowering

open Source Lowered

structure CompileOptions where
  /-- The name under which a compiled entry function is registered. -/
  entryName : String := "main"
  /-- Refuse matches whose clauses do not cover every value. -/
  checkExhaustiveness : Bool := true
  /-- Log the finished program. -/
  dumpLowered : Bool := false
deriving DecidableEq, Inhabited

/-- What lowering reports while it runs. -/
inductive Event where
  | reserved (function : String) (id : FunctionId) (params : Nat)
  | finalized (function : String) (id : FunctionId) (bindings : Nat)
  | uncheckedMatch (function : String)
  | finished (program : Program)

/-- What a unit is compiled from. -/
structure Setting where
  module : Module
  kernels : KernelRegistry
  options : CompileOptions := {}

/-- The state of a compilation unit. -/
structure Progress where
  table : FunctionTable := {}
  /-- The globals whose result types are being inferred. -/
  resolving : List String := []
  events : Array Event := #[]
deriving Inhabited

/-- A step of a compilation unit. A failing step keeps what it has done to the unit. -/
abbrev LowerM := EStateM LowerError Progress

def record (e : Event) : LowerM Unit := modify fun p => { p with events := p.events.push e }

/-- The name and the type that a source variable stands for. -/
structure Binding where
  name : String
  ty : Ty
deriving DecidableEq, Inhabited

/-- What each variable stands for, the latest entry first. -/
abbrev Env := List (Nat × Binding)

/-- The state of the lowering of one top-level function. -/
structure Scope where
  env : Env := []
  /-- The bindings of the innermost open scope, in evaluation order. -/
  bindings : List (String × Node) := []
  /-- How many names have been handed out. -/
  counter : Nat := 0
deriving Inhabited

/-- A step of the lowering of one top-level function. -/
abbrev BodyM := StateT Scope LowerM

/-- A hint with every character replaced that is not an ASCII letter, digit or underscore. -/
def cleanHint (hint : String) : String :=
  String.ofList (hint.toList.map fun c => if c.isAlphanum || c == '_' then c else '_')

/-- The name for the given hint and number. -/
def numberedName (hint : String) (n : Nat) : String :=
  let base := cleanHint hint
  (if base.isEmpty then "v" else base) ++ "_" ++ toString n

/-- A name that no other call returns for this function. -/
def fresh (hint : String) : BodyM String := do
  let s ← get
  set { s with counter := s.counter + 1 }
  return numberedName hint s.counter

def bindVar (v : Var) (b : Binding) : BodyM Unit :=
  modify fun s => { s with env := (v.id, b) :: s.env }

/-- Appends a binding to the innermost open scope. -/
def emit (name : String) (node : Node) : BodyM Unit :=
  modify fun s => { s with bindings := s.bindings ++ [(name, node)] }

/-- Runs a step and then forgets what it did to the environment. -/
def restoringEnv {α : Type} (step : BodyM α) : BodyM α := do
  let env := (← get).env
  let a ← step
  modify fun s => { s with env }
  return a

/-- What the lowering of a function body has at hand: the unit, the name of the function, and the
way to get at a global, which lowers it on first use. -/
structure BodyContext where
  setting : Setting
  func : String
  ensure : String → LowerM FunctionId

namespace BodyContext

/-- What the variable stands for. -/
def lookup (c : BodyContext) (v : Var) : BodyM Binding := do
  match (← get).env.lookup v.id with
  | some b => return b
  | none => throw (.unboundVariable c.func v.name)

/-- Reports a refused node under the name of the function. -/
def checked {α : Type} (c : BodyContext) (result : Except NodeError α) : BodyM α :=
  match result with
  | .ok a => pure a
  | .error e => throw (.invalidNode c.func e)

def checkArity (c : BodyContext) (callee : String) (expected found : Nat) : BodyM Unit :=
  if expected = found then pure () else throw (.arityMismatch c.func callee expected found)

/-- Runs a step with a binding list of its own, and puts the bindings around its result. -/
def closeScope (c : BodyContext) (step : BodyM Node) : BodyM Node := do
  let outer := (← get).bindings
  modify fun s => { s with bindings := [] }
  let body ← step
  let inner := (← get).bindings
  modify fun s => { s with bindings := outer }
  c.checked (Node.wrapDecl inner body)

end BodyContext

end TensorIR.Lowering
