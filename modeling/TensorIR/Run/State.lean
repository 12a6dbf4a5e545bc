import TensorIR.Lowered.Table
import TensorIR.Run.Error
import TensorIR.Source.DataType

/-! What running a program works with: options, compiled units, the trace, and frames. -/

namespace TensorIR.Run

open Source Lowered

structure EvalOptions where
  /-- How many calls may be open at once. -/
  maxCallDepth : Nat := 500
  /-- Compare what a kernel returns with the type at the call. -/
  checkKernelOutputs : Bool := true
  /-- The least stack to run on, in bytes. -/
  stackSize : Nat := 67108864
deriving DecidableEq, Inhabited

/-- The stack for one call, in bytes. -/
def stackPerCall : Nat := 131072

/-- The stack of the thread that evaluates: enough for as many calls as may be open at once, as far as
its size can be written in a machine word, and never less than the options ask for. -/
def EvalOptions.threadStack (o : EvalOptions) : Nat :=
  max o.stackSize (min (o.maxCallDepth * stackPerCall) 18446744073709551615)

/-- What starts the threads that evaluate. A thread with a stack of so many bytes may be refused, with
a reason. -/
structure Host where
  refusal? : (stack : Nat) → Option String

/-- The host that starts every thread. -/
def Host.unlimited : Host := ⟨fun _ => none⟩

/-- A program with the kernels it calls and the data types its values belong to. -/
structure CompiledUnit where
  program : Program
  kernels : KernelRegistry
  types : TypeTable
  options : EvalOptions := {}

/-- What a run does, in order: calls of functions, calls of kernels as they are prepared, and kernel
bodies as they start. -/
inductive Event where
  | invoke (callee : String) (depth : Nat)
  | packedCall (kernel : String) (arity : Nat) (tupled : Bool)
  | kernel (name : String) (args : List Value)

/-- The state of a run. -/
structure Machine where
  /-- The number of open calls. -/
  depth : Nat := 0
  /-- The greatest number of calls that have been open at once. -/
  peak : Nat := 0
  trace : Array Event := #[]
deriving Inhabited

/-- A step of a run. -/
abbrev RunM := EStateM RunError Machine

def record (e : Event) : RunM Unit := modify fun m => { m with trace := m.trace.push e }

/-- The values of names, the latest entry first. -/
abbrev Frame := List (String × Value)

/-- Adds entries one after the other. -/
def Frame.extend (frame : Frame) (entries : List (String × Value)) : Frame :=
  entries.reverse ++ frame

/-- A step inside one call, which has a frame of its own. -/
abbrev CallM := StateT Frame RunM

/-- The value of a name. -/
def lookup (name : String) : CallM Value := do
  match (← get).lookup name with
  | some v => return v
  | none => throw (.unboundVariable name)

end TensorIR.Run
