import TensorIR.Lowered.Layout
import TensorIR.Lowering.State
import TensorIR.Run.State

/-! Log lines of what lowering and running report. -/

namespace TensorIR

inductive LogLevel where
  | trace
  | debug
  | warn
deriving DecidableEq

def LogLevel.text : LogLevel → String
  | .trace => "TRACE"
  | .debug => "DEBUG"
  | .warn => "WARN"

/-- A line of the log: named fields and a message. -/
structure LogLine where
  level : LogLevel
  message : String
  fields : List (String × String)

def Lowering.Event.logLine : Lowering.Event → LogLine
  | .reserved function id params =>
    ⟨.debug, "reserved global function",
      [("function", function), ("id", id.text), ("params", toString params)]⟩
  | .finalized function id bindings =>
    ⟨.debug, "finalized global function",
      [("function", function), ("id", id.text), ("bindings", toString bindings)]⟩
  | .uncheckedMatch function =>
    ⟨.warn, "match scrutinee has no resolved type; coverage is checked at run time",
      [("function", function)]⟩
  | .finished program =>
    ⟨.debug, "lowered program:\n" ++ program.text, [("functions", toString program.size)]⟩

/-- The start of a kernel body is not logged: the line of the prepared call stands for it. -/
def Run.Event.logLine? : Run.Event → Option LogLine
  | .invoke callee depth => some ⟨.trace, "invoke", [("callee", callee), ("depth", toString depth)]⟩
  | .packedCall name arity tupled =>
    some ⟨.trace, "packed call",
      [("kernel", name), ("arity", toString arity), ("packed", if tupled then "true" else "false")]⟩
  | .kernel .. => none

end TensorIR
