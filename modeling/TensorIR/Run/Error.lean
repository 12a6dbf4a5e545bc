import TensorIR.Kernel.Basic

/-! Why a run fails. -/

namespace TensorIR.Run

/-- Where a value meets a type or a use that it does not fit. -/
inductive Site where
  | argument
  | returnValue
  | kernelCall
  | application
  | condition
deriving DecidableEq

def Site.text : Site → String
  | .argument => "argument"
  | .returnValue => "return value"
  | .kernelCall => "PackedCall"
  | .application => "Invoke"
  | .condition => "CPPIf"

/-- Why a run fails. -/
inductive RunError where
  | unknownFunction (name : String)
  | arityMismatch (callee : String) (expected found : Nat)
  | typeMismatch (site : Site) (expected : String) (found : Value)
  | nonExhaustiveMatch (value : Value)
  | unboundVariable (name : String)
  | kernel (name : String) (cause : KernelError)
  | depthExceeded (limit : Nat)
  | executor (detail : String)

def RunError.message : RunError → String
  | .unknownFunction name => s!"no compiled function named '{name}'"
  | .arityMismatch callee expected found =>
    s!"{callee} expects {expected} argument(s) but was called with {found}"
  | .typeMismatch site expected found => "type mismatch in " ++ site.text ++ " — expected "
    ++ expected ++ ", got " ++ found.describe
  | .nonExhaustiveMatch value => "no match clause accepts the value " ++ value.describe
  | .unboundVariable name => s!"internal error: binding '{name}' is not initialized — "
    ++ "this is a compiler bug, please report it"
  | .kernel name cause => s!"kernel '{name}' failed — " ++ cause.message
  | .depthExceeded limit =>
    s!"call depth exceeded {limit} — raise EvalOptions::max_call_depth for deeper recursion"
  | .executor detail => "could not start the evaluation thread — " ++ detail

end TensorIR.Run
