import TensorIR.Lowered.Checked
import TensorIR.Matching.Coverage

/-! Why lowering fails. -/

namespace TensorIR.Lowering

open Lowered Matching

/-- Why lowering fails. Most causes name the function that was being lowered. -/
inductive LowerError where
  | unboundVariable (func name : String)
  | undefinedGlobal (func name : String)
  | unknownKernel (func name : String)
  | unknownConstructor (func name : String)
  | arityMismatch (func callee : String) (expected found : Nat)
  | typeMismatch (func construct detail : String)
  | nonExhaustiveMatch (func : String) (ty : Ty) (missing : Witness)
  | unresolvedType (func construct : String)
  | invalidNode (func : String) (cause : NodeError)
  | duplicateFunction (name : String)

/-- How a message starts that names the function being lowered. -/
def inFunction (func : String) : String := "in function '" ++ func ++ "': "

def LowerError.message : LowerError → String
  | .unboundVariable func name => inFunction func ++
    s!"variable '{name}' is not bound in the lowering environment (upstream scoping bug)"
  | .undefinedGlobal func name => inFunction func ++
    s!"global function '{name}' is referenced but never defined in the module"
  | .unknownKernel func name => inFunction func ++ s!"no kernel named '{name}' is registered"
  | .unknownConstructor func name => inFunction func ++ s!"unknown constructor '{name}'"
  | .arityMismatch func callee expected found => inFunction func ++
    s!"{callee} expects {expected} argument(s) but {found} were supplied"
  | .typeMismatch func construct detail => inFunction func ++ construct ++ " — " ++ detail
  | .nonExhaustiveMatch func ty missing => inFunction func ++
    "non-exhaustive match on '" ++ ty.text ++ "', pattern " ++ missing.text ++ " is not covered"
  | .unresolvedType func construct => inFunction func ++ construct
    ++ " has no resolved type annotation"
  | .invalidNode func cause => inFunction func ++ cause.message
  | .duplicateFunction name => s!"duplicate function definition: '{name}'"

end TensorIR.Lowering
