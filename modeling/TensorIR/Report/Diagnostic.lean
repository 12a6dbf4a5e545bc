import TensorIR.Lowering.Error
import TensorIR.Run.Error

/-! Diagnostics: every failure with its stable code and its full text. -/

namespace TensorIR

open Lowered Lowering Run

/-- A failure of any stage. -/
inductive Diagnostic where
  | lowering (cause : LowerError)
  | node (cause : NodeError)
  | printing
  | running (cause : RunError)

namespace Diagnostic

/-- The stage in brackets, and then what went wrong. -/
def message : Diagnostic → String
  | .lowering cause => "[compile error] " ++ cause.message
  | .node cause => "[invalid node] " ++ cause.message
  | .printing => "[codegen error] formatting failed while printing the lowered program"
  | .running cause => "[runtime error] " ++ cause.message

def code : Diagnostic → String
  | .lowering cause =>
    match cause with
    | .unboundVariable .. => "E0100"
    | .undefinedGlobal .. => "E0101"
    | .unknownKernel .. => "E0102"
    | .unknownConstructor .. => "E0103"
    | .arityMismatch .. => "E0104"
    | .typeMismatch .. => "E0105"
    | .nonExhaustiveMatch .. => "E0106"
    | .unresolvedType .. => "E0107"
    | .invalidNode .. => "E0108"
    | .duplicateFunction _ => "E0109"
  | .node cause =>
    match cause with
    | .arityMismatch .. => "E0200"
    | .unresolvedType .. => "E0201"
    | .typeMismatch .. => "E0202"
    | .emptyDecl => "E0203"
    | .duplicateBinding _ => "E0204"
    | .duplicateParam .. => "E0205"
  | .printing => "E0300"
  | .running cause =>
    match cause with
    | .unknownFunction _ => "E0400"
    | .arityMismatch .. => "E0401"
    | .typeMismatch .. => "E0402"
    | .nonExhaustiveMatch _ => "E0403"
    | .unboundVariable _ => "E0404"
    | .kernel .. => "E0405"
    | .depthExceeded _ => "E0406"
    | .executor _ => "E0407"

end Diagnostic

end TensorIR
