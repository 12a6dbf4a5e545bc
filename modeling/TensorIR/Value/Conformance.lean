import TensorIR.Source.DataType
import TensorIR.Value.Basic

/-! Conformance of values to types. -/

namespace TensorIR.Value

open Source

mutual

/-- The value has the given type. A local function is judged by its number of parameters only, a
global function not at all. -/
def conformsTo (types : TypeTable) : Value → Ty → Bool
  | .tensor t, .tensor dtype shape => t.dtype == dtype && t.shape == shape
  | .tuple fields, .tuple tys => allConform types fields tys
  | .adt tag fields, .adt name =>
    match types.ctorFields? name tag with
    | some tys => allConform types fields tys
    | none => false
  | .global _, .func .. => true
  | .closure code _, .func params _ => code.params.length == params.length
  | _, _ => false

/-- As many values as types, each of its type. -/
def allConform (types : TypeTable) : List Value → List Ty → Bool
  | [], [] => true
  | v :: vs, t :: ts => v.conformsTo types t && allConform types vs ts
  | _, _ => false

end

end TensorIR.Value
