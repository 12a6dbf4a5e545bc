import TensorIR.Lowered.Equality
import TensorIR.Value.Basic

/-! Equality of values, with tensor elements compared as numbers. -/

namespace TensorIR.Value

mutual

/-- The same value, where tensor elements compare as numbers and functions by code and captures. -/
protected def beq : Value → Value → Bool
  | .tensor s, .tensor t => s == t
  | .tuple us, .tuple vs => Value.beqList us vs
  | .adt i us, .adt j vs => i == j && Value.beqList us vs
  | .global i, .global j => i == j
  | .closure f us, .closure g vs => f == g && Value.beqList us vs
  | _, _ => false

protected def beqList : List Value → List Value → Bool
  | [], [] => true
  | u :: us, v :: vs => Value.beq u v && Value.beqList us vs
  | _, _ => false

end

instance : BEq Value := ⟨Value.beq⟩

end TensorIR.Value
