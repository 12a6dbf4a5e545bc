import TensorIR.Lowered.Syntax

/-! Run-time values and their text. -/

namespace TensorIR

open Lowered

/-- A value: a tensor, a tuple, a variant of an algebraic data type, a global function, or a local
function with the values it captured. -/
inductive Value where
  | tensor (value : Tensor)
  | tuple (fields : List Value)
  | adt (tag : Nat) (fields : List Value)
  | global (id : FunctionId)
  | closure (code : Lowered.Function) (captures : List Value)

instance : Inhabited Value := ⟨.tuple []⟩

namespace Value

def kind : Value → String
  | .tensor _ => "tensor"
  | .tuple _ => "tuple"
  | .adt .. => "adt"
  | .global _ | .closure .. => "closure"

def asTensor? : Value → Option Tensor
  | .tensor t => some t
  | _ => none

/-- The value of a boolean scalar. -/
def asBool? (v : Value) : Option Bool := v.asTensor?.bind Tensor.asBool?

/-- The value of a scalar as a double. -/
def asFloat? (v : Value) : Option Float := v.asTensor?.bind Tensor.asFloat?

mutual

def text : Value → String
  | .tensor t => t.text
  | .tuple fields => parenthesized (texts fields)
  | .adt tag [] => "variant(" ++ toString tag ++ ")"
  | .adt tag (v :: vs) => "variant(" ++ toString tag ++ ")" ++ parenthesized (v.text :: texts vs)
  | .global id => "<function " ++ id.text ++ ">"
  | .closure code _ =>
    match code.name with
    | some name => "<closure " ++ name ++ ">"
    | none => "<closure>"

def texts : List Value → List String
  | [] => []
  | v :: vs => v.text :: texts vs

end

/-- How messages show a value: a tensor with its type, anything else with its kind. -/
def describe : Value → String
  | .tensor t => t.text ++ " of type " ++ t.ty.text
  | v => v.kind ++ " " ++ v.text

end Value

end TensorIR
