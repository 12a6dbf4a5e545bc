import TensorIR.Shape

/-! Element types and the types that annotate expressions and nodes.

A type may leave parts open (`Ty.infer`). It is resolved when no part is open. The text of a
type is the form in which programs and messages show it. -/

namespace TensorIR

/-- The element type of a tensor. -/
inductive DType where
  | float32
  | float64
  | int32
  | int64
  | bool
deriving DecidableEq, Inhabited

namespace DType

def isFloat : DType → Bool
  | float32 | float64 => true
  | _ => false

def isInt : DType → Bool
  | int32 | int64 => true
  | _ => false

def text : DType → String
  | float32 => "float32"
  | float64 => "float64"
  | int32 => "int32"
  | int64 => "int64"
  | bool => "bool"

end DType

/-- A type annotation. Algebraic data types are referred to by name. -/
inductive Ty where
  | tensor (dtype : DType) (shape : Shape)
  | tuple (fields : List Ty)
  | func (params : List Ty) (ret : Ty)
  | adt (name : String)
  | infer
deriving Inhabited

namespace Ty

def scalar (dtype : DType) : Ty := .tensor dtype .scalar

mutual

protected def decEq : (s t : Ty) → Decidable (s = t)
  | .tensor d s, .tensor d' s' =>
    if h : d = d' ∧ s = s' then isTrue (by rw [h.1, h.2])
    else isFalse fun e => h (by injection e with h₁ h₂; exact ⟨h₁, h₂⟩)
  | .tuple fs, .tuple gs =>
    match Ty.decEqList fs gs with
    | isTrue h => isTrue (by rw [h])
    | isFalse h => isFalse fun e => h (by injection e)
  | .func ps r, .func qs q =>
    match Ty.decEqList ps qs, Ty.decEq r q with
    | isTrue h, isTrue h' => isTrue (by rw [h, h'])
    | isFalse h, _ => isFalse fun e => h (by injection e)
    | _, isFalse h => isFalse fun e => h (by injection e)
  | .adt n, .adt m =>
    if h : n = m then isTrue (by rw [h]) else isFalse fun e => h (by injection e)
  | .infer, .infer => isTrue rfl
  | .tensor .., .tuple _ | .tensor .., .func .. | .tensor .., .adt _ | .tensor .., .infer
  | .tuple _, .tensor .. | .tuple _, .func .. | .tuple _, .adt _ | .tuple _, .infer
  | .func .., .tensor .. | .func .., .tuple _ | .func .., .adt _ | .func .., .infer
  | .adt _, .tensor .. | .adt _, .tuple _ | .adt _, .func .. | .adt _, .infer
  | .infer, .tensor .. | .infer, .tuple _ | .infer, .func .. | .infer, .adt _ =>
    isFalse fun e => by injection e

protected def decEqList : (s t : List Ty) → Decidable (s = t)
  | [], [] => isTrue rfl
  | s :: ss, t :: ts =>
    match Ty.decEq s t, Ty.decEqList ss ts with
    | isTrue h, isTrue h' => isTrue (by rw [h, h'])
    | isFalse h, _ => isFalse fun e => h (by injection e)
    | _, isFalse h => isFalse fun e => h (by injection e)
  | [], _ :: _ | _ :: _, [] => isFalse fun e => by injection e

end

instance : DecidableEq Ty := Ty.decEq

mutual

/-- No part of the type is open. -/
def isResolved : Ty → Bool
  | .infer => false
  | .tensor .. | .adt _ => true
  | .tuple fields => allResolved fields
  | .func params ret => allResolved params && ret.isResolved

def allResolved : List Ty → Bool
  | [] => true
  | t :: ts => t.isResolved && allResolved ts

end

/-- The type itself, if it is resolved. -/
def resolved? (t : Ty) : Option Ty := if t.isResolved then some t else none

def isBoolScalar : Ty → Bool
  | .tensor .bool shape => shape.rank == 0
  | _ => false

def tupleFields? : Ty → Option (List Ty)
  | .tuple fields => some fields
  | _ => none

mutual

def text : Ty → String
  | .tensor dtype shape => "tensor<" ++ dtype.text ++ ", " ++ shape.text ++ ">"
  | .tuple fields => parenthesized (texts fields)
  | .func params ret => "fn" ++ parenthesized (texts params) ++ " -> " ++ ret.text
  | .adt name => name
  | .infer => "?"

def texts : List Ty → List String
  | [] => []
  | t :: ts => t.text :: texts ts

end

end Ty

end TensorIR
