import TensorIR.Kernel.Basic
import TensorIR.Shape.Walk

/-! Elementwise tensor operations.

Operations on two tensors broadcast their operands and pair elements up. Integer arithmetic wraps
around, and integer division drops the fraction. Transcendental functions are computed in double
precision. -/

namespace TensorIR

inductive Arithmetic where
  | add
  | subtract
  | multiply
  | divide
deriving DecidableEq

inductive Comparison where
  | less
  | lessEqual
  | greater
  | greaterEqual
  | equal
  | notEqual
deriving DecidableEq

inductive FloatFunction where
  | exp
  | log
  | sqrt
  | tanh
  | sigmoid
deriving DecidableEq

/-- Elements that can be compared. -/
class OrderedElement (α : Type) where
  lt : α → α → Bool
  le : α → α → Bool
  eq : α → α → Bool

/-- Elements that can be computed with. -/
class NumericElement (α : Type) extends OrderedElement α where
  zero : α
  neg : α → α
  arithmetic : Arithmetic → α → α → Except KernelError α

instance : OrderedElement Bool where
  lt x y := !x && y
  le x y := !x || y
  eq x y := x == y

instance : NumericElement Float32 where
  lt x y := x < y
  le x y := x ≤ y
  eq x y := x == y
  zero := 0
  neg x := -x
  arithmetic
    | .add, x, y => .ok (x + y)
    | .subtract, x, y => .ok (x - y)
    | .multiply, x, y => .ok (x * y)
    | .divide, x, y => .ok (x / y)

instance : NumericElement Float where
  lt x y := x < y
  le x y := x ≤ y
  eq x y := x == y
  zero := 0
  neg x := -x
  arithmetic
    | .add, x, y => .ok (x + y)
    | .subtract, x, y => .ok (x - y)
    | .multiply, x, y => .ok (x * y)
    | .divide, x, y => .ok (x / y)

instance : NumericElement Int32 where
  lt x y := x < y
  le x y := x ≤ y
  eq x y := x == y
  zero := 0
  neg x := -x
  arithmetic
    | .add, x, y => .ok (x + y)
    | .subtract, x, y => .ok (x - y)
    | .multiply, x, y => .ok (x * y)
    | .divide, x, y => if y = 0 then .error (.invalid "integer division by zero") else .ok (x / y)

instance : NumericElement Int64 where
  lt x y := x < y
  le x y := x ≤ y
  eq x y := x == y
  zero := 0
  neg x := -x
  arithmetic
    | .add, x, y => .ok (x + y)
    | .subtract, x, y => .ok (x - y)
    | .multiply, x, y => .ok (x * y)
    | .divide, x, y => if y = 0 then .error (.invalid "integer division by zero") else .ok (x / y)

def Comparison.apply {α : Type} [OrderedElement α] : Comparison → α → α → Bool
  | .less, x, y => OrderedElement.lt x y
  | .lessEqual, x, y => OrderedElement.le x y
  | .greater, x, y => OrderedElement.lt y x
  | .greaterEqual, x, y => OrderedElement.le y x
  | .equal, x, y => OrderedElement.eq x y
  | .notEqual, x, y => !OrderedElement.eq x y

/-- The results of all pairs, or the first refusal. -/
def Arithmetic.applyAll {α : Type} [NumericElement α] (op : Arithmetic) (pairs : List (α × α)) :
    Except KernelError (Array α) := do
  let results ← pairs.mapM fun (x, y) => NumericElement.arithmetic op x y
  return results.toArray

def Comparison.applyAll {α : Type} [OrderedElement α] (op : Comparison) (pairs : List (α × α)) :
    Array Bool :=
  (pairs.map fun (x, y) => op.apply x y).toArray

def FloatFunction.apply : FloatFunction → Float → Float
  | .exp, x => x.exp
  | .log, x => x.log
  | .sqrt, x => x.sqrt
  | .tanh, x => x.tanh
  | .sigmoid, x => 1 / (1 + (-x).exp)

/-- The number itself if it is positive, and zero otherwise. -/
def rectify {α : Type} [NumericElement α] (x : α) : α :=
  if OrderedElement.lt NumericElement.zero x then x else NumericElement.zero

/-- Two operands that are stretched to a common shape, with the places of them that are read for its
elements, in row-major order. -/
structure Shape.Alignment (a b : Shape) where
  out : Shape
  left : List (Fin a.numel)
  right : List (Fin b.numel)

namespace Shape

/-- The walk over an operand never leaves its buffer. -/
def places {source out : Shape} (h : source.StretchesTo out) : List (Fin source.numel) :=
  (out.broadcastIndices source).pmap Fin.mk fun _ => h.lt_numel_of_mem

/-- The alignment of shapes that can be broadcast together. -/
def Alignment.of {a b out : Shape} (h : a.broadcast? b = some out) : Alignment a b :=
  ⟨out, places (stretches_of_broadcast? h).1, places (stretches_of_broadcast? h).2⟩

def align? (a b : Shape) : Option (Alignment a b) :=
  match h : a.broadcast? b with
  | some _ => some (.of h)
  | none => none

theorem align?_of_broadcast? {a b out : Shape} (h : a.broadcast? b = some out) :
    a.align? b = some (.of h) := by
  unfold align?
  split
  · next h' =>
    cases h.symm.trans h'
    rfl
  · next h' => cases h.symm.trans h'

theorem align?_eq_none {a b : Shape} (h : a.broadcast? b = none) : a.align? b = none := by
  unfold align?
  split
  · next h' => cases h.symm.trans h'
  · rfl

theorem broadcast?_of_align? {a b : Shape} {p : Alignment a b} (h : a.align? b = some p) :
    a.broadcast? b = some p.out := by
  cases hout : a.broadcast? b with
  | none => cases (align?_eq_none hout).symm.trans h
  | some out =>
    cases (align?_of_broadcast? hout).symm.trans h
    rfl

/-- The pairs of elements that meet at the places of the result. -/
def Alignment.pairs {α : Type} {a b : Shape} (p : Alignment a b) (x y : Array α)
    (hx : x.size = a.numel) (hy : y.size = b.numel) : List (α × α) :=
  List.zipWith (fun i j => (x[i.cast hx.symm], y[j.cast hy.symm])) p.left p.right

end Shape

namespace Tensor

/-- The last step of every tensor kernel. -/
def finish (shape : Shape) (data : Buffer) : Except KernelError Tensor :=
  match ofParts? shape data with
  | some t => .ok t
  | none => .error (.invalid "result element count does not match its shape")

/-- The shape of an elementwise result and the places that are read for it. -/
def align (a b : Tensor) : Except KernelError (Shape.Alignment a.shape b.shape) :=
  match a.shape.align? b.shape with
  | some p => .ok p
  | none => .error (.broadcast a.shape.text b.shape.text)

def dtypeMismatch (a b : Tensor) : KernelError :=
  .dtype ("operands are " ++ a.dtype.text ++ " and " ++ b.dtype.text)

def arithmetic (op : Arithmetic) (a b : Tensor) : Except KernelError Tensor := do
  let p ← a.align b
  let data ← match ha : a.data, hb : b.data with
    | .float32 x, .float32 y =>
      Buffer.float32 <$> op.applyAll (p.pairs x y (a.size_of ha) (b.size_of hb))
    | .float64 x, .float64 y =>
      Buffer.float64 <$> op.applyAll (p.pairs x y (a.size_of ha) (b.size_of hb))
    | .int32 x, .int32 y =>
      Buffer.int32 <$> op.applyAll (p.pairs x y (a.size_of ha) (b.size_of hb))
    | .int64 x, .int64 y =>
      Buffer.int64 <$> op.applyAll (p.pairs x y (a.size_of ha) (b.size_of hb))
    | .bool _, .bool _ => throw (.dtype "arithmetic is not defined on bool")
    | _, _ => throw (dtypeMismatch a b)
  finish p.out data

def compare (op : Comparison) (a b : Tensor) : Except KernelError Tensor := do
  let p ← a.align b
  let data ← match ha : a.data, hb : b.data with
    | .float32 x, .float32 y => pure (op.applyAll (p.pairs x y (a.size_of ha) (b.size_of hb)))
    | .float64 x, .float64 y => pure (op.applyAll (p.pairs x y (a.size_of ha) (b.size_of hb)))
    | .int32 x, .int32 y => pure (op.applyAll (p.pairs x y (a.size_of ha) (b.size_of hb)))
    | .int64 x, .int64 y => pure (op.applyAll (p.pairs x y (a.size_of ha) (b.size_of hb)))
    | .bool x, .bool y => pure (op.applyAll (p.pairs x y (a.size_of ha) (b.size_of hb)))
    | _, _ => throw (dtypeMismatch a b)
  finish p.out (.bool data)

/-- Applies a real function to every element; `name` is the kernel's name. -/
def mapFloat (name : String) (f : FloatFunction) (t : Tensor) : Except KernelError Tensor := do
  let data ← match t.data with
    | .float32 x => pure (.float32 (x.map fun u => (f.apply u.toFloat).toFloat32))
    | .float64 x => pure (.float64 (x.map f.apply))
    | _ => throw (.dtype (name ++ " requires a floating-point input, got " ++ t.dtype.text))
  finish t.shape data

/-- Applies a function on numbers to every element; `name` is the kernel's name. -/
def mapNumeric (name : String) (f : {α : Type} → [NumericElement α] → α → α) (t : Tensor) :
    Except KernelError Tensor := do
  let data ← match t.data with
    | .float32 x => pure (.float32 (x.map f))
    | .float64 x => pure (.float64 (x.map f))
    | .int32 x => pure (.int32 (x.map f))
    | .int64 x => pure (.int64 (x.map f))
    | .bool _ => throw (.dtype (name ++ " is not defined on bool"))
  finish t.shape data

end Tensor

end TensorIR
