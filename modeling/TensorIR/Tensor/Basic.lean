import TensorIR.Decimal
import TensorIR.Ty

/-! Dense tensors: a shape and a row-major buffer of one element type.

A tensor carries the proof that its buffer has as many elements as its shape asks for. -/

namespace TensorIR

/-- Row-major elements of one type. -/
inductive Buffer where
  | float32 (data : Array Float32)
  | float64 (data : Array Float)
  | int32 (data : Array Int32)
  | int64 (data : Array Int64)
  | bool (data : Array Bool)

namespace Buffer

def dtype : Buffer → DType
  | float32 _ => .float32
  | float64 _ => .float64
  | int32 _ => .int32
  | int64 _ => .int64
  | bool _ => .bool

def size : Buffer → Nat
  | float32 data => data.size
  | float64 data => data.size
  | int32 data => data.size
  | int64 data => data.size
  | bool data => data.size

/-- Elements compare as numbers: a NaN differs from itself and the two zeros are equal. -/
protected def beq : Buffer → Buffer → Bool
  | float32 x, float32 y => x == y
  | float64 x, float64 y => x == y
  | int32 x, int32 y => x == y
  | int64 x, int64 y => x == y
  | bool x, bool y => x == y
  | _, _ => false

instance : BEq Buffer := ⟨Buffer.beq⟩

def texts : Buffer → List String
  | float32 data => data.toList.map fun x => BinaryFormat.binary32.text x.toBits.toNat
  | float64 data => data.toList.map fun x => BinaryFormat.binary64.text x.toBits.toNat
  | int32 data => data.toList.map fun x => toString x.toInt
  | int64 data => data.toList.map fun x => toString x.toInt
  | bool data => data.toList.map fun x => if x then "true" else "false"

/-- The first element as a double. Only `int64` can lose digits on the way. -/
def firstAsFloat? : Buffer → Option Float
  | float32 data => data[0]?.map Float32.toFloat
  | float64 data => data[0]?
  | int32 data => data[0]?.map Int32.toFloat
  | int64 data => data[0]?.map Int64.toFloat
  | bool data => data[0]?.map fun x => if x then 1 else 0

end Buffer

/-- A scalar is a tensor of rank zero with one element. -/
structure Tensor where
  shape : Shape
  data : Buffer
  size_eq : data.size = shape.numel

namespace Tensor

theorem size_of (t : Tensor) {data : Buffer} (h : t.data = data) : data.size = t.shape.numel :=
  h ▸ t.size_eq

/-- Refuses a buffer whose element count is not that of the shape. -/
def ofParts? (shape : Shape) (data : Buffer) : Option Tensor :=
  if h : data.size = shape.numel then some ⟨shape, data, h⟩ else none

def scalarFloat32 (x : Float32) : Tensor := ⟨.scalar, .float32 #[x], rfl⟩

def scalarFloat64 (x : Float) : Tensor := ⟨.scalar, .float64 #[x], rfl⟩

def scalarInt32 (x : Int32) : Tensor := ⟨.scalar, .int32 #[x], rfl⟩

def scalarInt64 (x : Int64) : Tensor := ⟨.scalar, .int64 #[x], rfl⟩

def scalarBool (x : Bool) : Tensor := ⟨.scalar, .bool #[x], rfl⟩

/-- A tensor of rank one. -/
def vectorFloat32 (xs : Array Float32) : Tensor :=
  ⟨⟨[xs.size]⟩, .float32 xs, by simp [Buffer.size, Shape.numel]⟩

def dtype (t : Tensor) : DType := t.data.dtype

def ty (t : Tensor) : Ty := .tensor t.dtype t.shape

def isScalar (t : Tensor) : Bool := t.shape.rank == 0

/-- The value of a boolean scalar. -/
def asBool? (t : Tensor) : Option Bool :=
  match t.data with
  | .bool data => if t.isScalar then data[0]? else none
  | _ => none

/-- The value of a scalar as a double. -/
def asFloat? (t : Tensor) : Option Float :=
  if t.isScalar then t.data.firstAsFloat? else none

protected def beq (s t : Tensor) : Bool := s.shape == t.shape && s.data == t.data

instance : BEq Tensor := ⟨Tensor.beq⟩

/-- The element of a scalar, or all elements in brackets, and then the element type. -/
def text (t : Tensor) : String :=
  let elements := match t.data.texts with
    | [x] => if t.isScalar then x else "[" ++ x ++ "]"
    | xs => "[" ++ commaSeparated xs ++ "]"
  elements ++ ": " ++ t.dtype.text

end Tensor

end TensorIR
