import TensorIR.Kernel.Elementwise

/-! Kernels over any number of tensors: joining along the first axis, and sums. -/

namespace TensorIR

/-- The elements of both buffers, if they have one type. -/
def Buffer.append? : Buffer → Buffer → Option Buffer
  | .float32 x, .float32 y => some (.float32 (x ++ y))
  | .float64 x, .float64 y => some (.float64 (x ++ y))
  | .int32 x, .int32 y => some (.int32 (x ++ y))
  | .int64 x, .int64 y => some (.int64 (x ++ y))
  | .bool x, .bool y => some (.bool (x ++ y))
  | _, _ => none

/-- The argument at a position, which has to be a tensor. -/
def tensorAt (index : Nat) : Value → Except KernelError Tensor
  | .tensor t => .ok t
  | _ => .error (.notATensor index)

def tensorArg (args : List Value) (index : Nat) : Except KernelError Tensor :=
  match args[index]? with
  | some v => tensorAt index v
  | none => .error (.arity (index + 1) args.length)

namespace Tensor

/-- Why `t`, at the given position, cannot be joined to `first`. -/
def incompatible (index : Nat) (t first : Tensor) : KernelError :=
  .invalid ("input " ++ toString index ++ " has shape " ++ t.shape.text ++ ", incompatible with "
    ++ first.shape.text)

/-- Joins the remaining tensors, which start at position `index`, to what has been collected: `lead`
rows of shape `tail`, with elements `data`. -/
def joinRows (first : Tensor) (tail : List Nat) :
    (index lead : Nat) → (data : Buffer) → List Value → Except KernelError Tensor
  | _, lead, data, [] => finish ⟨lead :: tail⟩ data
  | index, lead, data, v :: vs => do
    let t ← tensorAt index v
    match t.shape.dims with
    | n :: dims =>
      if dims = tail then
        match data.append? t.data with
        | some data => joinRows first tail (index + 1) (lead + n) data vs
        | none => throw (dtypeMismatch first t)
      else throw (incompatible index t first)
    | [] => throw (incompatible index t first)

/-- Joins tensors along the first axis. They need one element type and the same other axes. -/
def concatenate (args : List Value) : Except KernelError Tensor := do
  let first ← tensorArg args 0
  match first.shape.dims with
  | [] => throw (.invalid "cannot concatenate scalars")
  | lead :: tail => joinRows first tail 1 lead first.data args.tail

/-- Adds the remaining tensors, which start at position `index`, to `sum`. -/
def addRemaining : (index : Nat) → (sum : Tensor) → List Value → Except KernelError Tensor
  | _, sum, [] => .ok sum
  | index, sum, v :: vs => do
    let t ← tensorAt index v
    let sum ← sum.arithmetic .add t
    addRemaining (index + 1) sum vs

/-- Adds up one or more tensors from the left. -/
def addN (args : List Value) : Except KernelError Tensor := do
  let first ← tensorArg args 0
  addRemaining 1 first args.tail

end Tensor

end TensorIR
