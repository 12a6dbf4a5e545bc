import TensorIR.Text

/-! Shapes of dense tensors, their element counts, and broadcasting.

Broadcasting lines two shapes up at the last axis. Axes of equal size pair off, an axis of
size one stretches to its partner, and an axis with no partner counts as size one. -/

namespace TensorIR

/-- The sizes of the axes, outermost first. No axes at all is the shape of a scalar. -/
structure Shape where
  dims : List Nat
deriving DecidableEq, Inhabited

namespace Shape

def scalar : Shape := ⟨[]⟩

def rank (s : Shape) : Nat := s.dims.length

/-- The number of elements, which is one for a scalar. -/
def numel (s : Shape) : Nat := s.dims.foldr (· * ·) 1

def text (s : Shape) : String := "[" ++ commaSeparated (s.dims.map toString) ++ "]"

/-- The common size of two axes that face each other. -/
def joinDim (x y : Nat) : Option Nat :=
  if x = y then some x
  else if x = 1 then some y
  else if y = 1 then some x
  else none

/-- Broadcasting on axes listed innermost first. -/
def broadcastInner : List Nat → List Nat → Option (List Nat)
  | [], ys => some ys
  | xs, [] => some xs
  | x :: xs, y :: ys => do
    let d ← joinDim x y
    let ds ← broadcastInner xs ys
    return d :: ds

/-- The shape both operands stretch to, if there is one. -/
def broadcast? (a b : Shape) : Option Shape :=
  (broadcastInner a.dims.reverse b.dims.reverse).map fun ds => ⟨ds.reverse⟩

end Shape

end TensorIR
