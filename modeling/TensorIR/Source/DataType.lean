import TensorIR.Ty

/-! Algebraic data types and tables of them. -/

namespace TensorIR.Source

/-- One variant of an algebraic data type. -/
structure CtorDef where
  name : String
  fields : List Ty
deriving DecidableEq, Inhabited

/-- An algebraic data type. The tag of a constructor is its position in the list. -/
structure TypeData where
  name : String
  ctors : List CtorDef
deriving DecidableEq, Inhabited

/-- The position of the last constructor with the given name. -/
def lastTag? (ctor : String) : List CtorDef → Option Nat
  | [] => none
  | c :: cs =>
    match lastTag? ctor cs with
    | some tag => some (tag + 1)
    | none => if c.name = ctor then some 0 else none

/-- The tag of the constructor with the given name. -/
def TypeData.tag? (data : TypeData) (ctor : String) : Option Nat := lastTag? ctor data.ctors

/-- Data type definitions, to be looked up by name. -/
abbrev TypeTable := List TypeData

namespace TypeTable

def get? (types : TypeTable) (name : String) : Option TypeData := types.find? (·.name == name)

/-- The field types of the constructor of `name` with the given tag. -/
def ctorFields? (types : TypeTable) (name : String) (tag : Nat) : Option (List Ty) := do
  let data ← types.get? name
  let ctor ← data.ctors[tag]?
  return ctor.fields

end TypeTable

end TensorIR.Source
