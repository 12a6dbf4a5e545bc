import TensorIR.NameMap
import TensorIR.Source.Module

/-! Modules with indexes.

A module is kept in two lists, and three maps lead from names to places in them. A definition checks its
names first, and then enters them in the maps and adds to the lists. Nothing undoes what a definition
has done before it is refused. -/

namespace TensorIR.Source

structure IndexedModule where
  globals : List (String × Function) := []
  /-- Where a global is listed. -/
  globalIndex : NameMap Nat := {}
  types : TypeTable := []
  /-- Where a data type is listed. -/
  typeIndex : NameMap Nat := {}
  /-- Where the data type of a constructor is listed, and the tag of the constructor in it. -/
  ctorIndex : NameMap (Nat × Nat) := {}
deriving Inhabited

/-- A step of a definition. -/
abbrev ModuleM := EStateM ModuleError IndexedModule

namespace IndexedModule

/-- The module without its indexes. -/
def module (m : IndexedModule) : Module := ⟨m.globals, m.types⟩

def function? (m : IndexedModule) (name : String) : Option Function := do
  let place ← m.globalIndex.get? name
  let global ← m.globals[place]?
  return global.2

def type? (m : IndexedModule) (name : String) : Option TypeData := do
  let place ← m.typeIndex.get? name
  m.types[place]?

def ctor? (m : IndexedModule) (name : String) : Option CtorInfo := do
  let place ← m.ctorIndex.get? name
  let adt ← m.types[place.1]?
  let ctor ← adt.ctors[place.2]?
  return ⟨adt, place.2, ctor.fields⟩

/-- Adds a global function, which may refer to itself. -/
def define (name : String) (f : Function) : ModuleM Unit := do
  if (← get).globalIndex.contains name then
    throw (.globalDefined name)
  modify fun m => { m with globalIndex := m.globalIndex.insert name m.globals.length }
  modify fun m => { m with globals := m.globals ++ [(name, f)] }

/-- None of the constructors may be in the map. -/
def checkCtors : List CtorDef → ModuleM Unit
  | [] => pure ()
  | c :: cs => do
    if (← get).ctorIndex.contains c.name then
      throw (.ctorDefined c.name)
    checkCtors cs

/-- Enters the constructors of the data type at the place `adt`, with tags from `tag` on. -/
def insertCtors (adt : Nat) : (tag : Nat) → List CtorDef → ModuleM Unit
  | _, [] => pure ()
  | tag, c :: cs => do
    modify fun m => { m with ctorIndex := m.ctorIndex.insert c.name (adt, tag) }
    insertCtors adt (tag + 1) cs

/-- Adds an algebraic data type and gives tags to its constructors. -/
def addType (data : TypeData) : ModuleM Unit := do
  if (← get).typeIndex.contains data.name then
    throw (.typeDefined data.name)
  checkCtors data.ctors
  let place := (← get).types.length
  insertCtors place 0 data.ctors
  modify fun m => { m with typeIndex := m.typeIndex.insert data.name place }
  modify fun m => { m with types := m.types ++ [data] }

end IndexedModule

end TensorIR.Source
