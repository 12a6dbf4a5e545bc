import TensorIR.Source.DataType
import TensorIR.Source.Syntax

/-! Modules: named global functions and algebraic data types, each in the order of definition.

Definitions are only ever added. A name that is taken is refused, and a refused definition leaves
the module as it was. -/

namespace TensorIR.Source

/-- A constructor together with its data type and its tag. -/
structure CtorInfo where
  adt : TypeData
  tag : Nat
  fields : List Ty
deriving DecidableEq

/-- Why a definition is refused. -/
inductive ModuleError where
  | globalDefined (name : String)
  | typeDefined (name : String)
  | ctorDefined (name : String)
deriving DecidableEq

def ModuleError.message : ModuleError → String
  | .globalDefined name => s!"global '{name}' already defined"
  | .typeDefined name => s!"type '{name}' already defined"
  | .ctorDefined name => s!"constructor '{name}' already defined"

structure Module where
  globals : List (String × Function) := []
  types : TypeTable := []
deriving Inhabited

namespace Module

def function? (m : Module) (name : String) : Option Function := m.globals.lookup name

def type? (m : Module) (name : String) : Option TypeData := m.types.get? name

/-- The constructor with the given name. -/
def ctor? (m : Module) (name : String) : Option CtorInfo :=
  m.types.findSome? fun data => do
    let tag ← data.tag? name
    let ctor ← data.ctors[tag]?
    return ⟨data, tag, ctor.fields⟩

/-- Adds a global function, which may refer to itself. -/
def define (m : Module) (name : String) (f : Function) : Except ModuleError Module :=
  if (m.function? name).isSome then .error (.globalDefined name)
  else .ok { m with globals := m.globals ++ [(name, f)] }

/-- Adds an algebraic data type. Its constructors must not belong to an earlier type. -/
def addType (m : Module) (data : TypeData) : Except ModuleError Module :=
  if (m.type? data.name).isSome then .error (.typeDefined data.name)
  else match data.ctors.find? fun c => (m.ctor? c.name).isSome with
    | some c => .error (.ctorDefined c.name)
    | none => .ok { m with types := m.types ++ [data] }

end Module

end TensorIR.Source
