import TensorIR.Lowered.Table
import TensorIR.NameMap

/-! Function tables and programs with an index.

A table keeps its entries in a list, and a map leads from a name to its place, whose number has 32 bits.
A table that is closed hands its index over to the program. -/

namespace TensorIR.Lowered

structure IndexedTable where
  entries : List TableEntry := []
  /-- The places of the names. -/
  index : NameMap FunctionId := {}
deriving Inhabited

/-- All functions and their names in the order of their places, and the places of the names. -/
structure IndexedProgram where
  functions : List Function
  names : List String
  index : NameMap FunctionId
deriving Inhabited

/-- A step of filling a table. -/
abbrev TableM := EStateM TableError IndexedTable

namespace IndexedTable

/-- The table without its index. -/
def table (t : IndexedTable) : FunctionTable := ⟨t.entries⟩

def lookup? (t : IndexedTable) (name : String) : Option FunctionId := t.index.get? name

def entry? (t : IndexedTable) (id : FunctionId) : Option TableEntry := t.entries[id.index]?

def signature? (t : IndexedTable) (id : FunctionId) : Option Signature :=
  (t.entry? id).map TableEntry.sig

def name? (t : IndexedTable) (id : FunctionId) : Option String := (t.entry? id).map TableEntry.name

/-- The function at a place, once it is installed. -/
def function? (t : IndexedTable) (id : FunctionId) : Option Function :=
  (t.entry? id).bind TableEntry.func

def size (t : IndexedTable) : Nat := t.entries.length

/-- The number of places that can be told apart. -/
def placeCount : Nat := 4294967296

/-- Takes the next place for a new name. -/
def reserve (name : String) (sig : Signature) : TableM FunctionId := do
  if (← get).index.contains name then
    throw (.nameTaken name)
  let id : FunctionId := ⟨(← get).size % placeCount⟩
  modify fun t => { t with index := t.index.insert name id }
  modify fun t => { t with entries := t.entries ++ [{ name, sig }] }
  return id

/-- Installs the function of a reserved place, once. -/
def define (id : FunctionId) (f : Function) : TableM Unit := do
  match entry? (← get) id with
  | none => throw (.notReserved id)
  | some e =>
    if e.func.isSome then
      throw (.alreadyDefined e.name)
    modify fun t => { t with entries := t.entries.set id.index { e with func := some f } }

/-- Moves the functions and the names of the entries to the end of the lists. -/
def unpack (functions : List Function) (names : List String) :
    List TableEntry → Except TableError (List Function × List String)
  | [] => .ok (functions, names)
  | e :: es =>
    match e.func with
    | none => .error (.undefined e.name)
    | some f => unpack (functions ++ [f]) (names ++ [e.name]) es

/-- Closes the table, or names the first place that has no function. -/
def freeze (t : IndexedTable) : Except TableError IndexedProgram :=
  (unpack [] [] t.entries).map fun lists => ⟨lists.1, lists.2, t.index⟩

end IndexedTable

namespace IndexedProgram

/-- The program without its index. -/
def program (p : IndexedProgram) : Program := ⟨p.names.zip p.functions⟩

def function? (p : IndexedProgram) (id : FunctionId) : Option Function := p.functions[id.index]?

def name? (p : IndexedProgram) (id : FunctionId) : Option String := p.names[id.index]?

def idOf? (p : IndexedProgram) (name : String) : Option FunctionId := p.index.get? name

def functionByName? (p : IndexedProgram) (name : String) : Option Function := do
  let id ← p.index.get? name
  p.functions[id.index]?

end IndexedProgram

end TensorIR.Lowered
