import TensorIR.Lowered.Syntax

/-! Function tables and programs.

A table is filled in two phases: a name is reserved with its signature, which fixes its place, and
its function is installed later. A program is a table with every function installed. -/

namespace TensorIR.Lowered

/-- What is known of a global function before its body is. -/
structure Signature where
  params : List Ty
  ret : Ty
deriving DecidableEq, Inhabited

structure TableEntry where
  name : String
  sig : Signature
  func : Option Function := none

/-- Entries in the order of their reservation. -/
structure FunctionTable where
  entries : List TableEntry := []
deriving Inhabited

/-- All functions in the order of their places. -/
structure Program where
  functions : List (String × Function)
deriving Inhabited

/-- Why an operation on a table is refused. -/
inductive TableError where
  | nameTaken (name : String)
  | notReserved (id : FunctionId)
  | alreadyDefined (name : String)
  | undefined (name : String)
deriving DecidableEq

def TableError.message : TableError → String
  | .nameTaken name => s!"function '{name}' already registered"
  | .notReserved id => "no reserved function " ++ id.text
  | .alreadyDefined name => s!"function '{name}' already defined"
  | .undefined name => name

namespace FunctionTable

def lookup? (t : FunctionTable) (name : String) : Option FunctionId :=
  (t.entries.findIdx? (·.name == name)).map FunctionId.mk

def entry? (t : FunctionTable) (id : FunctionId) : Option TableEntry := t.entries[id.index]?

def signature? (t : FunctionTable) (id : FunctionId) : Option Signature :=
  (t.entry? id).map TableEntry.sig

def name? (t : FunctionTable) (id : FunctionId) : Option String := (t.entry? id).map TableEntry.name

/-- The function at a place, once it is installed. -/
def function? (t : FunctionTable) (id : FunctionId) : Option Function :=
  (t.entry? id).bind TableEntry.func

def size (t : FunctionTable) : Nat := t.entries.length

/-- Takes the next place for a new name. -/
def reserve (t : FunctionTable) (name : String) (sig : Signature) :
    Except TableError (FunctionId × FunctionTable) :=
  match t.lookup? name with
  | some _ => .error (.nameTaken name)
  | none => .ok (⟨t.size⟩, ⟨t.entries ++ [{ name, sig }]⟩)

/-- Installs the function of a reserved place, once. -/
def define (t : FunctionTable) (id : FunctionId) (f : Function) : Except TableError FunctionTable :=
  match t.entry? id with
  | none => .error (.notReserved id)
  | some e =>
    match e.func with
    | some _ => .error (.alreadyDefined e.name)
    | none => .ok ⟨t.entries.set id.index { e with func := some f }⟩

/-- The functions of the entries, unless one of them has none. -/
def installed : List TableEntry → Except TableError (List (String × Function))
  | [] => .ok []
  | e :: es =>
    match e.func with
    | none => .error (.undefined e.name)
    | some f => (installed es).map ((e.name, f) :: ·)

/-- Closes the table, or names the first place that has no function. -/
def freeze (t : FunctionTable) : Except TableError Program := (installed t.entries).map Program.mk

end FunctionTable

namespace Program

def idOf? (p : Program) (name : String) : Option FunctionId :=
  (p.functions.findIdx? (·.1 == name)).map FunctionId.mk

def name? (p : Program) (id : FunctionId) : Option String := p.functions[id.index]?.map Prod.fst

def function? (p : Program) (id : FunctionId) : Option Function :=
  p.functions[id.index]?.map Prod.snd

def functionByName? (p : Program) (name : String) : Option Function :=
  (p.idOf? name).bind p.function?

def names (p : Program) : List String := p.functions.map Prod.fst

def size (p : Program) : Nat := p.functions.length

end Program

end TensorIR.Lowered
