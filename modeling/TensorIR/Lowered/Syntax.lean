import TensorIR.Tensor.Basic

/-! The lowered language: the closed set of nodes that lowering produces and the machine runs.

Variables are names, bindings are lists in evaluation order, functions list what they capture, and
every reference to a global carries its place in the function table. -/

namespace TensorIR.Lowered

/-- The place of a function in the function table. -/
structure FunctionId where
  index : Nat
deriving DecidableEq, Inhabited

def FunctionId.text (id : FunctionId) : String := "@" ++ toString id.index

/-- A reference to a global function. -/
structure GlobalRef where
  id : FunctionId
  name : String
deriving DecidableEq, Inhabited

/-- A name with its type: a parameter or a captured variable. -/
structure Param where
  name : String
  ty : Ty
deriving DecidableEq, Inhabited

/-- A pattern with its constructors resolved to tags. -/
inductive Pattern where
  | wildcard
  | bind (name : String)
  | ctor (tag : Nat) (name : String) (fields : List Pattern)
  | tuple (fields : List Pattern)
deriving Inhabited

/-- A lowered expression. `packed` calls a kernel, with its arguments in one tuple if `tupled`
holds; `invoke` calls a global and `apply` a function value; `func` builds a function value. -/
inductive Node where
  | var (name : String)
  | literal (value : Tensor)
  | global (target : GlobalRef)
  | decl (bindings : List (String × Node)) (body : Node)
  | packed (kernel : String) (arity : Nat) (args : List Node) (ty : Ty) (tupled : Bool)
  | invoke (target : GlobalRef) (args : List Node)
  | apply (callee : Node) (args : List Node)
  | func (name : Option String) (params captures : List Param) (body : Node) (ret : Ty)
  | ite (cond onTrue onFalse : Node) (ty : Ty)
  | tuple (fields : List Node) (ty : Ty)
  | matchOn (data : Node) (clauses : List (Pattern × Node)) (ty : Ty)
  | ctor (tag : Nat) (name : String) (fields : List Node) (ty : Ty)

instance : Inhabited Node := ⟨.var ""⟩

/-- A function definition. A named local function can call itself by its name; what it captures is
read once, when the function value is built. -/
structure Function where
  name : Option String
  params : List Param
  captures : List Param
  body : Node
  ret : Ty
deriving Inhabited

namespace Function

def toNode (f : Function) : Node := .func f.name f.params f.captures f.body f.ret

def fnType (f : Function) : Ty := .func (f.params.map Param.ty) f.ret

end Function

namespace Pattern

mutual

/-- The names a pattern binds, left to right. -/
def boundNames : Pattern → List String
  | .wildcard => []
  | .bind name => [name]
  | .ctor _ _ fields => boundNamesList fields
  | .tuple fields => boundNamesList fields

def boundNamesList : List Pattern → List String
  | [] => []
  | p :: ps => p.boundNames ++ boundNamesList ps

end

end Pattern

/-- What messages call a node of this form. -/
def Node.kind : Node → String
  | .var _ => "Var"
  | .literal _ => "Literal"
  | .global _ => "Global"
  | .decl .. => "Decl"
  | .packed .. => "PackedCall"
  | .invoke .. | .apply .. => "Invoke"
  | .func .. => "CPPFunction"
  | .ite .. => "CPPIf"
  | .tuple .. => "CPPTuple"
  | .matchOn .. => "CPPMatch"
  | .ctor .. => "CPPConstructor"

end TensorIR.Lowered
