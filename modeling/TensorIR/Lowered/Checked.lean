import TensorIR.Lowered.Syntax

/-! Checked construction of lowered nodes.

Each node with an invariant has a constructor here that refuses parts which break it: open types,
wrong counts, names bound twice. -/

namespace TensorIR.Lowered

/-- Why a node is refused. The first field of most causes is the kind of the node. -/
inductive NodeError where
  | arityMismatch (node : String) (expected found : Nat)
  | unresolvedType (node : String) (ty : Ty)
  | typeMismatch (node expected : String) (found : Ty)
  | emptyDecl
  | duplicateBinding (name : String)
  | duplicateParam (func name : String)
deriving DecidableEq

def NodeError.message : NodeError → String
  | .arityMismatch node expected found =>
    s!"{node}: expected {expected} argument(s), found {found}"
  | .unresolvedType node ty => node ++ ": type annotation '" ++ ty.text ++ "' is not fully resolved"
  | .typeMismatch node expected found =>
    node ++ ": expected " ++ expected ++ ", found '" ++ found.text ++ "'"
  | .emptyDecl => "Decl must bind at least one name"
  | .duplicateBinding name => s!"Decl binds '{name}' more than once"
  | .duplicateParam func name => s!"function '{func}' declares parameter '{name}' more than once"

/-- The first name that has occurred before, in `seen` or in the list itself. -/
def firstRepeat? (seen : List String) : List String → Option String
  | [] => none
  | x :: xs => if seen.contains x then some x else firstRepeat? (x :: seen) xs

def requireResolved (node : String) (ty : Ty) : Except NodeError Unit :=
  if ty.isResolved then .ok () else .error (.unresolvedType node ty)

def requireArity (node : String) (expected found : Nat) : Except NodeError Unit :=
  if expected = found then .ok () else .error (.arityMismatch node expected found)

namespace Node

/-- Bindings in evaluation order, at least one, each name once. -/
def mkDecl (bindings : List (String × Node)) (body : Node) : Except NodeError Node :=
  if bindings.isEmpty then .error .emptyDecl
  else match firstRepeat? [] (bindings.map Prod.fst) with
    | some name => .error (.duplicateBinding name)
    | none => .ok (.decl bindings body)

/-- The body alone if there is nothing to bind. -/
def wrapDecl (bindings : List (String × Node)) (body : Node) : Except NodeError Node :=
  if bindings.isEmpty then .ok body else mkDecl bindings body

/-- The number of fields, if the node is itself a tuple. -/
def tupleWidth? : Node → Option Nat
  | .tuple fields _ => some fields.length
  | _ => none

/-- With `tupled`, exactly one argument, and if that is a tuple node then of `arity` fields;
otherwise `arity` arguments. -/
def mkPacked (kernel : String) (arity : Nat) (args : List Node) (ty : Ty) (tupled : Bool) :
    Except NodeError Node := do
  requireResolved "PackedCall" ty
  if tupled then
    requireArity "PackedCall" 1 args.length
    match args.head?.bind tupleWidth? with
    | some width => requireArity "PackedCall" arity width
    | none => pure ()
  else
    requireArity "PackedCall" arity args.length
  return .packed kernel arity args ty tupled

def mkIte (cond onTrue onFalse : Node) (ty : Ty) : Except NodeError Node := do
  requireResolved "CPPIf" ty
  return .ite cond onTrue onFalse ty

def mkTuple (fields : List Node) (ty : Ty) : Except NodeError Node := do
  requireResolved "CPPTuple" ty
  match ty with
  | .tuple declared => requireArity "CPPTuple" declared.length fields.length
  | _ => throw (.typeMismatch "CPPTuple" "a tuple type" ty)
  return .tuple fields ty

def mkMatch (data : Node) (clauses : List (Pattern × Node)) (ty : Ty) : Except NodeError Node := do
  requireResolved "CPPMatch" ty
  return .matchOn data clauses ty

def mkCtor (tag : Nat) (name : String) (arity : Nat) (fields : List Node) (ty : Ty) :
    Except NodeError Node := do
  requireResolved "CPPConstructor" ty
  requireArity "CPPConstructor" arity fields.length
  return .ctor tag name fields ty

end Node

namespace Function

/-- Checks one name after the other: it must be new, and its type resolved. -/
def checkParams (func : String) : (seen : List String) → List Param → Except NodeError Unit
  | _, [] => .ok ()
  | seen, p :: ps =>
    if seen.contains p.name then .error (.duplicateParam func p.name)
    else if !p.ty.isResolved then .error (.unresolvedType "CPPFunction" p.ty)
    else checkParams func (p.name :: seen) ps

/-- Its own name, the parameters and the captures must all differ, and all types be resolved. -/
def mkChecked (name : Option String) (params captures : List Param) (body : Node) (ret : Ty) :
    Except NodeError Function := do
  checkParams (name.getD "<anonymous>") name.toList (params ++ captures)
  requireResolved "CPPFunction" ret
  return ⟨name, params, captures, body, ret⟩

end Function

end TensorIR.Lowered
