import TensorIR.Lowering.Clause
import TensorIR.Source.Scope

/-! Lowering of expressions and function bodies.

A `let` becomes a binding of the innermost open scope, wherever it stands in an expression. Function
bodies, branches and clauses open scopes of their own. Function literals list the variables they
capture; a function that a `let` binds can call itself by its own name. -/

namespace TensorIR.Lowering

open Source Lowered

namespace BodyContext

/-- Gives each parameter a name of its own and binds it. -/
def bindParams (c : BodyContext) : List Var → BodyM (List Param)
  | [] => return []
  | v :: vs => do
    if !v.ty.isResolved then throw (.unresolvedType c.func "function parameter")
    let name ← fresh v.name
    bindVar v ⟨name, v.ty⟩
    let ps ← c.bindParams vs
    return ⟨name, v.ty⟩ :: ps

/-- The free variables of a function literal with what they stand for, apart from the variable that
the function itself is bound to. -/
def captures (c : BodyContext) (self : Option Nat) : List Var → BodyM (List Param)
  | [] => return []
  | v :: vs => do
    if self = some v.id then c.captures self vs
    else
      let b ← c.lookup v
      let ps ← c.captures self vs
      return ⟨b.name, b.ty⟩ :: ps

/-- Lowers a function whose body is lowered by `lowerBody`. The result type is `ret` if given, and
else the declared one or that of the body. -/
def function (c : BodyContext) (name : Option String) (f : Source.Function) (captures : List Param)
    (ret : Option Ty) (lowerBody : BodyM Node) : BodyM Lowered.Function := do
  let (params, body, ret) ← restoringEnv do
    let params ← c.bindParams f.params
    let body ← c.closeScope lowerBody
    let ret ← match ret.or f.ret.resolved? with
      | some ty => pure ty
      | none => c.requireType f.body "function return type"
    return (params, body, ret)
  c.checked (Lowered.Function.mkChecked name params captures body ret)

/-- Lowers a function literal. A literal bound by a `let` has the variable and the name it is bound
to as `self`. -/
def closure (c : BodyContext) (self : Option (Nat × String)) (f : Source.Function)
    (lowerBody : BodyM Node) : BodyM Lowered.Function := do
  let captures ← c.captures (self.map Prod.fst) f.freeVars
  c.function (self.map Prod.snd) f captures none lowerBody

/-- The arity of a kernel call, and whether its arguments come in a tuple. -/
def kernelArity (c : BodyContext) (name : String) (args : List Expr) (ty : Ty) :
    BodyM (Nat × Bool) := do
  let some kernel := c.setting.kernels.get? name | throw (.unknownKernel c.func name)
  if !ty.isResolved then throw (.unresolvedType c.func "kernel call output")
  let label := "kernel '" ++ name ++ "'"
  match kernel.arity with
  | .fixed n =>
    c.checkArity label n args.length
    return (n, false)
  | .packed =>
    c.checkArity label 1 args.length
    match ← args.head?.elim (pure none) c.typeOf with
    | some (.tuple fields) => return (fields.length, true)
    | some ty => throw (.typeMismatch c.func "packed kernel call"
        (label ++ " takes one tuple argument, found '" ++ ty.text ++ "'"))
    | none => throw (.unresolvedType c.func "packed kernel argument")

/-- A global is called with as many arguments as its signature has parameters. -/
def checkGlobalArity (c : BodyContext) (name : String) (id : FunctionId) (found : Nat) :
    BodyM Unit := do
  let table := (← getThe Progress).table
  let expected := ((table.signature? id).map (·.params.length)).getD found
  c.checkArity ("function '" ++ name ++ "'") expected found

/-- A function value is called with as many arguments as its type has parameters, as far as that is
known. -/
def checkCallee (c : BodyContext) (callee : Expr) (found : Nat) : BodyM Unit := do
  match ← c.typeOf callee with
  | some (.func params _) => c.checkArity (callee.kind ++ " value") params.length found
  | _ => pure ()

def checkCondition (c : BodyContext) (cond : Expr) : BodyM Unit := do
  match ← c.typeOf cond with
  | none => pure ()
  | some ty =>
    if ty.isBoolScalar then pure ()
    else throw (.typeMismatch c.func "if condition"
      ("expected a bool scalar, found '" ++ ty.text ++ "'"))

/-- The constructor of a constructor application, which must agree with the annotation. -/
def constructInfo (c : BodyContext) (name : String) (found : Nat) (ty : Ty) : BodyM CtorInfo := do
  let info ← c.ctorInfo name
  let adt := Ty.adt info.adt.name
  if ty.isResolved && ty != adt then
    throw (.typeMismatch c.func "constructor application" ("'" ++ name ++ "' builds '" ++ adt.text
      ++ "', but the node is annotated '" ++ ty.text ++ "'"))
  c.checkArity ("constructor '" ++ name ++ "'") info.fields.length found
  return info

/-- The type to bind a variable to whose value has been lowered. -/
def letType (c : BodyContext) (v : Var) (value : Expr) : BodyM Ty := do
  if v.ty.isResolved then return v.ty
  else return (← c.typeOf value).getD .infer

/-- Binds a variable to a value that is lowered by `lowerValue`. -/
def letValue (c : BodyContext) (v : Var) (value : Expr) (lowerValue : BodyM Node) : BodyM Unit := do
  let name ← fresh v.name
  let node ← lowerValue
  let ty ← c.letType v value
  bindVar v ⟨name, ty⟩
  emit name node

/-- Binds a variable to a function that can call itself. Its body is lowered by `lowerBody`. -/
def letFunction (c : BodyContext) (v : Var) (f : Source.Function) (lowerBody : BodyM Node) :
    BodyM Unit := do
  let name ← fresh v.name
  bindVar v ⟨name, f.fnType⟩
  let lowered ← c.closure (some (v.id, name)) f lowerBody
  bindVar v ⟨name, lowered.fnType⟩
  emit name lowered.toNode

end BodyContext

mutual

def lowerExpr (c : BodyContext) : Expr → BodyM Node
  | .var v => do return .var (← c.lookup v).name
  | .const value => return .literal value
  | .letIn v (.func params fbody ret) body => do
    c.letFunction v ⟨params, fbody, ret⟩ (lowerExpr c fbody)
    lowerExpr c body
  | .letIn v value body => do
    c.letValue v value (lowerExpr c value)
    lowerExpr c body
  | .func params body ret => do
    let lowered ← c.closure none ⟨params, body, ret⟩ (lowerExpr c body)
    return lowered.toNode
  | .global name => do
    let id ← c.ensure name
    return .global ⟨id, name⟩
  | .op name => throw (.typeMismatch c.func "operator"
      ("kernel '" ++ name ++ "' can only appear as the callee of a call"))
  | .call (.op name) args ty => do
    let (arity, tupled) ← c.kernelArity name args ty
    let nodes ← lowerExprs c args
    c.checked (Node.mkPacked name arity nodes ty tupled)
  | .call (.global name) args _ => do
    let id ← c.ensure name
    c.checkGlobalArity name id args.length
    let nodes ← lowerExprs c args
    return .invoke ⟨id, name⟩ nodes
  | .call callee args _ => do
    c.checkCallee callee args.length
    let node ← lowerExpr c callee
    let nodes ← lowerExprs c args
    return .apply node nodes
  | .ite cond onTrue onFalse ty => do
    let condNode ← lowerExpr c cond
    c.checkCondition cond
    let trueNode ← c.closeScope (lowerExpr c onTrue)
    let falseNode ← c.closeScope (lowerExpr c onFalse)
    let ty ← c.requireType (.ite cond onTrue onFalse ty) "if"
    c.checked (Node.mkIte condNode trueNode falseNode ty)
  | .tuple fields ty => do
    let nodes ← lowerExprs c fields
    let ty ← c.requireType (.tuple fields ty) "tuple"
    c.checked (Node.mkTuple nodes ty)
  | .matchOn data clauses ty => do
    let dataNode ← lowerExpr c data
    let scrutinee ← c.typeOf data
    let (lowered, result) ← lowerClauses c scrutinee ty.resolved? clauses
    c.checkCoverage scrutinee (lowered.map Prod.fst)
    match result with
    | some ty => c.checked (Node.mkMatch dataNode lowered ty)
    | none => throw (.unresolvedType c.func "match")
  | .construct name fields ty => do
    let info ← c.constructInfo name fields.length ty
    let nodes ← lowerExprs c fields
    c.checked (Node.mkCtor info.tag name info.fields.length nodes (.adt info.adt.name))

def lowerExprs (c : BodyContext) : List Expr → BodyM (List Node)
  | [] => return []
  | e :: es => do
    let node ← lowerExpr c e
    let nodes ← lowerExprs c es
    return node :: nodes

/-- Lowers the clauses of a match on values of type `scrutinee`, and finds the type of the match,
which is `result` or else that of the first body that shows one. -/
def lowerClauses (c : BodyContext) (scrutinee : Option Ty) :
    (result : Option Ty) → List (Source.Pattern × Expr) →
      BodyM (List (Lowered.Pattern × Node) × Option Ty)
  | result, [] => return ([], result)
  | result, (p, e) :: rest => do
    let (clause, result) ← c.clause scrutinee result p e (lowerExpr c e)
    let (clauses, result) ← lowerClauses c scrutinee result rest
    return (clause :: clauses, result)

end

end TensorIR.Lowering
