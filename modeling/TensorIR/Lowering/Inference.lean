import TensorIR.Lowering.State
import TensorIR.Source.Annotation

/-! Types of expressions whose annotations are incomplete.

The type of a call of a global comes from the function table, from the declaration, or else from the
body of the global. While the body of a global is being looked at, the global is marked, and a
marked global shows no type; so globals that call each other in a cycle are looked at only once. -/

namespace TensorIR.Lowering

open Source Lowered

/-- Inference keeps the list of marked globals. -/
abbrev InferM := StateM (List String)

/-- The annotation if it is resolved, and else what the step finds. -/
def annotatedOr (ty : Ty) (step : InferM (Option Ty)) : InferM (Option Ty) :=
  if ty.isResolved then return some ty else step

/-- Runs a step with the global marked, unless it is marked already. -/
def whileResolving (name : String) (step : InferM (Option Ty)) : InferM (Option Ty) := do
  if (← get).contains name then return none
  modify (name :: ·)
  let ty ← step
  modify (·.erase name)
  return ty

/-- The parameter types of a global, as reserved or as declared. -/
def globalParams? (m : Module) (table : FunctionTable) (name : String) : Option (List Ty) :=
  match table.lookup? name with
  | some id => (table.signature? id).map Signature.params
  | none => (m.function? name).map fun f => f.params.map Var.ty

/-- The result type of a function value. -/
def resultOf? : Ty → Option Ty
  | .func _ ret => some ret
  | _ => none

section

variable (m : Module) (table : FunctionTable) (retOf : String → InferM (Option Ty))
  (locals : Var → Option Ty)

mutual

/-- The type of an expression. `retOf` gives the result types of globals, `locals` the types of
variables without a complete annotation. -/
def inferType : Expr → InferM (Option Ty)
  | .var v => annotatedOr v.ty (return locals v)
  | .const value => return some value.ty
  | .letIn _ _ body => inferType body
  | .func params body ret => do
    let result ← annotatedOr ret (inferType body)
    return result.map (Ty.func (params.map Var.ty))
  | .global name =>
    match globalParams? m table name with
    | none => return none
    | some params => do
      let result ← retOf name
      return result.map (Ty.func params)
  | .op _ => return none
  | .call (.global name) _ ty => annotatedOr ty (retOf name)
  | .call (.op _) _ ty => return ty.resolved?
  | .call callee _ ty => annotatedOr ty do return (← inferType callee).bind resultOf?
  | .ite _ onTrue onFalse ty => annotatedOr ty do
    match ← inferType onTrue with
    | some t => return some t
    | none => inferType onFalse
  | .tuple fields ty => annotatedOr ty do return (← inferTypes fields).map Ty.tuple
  | .matchOn _ clauses ty => annotatedOr ty (inferClauses clauses)
  | .construct _ _ ty => return ty.resolved?

/-- The types of all expressions, if all of them show one. -/
def inferTypes : List Expr → InferM (Option (List Ty))
  | [] => return some []
  | e :: es => do
    match ← inferType e with
    | none => return none
    | some t => return (← inferTypes es).map (t :: ·)

/-- The type of the first clause that shows one. -/
def inferClauses : List (Source.Pattern × Expr) → InferM (Option Ty)
  | [] => return none
  | (_, body) :: rest => do
    match ← inferType body with
    | some t => return some t
    | none => inferClauses rest

end

end

/-- The declared result type of a function, or else the type that `infer` finds for its body. -/
def functionRet (infer : Expr → InferM (Option Ty)) (name : String) (f : Source.Function) :
    InferM (Option Ty) :=
  annotatedOr f.ret (whileResolving name (infer f.body))

/-- The result type of a global, as reserved, declared or found by `infer`. -/
def globalRetWith (m : Module) (table : FunctionTable) (infer : Expr → InferM (Option Ty))
    (name : String) : InferM (Option Ty) :=
  match table.lookup? name with
  | some id => return (table.signature? id).map Signature.ret
  | none =>
    match m.function? name with
    | some f => functionRet infer name f
    | none => return none

/-- The result type of a global, found by looking at the bodies of at most `depth` globals inside
each other. -/
def globalRet (m : Module) (table : FunctionTable) : (depth : Nat) → String → InferM (Option Ty)
  | 0, name => globalRetWith m table (fun _ => return none) name
  | depth + 1, name =>
    globalRetWith m table (inferType m table (globalRet m table depth) fun _ => none) name

/-- The type of an expression in a unit. Each global is marked at most once at a time, so the number
of globals bounds the nesting. -/
def Setting.infer (s : Setting) (locals : Var → Option Ty) (e : Expr) : LowerM (Option Ty) := do
  let p ← get
  let (ty, resolving) :=
    (inferType s.module p.table (globalRet s.module p.table s.module.globals.length) locals e).run
      p.resolving
  set { p with resolving }
  return ty

/-- The result type of a function that is about to be reserved as `name`. -/
def Setting.retType (s : Setting) (name : String) (f : Source.Function) : LowerM (Option Ty) := do
  let p ← get
  let retOf := globalRet s.module p.table s.module.globals.length
  let (ty, resolving) :=
    (functionRet (inferType s.module p.table retOf fun _ => none) name f).run p.resolving
  set { p with resolving }
  return ty

namespace BodyContext

/-- The type of an expression in the current environment. -/
def typeOf (c : BodyContext) (e : Expr) : BodyM (Option Ty) := do
  let env := (← get).env
  c.setting.infer (fun v => (env.lookup v.id).bind fun b => b.ty.resolved?) e

def requireType (c : BodyContext) (e : Expr) (construct : String) : BodyM Ty := do
  match ← c.typeOf e with
  | some ty => return ty
  | none => throw (.unresolvedType c.func construct)

end BodyContext

end TensorIR.Lowering
