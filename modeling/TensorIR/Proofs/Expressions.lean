import TensorIR.Source.Syntax

/-! Expressions and their parts.

Lowering and evaluation treat function literals that are bound by a `let` and callees that are
operators or globals apart from the others. `Expr.Cases` is induction over expressions with these
cases apart. -/

namespace TensorIR.Source

/-- A function literal. -/
def Expr.isFunction : Expr → Bool
  | .func .. => true
  | _ => false

/-- A callee that is not evaluated: an operator or a global. -/
def Expr.isReference : Expr → Bool
  | .op _ | .global _ => true
  | _ => false

mutual

/-- All variables that are bound inside an expression, in the order in which they get their names. -/
@[simp] def Expr.binders : Expr → List Nat
  | .var _ | .const _ | .global _ | .op _ => []
  | .letIn v value body => v.id :: (value.binders ++ body.binders)
  | .func params body _ => params.map Var.id ++ body.binders
  | .call callee args _ => callee.binders ++ Expr.listBinders args
  | .ite cond onTrue onFalse _ => cond.binders ++ (onTrue.binders ++ onFalse.binders)
  | .tuple fields _ | .construct _ fields _ => Expr.listBinders fields
  | .matchOn data clauses _ => data.binders ++ Expr.clauseBinders clauses

@[simp] def Expr.listBinders : List Expr → List Nat
  | [] => []
  | e :: es => e.binders ++ Expr.listBinders es

@[simp] def Expr.clauseBinders : List (Pattern × Expr) → List Nat
  | [] => []
  | (p, e) :: rest => p.boundVars.map Var.id ++ (e.binders ++ Expr.clauseBinders rest)

end

mutual

/-- The globals that an expression refers to. -/
@[simp] def Expr.globals : Expr → List String
  | .var _ | .const _ | .op _ => []
  | .global name => [name]
  | .letIn _ value body => value.globals ++ body.globals
  | .func _ body _ => body.globals
  | .call callee args _ => callee.globals ++ Expr.listGlobals args
  | .ite cond onTrue onFalse _ => cond.globals ++ (onTrue.globals ++ onFalse.globals)
  | .tuple fields _ | .construct _ fields _ => Expr.listGlobals fields
  | .matchOn data clauses _ => data.globals ++ Expr.clauseGlobals clauses

@[simp] def Expr.listGlobals : List Expr → List String
  | [] => []
  | e :: es => e.globals ++ Expr.listGlobals es

@[simp] def Expr.clauseGlobals : List (Pattern × Expr) → List String
  | [] => []
  | (_, e) :: rest => e.globals ++ Expr.clauseGlobals rest

end

theorem Expr.eq_func_of_isFunction {e : Expr} (h : e.isFunction = true) :
    ∃ params body ret, e = .func params body ret := by
  cases e with
  | func params body ret => exact ⟨params, body, ret, rfl⟩
  | _ => cases h

/-- The cases of an induction over expressions, lists of expressions and clauses. -/
structure Expr.Cases (P : Expr → Prop) (Q : List Expr → Prop)
    (R : List (Pattern × Expr) → Prop) : Prop where
  var : ∀ v, P (.var v)
  const : ∀ t, P (.const t)
  letFunction : ∀ v params fbody ret body, P fbody → P body →
    P (.letIn v (.func params fbody ret) body)
  letValue : ∀ v value body, value.isFunction = false → P value → P body → P (.letIn v value body)
  func : ∀ params body ret, P body → P (.func params body ret)
  global : ∀ name, P (.global name)
  op : ∀ name, P (.op name)
  callKernel : ∀ name args ty, Q args → P (.call (.op name) args ty)
  callGlobal : ∀ name args ty, Q args → P (.call (.global name) args ty)
  call : ∀ callee args ty, callee.isReference = false → P callee → Q args → P (.call callee args ty)
  ite : ∀ cond onTrue onFalse ty, P cond → P onTrue → P onFalse → P (.ite cond onTrue onFalse ty)
  tuple : ∀ fields ty, Q fields → P (.tuple fields ty)
  matchOn : ∀ data clauses ty, P data → R clauses → P (.matchOn data clauses ty)
  construct : ∀ name fields ty, Q fields → P (.construct name fields ty)
  nil : Q []
  cons : ∀ e es, P e → Q es → Q (e :: es)
  nilClause : R []
  consClause : ∀ p e rest, P e → R rest → R ((p, e) :: rest)

namespace Expr.Cases

variable {P : Expr → Prop} {Q : List Expr → Prop} {R : List (Pattern × Expr) → Prop}

mutual

/-- Along with an expression, the body of a function literal, so that a `let` that binds one gets at
it. -/
theorem withBody (h : Expr.Cases P Q R) :
    ∀ e, P e ∧ ∀ params body ret, e = .func params body ret → P body
  | .var v => ⟨h.var v, nofun⟩
  | .const t => ⟨h.const t, nofun⟩
  | .global name => ⟨h.global name, nofun⟩
  | .op name => ⟨h.op name, nofun⟩
  | .func params body ret => by
    have hbody := (h.withBody body).1
    refine ⟨h.func params body ret hbody, ?_⟩
    rintro _ _ _ heq
    cases heq
    exact hbody
  | .letIn v value body => by
    have hvalue := h.withBody value
    have hbody := (h.withBody body).1
    refine ⟨?_, nofun⟩
    cases hf : value.isFunction with
    | false => exact h.letValue v value body hf hvalue.1 hbody
    | true =>
      obtain ⟨params, fbody, ret, rfl⟩ := Expr.eq_func_of_isFunction hf
      exact h.letFunction v params fbody ret body (hvalue.2 _ _ _ rfl) hbody
  | .call callee args ty => by
    have hcallee := (h.withBody callee).1
    have hargs := h.list args
    refine ⟨?_, nofun⟩
    cases callee with
    | op name => exact h.callKernel name args ty hargs
    | global name => exact h.callGlobal name args ty hargs
    | _ => exact h.call _ args ty rfl hcallee hargs
  | .ite cond onTrue onFalse ty =>
    ⟨h.ite cond onTrue onFalse ty (h.withBody cond).1 (h.withBody onTrue).1 (h.withBody onFalse).1,
      nofun⟩
  | .tuple fields ty => ⟨h.tuple fields ty (h.list fields), nofun⟩
  | .matchOn data clauses ty =>
    ⟨h.matchOn data clauses ty (h.withBody data).1 (h.clauses clauses), nofun⟩
  | .construct name fields ty => ⟨h.construct name fields ty (h.list fields), nofun⟩

theorem list (h : Expr.Cases P Q R) : ∀ es, Q es
  | [] => h.nil
  | e :: es => h.cons e es (h.withBody e).1 (h.list es)

theorem clauses (h : Expr.Cases P Q R) : ∀ cs, R cs
  | [] => h.nilClause
  | (p, e) :: rest => h.consClause p e rest (h.withBody e).1 (h.clauses rest)

end

theorem expr (h : Expr.Cases P Q R) (e : Expr) : P e := (h.withBody e).1

end Expr.Cases

end TensorIR.Source
