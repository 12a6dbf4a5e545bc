import TensorIR.Tensor.Basic

/-! The source language: a typed functional language over tensors, tuples, algebraic data types and
first-class functions.

Variables are told apart by identity; their names are hints only. Every type annotation may be
missing or incomplete. -/

namespace TensorIR.Source

/-- A variable. Two variables are the same exactly when their identities are. -/
structure Var where
  id : Nat
  name : String
  ty : Ty
deriving DecidableEq, Inhabited

/-- The hint with a mark in front. -/
def Var.text (v : Var) : String := "%" ++ v.name

inductive Pattern where
  | wildcard
  | var (v : Var)
  | ctor (name : String) (fields : List Pattern)
  | tuple (fields : List Pattern)
deriving Inhabited

mutual

/-- The variables a pattern binds, left to right. -/
def Pattern.boundVars : Pattern → List Var
  | .wildcard => []
  | .var v => [v]
  | .ctor _ fields => Pattern.boundVarsList fields
  | .tuple fields => Pattern.boundVarsList fields

def Pattern.boundVarsList : List Pattern → List Var
  | [] => []
  | p :: ps => p.boundVars ++ Pattern.boundVarsList ps

end

/-- An expression. `func` is a function literal with parameters, body and declared result type;
`op` names a kernel and has a meaning only where it is called. -/
inductive Expr where
  | var (v : Var)
  | const (value : Tensor)
  | letIn (v : Var) (value body : Expr)
  | func (params : List Var) (body : Expr) (ret : Ty)
  | global (name : String)
  | op (name : String)
  | call (callee : Expr) (args : List Expr) (ty : Ty)
  | ite (cond onTrue onFalse : Expr) (ty : Ty)
  | tuple (fields : List Expr) (ty : Ty)
  | matchOn (data : Expr) (clauses : List (Pattern × Expr)) (ty : Ty)
  | construct (ctor : String) (fields : List Expr) (ty : Ty)

instance : Inhabited Expr := ⟨.op ""⟩

/-- A function definition. The result type may be left open if the body shows it. -/
structure Function where
  params : List Var
  body : Expr
  ret : Ty := .infer
deriving Inhabited

/-- What messages call an expression of this form. -/
def Expr.kind : Expr → String
  | .var _ => "variable"
  | .const _ => "constant"
  | .letIn .. => "let"
  | .func .. => "function"
  | .global _ => "global reference"
  | .op _ => "operator"
  | .call .. => "call"
  | .ite .. => "if"
  | .tuple .. => "tuple"
  | .matchOn .. => "match"
  | .construct .. => "constructor application"

/-- The function as a literal. -/
def Function.toExpr (f : Function) : Expr := .func f.params f.body f.ret

end TensorIR.Source
