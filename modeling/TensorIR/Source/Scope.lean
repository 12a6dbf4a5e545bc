import TensorIR.Source.Syntax

/-! Free variables of expressions, in the order in which a left-to-right reading meets them.

The reading keeps a stack of the variables that are bound where it stands. The variable of a `let` is
in scope in its own value as well as in the body, so a function bound by a `let` does not count itself
among its free variables. -/

namespace TensorIR.Source

/-- The state of a search for free variables. -/
structure FreeSearch where
  /-- The bound variables, the innermost last. -/
  bound : List Nat := []
  /-- The variables that have been found. -/
  seen : List Nat := []
  found : List Var := []

namespace FreeSearch

def push (id : Nat) (s : FreeSearch) : FreeSearch := { s with bound := s.bound ++ [id] }

def pop (s : FreeSearch) : FreeSearch := { s with bound := s.bound.dropLast }

def extend (ids : List Nat) (s : FreeSearch) : FreeSearch := { s with bound := s.bound ++ ids }

/-- Only the outermost `mark` variables stay bound. -/
def truncate (mark : Nat) (s : FreeSearch) : FreeSearch := { s with bound := s.bound.take mark }

/-- Adds a variable at the end unless it is bound or already found. -/
def meet (v : Var) (s : FreeSearch) : FreeSearch :=
  if s.bound.contains v.id || s.seen.contains v.id then s
  else { s with seen := v.id :: s.seen, found := s.found ++ [v] }

end FreeSearch

mutual

/-- Adds the free variables of the expression to those that have been found. -/
def Expr.search : Expr → StateM FreeSearch Unit
  | .var v => modify (·.meet v)
  | .const _ | .global _ | .op _ => pure ()
  | .letIn v value body => do
    modify (·.push v.id)
    value.search
    body.search
    modify (·.pop)
  | .func params body _ => do
    let mark := (← get).bound.length
    modify (·.extend (params.map Var.id))
    body.search
    modify (·.truncate mark)
  | .call callee args _ => do
    callee.search
    Expr.searchAll args
  | .ite cond onTrue onFalse _ => do
    cond.search
    onTrue.search
    onFalse.search
  | .tuple fields _ | .construct _ fields _ => Expr.searchAll fields
  | .matchOn data clauses _ => do
    data.search
    Expr.searchClauses clauses

def Expr.searchAll : List Expr → StateM FreeSearch Unit
  | [] => pure ()
  | e :: es => do
    e.search
    Expr.searchAll es

def Expr.searchClauses : List (Pattern × Expr) → StateM FreeSearch Unit
  | [] => pure ()
  | (p, e) :: rest => do
    let mark := (← get).bound.length
    modify (·.extend (p.boundVars.map Var.id))
    e.search
    modify (·.truncate mark)
    Expr.searchClauses rest

end

def Expr.freeVars (e : Expr) : List Var := (e.search.run {}).2.found

/-- The variables a function body uses beyond the parameters. -/
def Function.freeVars (f : Function) : List Var :=
  (f.body.search.run { bound := f.params.map Var.id }).2.found

end TensorIR.Source
