import TensorIR.Proofs.ScopeLeaks

/-! Code without a `let` in an operand.

The bindings of an expression come before its node, so a `let` in an operand is evaluated before the
operands to its left. Where no operand is a `let`, operands have no bindings, and everything is
evaluated in the order in which it is written. -/

namespace TensorIR.Source

def Expr.isLet : Expr → Bool
  | .letIn .. => true
  | _ => false

mutual

/-- No callee, argument, field, condition or scrutinee in the expression is a `let`. -/
def Expr.plain : Expr → Bool
  | .var _ | .const _ | .global _ | .op _ => true
  | .letIn _ value body => value.plain && body.plain
  | .func _ body _ => body.plain
  | .call callee args _ => !callee.isLet && callee.plain && Expr.plainOperands args
  | .ite cond onTrue onFalse _ => !cond.isLet && cond.plain && (onTrue.plain && onFalse.plain)
  | .tuple fields _ | .construct _ fields _ => Expr.plainOperands fields
  | .matchOn data clauses _ => !data.isLet && data.plain && Expr.plainClauses clauses

def Expr.plainOperands : List Expr → Bool
  | [] => true
  | e :: es => !e.isLet && e.plain && Expr.plainOperands es

def Expr.plainClauses : List (Pattern × Expr) → Bool
  | [] => true
  | (_, e) :: rest => e.plain && Expr.plainClauses rest

end

/-- How the kernel calls of a run follow those of an evaluation: one by one, which only code without
a `let` in an operand does, or in any order. -/
inductive CallOrder where
  | kept
  | free

namespace CallOrder

/-- The expression may be evaluated in the order. -/
def Admits (order : CallOrder) (e : Expr) : Prop := order = .kept → e.plain = true

def AdmitsOperands (order : CallOrder) (es : List Expr) : Prop :=
  order = .kept → Expr.plainOperands es = true

def AdmitsClauses (order : CallOrder) (clauses : List (Pattern × Expr)) : Prop :=
  order = .kept → Expr.plainClauses clauses = true

variable {order : CallOrder}

theorem free_admits (e : Expr) : free.Admits e := nofun

theorem Admits.letIn {v : Var} {value body : Expr} (h : order.Admits (.letIn v value body)) :
    order.Admits value ∧ order.Admits body := by
  simp only [Admits, Expr.plain, Bool.and_eq_true] at h ⊢
  exact forall_and.mp h

theorem Admits.call {callee : Expr} {args : List Expr} {ty : Ty}
    (h : order.Admits (.call callee args ty)) : order.Admits callee ∧ order.AdmitsOperands args := by
  simp only [Admits, AdmitsOperands, Expr.plain, Bool.and_eq_true] at h ⊢
  exact ⟨fun ho => (h ho).1.2, fun ho => (h ho).2⟩

theorem Admits.ite {cond onTrue onFalse : Expr} {ty : Ty}
    (h : order.Admits (.ite cond onTrue onFalse ty)) :
    order.Admits cond ∧ order.Admits onTrue ∧ order.Admits onFalse := by
  simp only [Admits, Expr.plain, Bool.and_eq_true] at h ⊢
  exact ⟨fun ho => (h ho).1.2, fun ho => (h ho).2.1, fun ho => (h ho).2.2⟩

theorem Admits.matchOn {data : Expr} {clauses : List (Pattern × Expr)} {ty : Ty}
    (h : order.Admits (.matchOn data clauses ty)) :
    order.Admits data ∧ order.AdmitsClauses clauses := by
  simp only [Admits, AdmitsClauses, Expr.plain, Bool.and_eq_true] at h ⊢
  exact ⟨fun ho => (h ho).1.2, fun ho => (h ho).2⟩

theorem AdmitsOperands.cons {e : Expr} {es : List Expr} (h : order.AdmitsOperands (e :: es)) :
    order.Admits e ∧ order.AdmitsOperands es := by
  simp only [Admits, AdmitsOperands, Expr.plainOperands, Bool.and_eq_true] at h ⊢
  exact ⟨fun ho => (h ho).1.2, fun ho => (h ho).2⟩

theorem AdmitsClauses.cons {p : Pattern} {e : Expr} {rest : List (Pattern × Expr)}
    (h : order.AdmitsClauses ((p, e) :: rest)) : order.Admits e ∧ order.AdmitsClauses rest := by
  simp only [Admits, AdmitsClauses, Expr.plainClauses, Bool.and_eq_true] at h ⊢
  exact forall_and.mp h

end CallOrder

end TensorIR.Source

namespace TensorIR.Lowering

open Source Lowered

mutual

theorem hoisted_of_plain : ∀ {e : Expr}, e.plain = true → e.isLet = false → hoisted e = 0
  | .var _, _, _ | .const _, _, _ | .global _, _, _ | .op _, _, _ | .func .., _, _ => rfl
  | .call callee args _, h, _ => by
    simp only [Expr.plain, Bool.and_eq_true, Bool.not_eq_true'] at h
    rw [hoisted, hoisted_of_plain h.1.2 h.1.1, hoistedAll_of_plain h.2]
  | .ite cond _ _ _, h, _ => by
    simp only [Expr.plain, Bool.and_eq_true, Bool.not_eq_true'] at h
    rw [hoisted, hoisted_of_plain h.1.2 h.1.1]
  | .tuple fields _, h, _ => hoistedAll_of_plain h
  | .construct _ fields _, h, _ => hoistedAll_of_plain h
  | .matchOn data _ _, h, _ => by
    simp only [Expr.plain, Bool.and_eq_true, Bool.not_eq_true'] at h
    rw [hoisted, hoisted_of_plain h.1.2 h.1.1]

theorem hoistedAll_of_plain : ∀ {es : List Expr}, Expr.plainOperands es = true → hoistedAll es = 0
  | [], _ => rfl
  | e :: es, h => by
    simp only [Expr.plainOperands, Bool.and_eq_true, Bool.not_eq_true'] at h
    rw [hoistedAll, hoisted_of_plain h.1.2 h.1.1, hoistedAll_of_plain h.2]

end

/-- Operands that are no `let`s have no bindings. -/
theorem LowersAll.bindings_eq_nil {L : Linkage} {mode : Scoping} {σ : Naming} {k : Nat}
    {es : List Expr} {bs : List (String × Node)} {ns : List Node}
    (h : LowersAll L mode σ k es bs ns) (hplain : Expr.plainOperands es = true) : bs = [] := by
  apply List.eq_nil_of_length_eq_zero
  rw [length_cases.list h, hoistedAll_of_plain hplain]

end TensorIR.Lowering
