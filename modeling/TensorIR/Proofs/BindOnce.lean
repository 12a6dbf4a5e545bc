import Mathlib.Data.List.Nodup
import TensorIR.Proofs.LexicalScope

/-! Functions that bind each variable at most once and have no free variable.

A variable that one part of such a function leaves in the environment is bound nowhere else, so an
occurrence of it in another part would be free in the whole function. So nothing leaks. -/

namespace TensorIR.Source

/-- No variable of the function is free, and each is bound at most once. -/
structure Function.Closed (f : Function) : Prop where
  freeVars_eq : f.freeVars = []
  binders_nodup : (f.params.map Var.id ++ f.body.binders).Nodup

/-! ## Binders that are not free -/

/-- The binders are all different and none of them is free. -/
structure Tidy (binders : List Nat) (free : Nat → Bool) : Prop where
  nodup : binders.Nodup
  not_free : ∀ y ∈ binders, free y = false

namespace Tidy

variable {ids ids' : List Nat} {free free' : Nat → Bool}

theorem left (h : Tidy (ids ++ ids') fun y => free y || free' y) : Tidy ids free where
  nodup := h.nodup.of_append_left
  not_free y hy := (Bool.or_eq_false_iff.mp (h.not_free y (List.mem_append_left _ hy))).1

theorem right (h : Tidy (ids ++ ids') fun y => free y || free' y) : Tidy ids' free' where
  nodup := h.nodup.of_append_right
  not_free y hy := (Bool.or_eq_false_iff.mp (h.not_free y (List.mem_append_right _ hy))).2

/-- Binders of the first part do not occur in the second one. -/
theorem noneOccurs (h : Tidy (ids ++ ids') fun y => free y || free' y) {exposed : List Nat}
    {occ : Nat → Bool} (hsub : exposed ⊆ ids)
    (hocc : ∀ y, y ∉ ids' → occ y = true → free' y = true) : noneOccurs exposed occ = true := by
  rw [Source.noneOccurs, List.all_eq_true]
  intro y hy
  have hnot : y ∉ ids' := (List.nodup_append'.mp h.nodup).2.2 (hsub hy)
  have hfree := (Bool.or_eq_false_iff.mp (h.not_free y (List.mem_append_left _ (hsub hy)))).2
  cases hy' : occ y with
  | false => rfl
  | true => exact absurd (hocc y hnot hy') (by simp [hfree])

theorem under_var {id : Nat} (h : Tidy (id :: ids) fun y => id != y && free y) : Tidy ids free where
  nodup := (List.nodup_cons.mp h.nodup).2
  not_free y hy := by
    have hne : id ≠ y := fun heq => (List.nodup_cons.mp h.nodup).1 (heq ▸ hy)
    simpa [hne] using h.not_free y (List.mem_cons_of_mem _ hy)

theorem under_vars (h : Tidy (ids' ++ ids) fun y => !ids'.contains y && free y) : Tidy ids free where
  nodup := h.nodup.of_append_right
  not_free y hy := by
    have hnot : y ∉ ids' := fun hy' => (List.nodup_append'.mp h.nodup).2.2 hy' hy
    simpa [hnot] using h.not_free y (List.mem_append_right _ hy)

end Tidy

mutual

theorem exposed_subset_binders : ∀ (e : Expr), e.exposed ⊆ e.binders
  | .var _ | .const _ | .global _ | .op _ | .func .. => List.nil_subset _
  | .letIn v value body => by
    have hvalue := exposed_subset_binders value
    have hbody := exposed_subset_binders body
    rw [Expr.exposed, Expr.binders]
    grind
  | .call callee args _ => by
    have hcallee := exposed_subset_binders callee
    have hargs := listExposed_subset_binders args
    rw [Expr.exposed, Expr.binders]
    grind
  | .ite cond onTrue onFalse _ => by
    have hcond := exposed_subset_binders cond
    have htrue := exposed_subset_binders onTrue
    have hfalse := exposed_subset_binders onFalse
    rw [Expr.exposed, Expr.binders]
    grind
  | .tuple fields _ | .construct _ fields _ => listExposed_subset_binders fields
  | .matchOn data _ _ => List.subset_append_of_subset_left _ (exposed_subset_binders data)

theorem listExposed_subset_binders : ∀ (es : List Expr),
    Expr.listExposed es ⊆ Expr.listBinders es
  | [] => List.nil_subset _
  | e :: es => by
    have he := exposed_subset_binders e
    have hes := listExposed_subset_binders es
    rw [Expr.listExposed, Expr.listBinders]
    grind

end

/-! ## Nothing leaks -/

mutual

theorem leakFree_of_tidy : ∀ (e : Expr), Tidy e.binders (fun y => e.free y) → e.leakFree = true
  | .var _, _ | .const _, _ | .global _, _ | .op _, _ => rfl
  | .letIn v value body, h => by
    have hparts := Tidy.under_var h
    have hnone : noneOccurs value.exposed (fun y => v.id != y && body.occurs y) = true :=
      hparts.noneOccurs (exposed_subset_binders value) fun y hy hocc =>
        free_of_occurs body hy (Bool.and_eq_true_iff.mp hocc).2
    simp only [Expr.leakFree, leakFree_of_tidy value hparts.left,
      leakFree_of_tidy body hparts.right, hnone, Bool.and_self]
  | .func params body _, h => leakFree_of_tidy body (Tidy.under_vars h)
  | .call callee args _, h => by
    have hnone := Tidy.noneOccurs h (exposed_subset_binders callee) fun y hy =>
      free_of_listOccurs args hy
    simp only [Expr.leakFree, leakFree_of_tidy callee (Tidy.left h),
      leakFree_of_tidyList args (Tidy.right h), hnone, Bool.and_self]
  | .ite cond onTrue onFalse _, h => by
    have hbranches := Tidy.right h
    have hcond : noneOccurs cond.exposed (fun y => onTrue.occurs y || onFalse.occurs y) = true :=
      Tidy.noneOccurs h (exposed_subset_binders cond) fun y hy hocc => by
        rw [List.mem_append, not_or] at hy
        rw [Bool.or_eq_true] at hocc ⊢
        exact hocc.imp (free_of_occurs onTrue hy.1) (free_of_occurs onFalse hy.2)
    have htrue := hbranches.noneOccurs (exposed_subset_binders onTrue) fun y hy =>
      free_of_occurs onFalse hy
    simp only [Expr.leakFree, leakFree_of_tidy cond (Tidy.left h),
      leakFree_of_tidy onTrue hbranches.left, leakFree_of_tidy onFalse hbranches.right, hcond, htrue,
      Bool.and_self]
  | .tuple fields _, h | .construct _ fields _, h => leakFree_of_tidyList fields h
  | .matchOn data clauses _, h => by
    have hnone := Tidy.noneOccurs h (exposed_subset_binders data) fun y hy =>
      free_of_clausesOccur clauses hy
    simp only [Expr.leakFree, leakFree_of_tidy data (Tidy.left h),
      leakFree_of_tidyClauses clauses (Tidy.right h), hnone, Bool.and_self]

theorem leakFree_of_tidyList : ∀ (es : List Expr),
    Tidy (Expr.listBinders es) (fun y => Expr.listFree y es) → Expr.listLeakFree es = true
  | [], _ => rfl
  | e :: es, h => by
    have hnone := Tidy.noneOccurs h (exposed_subset_binders e) fun y hy => free_of_listOccurs es hy
    simp only [Expr.listLeakFree, leakFree_of_tidy e (Tidy.left h),
      leakFree_of_tidyList es (Tidy.right h), hnone, Bool.and_self]

theorem leakFree_of_tidyClauses : ∀ (clauses : List (Pattern × Expr)),
    Tidy (Expr.clauseBinders clauses) (fun y => Expr.clausesFree y clauses) →
      Expr.clausesLeakFree clauses = true
  | [], _ => rfl
  | (p, e) :: rest, h => by
    rw [Expr.clauseBinders, ← List.append_assoc] at h
    simp only [Expr.clausesLeakFree, leakFree_of_tidy e (Tidy.under_vars (Tidy.left h)),
      leakFree_of_tidyClauses rest (Tidy.right h), Bool.and_self]

end

namespace Function.Closed

variable {f : Function}

theorem tidy (h : f.Closed) : Tidy f.body.binders fun y => f.body.free y where
  nodup := h.binders_nodup.of_append_right
  not_free y hy := by
    have hparam : y ∉ f.params.map Var.id := fun hy' =>
      (List.nodup_append'.mp h.binders_nodup).2.2 hy' hy
    have hnot : y ∉ (f.body.collectFree (f.params.map Var.id) []).map Var.id := by
      rw [← f.freeVars_eq, h.freeVars_eq]
      exact List.not_mem_nil
    rw [mem_collectFree] at hnot
    simpa [hparam] using hnot

theorem leakFree (h : f.Closed) : f.body.leakFree = true := leakFree_of_tidy f.body h.tidy

end Function.Closed

end TensorIR.Source
