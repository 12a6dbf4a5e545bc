import TensorIR.Proofs.FreeVariables
import TensorIR.Proofs.LoweringTranslates

/-! Lowering and lexical scope.

The variables that a `let` binds in one part of an expression stay in the environment for the parts
that follow it. So lowering follows lexical scope exactly when no later part uses such a variable
from outside (`Expr.leakFree`). -/

namespace TensorIR

open Source Lowered Lowering

namespace Source

/-! ## Leaks -/

mutual

/-- The variables that stay in the environment after the expression: those of each `let` that is not
inside a function or a clause. -/
def Expr.exposed : Expr → List Nat
  | .var _ | .const _ | .global _ | .op _ | .func .. => []
  | .letIn v value body => value.exposed ++ v.id :: body.exposed
  | .call callee args _ => callee.exposed ++ Expr.listExposed args
  | .ite cond onTrue onFalse _ => cond.exposed ++ (onTrue.exposed ++ onFalse.exposed)
  | .tuple fields _ | .construct _ fields _ => Expr.listExposed fields
  | .matchOn data _ _ => data.exposed

def Expr.listExposed : List Expr → List Nat
  | [] => []
  | e :: es => e.exposed ++ Expr.listExposed es

end

/-- None of the variables occurs. -/
def noneOccurs (ids : List Nat) (occ : Nat → Bool) : Bool := ids.all fun y => !occ y

mutual

/-- No part of the expression uses a variable from outside that an earlier part has left in the
environment. -/
def Expr.leakFree : Expr → Bool
  | .var _ | .const _ | .global _ | .op _ => true
  | .letIn v value body => value.leakFree && body.leakFree &&
    noneOccurs value.exposed fun y => v.id != y && body.occurs y
  | .func _ body _ => body.leakFree
  | .call callee args _ => callee.leakFree && Expr.listLeakFree args &&
    noneOccurs callee.exposed fun y => Expr.listOccurs y args
  | .ite cond onTrue onFalse _ => cond.leakFree && onTrue.leakFree && onFalse.leakFree &&
    noneOccurs cond.exposed (fun y => onTrue.occurs y || onFalse.occurs y) &&
    noneOccurs onTrue.exposed fun y => onFalse.occurs y
  | .tuple fields _ | .construct _ fields _ => Expr.listLeakFree fields
  | .matchOn data clauses _ => data.leakFree && Expr.clausesLeakFree clauses &&
    noneOccurs data.exposed fun y => Expr.clausesOccur y clauses

def Expr.listLeakFree : List Expr → Bool
  | [] => true
  | e :: es => e.leakFree && Expr.listLeakFree es &&
    noneOccurs e.exposed fun y => Expr.listOccurs y es

def Expr.clausesLeakFree : List (Pattern × Expr) → Bool
  | [] => true
  | (_, e) :: rest => e.leakFree && Expr.clausesLeakFree rest

end

end Source

namespace Lowering

/-! ## Leftovers in the environment -/

/-- The step names the given variables with numbers from `i` on and below `j`, and leaves the others
as they are. -/
structure Leaves (ids : List Nat) (i j : Nat) (after : Naming → Naming) : Prop where
  other : ∀ y, y ∉ ids → ∀ σ, after σ y = σ y
  named : ∀ y, y ∈ ids → ∃ x, Numbered i j x ∧ ∀ σ, after σ y = some x

namespace Leaves

theorem nothing (i j : Nat) : Leaves [] i j id := ⟨fun _ _ _ => rfl, nofun⟩

theorem bind (v : Var) (k : Nat) :
    Leaves [v.id] k (k + 1) fun σ => σ.bind v.id (numberedName v.name k) where
  other y hy σ := Naming.bind_of_ne (by simpa using hy) _
  named y hy := by
    obtain rfl := List.mem_singleton.mp hy
    refine ⟨numberedName v.name k, ⟨v.name, k, Nat.le_refl k, Nat.lt_succ_self k, rfl⟩, ?_⟩
    exact fun σ => Naming.bind_self _ _

theorem mono {ids : List Nat} {i j i' j' : Nat} {after : Naming → Naming}
    (h : Leaves ids i j after) (hi : i' ≤ i) (hj : j ≤ j') : Leaves ids i' j' after where
  other := h.other
  named y hy := by
    obtain ⟨x, hx, hafter⟩ := h.named y hy
    exact ⟨x, hx.mono hi hj, hafter⟩

theorem append {ids ids' : List Nat} {i j : Nat} {after after' : Naming → Naming}
    (h : Leaves ids i j after) (h' : Leaves ids' i j after') :
    Leaves (ids ++ ids') i j fun σ => after' (after σ) where
  other y hy σ := by
    rw [List.mem_append, not_or] at hy
    rw [h'.other y hy.2, h.other y hy.1]
  named y hy := by
    by_cases hy' : y ∈ ids'
    · obtain ⟨x, hx, hafter⟩ := h'.named y hy'
      exact ⟨x, hx, fun σ => hafter _⟩
    · obtain ⟨x, hx, hafter⟩ := h.named y ((List.mem_append.mp hy).resolve_right hy')
      exact ⟨x, hx, fun σ => by rw [h'.other y hy', hafter]⟩

end Leaves

mutual

theorem leaves_expr : ∀ (e : Expr) (k : Nat),
    Leaves e.exposed k (k + e.binders.length) (e.namingAfter k)
  | .var _, k | .const _, k | .global _, k | .op _, k | .func .., k => .nothing _ _
  | .letIn v value body, k => by
    have hvalue := leaves_expr value (k + 1)
    have hbody := leaves_expr body (k + 1 + value.binders.length)
    have hv := Leaves.bind v k
    rw [Expr.binders, List.length_cons, List.length_append]
    exact (hvalue.mono (Nat.le_succ k) (by omega)).append
      ((hv.mono (Nat.le_refl k) (by omega)).append (hbody.mono (by omega) (by omega)))
  | .call callee args _, k => by
    have hcallee := leaves_expr callee k
    have hargs := leaves_list args (k + callee.binders.length)
    rw [Expr.binders, List.length_append]
    exact (hcallee.mono (Nat.le_refl k) (by omega)).append (hargs.mono (by omega) (by omega))
  | .ite cond onTrue onFalse _, k => by
    have hcond := leaves_expr cond k
    have htrue := leaves_expr onTrue (k + cond.binders.length)
    have hfalse := leaves_expr onFalse (k + cond.binders.length + onTrue.binders.length)
    rw [Expr.binders, List.length_append, List.length_append]
    exact (hcond.mono (Nat.le_refl k) (by omega)).append
      ((htrue.mono (by omega) (by omega)).append (hfalse.mono (by omega) (by omega)))
  | .tuple fields _, k => leaves_list fields k
  | .construct _ fields _, k => leaves_list fields k
  | .matchOn data clauses _, k => by
    have hdata := leaves_expr data k
    rw [Expr.binders, List.length_append]
    exact hdata.mono (Nat.le_refl k) (by omega)

theorem leaves_list : ∀ (es : List Expr) (k : Nat),
    Leaves (Expr.listExposed es) k (k + (Expr.listBinders es).length) (Expr.namingAfterAll es k)
  | [], k => .nothing _ _
  | e :: es, k => by
    have he := leaves_expr e k
    have hes := leaves_list es (k + e.binders.length)
    rw [Expr.listBinders, List.length_append]
    exact (he.mono (Nat.le_refl k) (by omega)).append (hes.mono (by omega) (by omega))

end

/-! ## Agreement of namings -/

/-- The namings agree at the variables that occur. -/
def Naming.AgreeOn (occ : Nat → Bool) (σ τ : Naming) : Prop := ∀ y, occ y = true → σ y = τ y

section

variable {occ occ' : Nat → Bool} {σ τ : Naming} {k : Nat}

theorem agreeOn_of_false (h : ∀ y, occ y = false) : σ.AgreeOn occ τ :=
  fun y hy => absurd ((h y).symm.trans hy) Bool.false_ne_true

theorem agreeOn_or :
    Naming.AgreeOn (fun y => occ y || occ' y) σ τ ↔ σ.AgreeOn occ τ ∧ σ.AgreeOn occ' τ := by
  simp only [Naming.AgreeOn, Bool.or_eq_true, or_imp, forall_and]

theorem agreeOn_bind {v : Var} {x : String} :
    (σ.bind v.id x).AgreeOn occ (τ.bind v.id x) ↔
      σ.AgreeOn (fun y => v.id != y && occ y) τ := by
  constructor
  · intro h y hy
    rw [Bool.and_eq_true, bne_iff_ne] at hy
    have hy' := h y hy.2
    rwa [Naming.bind_of_ne (Ne.symm hy.1), Naming.bind_of_ne (Ne.symm hy.1)] at hy'
  · intro h y hy
    by_cases hv : y = v.id
    · rw [hv, Naming.bind_self, Naming.bind_self]
    · rw [Naming.bind_of_ne hv, Naming.bind_of_ne hv]
      exact h y (by simp [hy, Ne.symm hv])

theorem agreeOn_bindVars {vs : List Var} :
    (σ.bindVars vs k).AgreeOn occ (τ.bindVars vs k) ↔
      σ.AgreeOn (fun y => !(vs.map Var.id).contains y && occ y) τ := by
  constructor
  · intro h y hy
    simp only [Bool.and_eq_true, Bool.not_eq_true', List.contains_eq_mem,
      decide_eq_false_iff_not] at hy
    have hy' := h y hy.2
    rwa [Naming.bindVars_of_notMem hy.1, Naming.bindVars_of_notMem hy.1] at hy'
  · intro h y hy
    by_cases hv : y ∈ vs.map Var.id
    · obtain ⟨x, -, hx⟩ := Naming.bindVars_of_mem (k := k) hv
      rw [hx, hx]
    · rw [Naming.bindVars_of_notMem hv, Naming.bindVars_of_notMem hv]
      refine h y ?_
      simp only [hy, Bool.and_true, Bool.not_eq_true', List.contains_eq_mem,
        decide_eq_false_iff_not]
      exact hv

theorem agreeOn_after {e : Expr} (hfree : noneOccurs e.exposed occ = true) (h : σ.AgreeOn occ τ) :
    σ.AgreeOn occ (e.namingAfter k τ) := by
  intro y hy
  have hnot : y ∉ e.exposed := by
    intro hmem
    have hocc := List.all_eq_true.mp hfree y hmem
    rw [hy] at hocc
    cases hocc
  rw [(leaves_expr e k).other y hnot]
  exact h y hy

/-- Names that have been handed out before an expression are not among those that it leaves. -/
theorem agreeOn_of_after {e : Expr} (hσ : σ.Below k) (h : σ.AgreeOn occ (e.namingAfter k τ)) :
    noneOccurs e.exposed occ = true ∧ σ.AgreeOn occ τ := by
  have hnot : ∀ y, occ y = true → y ∉ e.exposed := by
    intro y hy hmem
    obtain ⟨x, hx, hafter⟩ := (leaves_expr e k).named y hmem
    have hσy : σ y = some x := (h y hy).trans (hafter τ)
    exact (hσ y x hσy).not_of_le (Nat.le_refl k) hx
  constructor
  · refine List.all_eq_true.mpr fun y hmem => ?_
    cases hy : occ y with
    | false => rfl
    | true => exact absurd hmem (hnot y hy)
  · intro y hy
    rw [h y hy, (leaves_expr e k).other y (hnot y hy)]

end

/-! ## From threaded to lexical scope -/

variable {L : Linkage}

theorem occurs_of_mem_captured {own : Option Nat} {params : List Var} {body : Expr} {v : Var}
    (h : v ∈ captured own params body) :
    (!(params.map Var.id).contains v.id && body.occurs v.id) = true := by
  have hfree := List.mem_map_of_mem (f := Var.id) (List.mem_of_mem_filter h)
  obtain ⟨hparams, hfree⟩ := ((mem_collectFree body).mp hfree).resolve_left List.not_mem_nil
  rw [occurs_of_free body hfree, Bool.and_true, Bool.not_eq_true', List.contains_eq_mem,
    decide_eq_false_iff_not]
  exact hparams

/-- A variable that occurs in a literal without a binder is captured, unless it is the literal's own
or bound inside it as well. -/
theorem exists_mem_captured {own : Option Nat} {params : List Var} {body : Expr} {y : Nat}
    (hown : own ≠ some y) (hparams : y ∉ params.map Var.id) (hbinders : y ∉ body.binders)
    (hocc : body.occurs y = true) :
    ∃ v ∈ captured own params body, v.id = y := by
  have hfree : y ∈ (body.collectFree (params.map Var.id) []).map Var.id :=
    (mem_collectFree body).mpr (.inr ⟨hparams, free_of_occurs body hbinders hocc⟩)
  obtain ⟨v, hv, rfl⟩ := List.mem_map.mp hfree
  exact ⟨v, List.mem_filter.mpr ⟨hv, by simpa using hown⟩, rfl⟩

theorem LowersFunction.of_agreeOn {σ τ : Naming} {k : Nat} {own : Option (Nat × String)}
    {params : List Var} {body : Expr} {bs : List (String × Node)} {n : Node} {f : Lowered.Function}
    (h : LowersFunction σ k own params body bs n f)
    (hagree : τ.AgreeOn (fun y => !(params.map Var.id).contains y && body.occurs y) σ) :
    LowersFunction τ k own params body bs n f := by
  refine { h with capture_names := ?_ }
  have hcaptured := (List.forall₂_and_left _ _).mpr
    ⟨fun v hv => occurs_of_mem_captured hv, h.capture_names⟩
  exact hcaptured.imp fun v p hv => (hagree v.id hv.1).trans hv.2

/-- A derivation with a threaded environment is one in lexical scope for every naming that agrees at
what occurs. -/
def Relexed (L : Linkage) (e : Expr) : Prop :=
  e.leakFree = true → ∀ ⦃σ τ : Naming⦄ ⦃k : Nat⦄ ⦃bs : List (String × Node)⦄ ⦃n : Node⦄,
    τ.AgreeOn (fun y => e.occurs y) σ → Lowers L .threaded σ k e bs n → Lowers L .lexical τ k e bs n

def RelexedAll (L : Linkage) (es : List Expr) : Prop :=
  Expr.listLeakFree es = true → ∀ ⦃σ τ : Naming⦄ ⦃k : Nat⦄ ⦃bs : List (String × Node)⦄
    ⦃ns : List Node⦄, τ.AgreeOn (fun y => Expr.listOccurs y es) σ →
      LowersAll L .threaded σ k es bs ns → LowersAll L .lexical τ k es bs ns

def RelexedClauses (L : Linkage) (clauses : List (Source.Pattern × Expr)) : Prop :=
  Expr.clausesLeakFree clauses = true → ∀ ⦃σ τ : Naming⦄ ⦃k : Nat⦄
    ⦃cs : List (Lowered.Pattern × Node)⦄, τ.AgreeOn (fun y => Expr.clausesOccur y clauses) σ →
      LowersClauses L .threaded σ k clauses cs → LowersClauses L .lexical τ k clauses cs

theorem relexed_cases : Expr.Cases (Relexed L) (RelexedAll L) (RelexedClauses L) where
  var v := by
    intro _ σ τ k bs n hagree h
    cases h with
    | var hx => exact .var ((hagree v.id (by simp [Expr.occurs])).trans hx)
  const t := by
    intro _ σ τ k bs n _ h
    cases h
    exact .const
  letFunction v params fbody ret body ihf ih := by
    intro hfree σ τ k bs n hagree h
    simp only [Expr.leakFree, Bool.and_eq_true] at hfree
    simp only [Expr.occurs, Expr.isFunction] at hagree
    obtain ⟨hagreef, hagree⟩ := agreeOn_or.mp hagree
    have hagree' := (agreeOn_bind (x := numberedName v.name k)).mpr hagree
    have hagreef' : (τ.bind v.id (numberedName v.name k)).AgreeOn
        (fun y => !(params.map Var.id).contains y && fbody.occurs y)
        (σ.bind v.id (numberedName v.name k)) := by
      refine agreeOn_bind.mpr fun y hy => hagreef y ?_
      simp only [Bool.and_eq_true, bne_iff_ne] at hy
      simp only [hy.2.1, hy.2.2, Bool.true_and, Bool.not_eq_true', beq_eq_false_iff_ne]
      exact hy.1
    cases h with
    | letFunction hf hfunction hbody =>
      exact .letFunction (ihf hfree.1.1 (agreeOn_bindVars.mpr hagreef') hf)
        (hfunction.of_agreeOn hagreef') (ih hfree.1.2 hagree' hbody)
    | letValue hvalue => cases hvalue
  letValue v value body hvalue ihv ih := by
    intro hfree σ τ k bs n hagree h
    simp only [Expr.leakFree, Bool.and_eq_true] at hfree
    simp only [Expr.occurs, hvalue, Bool.false_and, Bool.not_false, Bool.and_true] at hagree
    obtain ⟨hagreev, hagree⟩ := agreeOn_or.mp hagree
    cases h with
    | letFunction => cases hvalue
    | letValue _ hv hbody =>
      exact .letValue hvalue (ihv hfree.1.1 hagreev hv)
        (ih hfree.1.2 (agreeOn_bind.mpr (agreeOn_after hfree.2 hagree)) hbody)
  func params body ret ih := by
    intro hfree σ τ k bs n hagree h
    simp only [Expr.leakFree] at hfree
    simp only [Expr.occurs] at hagree
    cases h with
    | func hbody hfunction =>
      exact .func (ih hfree (agreeOn_bindVars.mpr hagree) hbody) (hfunction.of_agreeOn hagree)
  global name := by
    intro _ σ τ k bs n _ h
    cases h with
    | global hplace => exact .global hplace
  op name := by
    intro _ σ τ k bs n _ h
    cases h
  callKernel name args ty ihs := by
    intro hfree σ τ k bs n hagree h
    simp only [Expr.leakFree, Bool.and_eq_true] at hfree
    simp only [Expr.occurs, Bool.false_or] at hagree
    cases h with
    | callKernel hkernel hsuits hargs => exact .callKernel hkernel hsuits (ihs hfree.1.2 hagree hargs)
    | call hcallee => cases hcallee
  callGlobal name args ty ihs := by
    intro hfree σ τ k bs n hagree h
    simp only [Expr.leakFree, Bool.and_eq_true] at hfree
    simp only [Expr.occurs, Bool.false_or] at hagree
    cases h with
    | callGlobal hplace hargs => exact .callGlobal hplace (ihs hfree.1.2 hagree hargs)
    | call hcallee => cases hcallee
  call callee args ty hcallee ih ihs := by
    intro hfree σ τ k bs n hagree h
    simp only [Expr.leakFree, Bool.and_eq_true] at hfree
    simp only [Expr.occurs] at hagree
    obtain ⟨hagree, hagrees⟩ := agreeOn_or.mp hagree
    cases h with
    | callKernel | callGlobal => cases hcallee
    | call _ hn hargs =>
      exact .call hcallee (ih hfree.1.1 hagree hn)
        (ihs hfree.1.2 (agreeOn_after hfree.2 hagrees) hargs)
  ite cond onTrue onFalse ty ihc iht ihf := by
    intro hfree σ τ k bs n hagree h
    simp only [Expr.leakFree, Bool.and_eq_true] at hfree
    obtain ⟨⟨⟨⟨hcond, htrue⟩, hfalse⟩, hsep⟩, hsep'⟩ := hfree
    simp only [Expr.occurs] at hagree
    obtain ⟨hagree, hagreeBranches⟩ := agreeOn_or.mp hagree
    obtain ⟨hagreeTrue, hagreeFalse⟩ := agreeOn_or.mp (agreeOn_after (k := k) hsep hagreeBranches)
    cases h with
    | ite hn hnTrue hwrapTrue hnFalse hwrapFalse =>
      exact .ite (ihc hcond hagree hn) (iht htrue hagreeTrue hnTrue) hwrapTrue
        (ihf hfalse (agreeOn_after hsep' hagreeFalse) hnFalse) hwrapFalse
  tuple fields ty ihs := by
    intro hfree σ τ k bs n hagree h
    cases h with
    | tuple hfields => exact .tuple (ihs hfree hagree hfields)
  matchOn data clauses ty ih ihs := by
    intro hfree σ τ k bs n hagree h
    simp only [Expr.leakFree, Bool.and_eq_true] at hfree
    simp only [Expr.occurs] at hagree
    obtain ⟨hagree, hagrees⟩ := agreeOn_or.mp hagree
    cases h with
    | matchOn hn hclauses =>
      exact .matchOn (ih hfree.1.1 hagree hn)
        (ihs hfree.1.2 (agreeOn_after hfree.2 hagrees) hclauses)
  construct name fields ty ihs := by
    intro hfree σ τ k bs n hagree h
    cases h with
    | construct hinfo hfields => exact .construct hinfo (ihs hfree hagree hfields)
  nil := by
    intro _ σ τ k bs ns _ h
    cases h
    exact .nil
  cons e es ih ihs := by
    intro hfree σ τ k bs ns hagree h
    simp only [Expr.listLeakFree, Bool.and_eq_true] at hfree
    simp only [Expr.listOccurs] at hagree
    obtain ⟨hagree, hagrees⟩ := agreeOn_or.mp hagree
    cases h with
    | cons hn hns =>
      exact .cons (ih hfree.1.1 hagree hn) (ihs hfree.1.2 (agreeOn_after hfree.2 hagrees) hns)
  nilClause := by
    intro _ σ τ k cs _ h
    cases h
    exact .nil
  consClause p e rest ih ihs := by
    intro hfree σ τ k cs hagree h
    simp only [Expr.clausesLeakFree, Bool.and_eq_true] at hfree
    simp only [Expr.clausesOccur] at hagree
    obtain ⟨hagree, hagrees⟩ := agreeOn_or.mp hagree
    cases h with
    | cons hp hn hwrap hrest =>
      exact .cons hp (ih hfree.1 (agreeOn_bindVars.mpr hagree) hn) hwrap (ihs hfree.2 hagrees hrest)

/-! ## Occurrences without a binder -/

/-- Every variable that occurs has a name. -/
def Naming.Covers (σ : Naming) (occ : Nat → Bool) : Prop := ∀ y, occ y = true → (σ y).isSome = true

section

variable {occ occ' : Nat → Bool} {σ : Naming} {k : Nat}

theorem covers_or : σ.Covers (fun y => occ y || occ' y) ↔ σ.Covers occ ∧ σ.Covers occ' := by
  simp only [Naming.Covers, Bool.or_eq_true, or_imp, forall_and]

theorem Naming.Covers.of_bind {v : Var} {x : String} (h : (σ.bind v.id x).Covers occ) :
    σ.Covers fun y => v.id != y && occ y := by
  intro y hy
  rw [Bool.and_eq_true, bne_iff_ne] at hy
  have hy' := h y hy.2
  rwa [Naming.bind_of_ne (Ne.symm hy.1)] at hy'

theorem Naming.Covers.of_bindVars {vs : List Var} (h : (σ.bindVars vs k).Covers occ) :
    σ.Covers fun y => !(vs.map Var.id).contains y && occ y := by
  intro y hy
  simp only [Bool.and_eq_true, Bool.not_eq_true', List.contains_eq_mem,
    decide_eq_false_iff_not] at hy
  have hy' := h y hy.2
  rwa [Naming.bindVars_of_notMem hy.1] at hy'

end

/-- In lexical scope every occurrence has a binder around it. -/
theorem covers_cases : Lowers.Cases L .lexical (fun σ _ e _ _ => σ.Covers fun y => e.occurs y)
    (fun σ _ es _ _ => σ.Covers fun y => Expr.listOccurs y es)
    (fun σ _ clauses _ => σ.Covers fun y => Expr.clausesOccur y clauses) where
  var v hx := by
    intro y hy
    obtain rfl : v.id = y := by simpa [Expr.occurs] using hy
    rw [hx]
    rfl
  const _ := fun _ => nofun
  letFunction v params fbody body _ _ _ ihf ih := by
    simp only [Expr.occurs, Expr.isFunction]
    refine covers_or.mpr ⟨fun y hy => ?_, ih.of_bind⟩
    refine ihf.of_bindVars.of_bind y ?_
    simp only [Bool.and_eq_true, Bool.true_and, Bool.not_eq_true', beq_eq_false_iff_ne,
      bne_iff_ne] at hy ⊢
    exact ⟨hy.2, hy.1⟩
  letValue v value body hvalue _ _ ihv ih := by
    simp only [Expr.occurs, hvalue, Bool.false_and, Bool.not_false, Bool.and_true]
    exact covers_or.mpr ⟨ihv, ih.of_bind⟩
  func params body _ _ ih := by
    simp only [Expr.occurs]
    exact ih.of_bindVars
  global _ _ := fun _ => nofun
  callKernel name args _ _ _ ihs := by
    simp only [Expr.occurs, Bool.false_or]
    exact ihs
  callGlobal name args _ _ ihs := by
    simp only [Expr.occurs, Bool.false_or]
    exact ihs
  call callee args _ _ _ ih ihs := by
    simp only [Expr.occurs]
    exact covers_or.mpr ⟨ih, ihs⟩
  ite cond onTrue onFalse _ _ _ _ _ ihc iht ihf := by
    simp only [Expr.occurs]
    exact covers_or.mpr ⟨ihc, covers_or.mpr ⟨iht, ihf⟩⟩
  tuple _ _ ihs := ihs
  matchOn data clauses _ _ ih ihs := by
    simp only [Expr.occurs]
    exact covers_or.mpr ⟨ih, ihs⟩
  construct _ _ _ _ ihs := ihs
  nil := fun _ => nofun
  cons e es _ _ ih ihs := by
    simp only [Expr.listOccurs]
    exact covers_or.mpr ⟨ih, ihs⟩
  nilClause := fun _ => nofun
  consClause p e rest _ _ _ _ ih ihs := by
    simp only [Expr.clausesOccur]
    exact covers_or.mpr ⟨ih.of_bindVars, ihs⟩

/-! ## Definitions -/

section

variable {f : Source.Function} {f' : Lowered.Function}

theorem LowersDefinition.lexical_of_leakFree (h : LowersDefinition L .threaded f f')
    (hfree : f.body.leakFree = true) : LowersDefinition L .lexical f f' := by
  obtain ⟨bs, n, hbody, hwrap⟩ := h.body_eq
  exact { h with body_eq := ⟨bs, n, relexed_cases.expr f.body hfree (fun _ _ => rfl) hbody, hwrap⟩ }

theorem LowersDefinition.mem_params (h : LowersDefinition L .lexical f f') {y : Nat}
    (hy : f.body.occurs y = true) : y ∈ f.params.map Var.id := by
  obtain ⟨bs, n, hbody, -⟩ := h.body_eq
  have hsome := covers_cases.expr hbody y hy
  by_cases hmem : y ∈ f.params.map Var.id
  · exact hmem
  · rw [Naming.bindVars_of_notMem hmem] at hsome
    cases hsome

end

end Lowering

end TensorIR
