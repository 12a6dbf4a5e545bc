import TensorIR.Proofs.LexicalScope

/-! Which functions lowering gives their lexical scope.

A definition that follows lexical scope and was lowered with the environment threaded through it has
two derivations of the same function. Names with different numbers differ, so both make the same of
every variable, and then no part has used a variable that an earlier part left behind. -/

namespace TensorIR.Lowering

open Source Lowered

variable {L : Linkage}

/-! ## From lexical to threaded scope -/

mutual

/-- How many bindings come before the node of an expression. -/
def hoisted : Expr → Nat
  | .var _ | .const _ | .global _ | .op _ | .func .. => 0
  | .letIn _ value body => hoisted value + (hoisted body + 1)
  | .call callee args _ => hoisted callee + hoistedAll args
  | .ite cond _ _ _ => hoisted cond
  | .tuple fields _ | .construct _ fields _ => hoistedAll fields
  | .matchOn data _ _ => hoisted data

def hoistedAll : List Expr → Nat
  | [] => 0
  | e :: es => hoisted e + hoistedAll es

end

theorem length_cases {mode : Scoping} : Lowers.Cases L mode
    (fun _ _ e bs _ => bs.length = hoisted e) (fun _ _ es bs _ => bs.length = hoistedAll es)
    (fun _ _ _ _ => True) where
  var _ _ := rfl
  const _ := rfl
  letFunction _ _ _ _ _ _ _ _ ih := by simp [hoisted, ih]
  letValue _ _ _ _ _ _ ihv ih := by simp [hoisted, ihv, ih]
  func _ _ _ _ _ := rfl
  global _ _ := rfl
  callKernel _ _ _ _ _ ihs := by simp [hoisted, ihs]
  callGlobal _ _ _ _ ihs := by simp [hoisted, ihs]
  call _ _ _ _ _ ih ihs := by simp [hoisted, ih, ihs]
  ite _ _ _ _ _ _ _ _ ihc _ _ := ihc
  tuple _ _ ihs := ihs
  matchOn _ _ _ _ ih _ := ih
  construct _ _ _ _ ihs := ihs
  nil := rfl
  cons _ _ _ _ ih ihs := by simp [hoistedAll, ih, ihs]
  nilClause := trivial
  consClause _ _ _ _ _ _ _ _ _ := trivial

theorem wrapDecl_inj {bs bs' : List (String × Node)} {n n' a : Node}
    (h : Node.wrapDecl bs n = .ok a) (h' : Node.wrapDecl bs' n' = .ok a)
    (hlength : bs.length = bs'.length) : bs = bs' ∧ n = n' := by
  have hdecl : ∀ {bs : List (String × Node)} {n a : Node}, Node.wrapDecl bs n = .ok a →
      bs ≠ [] → a = .decl bs n := by
    intro bs n a h hne
    rw [Node.wrapDecl, if_neg (by simpa using hne), Node.mkDecl, if_neg (by simpa using hne)] at h
    split at h
    · cases h
    · cases h
      rfl
  cases bs with
  | nil =>
    obtain rfl := List.length_eq_zero_iff.mp hlength.symm
    cases h
    cases h'
    exact ⟨rfl, rfl⟩
  | cons b bs =>
    have hne' : bs' ≠ [] := by
      rintro rfl
      cases hlength
    have heq := (hdecl h (List.cons_ne_nil b bs)).symm.trans (hdecl h' hne')
    injection heq with hbs hn
    exact ⟨hbs, hn⟩

theorem toNode_inj {f f' : Lowered.Function} (h : f.toNode = f'.toNode) : f = f' := by
  obtain ⟨name, params, captures, body, ret⟩ := f
  injection h with hname hparams hcaptures hbody hret
  obtain ⟨name', params', captures', body', ret'⟩ := f'
  cases hname
  cases hparams
  cases hcaptures
  cases hbody
  cases hret
  rfl

/-- Two ways to put the bindings of an expression around its node differ in nothing. -/
theorem Lowers.wrap_inj {mode mode' : Scoping} {σ τ : Naming} {k k' : Nat} {e : Expr}
    {bs bs' : List (String × Node)} {n n' a : Node} (h : Lowers L mode σ k e bs n)
    (h' : Lowers L mode' τ k' e bs' n') (hwrap : Node.wrapDecl bs n = .ok a)
    (hwrap' : Node.wrapDecl bs' n' = .ok a) : bs = bs' ∧ n = n' :=
  wrapDecl_inj hwrap hwrap' ((length_cases.expr h).trans (length_cases.expr h').symm)

/-- An expression whose lexical and threaded derivations give the same result is free of leaks, and
their namings agree at what occurs. -/
def Separates (L : Linkage) (e : Expr) : Prop :=
  ∀ ⦃σ τ : Naming⦄ ⦃k : Nat⦄ ⦃bs bs' : List (String × Node)⦄ ⦃n n' : Node⦄, τ.Below k →
    Lowers L .threaded σ k e bs n → Lowers L .lexical τ k e bs' n' → bs = bs' → n = n' →
      e.leakFree = true ∧ τ.AgreeOn (fun y => e.occurs y) σ

def SeparatesAll (L : Linkage) (es : List Expr) : Prop :=
  ∀ ⦃σ τ : Naming⦄ ⦃k : Nat⦄ ⦃bs bs' : List (String × Node)⦄ ⦃ns ns' : List Node⦄, τ.Below k →
    LowersAll L .threaded σ k es bs ns → LowersAll L .lexical τ k es bs' ns' → bs = bs' → ns = ns' →
      Expr.listLeakFree es = true ∧ τ.AgreeOn (fun y => Expr.listOccurs y es) σ

def SeparatesClauses (L : Linkage) (clauses : List (Source.Pattern × Expr)) : Prop :=
  ∀ ⦃σ τ : Naming⦄ ⦃k : Nat⦄ ⦃cs cs' : List (Lowered.Pattern × Node)⦄, τ.Below k →
    LowersClauses L .threaded σ k clauses cs → LowersClauses L .lexical τ k clauses cs' → cs = cs' →
      Expr.clausesLeakFree clauses = true ∧ τ.AgreeOn (fun y => Expr.clausesOccur y clauses) σ

theorem separates_cases : Expr.Cases (Separates L) (SeparatesAll L) (SeparatesClauses L) where
  var v := by
    intro σ τ k bs bs' n n' hτ h h' _ hn
    cases h with
    | var hx =>
      cases h' with
      | var hx' =>
        injection hn with hx''
        refine ⟨rfl, fun y hy => ?_⟩
        obtain rfl : v.id = y := by simpa [Expr.occurs] using hy
        rw [hx, hx', hx'']
  const t := by
    intro σ τ k bs bs' n n' hτ h h' _ _
    exact ⟨rfl, agreeOn_of_false fun _ => rfl⟩
  letFunction v params fbody ret body ihf ih := by
    intro σ τ k bs bs' n n' hτ h h' hbs hn
    cases h with
    | letValue hvalue => cases hvalue
    | letFunction hf hfunction hbody =>
      cases h' with
      | letValue hvalue => cases hvalue
      | letFunction hf' hfunction' hbody' =>
        injection hbs with hhead hbs
        obtain rfl := toNode_inj (congrArg Prod.snd hhead)
        obtain ⟨hbsf, hnf⟩ := hf.wrap_inj hf' hfunction.body_eq hfunction'.body_eq
        have hτ' := hτ.bind v.id v.name
        obtain ⟨hfreef, hagreef⟩ := ihf (hτ'.bindVars params) hf hf' hbsf hnf
        obtain ⟨hfree, hagree⟩ := ih (hτ'.mono (Nat.le_add_right _ _)) hbody hbody' hbs hn
        refine ⟨by simp [Expr.leakFree, hfreef, hfree, noneOccurs, Expr.exposed], ?_⟩
        simp only [Expr.occurs, Expr.isFunction]
        refine agreeOn_or.mpr ⟨fun y hy => ?_, agreeOn_bind.mp hagree⟩
        refine agreeOn_bind.mp (agreeOn_bindVars.mp hagreef) y ?_
        simp only [Bool.and_eq_true, Bool.true_and, Bool.not_eq_true', beq_eq_false_iff_ne,
          bne_iff_ne] at hy ⊢
        exact ⟨hy.2, hy.1⟩
  letValue v value body hvalue ihv ih := by
    intro σ τ k bs bs' n n' hτ h h' hbs hn
    cases h with
    | letFunction => cases hvalue
    | letValue _ hv hbody =>
      cases h' with
      | letFunction => cases hvalue
      | letValue _ hv' hbody' =>
        have hlength := (length_cases.expr hv).trans (length_cases.expr hv').symm
        obtain ⟨hbsv, hrest⟩ := List.append_inj hbs hlength
        injection hrest with hhead hbs
        obtain ⟨hfreev, hagreev⟩ := ihv (hτ.mono (Nat.le_succ k)) hv hv' hbsv (congrArg Prod.snd hhead)
        have hτ' := (hτ.bind v.id v.name).mono (Nat.le_add_right _ value.binders.length)
        obtain ⟨hfree, hagree⟩ := ih hτ' hbody hbody' hbs hn
        obtain ⟨hsep, hagree⟩ :=
          agreeOn_of_after (hτ.mono (Nat.le_succ k)) (agreeOn_bind.mp hagree)
        refine ⟨by simp [Expr.leakFree, hfreev, hfree, hsep], ?_⟩
        simp only [Expr.occurs, hvalue, Bool.false_and, Bool.not_false, Bool.and_true]
        exact agreeOn_or.mpr ⟨hagreev, hagree⟩
  func params body ret ih := by
    intro σ τ k bs bs' n n' hτ h h' _ hn
    cases h with
    | func hbody hfunction =>
      cases h' with
      | func hbody' hfunction' =>
        obtain rfl := toNode_inj hn
        obtain ⟨hbs, hn⟩ := hbody.wrap_inj hbody' hfunction.body_eq hfunction'.body_eq
        obtain ⟨hfree, hagree⟩ := ih (hτ.bindVars params) hbody hbody' hbs hn
        simp only [Expr.occurs, Expr.leakFree]
        exact ⟨hfree, agreeOn_bindVars.mp hagree⟩
  global name := by
    intro σ τ k bs bs' n n' hτ h h' _ _
    exact ⟨rfl, agreeOn_of_false fun _ => rfl⟩
  op name := by
    intro σ τ k bs bs' n n' hτ h h' _ _
    exact ⟨rfl, agreeOn_of_false fun _ => rfl⟩
  callKernel name args ty ihs := by
    intro σ τ k bs bs' n n' hτ h h' hbs hn
    cases h with
    | call hcallee => cases hcallee
    | callKernel _ _ hargs =>
      cases h' with
      | call hcallee => cases hcallee
      | callKernel _ _ hargs' =>
        injection hn with _ _ hns
        obtain ⟨hfree, hagree⟩ := ihs hτ hargs hargs' hbs hns
        refine ⟨by simp [Expr.leakFree, hfree, noneOccurs, Expr.exposed], ?_⟩
        simpa only [Expr.occurs, Bool.false_or] using hagree
  callGlobal name args ty ihs := by
    intro σ τ k bs bs' n n' hτ h h' hbs hn
    cases h with
    | call hcallee => cases hcallee
    | callGlobal _ hargs =>
      cases h' with
      | call hcallee => cases hcallee
      | callGlobal _ hargs' =>
        injection hn with _ hns
        obtain ⟨hfree, hagree⟩ := ihs hτ hargs hargs' hbs hns
        refine ⟨by simp [Expr.leakFree, hfree, noneOccurs, Expr.exposed], ?_⟩
        simpa only [Expr.occurs, Bool.false_or] using hagree
  call callee args ty hcallee ih ihs := by
    intro σ τ k bs bs' n n' hτ h h' hbs hn
    cases h with
    | callKernel | callGlobal => cases hcallee
    | call _ hcall hargs =>
      cases h' with
      | callKernel | callGlobal => cases hcallee
      | call _ hcall' hargs' =>
        injection hn with hn hns
        have hlength := (length_cases.expr hcall).trans (length_cases.expr hcall').symm
        obtain ⟨hbs₁, hbs₂⟩ := List.append_inj hbs hlength
        obtain ⟨hfree, hagree⟩ := ih hτ hcall hcall' hbs₁ hn
        obtain ⟨hfrees, hagrees⟩ := ihs (hτ.mono (Nat.le_add_right _ _)) hargs hargs' hbs₂ hns
        obtain ⟨hsep, hagrees⟩ := agreeOn_of_after hτ hagrees
        refine ⟨by simp [Expr.leakFree, hfree, hfrees, hsep], ?_⟩
        simp only [Expr.occurs]
        exact agreeOn_or.mpr ⟨hagree, hagrees⟩
  ite cond onTrue onFalse ty ihc iht ihf := by
    intro σ τ k bs bs' n n' hτ h h' hbs hn
    cases h with
    | ite hcond htrue hwrapTrue hfalse hwrapFalse =>
      cases h' with
      | ite hcond' htrue' hwrapTrue' hfalse' hwrapFalse' =>
        injection hn with hn hnTrue hnFalse
        obtain ⟨hbsTrue, hnTrue⟩ := htrue.wrap_inj htrue' hwrapTrue (hnTrue ▸ hwrapTrue')
        obtain ⟨hbsFalse, hnFalse⟩ := hfalse.wrap_inj hfalse' hwrapFalse (hnFalse ▸ hwrapFalse')
        have hτTrue := hτ.mono (Nat.le_add_right k cond.binders.length)
        have hτFalse := hτTrue.mono (Nat.le_add_right _ onTrue.binders.length)
        obtain ⟨hfree, hagree⟩ := ihc hτ hcond hcond' hbs hn
        obtain ⟨hfreeTrue, hagreeTrue⟩ := iht hτTrue htrue htrue' hbsTrue hnTrue
        obtain ⟨hfreeFalse, hagreeFalse⟩ := ihf hτFalse hfalse hfalse' hbsFalse hnFalse
        obtain ⟨hsep', hagreeFalse⟩ := agreeOn_of_after hτTrue hagreeFalse
        obtain ⟨hsep, hagreeBranches⟩ :=
          agreeOn_of_after hτ (agreeOn_or.mpr ⟨hagreeTrue, hagreeFalse⟩)
        refine ⟨by simp [Expr.leakFree, hfree, hfreeTrue, hfreeFalse, hsep, hsep'], ?_⟩
        simp only [Expr.occurs]
        exact agreeOn_or.mpr ⟨hagree, hagreeBranches⟩
  tuple fields ty ihs := by
    intro σ τ k bs bs' n n' hτ h h' hbs hn
    cases h with
    | tuple hfields =>
      cases h' with
      | tuple hfields' =>
        injection hn with hns
        exact ihs hτ hfields hfields' hbs hns
  matchOn data clauses ty ih ihs := by
    intro σ τ k bs bs' n n' hτ h h' hbs hn
    cases h with
    | matchOn hdata hclauses =>
      cases h' with
      | matchOn hdata' hclauses' =>
        injection hn with hn hcs
        obtain ⟨hfree, hagree⟩ := ih hτ hdata hdata' hbs hn
        obtain ⟨hfrees, hagrees⟩ := ihs (hτ.mono (Nat.le_add_right _ _)) hclauses hclauses' hcs
        obtain ⟨hsep, hagrees⟩ := agreeOn_of_after hτ hagrees
        refine ⟨by simp [Expr.leakFree, hfree, hfrees, hsep], ?_⟩
        simp only [Expr.occurs]
        exact agreeOn_or.mpr ⟨hagree, hagrees⟩
  construct name fields ty ihs := by
    intro σ τ k bs bs' n n' hτ h h' hbs hn
    cases h with
    | construct _ hfields =>
      cases h' with
      | construct _ hfields' =>
        injection hn with _ _ hns
        exact ihs hτ hfields hfields' hbs hns
  nil := by
    intro σ τ k bs bs' ns ns' hτ h h' _ _
    exact ⟨rfl, agreeOn_of_false fun _ => rfl⟩
  cons e es ih ihs := by
    intro σ τ k bs bs' ns ns' hτ h h' hbs hns
    cases h with
    | cons hn hrest =>
      cases h' with
      | cons hn' hrest' =>
        injection hns with heq hns
        have hlength := (length_cases.expr hn).trans (length_cases.expr hn').symm
        obtain ⟨hbs₁, hbs₂⟩ := List.append_inj hbs hlength
        obtain ⟨hfree, hagree⟩ := ih hτ hn hn' hbs₁ heq
        obtain ⟨hfrees, hagrees⟩ := ihs (hτ.mono (Nat.le_add_right _ _)) hrest hrest' hbs₂ hns
        obtain ⟨hsep, hagrees⟩ := agreeOn_of_after hτ hagrees
        refine ⟨by simp [Expr.listLeakFree, hfree, hfrees, hsep], ?_⟩
        simp only [Expr.listOccurs]
        exact agreeOn_or.mpr ⟨hagree, hagrees⟩
  nilClause := by
    intro σ τ k cs cs' hτ h h' _
    exact ⟨rfl, agreeOn_of_false fun _ => rfl⟩
  consClause p e rest ih ihs := by
    intro σ τ k cs cs' hτ h h' hcs
    cases h with
    | cons hp hn hwrap hrest =>
      cases h' with
      | cons hp' hn' hwrap' hrest' =>
        injection hcs with hhead hcs
        injection hhead with _ hbody
        obtain ⟨hbs, heq⟩ := hn.wrap_inj hn' hwrap (hbody ▸ hwrap')
        obtain ⟨hfree, hagree⟩ := ih (hτ.bindVars p.boundVars) hn hn' hbs heq
        have hτ' := hτ.mono (Nat.le_add_right k (p.boundVars.length + e.binders.length))
        rw [← Nat.add_assoc] at hτ'
        obtain ⟨hfrees, hagrees⟩ := ihs hτ' hrest hrest' hcs
        refine ⟨by simp [Expr.clausesLeakFree, hfree, hfrees], ?_⟩
        simp only [Expr.clausesOccur]
        exact agreeOn_or.mpr ⟨agreeOn_bindVars.mp hagree, hagrees⟩

/-! ## Definitions -/

section

variable {f : Source.Function} {f' : Lowered.Function}

theorem LowersDefinition.leakFree (h : LowersDefinition L .threaded f f')
    (h' : LowersDefinition L .lexical f f') : f.body.leakFree = true := by
  obtain ⟨bs, n, hbody, hwrap⟩ := h.body_eq
  obtain ⟨bs', n', hbody', hwrap'⟩ := h'.body_eq
  obtain ⟨hbs, hn⟩ := hbody.wrap_inj hbody' hwrap hwrap'
  have hbelow := (Naming.below_empty 0).bindVars f.params
  rw [Nat.zero_add] at hbelow
  exact (separates_cases.expr f.body hbelow hbody hbody' hbs hn).1

/-- No condition on globals: only the variables matter. -/
def anyGrowth : Growth := ⟨fun _ => True, fun _ _ => True, fun _ _ _ => True, fun _ => trivial,
  fun _ _ => trivial⟩

/-- The function is what lexical scope makes of the definition: every occurrence of a variable has
become the name of the innermost binder around it. -/
def FollowsScope (c : BodyContext) (f : Source.Function) (f' : Lowered.Function) : Prop :=
  LowersDefinition (anyGrowth.link c {}) .lexical f f'

theorem function_threaded {c : BodyContext} {ret : Option Ty} {s' : Scope} {g g' : Progress}
    (h : c.function none f [] ret (lowerExpr c f.body) {} g = .ok (f', s') g') :
    LowersDefinition (anyGrowth.link c {}) .threaded f f' :=
  (function_translates (fun _ _ _ _ _ _ _ => ⟨⟨trivial, trivial⟩, fun _ _ => trivial⟩) trivial
    h).2.2 {} trivial

/-- Of the definitions that lowering accepts, exactly those follow lexical scope in which no part
uses a variable from outside that an earlier part has left in the environment; and these have no
variable without a binder. -/
theorem followsScope_iff_leakFree {c : BodyContext} {ret : Option Ty} {s' : Scope}
    {g g' : Progress} (h : c.function none f [] ret (lowerExpr c f.body) {} g = .ok (f', s') g') :
    (FollowsScope c f f' ↔ f.body.leakFree = true) ∧
      (f.body.leakFree = true → ∀ y, f.body.occurs y = true → y ∈ f.params.map Var.id) := by
  have hthreaded := function_threaded h
  have hlexical : f.body.leakFree = true → FollowsScope c f f' := hthreaded.lexical_of_leakFree
  exact ⟨⟨hthreaded.leakFree, hlexical⟩, fun hfree y hy => (hlexical hfree).mem_params hy⟩

end

/-! ## A variable that is bound twice -/

/-- A function on its own, without kernels and other globals. -/
def standalone : BodyContext :=
  ⟨⟨{}, {}, {}⟩, "main", fun name => throw (.undefinedGlobal "main" name)⟩

def boolVar : Var := ⟨0, "x", .scalar .bool⟩

def boolPair : Ty := .tuple [.scalar .bool, .scalar .bool]

/-- The `let` comes after the other use of the variable: `fn (x) { (x, let x = false; x) }`. -/
def useThenLet : Source.Function where
  params := [boolVar]
  body := .tuple [.var boolVar, .letIn boolVar (.const (.scalarBool false)) (.var boolVar)] .infer

def useThenLetLowered : Lowered.Function where
  name := none
  params := [⟨"x_0", .scalar .bool⟩]
  captures := []
  body := .decl [("x_1", .literal (.scalarBool false))] (.tuple [.var "x_0", .var "x_1"] boolPair)
  ret := boolPair

theorem useThenLet_followsScope :
    FollowsScope standalone useThenLet useThenLetLowered ∧
      ∀ y, useThenLet.body.occurs y = true → y ∈ [0] := by
  have h : standalone.function none useThenLet [] none (lowerExpr standalone useThenLet.body) {} {} =
      .ok (useThenLetLowered, ⟨[], [], 2⟩) {} := rfl
  have hscope := followsScope_iff_leakFree h
  exact ⟨hscope.1.mpr rfl, hscope.2 rfl⟩

/-- The `let` comes first: `fn (x) { (let x = false; x, x) }`. -/
def letThenUse : Source.Function where
  params := [boolVar]
  body := .tuple [.letIn boolVar (.const (.scalarBool false)) (.var boolVar), .var boolVar] .infer

def letThenUseLowered : Lowered.Function where
  name := none
  params := [⟨"x_0", .scalar .bool⟩]
  captures := []
  body := .decl [("x_1", .literal (.scalarBool false))] (.tuple [.var "x_1", .var "x_1"] boolPair)
  ret := boolPair

/-- The second component is the parameter, but becomes the variable of the `let`. -/
theorem letThenUse_leaves_scope :
    standalone.function none letThenUse [] none (lowerExpr standalone letThenUse.body) {} {} =
        .ok (letThenUseLowered, ⟨[], [], 2⟩) {} ∧
      ¬ FollowsScope standalone letThenUse letThenUseLowered := by
  have h : standalone.function none letThenUse [] none (lowerExpr standalone letThenUse.body) {} {} =
      .ok (letThenUseLowered, ⟨[], [], 2⟩) {} := rfl
  refine ⟨h, fun hscope => ?_⟩
  have hfree : letThenUse.body.leakFree = true := (function_threaded h).leakFree hscope
  exact absurd hfree (by decide)

end TensorIR.Lowering
