import TensorIR.Proofs.LoweringSteps
import TensorIR.Proofs.Translation

/-! Lowering threads its environment.

What lowering makes of an expression is related to it by `Lowers`, with the environment threaded
through the parts of the expression. The places of globals come from the function table, which
changes on the way, so the relation is stated for every table that the final one can grow into. -/

namespace TensorIR

open Source Lowered Lowering

/-! ## Growing tables -/

namespace Lowering

/-- What is known of function tables while a unit is lowered: an invariant, the tables that a table
can grow into, and the places of globals. -/
structure Growth where
  Inv : FunctionTable → Prop
  le : FunctionTable → FunctionTable → Prop
  place : FunctionTable → String → FunctionId → Prop
  refl : ∀ t, le t t
  trans : ∀ {t₁ t₂ t₃}, le t₁ t₂ → le t₂ t₃ → le t₁ t₃

namespace Growth

/-- The step has kept the invariant and let the table grow. -/
def Extends (S : Growth) (g g' : Progress) : Prop := S.Inv g'.table ∧ S.le g.table g'.table

/-- Obtaining the global lets the table grow and gives a place that stays right. -/
def Ensures (S : Growth) (c : BodyContext) (name : String) : Prop :=
  ∀ ⦃g g' : Progress⦄ ⦃id : FunctionId⦄, S.Inv g.table → c.ensure name g = .ok id g' →
    S.Extends g g' ∧ ∀ t, S.le g'.table t → S.place t name id

/-- What expressions refer to, with the places of a table. -/
def link (S : Growth) (c : BodyContext) (t : FunctionTable) : Linkage :=
  ⟨c.setting.module, c.setting.kernels, S.place t⟩

variable {S : Growth} {g g' g'' : Progress}

theorem Extends.of_table_eq (hinv : S.Inv g.table) (h : g'.table = g.table) : S.Extends g g' :=
  ⟨h ▸ hinv, h ▸ S.refl _⟩

theorem Extends.trans (h : S.Extends g g') (h' : S.Extends g' g'') : S.Extends g g'' :=
  ⟨h'.1, S.trans h.2 h'.2⟩

end Growth

attribute [local simp] lowerPattern lowerPatterns lowerExpr lowerExprs lowerClauses

/-! ## Functions and patterns -/

theorem bindParams_eq_ok {c : BodyContext} {vs : List Var} {ps : List Param} {s s' : Scope}
    {g g' : Progress} (h : c.bindParams vs s g = .ok (ps, s') g') :
    ps.map Param.name = numberedNames vs s.counter ∧ s'.bindings = s.bindings ∧
      s'.counter = s.counter + vs.length ∧
      s'.env.naming = s.env.naming.bindVars vs s.counter ∧ g' = g := by
  induction vs generalizing ps s s' g g' with
  | nil =>
    rw [BodyContext.bindParams] at h
    obtain ⟨rfl, rfl, rfl⟩ := pure_eq_ok.mp h
    exact ⟨rfl, rfl, rfl, rfl, rfl⟩
  | cons v vs ih =>
    rw [BodyContext.bindParams] at h
    split at h
    · obtain ⟨_, s₁, g₁, h₁, -⟩ := bind_eq_ok.mp h
      exact (throw_ne_ok h₁).elim
    · obtain ⟨x, s₁, g₁, h₁, k₁⟩ := bind_eq_ok.mp h
      obtain ⟨rfl, rfl, rfl⟩ := fresh_eq_ok.mp h₁
      obtain ⟨_, s₂, g₂, h₂, k₂⟩ := bind_eq_ok.mp k₁
      obtain ⟨rfl, rfl⟩ := bindVar_eq_ok.mp h₂
      obtain ⟨ps', s₃, g₃, h₃, k₃⟩ := bind_eq_ok.mp k₂
      obtain ⟨hnames, hbindings, hcounter, hnaming, rfl⟩ := ih h₃
      obtain ⟨rfl, rfl, rfl⟩ := pure_eq_ok.mp k₃
      refine ⟨?_, hbindings, ?_, ?_, rfl⟩
      · rw [List.map_cons, hnames]
        rfl
      · simp only [hcounter, List.length_cons]
        omega
      · rw [hnaming, Env.naming_cons]
        rfl

theorem captures_eq_ok {c : BodyContext} {self : Option Nat} {vs : List Var} {ps : List Param}
    {s s' : Scope} {g g' : Progress} (h : c.captures self vs s g = .ok (ps, s') g') :
    List.Forall₂ (fun v p => s.env.naming v.id = some p.name)
      (vs.filter fun v => self ≠ some v.id) ps ∧ s' = s ∧ g' = g := by
  induction vs generalizing ps s s' g g' with
  | nil =>
    rw [BodyContext.captures] at h
    obtain ⟨rfl, rfl, rfl⟩ := pure_eq_ok.mp h
    exact ⟨.nil, rfl, rfl⟩
  | cons v vs ih =>
    rw [BodyContext.captures] at h
    split at h
    · next hself =>
      rw [List.filter_cons_of_neg (by simp [hself])]
      exact ih h
    · next hself =>
      obtain ⟨b, s₁, g₁, h₁, k₁⟩ := bind_eq_ok.mp h
      obtain ⟨hb, rfl, rfl⟩ := BodyContext.lookup_eq_ok h₁
      obtain ⟨ps', s₂, g₂, h₂, k₂⟩ := bind_eq_ok.mp k₁
      obtain ⟨hps, rfl, rfl⟩ := ih h₂
      obtain ⟨rfl, rfl, rfl⟩ := pure_eq_ok.mp k₂
      rw [List.filter_cons_of_pos (by simpa using hself)]
      refine ⟨.cons ?_ hps, rfl, rfl⟩
      rw [Env.naming, hb]
      rfl

theorem checkParams_nodup {func : String} {seen : List String} {ps : List Param}
    (h : Lowered.Function.checkParams func seen ps = .ok ()) (hseen : seen.Nodup) :
    (seen ++ ps.map Param.name).Nodup := by
  induction ps generalizing seen with
  | nil => simpa using hseen
  | cons p ps ih =>
    rw [Lowered.Function.checkParams] at h
    split at h
    · cases h
    · next hnew =>
      split at h
      · cases h
      · have hp : p.name ∉ seen := by simpa using hnew
        have hnodup := ih h (List.nodup_cons.mpr ⟨hp, hseen⟩)
        rw [List.map_cons]
        exact List.perm_middle.nodup_iff.mpr hnodup

theorem mkChecked_eq_ok {name : Option String} {params captures : List Param} {body : Node} {ret : Ty}
    {f : Lowered.Function} (h : Lowered.Function.mkChecked name params captures body ret = .ok f) :
    f = ⟨name, params, captures, body, ret⟩ ∧
      (name.toList ++ (params ++ captures).map Param.name).Nodup := by
  obtain ⟨_, hparams, h⟩ := except_bind_eq_ok.mp h
  obtain ⟨_, -, h⟩ := except_bind_eq_ok.mp h
  cases h
  have hname : name.toList.Nodup := by cases name <;> simp
  exact ⟨rfl, checkParams_nodup hparams hname⟩

theorem mkPacked_eq_ok {kernel : String} {arity : Nat} {args : List Node} {ty : Ty} {tupled : Bool}
    {n : Node} (h : Node.mkPacked kernel arity args ty tupled = .ok n) :
    n = .packed kernel arity args ty tupled := by
  obtain ⟨_, -, h⟩ := except_bind_eq_ok.mp h
  cases tupled with
  | false =>
    obtain ⟨_, -, h⟩ := except_bind_eq_ok.mp h
    cases h
    rfl
  | true =>
    obtain ⟨_, -, h⟩ := except_bind_eq_ok.mp h
    cases hwidth : args.head?.bind Node.tupleWidth? with
    | none =>
      simp only [hwidth] at h
      cases h
      rfl
    | some width =>
      simp only [hwidth] at h
      obtain ⟨_, -, h⟩ := except_bind_eq_ok.mp h
      cases h
      rfl

theorem mkIte_eq_ok {cond onTrue onFalse n : Node} {ty : Ty}
    (h : Node.mkIte cond onTrue onFalse ty = .ok n) : n = .ite cond onTrue onFalse ty := by
  obtain ⟨_, -, h⟩ := except_bind_eq_ok.mp h
  cases h
  rfl

theorem mkTuple_eq_ok {fields : List Node} {n : Node} {ty : Ty}
    (h : Node.mkTuple fields ty = .ok n) : n = .tuple fields ty := by
  obtain ⟨_, -, h⟩ := except_bind_eq_ok.mp h
  cases ty with
  | tuple tys =>
    obtain ⟨_, -, h⟩ := except_bind_eq_ok.mp h
    cases h
    rfl
  | _ => cases h

theorem mkMatch_eq_ok {data n : Node} {clauses : List (Lowered.Pattern × Node)} {ty : Ty}
    (h : Node.mkMatch data clauses ty = .ok n) : n = .matchOn data clauses ty := by
  obtain ⟨_, -, h⟩ := except_bind_eq_ok.mp h
  cases h
  rfl

theorem mkCtor_eq_ok {tag arity : Nat} {name : String} {fields : List Node} {n : Node} {ty : Ty}
    (h : Node.mkCtor tag name arity fields ty = .ok n) : n = .ctor tag name fields ty := by
  obtain ⟨_, -, h⟩ := except_bind_eq_ok.mp h
  obtain ⟨_, -, h⟩ := except_bind_eq_ok.mp h
  cases h
  rfl

/-- A kernel of fixed arity is called with that many arguments, any other one with a single one. -/
theorem kernelArity_eq_ok {c : BodyContext} {s s' : Scope} {g g' : Progress} {name : String}
    {args : List Expr} {ty : Ty} {arity : Nat} {tupled : Bool}
    (h : c.kernelArity name args ty s g = .ok ((arity, tupled), s') g') :
    (∃ kernel, c.setting.kernels.get? name = some kernel ∧
      kernel.arity.Suits args.length arity tupled) ∧ s' = s ∧ g'.table = g.table := by
  unfold BodyContext.kernelArity at h
  cases hk : c.setting.kernels.get? name with
  | none => simp only [hk] at h; cases h
  | some kernel =>
    simp only [hk] at h
    split at h
    · cases h
    · cases harity : kernel.arity with
      | fixed n =>
        simp only [harity] at h
        obtain ⟨_, s₁, g₁, h₁, k₁⟩ := bind_eq_ok.mp h
        obtain ⟨hlen, rfl, rfl⟩ := BodyContext.checkArity_eq_ok h₁
        cases k₁
        exact ⟨⟨kernel, rfl, by simp [harity, hlen, KernelArity.Suits]⟩, rfl, rfl⟩
      | packed =>
        simp only [harity] at h
        obtain ⟨_, s₁, g₁, h₁, k₁⟩ := bind_eq_ok.mp h
        obtain ⟨hlen, rfl, rfl⟩ := BodyContext.checkArity_eq_ok h₁
        obtain ⟨known, s₂, g₂, h₂, k₂⟩ := bind_eq_ok.mp k₁
        have hread : s₂ = s₁ ∧ g₂.table = g₁.table := by
          cases args with
          | nil => cases hlen
          | cons e es => exact BodyContext.typeOf_reads h₂
        obtain ⟨rfl, hg⟩ := hread
        split at k₂
        · cases k₂
          exact ⟨⟨kernel, rfl, by simp [harity, hlen, KernelArity.Suits]⟩, rfl, hg⟩
        · cases k₂
        · cases k₂

theorem function_eq_ok {c : BodyContext} {name : Option String} {f : Source.Function}
    {captures : List Param} {ret : Option Ty} {lowerBody : BodyM Node} {f' : Lowered.Function}
    {s s' : Scope} {g g' : Progress}
    (h : c.function name f captures ret lowerBody s g = .ok (f', s') g') :
    ∃ s₁ n s₂ g₁, s₁.env.naming = s.env.naming.bindVars f.params s.counter ∧
      s₁.counter = s.counter + f.params.length ∧ s₁.bindings = [] ∧
      lowerBody s₁ g = .ok (n, s₂) g₁ ∧ g'.table = g₁.table ∧
      s' = { s₂ with env := s.env, bindings := s.bindings } ∧
      f'.name = name ∧ f'.captures = captures ∧
      f'.params.map Param.name = numberedNames f.params s.counter ∧
      Node.wrapDecl s₂.bindings n = .ok f'.body ∧
      (name.toList ++ (f'.params ++ captures).map Param.name).Nodup := by
  obtain ⟨⟨params, body, ret'⟩, s₁, g₁, h₁, k₁⟩ := bind_eq_ok.mp h
  obtain ⟨hchecked, rfl, rfl⟩ := BodyContext.checked_eq_ok k₁
  obtain ⟨rfl, hnodup⟩ := mkChecked_eq_ok hchecked
  obtain ⟨s₂, h₂, rfl⟩ := restoringEnv_eq_ok h₁
  obtain ⟨ps, s₃, g₃, h₃, k₃⟩ := bind_eq_ok.mp h₂
  obtain ⟨hnames, hbindings, hcounter, hnaming, rfl⟩ := bindParams_eq_ok h₃
  obtain ⟨body', s₄, g₄, h₄, k₄⟩ := bind_eq_ok.mp k₃
  obtain ⟨n, s₅, hbody, hwrap, rfl⟩ := BodyContext.closeScope_eq_ok h₄
  have hread : (ps, body') = (params, body) ∧ s₂ = { s₅ with bindings := s₃.bindings } ∧
      g'.table = g₄.table := by
    cases hret : ret.or f.ret.resolved? with
    | some ty =>
      rw [hret] at k₄
      obtain ⟨heq, rfl, rfl⟩ := pure_eq_ok.mp k₄
      cases heq
      exact ⟨rfl, rfl, rfl⟩
    | none =>
      rw [hret] at k₄
      obtain ⟨ty, s₆, g₆, h₆, k₆⟩ := bind_eq_ok.mp k₄
      obtain ⟨rfl, htable⟩ := BodyContext.requireType_reads h₆
      obtain ⟨heq, rfl, rfl⟩ := pure_eq_ok.mp k₆
      cases heq
      exact ⟨rfl, rfl, htable⟩
  obtain ⟨heq, rfl, htable⟩ := hread
  cases heq
  refine ⟨{ s₃ with bindings := [] }, n, s₅, g₄, hnaming, hcounter, rfl, hbody, htable, ?_, rfl, rfl,
    hnames, hwrap, hnodup⟩
  rw [← hbindings]

/-- What the lowering of a pattern with the given variables does to the scope. -/
structure BindsVars (vs : List Var) (s s' : Scope) (g g' : Progress) : Prop where
  counter : s'.counter = s.counter + vs.length
  naming : s'.env.naming = s.env.naming.bindVars vs s.counter
  bindings : s'.bindings = s.bindings
  progress : g' = g

theorem BindsVars.append {vs ws : List Var} {s s' s'' : Scope} {g g' g'' : Progress}
    (h : BindsVars vs s s' g g') (h' : BindsVars ws s' s'' g' g'') :
    BindsVars (vs ++ ws) s s'' g g'' where
  counter := by rw [h'.counter, h.counter, List.length_append, Nat.add_assoc]
  naming := by rw [h'.naming, h.naming, h.counter, Naming.bindVars_append]
  bindings := h'.bindings.trans h.bindings
  progress := h'.progress.trans h.progress

mutual

theorem lowerPattern_eq_ok {c : BodyContext} :
    ∀ {p : Source.Pattern} {ty : Option Ty} {q : Lowered.Pattern} {s s' : Scope} {g g' : Progress},
      lowerPattern c p ty s g = .ok (q, s') g' →
        LowersPattern c.setting.module s.counter p q ∧ BindsVars p.boundVars s s' g g'
  | .wildcard, _, _, _, _, _, _, h => by
    rw [lowerPattern] at h
    obtain ⟨rfl, rfl, rfl⟩ := pure_eq_ok.mp h
    exact ⟨.wildcard, rfl, rfl, rfl, rfl⟩
  | .var v, _, _, _, _, _, _, h => by
    rw [lowerPattern] at h
    obtain ⟨x, s₁, g₁, h₁, k₁⟩ := bind_eq_ok.mp h
    obtain ⟨rfl, rfl, rfl⟩ := fresh_eq_ok.mp h₁
    obtain ⟨_, s₂, g₂, h₂, k₂⟩ := bind_eq_ok.mp k₁
    obtain ⟨rfl, rfl⟩ := bindVar_eq_ok.mp h₂
    obtain ⟨rfl, rfl, rfl⟩ := pure_eq_ok.mp k₂
    exact ⟨.var, rfl, Env.naming_cons _ _ _, rfl, rfl⟩
  | .ctor name ps, _, _, _, _, _, _, h => by
    obtain ⟨info, qs, hinfo, -, -, hfields, rfl⟩ := lowerPattern_ctor_eq_ok h
    obtain ⟨hqs, hbinds⟩ := lowerPatterns_eq_ok hfields
    rw [Pattern.boundVars]
    exact ⟨.ctor hinfo hqs, hbinds⟩
  | .tuple ps, _, _, _, _, _, _, h => by
    obtain ⟨tys, qs, -, hfields, rfl⟩ := lowerPattern_tuple_eq_ok h
    obtain ⟨hqs, hbinds⟩ := lowerPatterns_eq_ok hfields
    rw [Pattern.boundVars]
    exact ⟨.tuple hqs, hbinds⟩

theorem lowerPatterns_eq_ok {c : BodyContext} :
    ∀ {ps : List Source.Pattern} {tys : List Ty} {qs : List Lowered.Pattern} {s s' : Scope}
      {g g' : Progress}, lowerPatterns c ps tys s g = .ok (qs, s') g' →
        LowersPatterns c.setting.module s.counter ps qs ∧
          BindsVars (Pattern.boundVarsList ps) s s' g g'
  | [], _, _, _, _, _, _, h => by
    rw [lowerPatterns] at h
    obtain ⟨rfl, rfl, rfl⟩ := pure_eq_ok.mp h
    exact ⟨.nil, rfl, rfl, rfl, rfl⟩
  | p :: ps, _, _, _, _, _, _, h => by
    obtain ⟨q, qs, s₁, g₁, h₁, h₂, rfl⟩ := lowerPatterns_cons_eq_ok h
    obtain ⟨hq, hbinds⟩ := lowerPattern_eq_ok h₁
    obtain ⟨hqs, hbinds'⟩ := lowerPatterns_eq_ok h₂
    rw [hbinds.counter] at hqs
    rw [Pattern.boundVarsList]
    exact ⟨.cons hq hqs, hbinds.append hbinds'⟩

end

/-! ## Expressions -/

/-- What a step that lowers an expression to a node does when it succeeds. -/
structure Translates (S : Growth) (c : BodyContext) (e : Expr) (n : Node) (s s' : Scope)
    (g g' : Progress) : Prop where
  counter : s'.counter = s.counter + e.binders.length
  naming : s'.env.naming = e.namingAfter s.counter s.env.naming
  grows : S.Extends g g'
  lowers : ∃ bs, s'.bindings = s.bindings ++ bs ∧ ∀ t, S.le g'.table t →
    Lowers (S.link c t) .threaded s.env.naming s.counter e bs n

structure TranslatesAll (S : Growth) (c : BodyContext) (es : List Expr) (ns : List Node)
    (s s' : Scope) (g g' : Progress) : Prop where
  counter : s'.counter = s.counter + (Expr.listBinders es).length
  naming : s'.env.naming = Expr.namingAfterAll es s.counter s.env.naming
  grows : S.Extends g g'
  lowers : ∃ bs, s'.bindings = s.bindings ++ bs ∧ ∀ t, S.le g'.table t →
    LowersAll (S.link c t) .threaded s.env.naming s.counter es bs ns

structure TranslatesClauses (S : Growth) (c : BodyContext)
    (clauses : List (Source.Pattern × Expr)) (cs : List (Lowered.Pattern × Node)) (s s' : Scope)
    (g g' : Progress) : Prop where
  counter : s'.counter = s.counter + (Expr.clauseBinders clauses).length
  env : s'.env = s.env
  bindings : s'.bindings = s.bindings
  grows : S.Extends g g'
  lowers : ∀ t, S.le g'.table t →
    LowersClauses (S.link c t) .threaded s.env.naming s.counter clauses cs

/-- Every way to lower the expression is a translation, if the globals that it refers to can be
obtained. -/
def Translatable (S : Growth) (c : BodyContext) (e : Expr) : Prop :=
  (∀ name ∈ e.globals, S.Ensures c name) →
    ∀ ⦃n : Node⦄ ⦃s s' : Scope⦄ ⦃g g' : Progress⦄, S.Inv g.table →
      lowerExpr c e s g = .ok (n, s') g' → Translates S c e n s s' g g'

def TranslatableAll (S : Growth) (c : BodyContext) (es : List Expr) : Prop :=
  (∀ name ∈ Expr.listGlobals es, S.Ensures c name) →
    ∀ ⦃ns : List Node⦄ ⦃s s' : Scope⦄ ⦃g g' : Progress⦄, S.Inv g.table →
      lowerExprs c es s g = .ok (ns, s') g' → TranslatesAll S c es ns s s' g g'

def TranslatableClauses (S : Growth) (c : BodyContext) (clauses : List (Source.Pattern × Expr)) :
    Prop :=
  (∀ name ∈ Expr.clauseGlobals clauses, S.Ensures c name) →
    ∀ ⦃scrutinee result result' : Option Ty⦄ ⦃cs : List (Lowered.Pattern × Node)⦄ ⦃s s' : Scope⦄
      ⦃g g' : Progress⦄, S.Inv g.table →
      lowerClauses c scrutinee result clauses s g = .ok ((cs, result'), s') g' →
        TranslatesClauses S c clauses cs s s' g g'

variable {S : Growth} {c : BodyContext} {s s' : Scope} {g g' : Progress}

/-- A function literal, given how its body is lowered. -/
theorem closure_eq_ok {self : Option (Nat × String)} {f : Source.Function} {f' : Lowered.Function}
    (hbody : Translatable S c f.body) (hens : ∀ name ∈ f.body.globals, S.Ensures c name)
    (hinv : S.Inv g.table) (h : c.closure self f (lowerExpr c f.body) s g = .ok (f', s') g') :
    s'.counter = s.counter + (f.params.length + f.body.binders.length) ∧ s'.env = s.env ∧
      s'.bindings = s.bindings ∧ S.Extends g g' ∧
      ∃ bs n, LowersFunction s.env.naming s.counter self f.params f.body bs n f' ∧
        ∀ t, S.le g'.table t → Lowers (S.link c t) .threaded
          (s.env.naming.bindVars f.params s.counter) (s.counter + f.params.length) f.body bs n := by
  obtain ⟨ps, s₁, g₁, h₁, k₁⟩ := bind_eq_ok.mp h
  obtain ⟨hcaptures, rfl, rfl⟩ := captures_eq_ok h₁
  rw [f.freeVars_eq] at hcaptures
  obtain ⟨s₂, n, s₃, g₂, hnaming, hcounter, hempty, hlower, htable, rfl, hname, rfl, hnames, hwrap,
    hnodup⟩ := function_eq_ok k₁
  have htranslates := hbody hens hinv hlower
  obtain ⟨bs, hbs, hlowers⟩ := htranslates.lowers
  rw [hempty, List.nil_append] at hbs
  rw [hbs] at hwrap
  rw [hnaming, hcounter] at hlowers
  refine ⟨?_, rfl, rfl, ⟨htable ▸ htranslates.grows.1, htable ▸ htranslates.grows.2⟩, bs, n, ?_, ?_⟩
  · simp only [htranslates.counter, hcounter, Nat.add_assoc]
  · exact ⟨hname, hnames, hcaptures, hwrap, hname ▸ hnodup⟩
  · rwa [htable]

theorem translatable_letFunction {v : Var} {params : List Var} {fbody body : Expr} {ret : Ty}
    (ihf : Translatable S c fbody) (ih : Translatable S c body) :
    Translatable S c (.letIn v (.func params fbody ret) body) := by
  intro hens n s s' g g' hinv h
  simp only [Expr.globals, List.mem_append, or_imp, forall_and] at hens
  rw [lowerExpr] at h
  obtain ⟨_, s₁, g₁, h₁, k₁⟩ := bind_eq_ok.mp h
  obtain ⟨x, s₂, g₂, h₂, k₂⟩ := bind_eq_ok.mp h₁
  obtain ⟨rfl, rfl, rfl⟩ := fresh_eq_ok.mp h₂
  obtain ⟨_, s₃, g₃, h₃, k₃⟩ := bind_eq_ok.mp k₂
  obtain ⟨rfl, rfl⟩ := bindVar_eq_ok.mp h₃
  obtain ⟨f, s₄, g₄, h₄, k₄⟩ := bind_eq_ok.mp k₃
  obtain ⟨hcounter, henv, hbindings, hgrows, bs₁, n₁, hfunction, hlowers₁⟩ :=
    closure_eq_ok ihf hens.1 hinv h₄
  obtain ⟨_, s₅, g₅, h₅, k₅⟩ := bind_eq_ok.mp k₄
  obtain ⟨rfl, rfl⟩ := bindVar_eq_ok.mp h₅
  obtain ⟨rfl, rfl⟩ := emit_eq_ok.mp k₅
  have hbody := ih hens.2 hgrows.1 k₁
  obtain ⟨bs₂, hbs₂, hlowers₂⟩ := hbody.lowers
  -- the function has put the environment back, and the variable is bound once more to its name
  have hnaming : Env.naming ((v.id, ⟨numberedName v.name s.counter, f.fnType⟩) :: s₄.env) =
      s.env.naming.bind v.id (numberedName v.name s.counter) := by
    rw [Env.naming_cons, henv, Env.naming_cons, Naming.bind_bind]
  rw [Env.naming_cons] at hfunction hlowers₁
  refine ⟨?_, ?_, hgrows.trans hbody.grows, (numberedName v.name s.counter, f.toNode) :: bs₂, ?_, ?_⟩
  · simp only [hbody.counter, hcounter, Expr.binders, List.length_cons, List.length_append,
      List.length_map]
    omega
  · rw [hbody.naming, hnaming, Expr.namingAfter]
    simp only [hcounter, Expr.namingAfter, Expr.binders, List.length_append, List.length_map]
  · rw [hbs₂, hbindings, List.append_assoc]
    rfl
  · intro t ht
    have hlower := hlowers₂ t ht
    simp only [hnaming, hcounter] at hlower
    exact .letFunction (hlowers₁ t (S.trans hbody.grows.2 ht)) hfunction hlower

theorem lowerExpr_letIn {v : Var} {value body : Expr} (hvalue : value.isFunction = false) :
    lowerExpr c (.letIn v value body) =
      (c.letValue v value (lowerExpr c value) >>= fun _ => lowerExpr c body) := by
  cases value with
  | func => cases hvalue
  | _ => rfl

theorem translatable_letValue {v : Var} {value body : Expr} (hvalue : value.isFunction = false)
    (ihv : Translatable S c value) (ih : Translatable S c body) :
    Translatable S c (.letIn v value body) := by
  intro hens n s s' g g' hinv h
  simp only [Expr.globals, List.mem_append, or_imp, forall_and] at hens
  rw [lowerExpr_letIn hvalue] at h
  obtain ⟨_, s₁, g₁, h₁, k₁⟩ := bind_eq_ok.mp h
  obtain ⟨x, s₂, g₂, h₂, k₂⟩ := bind_eq_ok.mp h₁
  obtain ⟨rfl, rfl, rfl⟩ := fresh_eq_ok.mp h₂
  obtain ⟨n₁, s₃, g₃, h₃, k₃⟩ := bind_eq_ok.mp k₂
  have hv := ihv hens.1 hinv h₃
  obtain ⟨bs₁, hbs₁, hlowers₁⟩ := hv.lowers
  obtain ⟨ty, s₄, g₄, h₄, k₄⟩ := bind_eq_ok.mp k₃
  obtain ⟨rfl, htable⟩ := BodyContext.letType_reads h₄
  obtain ⟨_, s₅, g₅, h₅, k₅⟩ := bind_eq_ok.mp k₄
  obtain ⟨rfl, rfl⟩ := bindVar_eq_ok.mp h₅
  obtain ⟨rfl, rfl⟩ := emit_eq_ok.mp k₅
  have hgrows := hv.grows.trans (.of_table_eq hv.grows.1 htable)
  have hbody := ih hens.2 hgrows.1 k₁
  obtain ⟨bs₂, hbs₂, hlowers₂⟩ := hbody.lowers
  have hnaming : Env.naming ((v.id, ⟨numberedName v.name s.counter, ty⟩) :: s₄.env) =
      (value.namingAfter (s.counter + 1) s.env.naming).bind v.id (numberedName v.name s.counter) := by
    rw [Env.naming_cons, hv.naming]
  refine ⟨?_, ?_, hgrows.trans hbody.grows,
    bs₁ ++ (numberedName v.name s.counter, n₁) :: bs₂, ?_, ?_⟩
  · simp only [hbody.counter, hv.counter, Expr.binders, List.length_cons, List.length_append]
    omega
  · rw [hbody.naming, hnaming, Expr.namingAfter]
    simp only [hv.counter]
  · rw [hbs₂, hbs₁, List.append_assoc, List.append_assoc]
    rfl
  · intro t ht
    have hlower := hlowers₂ t ht
    simp only [hnaming, hv.counter] at hlower
    exact .letValue hvalue (hlowers₁ t (S.trans (htable ▸ hbody.grows.2) ht)) hlower

theorem lowerExpr_call {callee : Expr} {args : List Expr} {ty : Ty}
    (hcallee : callee.isReference = false) :
    lowerExpr c (.call callee args ty) = (do
      c.checkCallee callee args.length
      let node ← lowerExpr c callee
      let nodes ← lowerExprs c args
      return .apply node nodes) := by
  cases callee with
  | op | global => cases hcallee
  | _ => rfl

theorem translatable_call {callee : Expr} {args : List Expr} {ty : Ty}
    (hcallee : callee.isReference = false) (ih : Translatable S c callee)
    (ihs : TranslatableAll S c args) : Translatable S c (.call callee args ty) := by
  intro hens n s s' g g' hinv h
  simp only [Expr.globals, List.mem_append, or_imp, forall_and] at hens
  rw [lowerExpr_call hcallee] at h
  obtain ⟨_, s₁, g₁, h₁, k₁⟩ := bind_eq_ok.mp h
  obtain ⟨rfl, htable⟩ := BodyContext.checkCallee_reads h₁
  have hstart := Growth.Extends.of_table_eq hinv htable
  obtain ⟨n₁, s₂, g₂, h₂, k₂⟩ := bind_eq_ok.mp k₁
  have hn := ih hens.1 hstart.1 h₂
  obtain ⟨bs₁, hbs₁, hlowers₁⟩ := hn.lowers
  obtain ⟨ns, s₃, g₃, h₃, k₃⟩ := bind_eq_ok.mp k₂
  have hns := ihs hens.2 hn.grows.1 h₃
  obtain ⟨bs₂, hbs₂, hlowers₂⟩ := hns.lowers
  obtain ⟨rfl, rfl, rfl⟩ := pure_eq_ok.mp k₃
  refine ⟨?_, ?_, hstart.trans (hn.grows.trans hns.grows), bs₁ ++ bs₂, ?_, ?_⟩
  · rw [hns.counter, hn.counter, Expr.binders, List.length_append, Nat.add_assoc]
  · rw [hns.naming, hn.naming, hn.counter, Expr.namingAfter]
  · rw [hbs₂, hbs₁, List.append_assoc]
  · intro t ht
    have hlower := hlowers₂ t ht
    rw [hn.naming, hn.counter] at hlower
    exact .call hcallee (hlowers₁ t (S.trans hns.grows.2 ht)) hlower

theorem translatable_callKernel {name : String} {args : List Expr} {ty : Ty}
    (ihs : TranslatableAll S c args) : Translatable S c (.call (.op name) args ty) := by
  intro hens n s s' g g' hinv h
  rw [lowerExpr] at h
  obtain ⟨⟨arity, tupled⟩, s₁, g₁, h₁, k₁⟩ := bind_eq_ok.mp h
  obtain ⟨⟨kernel, hkernel, hsuits⟩, rfl, htable⟩ := kernelArity_eq_ok h₁
  have hstart := Growth.Extends.of_table_eq hinv htable
  obtain ⟨ns, s₂, g₂, h₂, k₂⟩ := bind_eq_ok.mp k₁
  have hns := ihs hens hstart.1 h₂
  obtain ⟨bs, hbs, hlowers⟩ := hns.lowers
  obtain ⟨hpacked, rfl, rfl⟩ := BodyContext.checked_eq_ok k₂
  obtain rfl := mkPacked_eq_ok hpacked
  refine ⟨hns.counter, hns.naming, hstart.trans hns.grows, bs, hbs, fun t ht => ?_⟩
  exact .callKernel hkernel hsuits (hlowers t ht)

theorem translatable_callGlobal {name : String} {args : List Expr} {ty : Ty}
    (ihs : TranslatableAll S c args) : Translatable S c (.call (.global name) args ty) := by
  intro hens n s s' g g' hinv h
  simp only [Expr.globals, List.mem_append, List.mem_singleton, or_imp, forall_and,
    forall_eq] at hens
  rw [lowerExpr] at h
  obtain ⟨id, s₁, g₁, h₁, k₁⟩ := bind_eq_ok.mp h
  obtain ⟨hensure, rfl⟩ := lift_eq_ok.mp h₁
  obtain ⟨hgrows, hplace⟩ := hens.1 hinv hensure
  obtain ⟨_, s₂, g₂, h₂, k₂⟩ := bind_eq_ok.mp k₁
  obtain ⟨rfl, htable⟩ := BodyContext.checkGlobalArity_reads h₂
  have hstart := hgrows.trans (.of_table_eq hgrows.1 htable)
  obtain ⟨ns, s₃, g₃, h₃, k₃⟩ := bind_eq_ok.mp k₂
  have hns := ihs hens.2 hstart.1 h₃
  obtain ⟨bs, hbs, hlowers⟩ := hns.lowers
  obtain ⟨rfl, rfl, rfl⟩ := pure_eq_ok.mp k₃
  refine ⟨hns.counter, hns.naming, hstart.trans hns.grows, bs, hbs, fun t ht => ?_⟩
  exact .callGlobal (hplace t (S.trans (htable ▸ hns.grows.2) ht)) (hlowers t ht)

/-- What a branch is lowered to, with the bindings around it. -/
theorem closeScope_translates {e : Expr} {n : Node} (ih : Translatable S c e)
    (hens : ∀ name ∈ e.globals, S.Ensures c name) (hinv : S.Inv g.table)
    (h : c.closeScope (lowerExpr c e) s g = .ok (n, s') g') :
    s'.counter = s.counter + e.binders.length ∧
      s'.env.naming = e.namingAfter s.counter s.env.naming ∧ s'.bindings = s.bindings ∧
      S.Extends g g' ∧ ∃ bs n₁, Node.wrapDecl bs n₁ = .ok n ∧ ∀ t, S.le g'.table t →
        Lowers (S.link c t) .threaded s.env.naming s.counter e bs n₁ := by
  obtain ⟨n₁, s₁, hlower, hwrap, rfl⟩ := BodyContext.closeScope_eq_ok h
  have he := ih hens hinv hlower
  obtain ⟨bs, hbs, hlowers⟩ := he.lowers
  rw [List.nil_append] at hbs
  exact ⟨he.counter, he.naming, rfl, he.grows, bs, n₁, hbs ▸ hwrap, hlowers⟩

theorem translatable_ite {cond onTrue onFalse : Expr} {ty : Ty} (ihc : Translatable S c cond)
    (iht : Translatable S c onTrue) (ihf : Translatable S c onFalse) :
    Translatable S c (.ite cond onTrue onFalse ty) := by
  intro hens n s s' g g' hinv h
  simp only [Expr.globals, List.mem_append, or_imp, forall_and] at hens
  rw [lowerExpr] at h
  obtain ⟨n₁, s₁, g₁, h₁, k₁⟩ := bind_eq_ok.mp h
  have hcond := ihc hens.1 hinv h₁
  obtain ⟨bs, hbs, hlowers⟩ := hcond.lowers
  obtain ⟨_, s₂, g₂, h₂, k₂⟩ := bind_eq_ok.mp k₁
  obtain ⟨rfl, htable⟩ := BodyContext.checkCondition_reads h₂
  have hstart := hcond.grows.trans (.of_table_eq hcond.grows.1 htable)
  obtain ⟨nTrue, s₃, g₃, h₃, k₃⟩ := bind_eq_ok.mp k₂
  obtain ⟨hcounter₃, hnaming₃, hbindings₃, hgrows₃, bs₁, m₁, hwrap₁, hlowers₁⟩ :=
    closeScope_translates iht hens.2.1 hstart.1 h₃
  obtain ⟨nFalse, s₄, g₄, h₄, k₄⟩ := bind_eq_ok.mp k₃
  obtain ⟨hcounter₄, hnaming₄, hbindings₄, hgrows₄, bs₂, m₂, hwrap₂, hlowers₂⟩ :=
    closeScope_translates ihf hens.2.2 hgrows₃.1 h₄
  obtain ⟨ty', s₅, g₅, h₅, k₅⟩ := bind_eq_ok.mp k₄
  obtain ⟨rfl, htable'⟩ := BodyContext.requireType_reads h₅
  obtain ⟨hite, rfl, rfl⟩ := BodyContext.checked_eq_ok k₅
  obtain rfl := mkIte_eq_ok hite
  have hend := hgrows₄.trans (.of_table_eq hgrows₄.1 htable')
  rw [hcounter₃, hcond.counter] at hcounter₄ hnaming₄ hlowers₂
  rw [hcond.counter] at hnaming₃ hlowers₁
  rw [hnaming₃] at hnaming₄ hlowers₂
  rw [hcond.naming] at hnaming₄ hlowers₁ hlowers₂
  refine ⟨?_, ?_, (hstart.trans hgrows₃).trans hend, bs, ?_, fun t ht => ?_⟩
  · rw [hcounter₄, Expr.binders, List.length_append, List.length_append, Nat.add_assoc, Nat.add_assoc]
  · rw [hnaming₄, Expr.namingAfter]
  · rw [hbindings₄, hbindings₃, hbs]
  · have htrue := S.trans hend.2 ht
    have hcond' := S.trans (htable ▸ hgrows₃.2) htrue
    exact .ite (hlowers t hcond') (hlowers₁ t htrue) hwrap₁ (hlowers₂ t (htable' ▸ ht)) hwrap₂

theorem translatable_tuple {fields : List Expr} {ty : Ty} (ihs : TranslatableAll S c fields) :
    Translatable S c (.tuple fields ty) := by
  intro hens n s s' g g' hinv h
  rw [lowerExpr] at h
  obtain ⟨ns, s₁, g₁, h₁, k₁⟩ := bind_eq_ok.mp h
  have hns := ihs hens hinv h₁
  obtain ⟨bs, hbs, hlowers⟩ := hns.lowers
  obtain ⟨ty', s₂, g₂, h₂, k₂⟩ := bind_eq_ok.mp k₁
  obtain ⟨rfl, htable⟩ := BodyContext.requireType_reads h₂
  obtain ⟨htuple, rfl, rfl⟩ := BodyContext.checked_eq_ok k₂
  obtain rfl := mkTuple_eq_ok htuple
  refine ⟨hns.counter, hns.naming, hns.grows.trans (.of_table_eq hns.grows.1 htable), bs, hbs, ?_⟩
  exact fun t ht => .tuple (hlowers t (htable ▸ ht))

theorem translatable_construct {name : String} {fields : List Expr} {ty : Ty}
    (ihs : TranslatableAll S c fields) : Translatable S c (.construct name fields ty) := by
  intro hens n s s' g g' hinv h
  rw [lowerExpr] at h
  obtain ⟨info, s₁, g₁, h₁, k₁⟩ := bind_eq_ok.mp h
  obtain ⟨hinfo, -, rfl, rfl⟩ := BodyContext.constructInfo_eq_ok h₁
  obtain ⟨ns, s₂, g₂, h₂, k₂⟩ := bind_eq_ok.mp k₁
  have hns := ihs hens hinv h₂
  obtain ⟨bs, hbs, hlowers⟩ := hns.lowers
  obtain ⟨hctor, rfl, rfl⟩ := BodyContext.checked_eq_ok k₂
  obtain rfl := mkCtor_eq_ok hctor
  exact ⟨hns.counter, hns.naming, hns.grows, bs, hbs, fun t ht => .construct hinfo (hlowers t ht)⟩

theorem translatable_matchOn {data : Expr} {clauses : List (Source.Pattern × Expr)} {ty : Ty}
    (ih : Translatable S c data) (ihs : TranslatableClauses S c clauses) :
    Translatable S c (.matchOn data clauses ty) := by
  intro hens n s s' g g' hinv h
  simp only [Expr.globals, List.mem_append, or_imp, forall_and] at hens
  rw [lowerExpr] at h
  obtain ⟨n₁, s₁, g₁, h₁, k₁⟩ := bind_eq_ok.mp h
  have hn := ih hens.1 hinv h₁
  obtain ⟨bs, hbs, hlowers⟩ := hn.lowers
  obtain ⟨scrutinee, s₂, g₂, h₂, k₂⟩ := bind_eq_ok.mp k₁
  obtain ⟨rfl, htable⟩ := BodyContext.typeOf_reads h₂
  have hstart := hn.grows.trans (.of_table_eq hn.grows.1 htable)
  obtain ⟨⟨cs, result⟩, s₃, g₃, h₃, k₃⟩ := bind_eq_ok.mp k₂
  have hcs := ihs hens.2 hstart.1 h₃
  obtain ⟨_, s₄, g₄, h₄, k₄⟩ := bind_eq_ok.mp k₃
  obtain ⟨rfl, htable'⟩ := BodyContext.checkCoverage_reads h₄
  cases result with
  | none => exact (throw_ne_ok k₄).elim
  | some ty' =>
    obtain ⟨hmatch, rfl, rfl⟩ := BodyContext.checked_eq_ok k₄
    obtain rfl := mkMatch_eq_ok hmatch
    have hend := hcs.grows.trans (.of_table_eq hcs.grows.1 htable')
    refine ⟨?_, ?_, hstart.trans hend, bs, ?_, fun t ht => ?_⟩
    · rw [hcs.counter, hn.counter, Expr.binders, List.length_append, Nat.add_assoc]
    · rw [hcs.env, hn.naming, Expr.namingAfter]
    · rw [hcs.bindings, hbs]
    · have hlower := hcs.lowers t (htable' ▸ ht)
      rw [hn.naming, hn.counter] at hlower
      exact .matchOn (hlowers t (S.trans (htable ▸ hend.2) ht)) hlower

theorem translatable_cons {e : Expr} {es : List Expr} (ih : Translatable S c e)
    (ihs : TranslatableAll S c es) : TranslatableAll S c (e :: es) := by
  intro hens ns s s' g g' hinv h
  simp only [Expr.listGlobals, List.mem_append, or_imp, forall_and] at hens
  rw [lowerExprs] at h
  obtain ⟨n, s₁, g₁, h₁, k₁⟩ := bind_eq_ok.mp h
  have hn := ih hens.1 hinv h₁
  obtain ⟨bs₁, hbs₁, hlowers₁⟩ := hn.lowers
  obtain ⟨ns', s₂, g₂, h₂, k₂⟩ := bind_eq_ok.mp k₁
  have hns := ihs hens.2 hn.grows.1 h₂
  obtain ⟨bs₂, hbs₂, hlowers₂⟩ := hns.lowers
  obtain ⟨rfl, rfl, rfl⟩ := pure_eq_ok.mp k₂
  refine ⟨?_, ?_, hn.grows.trans hns.grows, bs₁ ++ bs₂, ?_, fun t ht => ?_⟩
  · rw [hns.counter, hn.counter, Expr.listBinders, List.length_append, Nat.add_assoc]
  · rw [hns.naming, hn.naming, hn.counter, Expr.namingAfterAll]
  · rw [hbs₂, hbs₁, List.append_assoc]
  · have hlower := hlowers₂ t ht
    rw [hn.naming, hn.counter] at hlower
    exact .cons (hlowers₁ t (S.trans hns.grows.2 ht)) hlower

/-- A clause takes its variables back. -/
theorem clause_eq_ok {scrutinee result result' : Option Ty} {p : Source.Pattern} {e : Expr}
    {q : Lowered.Pattern} {body : Node} (ih : Translatable S c e)
    (hens : ∀ name ∈ e.globals, S.Ensures c name) (hinv : S.Inv g.table)
    (h : c.clause scrutinee result p e (lowerExpr c e) s g = .ok (((q, body), result'), s') g') :
    s'.counter = s.counter + p.boundVars.length + e.binders.length ∧ s'.env = s.env ∧
      s'.bindings = s.bindings ∧ S.Extends g g' ∧
      LowersPattern c.setting.module s.counter p q ∧
      ∃ bs n, Node.wrapDecl bs n = .ok body ∧ ∀ t, S.le g'.table t →
        Lowers (S.link c t) .threaded (s.env.naming.bindVars p.boundVars s.counter)
          (s.counter + p.boundVars.length) e bs n := by
  obtain ⟨s₁, h₁, rfl⟩ := restoringEnv_eq_ok h
  obtain ⟨q', s₂, g₂, h₂, k₂⟩ := bind_eq_ok.mp h₁
  obtain ⟨hq, hbinds⟩ := lowerPattern_eq_ok h₂
  obtain rfl := hbinds.progress
  obtain ⟨body', s₃, g₃, h₃, k₃⟩ := bind_eq_ok.mp k₂
  obtain ⟨hcounter, -, hbindings, hgrows, bs, n, hwrap, hlowers⟩ :=
    closeScope_translates ih hens hinv h₃
  have hend : (q', body') = (q, body) ∧ s₁ = s₃ ∧ g'.table = g₃.table := by
    cases result with
    | some ty =>
      obtain ⟨heq, rfl, rfl⟩ := pure_eq_ok.mp k₃
      cases heq
      exact ⟨rfl, rfl, rfl⟩
    | none =>
      obtain ⟨ty, s₄, g₄, h₄, k₄⟩ := bind_eq_ok.mp k₃
      obtain ⟨rfl, htable⟩ := BodyContext.typeOf_reads h₄
      obtain ⟨heq, rfl, rfl⟩ := pure_eq_ok.mp k₄
      cases heq
      exact ⟨rfl, rfl, htable⟩
  obtain ⟨heq, rfl, htable⟩ := hend
  cases heq
  rw [hbinds.naming, hbinds.counter] at hlowers
  refine ⟨?_, rfl, hbindings.trans hbinds.bindings, hgrows.trans (.of_table_eq hgrows.1 htable), hq,
    bs, n, hwrap, fun t ht => hlowers t (htable ▸ ht)⟩
  simp only [hcounter, hbinds.counter]

theorem translatable_consClause {p : Source.Pattern} {e : Expr}
    {rest : List (Source.Pattern × Expr)} (ih : Translatable S c e)
    (ihs : TranslatableClauses S c rest) : TranslatableClauses S c ((p, e) :: rest) := by
  intro hens scrutinee result result' cs s s' g g' hinv h
  simp only [Expr.clauseGlobals, List.mem_append, or_imp, forall_and] at hens
  rw [lowerClauses] at h
  obtain ⟨⟨⟨q, body⟩, result₁⟩, s₁, g₁, h₁, k₁⟩ := bind_eq_ok.mp h
  obtain ⟨hcounter, henv, hbindings, hgrows, hq, bs, n, hwrap, hlowers⟩ :=
    clause_eq_ok ih hens.1 hinv h₁
  obtain ⟨⟨cs', result₂⟩, s₂, g₂, h₂, k₂⟩ := bind_eq_ok.mp k₁
  have hcs := ihs hens.2 hgrows.1 h₂
  obtain ⟨heq, rfl, rfl⟩ := pure_eq_ok.mp k₂
  cases heq
  refine ⟨?_, hcs.env.trans henv, hcs.bindings.trans hbindings, hgrows.trans hcs.grows, ?_⟩
  · rw [hcs.counter, hcounter, Expr.clauseBinders, List.length_append, List.length_append,
      List.length_map]
    omega
  · intro t ht
    have hlower := hcs.lowers t ht
    rw [henv, hcounter] at hlower
    exact .cons hq (hlowers t (S.trans hcs.grows.2 ht)) hwrap hlower

/-- Lowering threads its environment. -/
theorem translatable_cases :
    Expr.Cases (Translatable S c) (TranslatableAll S c) (TranslatableClauses S c) where
  var v := by
    intro hens n s s' g g' hinv h
    rw [lowerExpr] at h
    obtain ⟨b, s₁, g₁, h₁, k₁⟩ := bind_eq_ok.mp h
    obtain ⟨hb, rfl, rfl⟩ := BodyContext.lookup_eq_ok h₁
    obtain ⟨rfl, rfl, rfl⟩ := pure_eq_ok.mp k₁
    refine ⟨rfl, rfl, .of_table_eq hinv rfl, [], by simp, fun _ _ => .var ?_⟩
    rw [Env.naming, hb]
    rfl
  const t := by
    intro hens n s s' g g' hinv h
    rw [lowerExpr] at h
    obtain ⟨rfl, rfl, rfl⟩ := pure_eq_ok.mp h
    exact ⟨rfl, rfl, .of_table_eq hinv rfl, [], by simp, fun _ _ => .const⟩
  letFunction _ _ _ _ _ ihf ih := translatable_letFunction ihf ih
  letValue _ _ _ hvalue ihv ih := translatable_letValue hvalue ihv ih
  func params body ret ih := by
    intro hens n s s' g g' hinv h
    rw [lowerExpr] at h
    obtain ⟨f, s₁, g₁, h₁, k₁⟩ := bind_eq_ok.mp h
    obtain ⟨hcounter, henv, hbindings, hgrows, bs, n', hfunction, hlowers⟩ :=
      closure_eq_ok ih hens hinv h₁
    obtain ⟨rfl, rfl, rfl⟩ := pure_eq_ok.mp k₁
    refine ⟨?_, by rw [henv, Expr.namingAfter], hgrows, [], by simp [hbindings], fun t ht => ?_⟩
    · rw [hcounter, Expr.binders, List.length_append, List.length_map]
    · exact .func (hlowers t ht) hfunction
  global name := by
    intro hens n s s' g g' hinv h
    rw [lowerExpr] at h
    obtain ⟨id, s₁, g₁, h₁, k₁⟩ := bind_eq_ok.mp h
    obtain ⟨hensure, rfl⟩ := lift_eq_ok.mp h₁
    obtain ⟨hgrows, hplace⟩ := hens name (by simp [Expr.globals]) hinv hensure
    obtain ⟨rfl, rfl, rfl⟩ := pure_eq_ok.mp k₁
    exact ⟨rfl, rfl, hgrows, [], by simp, fun t ht => .global (hplace t ht)⟩
  op name := by
    intro hens n s s' g g' hinv h
    rw [lowerExpr] at h
    exact (throw_ne_ok h).elim
  callKernel _ _ _ ihs := translatable_callKernel ihs
  callGlobal _ _ _ ihs := translatable_callGlobal ihs
  call _ _ _ hcallee ih ihs := translatable_call hcallee ih ihs
  ite _ _ _ _ ihc iht ihf := translatable_ite ihc iht ihf
  tuple _ _ ihs := translatable_tuple ihs
  matchOn _ _ _ ih ihs := translatable_matchOn ih ihs
  construct _ _ _ ihs := translatable_construct ihs
  nil := by
    intro hens ns s s' g g' hinv h
    rw [lowerExprs] at h
    obtain ⟨rfl, rfl, rfl⟩ := pure_eq_ok.mp h
    exact ⟨rfl, rfl, .of_table_eq hinv rfl, [], by simp, fun _ _ => .nil⟩
  cons _ _ ih ihs := translatable_cons ih ihs
  nilClause := by
    intro hens scrutinee result result' cs s s' g g' hinv h
    rw [lowerClauses] at h
    obtain ⟨heq, rfl, rfl⟩ := pure_eq_ok.mp h
    cases heq
    exact ⟨rfl, rfl, rfl, .of_table_eq hinv rfl, fun _ _ => .nil⟩
  consClause _ _ _ ih ihs := translatable_consClause ih ihs

/-- A definition that lowering accepts is translated, with the environment threaded. -/
theorem function_translates {f : Source.Function} {ret : Option Ty} {f' : Lowered.Function}
    (hens : ∀ name ∈ f.body.globals, S.Ensures c name) (hinv : S.Inv g.table)
    (h : c.function none f [] ret (lowerExpr c f.body) {} g = .ok (f', s') g') :
    S.Extends g g' ∧ s'.counter = f.params.length + f.body.binders.length ∧
      ∀ t, S.le g'.table t → LowersDefinition (S.link c t) .threaded f f' := by
  obtain ⟨s₁, n, s₂, g₂, hnaming, hcounter, hempty, hlower, htable, rfl, hname, hcaptures, hnames,
    hwrap, -⟩ := function_eq_ok h
  have hbody := translatable_cases.expr f.body hens hinv hlower
  obtain ⟨bs, hbs, hlowers⟩ := hbody.lowers
  have hstart : s₁.env.naming = Naming.empty.bindVars f.params 0 := hnaming
  rw [hempty, List.nil_append] at hbs
  rw [Nat.zero_add] at hcounter
  rw [hstart, hcounter] at hlowers
  refine ⟨⟨htable ▸ hbody.grows.1, htable ▸ hbody.grows.2⟩, ?_, fun t ht => ?_⟩
  · simp only [hbody.counter, hcounter]
  · exact ⟨hname, hnames, hcaptures, bs, n, hlowers t (htable ▸ ht), hbs ▸ hwrap⟩

end Lowering

end TensorIR
