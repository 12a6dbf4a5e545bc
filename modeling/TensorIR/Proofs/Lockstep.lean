import TensorIR.Proofs.LoweringTranslates
import TensorIR.Proofs.References

/-! Two lowerings of the same code, side by side.

A body is lowered in the same way in two units if these answer alike what it asks of them: the types
of expressions, the places of globals and the check of matches. Places may differ, and then the two
results differ in their references only. Which states of the units correspond, what is compared of a
reference and which failures of the first unit say nothing about the second one is left open
(`Lockstep`); of a unit and itself, this tells what the lowering of a body does to a unit. -/

namespace TensorIR.Lowering

open Source Lowered

/-- How two lowerings of the same code are compared: which states correspond, what is compared of a
reference, and which failures of the first lowering say nothing about the second one. -/
structure Lockstep where
  Rel : Progress → Progress → Prop
  view : GlobalRef → GlobalRef
  Lost : LowerError → Prop

/-- The nodes differ in their references only, and not in what is compared of them. -/
def Like (φ : GlobalRef → GlobalRef) (n n' : Node) : Prop := n'.mapRefs φ = n.mapRefs φ

/-- The scopes differ in the references of their bindings only. -/
structure Scope.Like (φ : GlobalRef → GlobalRef) (s s' : Scope) : Prop where
  env : s'.env = s.env
  counter : s'.counter = s.counter
  bindings : Node.mapRefsBindings φ s'.bindings = Node.mapRefsBindings φ s.bindings

namespace Lockstep

variable {L : Lockstep} {α β : Type}

/-- If the first step succeeds then so does the second one, with related results. If the first one
fails, then the second one fails in the same way, unless the failure says nothing about it. -/
def Agrees (L : Lockstep) (Q : α → Progress → α → Progress → Prop) :
    EStateM.Result LowerError Progress α → EStateM.Result LowerError Progress α → Prop
  | .ok a g, .ok a' g' => Q a g a' g' ∧ L.Rel g g'
  | .ok _ _, .error _ _ => False
  | .error e g, r' => L.Lost e ∨ ∃ g', r' = .error e g' ∧ L.Rel g g'

/-- Side by side, the steps have related results, and scopes that differ in references only. -/
def Steps (L : Lockstep) (R : α → α → Prop) (x x' : BodyM α) : Prop :=
  ∀ ⦃s s' : Scope⦄ ⦃g g' : Progress⦄, s.Like L.view s' → L.Rel g g' →
    L.Agrees (fun r _ r' _ => R r.1 r'.1 ∧ r.2.Like L.view r'.2) (x s g) (x' s' g')

namespace Agrees

variable {Q : α → Progress → α → Progress → Prop}

theorem imp {Q' : α → Progress → α → Progress → Prop} {r r' : EStateM.Result LowerError Progress α}
    (h : L.Agrees Q r r') (hQ : ∀ a g a' g', Q a g a' g' → L.Rel g g' → Q' a g a' g') :
    L.Agrees Q' r r' := by
  cases r with
  | error e g => exact h
  | ok a g =>
    cases r' with
    | error e' g' => exact h
    | ok a' g' => exact ⟨hQ a g a' g' h.1 h.2, h.2⟩

theorem shared_bind {Q' : β → Progress → β → Progress → Prop} {x y : LowerM α} {f k : α → LowerM β}
    {g g' : Progress} (hx : L.Agrees Q (x g) (y g'))
    (hf : ∀ a g₁ a' g₁', Q a g₁ a' g₁' → L.Rel g₁ g₁' → L.Agrees Q' (f a g₁) (k a' g₁')) :
    L.Agrees Q' ((x >>= f) g) ((y >>= k) g') := by
  change L.Agrees Q' (EStateM.bind x f g) (EStateM.bind y k g')
  unfold EStateM.bind
  cases hr : x g with
  | error e g₁ =>
    rw [hr] at hx
    rcases hx with hlost | ⟨g₁', hr', hrel⟩
    · exact .inl hlost
    · rw [hr']
      exact .inr ⟨g₁', rfl, hrel⟩
  | ok a g₁ =>
    cases hr' : y g' with
    | error e g₁' =>
      rw [hr, hr'] at hx
      exact hx.elim
    | ok a' g₁' =>
      rw [hr, hr'] at hx
      exact hf a g₁ a' g₁' hx.1 hx.2

theorem bind {Q : α × Scope → Progress → α × Scope → Progress → Prop}
    {Q' : β × Scope → Progress → β × Scope → Progress → Prop} {x y : BodyM α} {f k : α → BodyM β}
    {s s' : Scope} {g g' : Progress} (hx : L.Agrees Q (x s g) (y s' g'))
    (hf : ∀ r g₁ r' g₁', Q r g₁ r' g₁' → L.Rel g₁ g₁' →
      L.Agrees Q' (f r.1 r.2 g₁) (k r'.1 r'.2 g₁')) :
    L.Agrees Q' ((x >>= f) s g) ((y >>= k) s' g') :=
  shared_bind (x := x s) (y := y s') hx hf

/-- Steps of the units leave the scopes alone. -/
theorem lift {x x' : LowerM α} {s s' : Scope} {g g' : Progress} (h : L.Agrees Q (x g) (x' g')) :
    L.Agrees (fun r g₁ r' g₁' => Q r.1 g₁ r'.1 g₁' ∧ r.2 = s ∧ r'.2 = s')
      ((liftM x : BodyM α) s g) ((liftM x' : BodyM α) s' g') :=
  h.shared_bind (f := fun a => pure (a, s)) (k := fun a => pure (a, s'))
    fun _ _ _ _ hr hg => ⟨⟨hr, rfl, rfl⟩, hg⟩

end Agrees

namespace Steps

variable {R : α → α → Prop} {R' : β → β → Prop}

theorem pure {a a' : α} (h : R a a') : L.Steps R (Pure.pure a) (Pure.pure a') :=
  fun _ _ _ _ hs hg => ⟨⟨h, hs⟩, hg⟩

theorem throw {e : LowerError} : L.Steps R (MonadExcept.throw e) (MonadExcept.throw e) :=
  fun _ _ _ g' _ hg => .inr ⟨g', rfl, hg⟩

theorem throw_bind {e : LowerError} {f f' : α → BodyM β} :
    L.Steps R' ((MonadExcept.throw e : BodyM α) >>= f) ((MonadExcept.throw e : BodyM α) >>= f') :=
  fun _ _ _ g' _ hg => .inr ⟨g', rfl, hg⟩

theorem bind {x x' : BodyM α} {f f' : α → BodyM β} (hx : L.Steps R x x')
    (hf : ∀ a a', R a a' → L.Steps R' (f a) (f' a')) : L.Steps R' (x >>= f) (x' >>= f') :=
  fun _ _ _ _ hs hg => (hx hs hg).bind fun _ _ _ _ hr hg₁ => hf _ _ hr.1 hr.2 hg₁

/-- Steps with the same results. -/
theorem bind_eq {x x' : BodyM α} {f f' : α → BodyM β} (hx : L.Steps Eq x x')
    (hf : ∀ a, L.Steps R' (f a) (f' a)) : L.Steps R' (x >>= f) (x' >>= f') :=
  hx.bind fun a _ h => h ▸ hf a

theorem get : L.Steps (Scope.Like L.view) MonadState.get MonadState.get :=
  fun _ _ _ _ hs hg => ⟨⟨hs, hs⟩, hg⟩

theorem change {f f' : Scope → Scope} (h : ∀ s s', s.Like L.view s' → (f s).Like L.view (f' s')) :
    L.Steps Eq (modify f : BodyM PUnit) (modify f') :=
  fun _ _ _ _ hs hg => ⟨⟨rfl, h _ _ hs⟩, hg⟩

theorem lift {x x' : LowerM α}
    (h : ∀ g g', L.Rel g g' → L.Agrees (fun a _ a' _ => R a a') (x g) (x' g')) :
    L.Steps R (liftM x : BodyM α) (liftM x') :=
  fun _ _ g g' hs hg => (h g g' hg).lift.imp fun _ _ _ _ hr _ => ⟨hr.1, hr.2.1 ▸ hr.2.2 ▸ hs⟩

end Steps

theorem fresh_steps (hint : String) : L.Steps Eq (fresh hint) (fresh hint) := by
  intro s s' g g' hs hg
  refine ⟨⟨?_, hs.env, ?_, hs.bindings⟩, hg⟩
  · change numberedName hint s.counter = numberedName hint s'.counter
    rw [hs.counter]
  · change s'.counter + 1 = s.counter + 1
    rw [hs.counter]

theorem bindVar_steps (v : Var) (b : Binding) : L.Steps Eq (bindVar v b) (bindVar v b) :=
  .change fun s s' hs => ⟨by simp only [hs.env], hs.counter, hs.bindings⟩

theorem emit_steps {name : String} {n n' : Node} (h : Like L.view n n') :
    L.Steps Eq (emit name n) (emit name n') := by
  refine .change fun s s' hs => ⟨hs.env, hs.counter, ?_⟩
  have hnode : n'.mapRefs L.view = n.mapRefs L.view := h
  rw [Node.mapRefsBindings_append, Node.mapRefsBindings_append, hs.bindings]
  simp only [Node.mapRefsBindings, hnode]

theorem restoringEnv_steps {R : α → α → Prop} {x x' : BodyM α} (h : L.Steps R x x') :
    L.Steps R (restoringEnv x) (restoringEnv x') := by
  refine Steps.get.bind fun s₀ s₀' hs₀ => h.bind fun a a' ha => ?_
  refine Steps.bind (R := Eq) (.change fun s s' hs => ⟨?_, hs.counter, hs.bindings⟩) fun _ _ _ => .pure ha
  simp only [hs₀.env]

/-- Checks that answer alike. -/
theorem checked_steps {c c' : BodyContext} (hfunc : c'.func = c.func) {φ : α → α}
    {r r' : Except NodeError α} (h : r'.map φ = r.map φ) :
    L.Steps (fun a a' => φ a' = φ a) (c.checked r) (c'.checked r') := by
  cases r with
  | ok a =>
    cases r' with
    | ok a' => exact .pure (Except.ok.inj h)
    | error e' => cases h
  | error e =>
    cases r' with
    | ok a' => cases h
    | error e' =>
      cases h
      unfold BodyContext.checked
      rw [hfunc]
      exact .throw

theorem closeScope_steps {c c' : BodyContext} (hfunc : c'.func = c.func) {x x' : BodyM Node}
    (h : L.Steps (Like L.view) x x') :
    L.Steps (Like L.view) (c.closeScope x) (c'.closeScope x') := by
  refine Steps.get.bind fun s₀ s₀' hs₀ => ?_
  refine Steps.bind_eq (.change fun s s' hs => ⟨hs.env, hs.counter, rfl⟩) fun _ => ?_
  refine h.bind fun n n' hn => Steps.get.bind fun s₁ s₁' hs₁ => ?_
  refine Steps.bind_eq (.change fun s s' hs => ⟨hs.env, hs.counter, hs₀.bindings⟩) fun _ => ?_
  apply checked_steps hfunc
  have hnode : n'.mapRefs L.view = n.mapRefs L.view := hn
  rw [← Node.wrapDecl_mapRefs, ← Node.wrapDecl_mapRefs, hs₁.bindings, hnode]

/-! ## Contexts -/

/-- The contexts answer alike what a body asks of them, about the globals that are known. -/
structure Ties (L : Lockstep) (Known : String → Prop) (c c' : BodyContext) : Prop where
  func : c'.func = c.func
  module : c'.setting.module = c.setting.module
  kernels : c'.setting.kernels = c.setting.kernels
  infer : ∀ ⦃locals e g g'⦄, (∀ name ∈ e.globals, Known name) → L.Rel g g' →
    L.Agrees (fun ty _ ty' _ => ty = ty') (c.setting.infer locals e g) (c'.setting.infer locals e g')
  coverage : ∀ scrutinee patterns,
    L.Steps Eq (c.checkCoverage scrutinee patterns) (c'.checkCoverage scrutinee patterns)
  ensure : ∀ ⦃name g g'⦄, Known name → L.Rel g g' →
    L.Agrees (fun id g₁ id' g₁' => L.view ⟨id', name⟩ = L.view ⟨id, name⟩ ∧
        (g₁'.table.signature? id').map (·.params.length) =
          (g₁.table.signature? id).map (·.params.length))
      (c.ensure name g) (c'.ensure name g')

namespace Ties

variable {Known : String → Prop} {c c' : BodyContext} (H : L.Ties Known c c')
include H

theorem lookup_steps (v : Var) : L.Steps Eq (c.lookup v) (c'.lookup v) := by
  refine Steps.get.bind fun s s' hs => ?_
  rw [hs.env, H.func]
  split
  · exact .pure rfl
  · exact .throw

theorem checkArity_steps (callee : String) (expected found : Nat) :
    L.Steps Eq (c.checkArity callee expected found) (c'.checkArity callee expected found) := by
  unfold BodyContext.checkArity
  rw [H.func]
  split
  · exact .pure rfl
  · exact .throw

theorem typeOf_steps {e : Expr} (he : ∀ name ∈ e.globals, Known name) :
    L.Steps Eq (c.typeOf e) (c'.typeOf e) := by
  refine Steps.get.bind fun s s' hs => ?_
  dsimp only
  rw [hs.env]
  exact .lift fun g g' hg => H.infer he hg

theorem requireType_steps {e : Expr} (he : ∀ name ∈ e.globals, Known name) (construct : String) :
    L.Steps Eq (c.requireType e construct) (c'.requireType e construct) := by
  refine (H.typeOf_steps he).bind_eq fun ty => ?_
  rw [H.func]
  split
  · exact .pure rfl
  · exact .throw

theorem letType_steps (v : Var) {value : Expr} (he : ∀ name ∈ value.globals, Known name) :
    L.Steps Eq (c.letType v value) (c'.letType v value) := by
  unfold BodyContext.letType
  split
  · exact .pure rfl
  · exact (H.typeOf_steps he).bind_eq fun _ => .pure rfl

theorem ctorInfo_steps (name : String) : L.Steps Eq (c.ctorInfo name) (c'.ctorInfo name) := by
  unfold BodyContext.ctorInfo
  rw [H.module, H.func]
  split
  · exact .pure rfl
  · exact .throw

theorem checkCtorPattern_steps (name : String) (info : CtorInfo) (ty : Option Ty) :
    L.Steps Eq (c.checkCtorPattern name info ty) (c'.checkCtorPattern name info ty) := by
  unfold BodyContext.checkCtorPattern
  rw [H.func]
  split
  · exact .pure rfl
  · split
    · exact .pure rfl
    · exact .throw

theorem tuplePatternFields_steps (width : Nat) (ty : Option Ty) :
    L.Steps Eq (c.tuplePatternFields width ty) (c'.tuplePatternFields width ty) := by
  unfold BodyContext.tuplePatternFields
  rw [H.func]
  split
  · exact .pure rfl
  · exact (H.checkArity_steps _ _ _).bind_eq fun _ => .pure rfl
  · exact .throw

theorem checkCallee_steps {callee : Expr} (he : ∀ name ∈ callee.globals, Known name) (found : Nat) :
    L.Steps Eq (c.checkCallee callee found) (c'.checkCallee callee found) := by
  refine (H.typeOf_steps he).bind_eq fun ty => ?_
  split
  · exact H.checkArity_steps _ _ _
  · exact .pure rfl

theorem checkCondition_steps {cond : Expr} (he : ∀ name ∈ cond.globals, Known name) :
    L.Steps Eq (c.checkCondition cond) (c'.checkCondition cond) := by
  refine (H.typeOf_steps he).bind_eq fun ty => ?_
  rw [H.func]
  split
  · exact .pure rfl
  · split
    · exact .pure rfl
    · exact .throw

theorem constructInfo_steps (name : String) (found : Nat) (ty : Ty) :
    L.Steps Eq (c.constructInfo name found ty) (c'.constructInfo name found ty) := by
  refine (H.ctorInfo_steps name).bind_eq fun info => ?_
  dsimp only
  rw [H.func]
  split
  · exact .throw_bind
  · exact (H.checkArity_steps _ _ _).bind_eq fun _ => .pure rfl

theorem kernelArity_steps (name : String) {args : List Expr} (ty : Ty)
    (he : ∀ name ∈ Expr.listGlobals args, Known name) :
    L.Steps Eq (c.kernelArity name args ty) (c'.kernelArity name args ty) := by
  have hhead : L.Steps Eq (args.head?.elim (pure none) c.typeOf)
      (args.head?.elim (pure none) c'.typeOf) := by
    cases args with
    | nil => exact .pure rfl
    | cons e es => exact H.typeOf_steps fun name hname => he name (List.mem_append_left _ hname)
  unfold BodyContext.kernelArity
  rw [H.kernels, H.func]
  split
  · dsimp only
    split
    · exact .throw_bind
    · split
      · exact (H.checkArity_steps _ _ _).bind_eq fun _ => .pure rfl
      · refine (H.checkArity_steps _ _ _).bind_eq fun _ => hhead.bind_eq fun ty => ?_
        split
        · exact .pure rfl
        · exact .throw
        · exact .throw
  · exact .throw

theorem bindParams_steps (vs : List Var) : L.Steps Eq (c.bindParams vs) (c'.bindParams vs) := by
  induction vs with
  | nil => exact .pure rfl
  | cons v vs ih =>
    rw [BodyContext.bindParams, BodyContext.bindParams, H.func]
    split
    · exact .throw_bind
    · refine (fresh_steps v.name).bind_eq fun name => (bindVar_steps v _).bind_eq fun _ => ?_
      exact ih.bind_eq fun _ => .pure rfl

theorem captures_steps (self : Option Nat) (vs : List Var) :
    L.Steps Eq (c.captures self vs) (c'.captures self vs) := by
  induction vs with
  | nil => exact .pure rfl
  | cons v vs ih =>
    rw [BodyContext.captures, BodyContext.captures]
    split
    · exact ih
    · exact (H.lookup_steps v).bind_eq fun _ => ih.bind_eq fun _ => .pure rfl

/-! ## Patterns -/

omit H in
mutual

theorem lowerPattern_steps (H : L.Ties Known c c') : ∀ (p : Source.Pattern) (ty : Option Ty),
    L.Steps Eq (lowerPattern c p ty) (lowerPattern c' p ty)
  | .wildcard, _ => by
    rw [lowerPattern, lowerPattern]
    exact .pure rfl
  | .var v, _ => by
    rw [lowerPattern, lowerPattern]
    exact (fresh_steps _).bind_eq fun _ => (bindVar_steps _ _).bind_eq fun _ => .pure rfl
  | .ctor name ps, ty => by
    rw [lowerPattern, lowerPattern]
    refine (H.ctorInfo_steps name).bind_eq fun info => ?_
    refine (H.checkCtorPattern_steps name info _).bind_eq fun _ => ?_
    refine (H.checkArity_steps _ _ _).bind_eq fun _ => ?_
    exact (lowerPatterns_steps H ps info.fields).bind_eq fun _ => .pure rfl
  | .tuple ps, _ => by
    rw [lowerPattern, lowerPattern]
    refine (H.tuplePatternFields_steps _ _).bind_eq fun tys => ?_
    exact (lowerPatterns_steps H ps tys).bind_eq fun _ => .pure rfl

theorem lowerPatterns_steps (H : L.Ties Known c c') : ∀ (ps : List Source.Pattern) (tys : List Ty),
    L.Steps Eq (lowerPatterns c ps tys) (lowerPatterns c' ps tys)
  | [], _ => by
    rw [lowerPatterns, lowerPatterns]
    exact .pure rfl
  | p :: ps, tys => by
    rw [lowerPatterns, lowerPatterns]
    refine (lowerPattern_steps H p _).bind_eq fun _ => ?_
    exact (lowerPatterns_steps H ps _).bind_eq fun _ => .pure rfl

end

/-! ## Functions, clauses and bindings -/

theorem function_steps (name : Option String) {f : Source.Function} (captures : List Param)
    (ret : Option Ty) (hf : ∀ name ∈ f.body.globals, Known name) {x x' : BodyM Node}
    (hx : L.Steps (Like L.view) x x') :
    L.Steps (fun f₁ f₂ => f₂.mapRefs L.view = f₁.mapRefs L.view)
      (c.function name f captures ret x) (c'.function name f captures ret x') := by
  refine Steps.bind (R := fun r r' => r'.1 = r.1 ∧ Like L.view r.2.1 r'.2.1 ∧ r'.2.2 = r.2.2) ?_
    fun r r' hr => ?_
  · apply restoringEnv_steps
    refine (H.bindParams_steps f.params).bind_eq fun params => ?_
    refine (closeScope_steps H.func hx).bind fun body body' hbody => ?_
    split
    · exact .pure ⟨rfl, hbody, rfl⟩
    · exact (H.requireType_steps hf _).bind_eq fun _ => .pure ⟨rfl, hbody, rfl⟩
  · obtain ⟨params, body, ret₁⟩ := r
    obtain ⟨params', body', ret₁'⟩ := r'
    obtain ⟨rfl, hbody, rfl⟩ := hr
    have hnode : body'.mapRefs L.view = body.mapRefs L.view := hbody
    apply checked_steps H.func
    rw [← Function.mkChecked_mapRefs, ← Function.mkChecked_mapRefs, hnode]

theorem closure_steps (self : Option (Nat × String)) {f : Source.Function}
    (hf : ∀ name ∈ f.body.globals, Known name) {x x' : BodyM Node}
    (hx : L.Steps (Like L.view) x x') :
    L.Steps (fun f₁ f₂ => f₂.mapRefs L.view = f₁.mapRefs L.view)
      (c.closure self f x) (c'.closure self f x') :=
  (H.captures_steps _ _).bind_eq fun captures => H.function_steps _ captures none hf hx

theorem letValue_steps (v : Var) {value : Expr} (hvalue : ∀ name ∈ value.globals, Known name)
    {x x' : BodyM Node} (hx : L.Steps (Like L.view) x x') :
    L.Steps Eq (c.letValue v value x) (c'.letValue v value x') := by
  refine (fresh_steps v.name).bind_eq fun name => hx.bind fun n n' hn => ?_
  refine (H.letType_steps v hvalue).bind_eq fun ty => (bindVar_steps v _).bind_eq fun _ => ?_
  exact emit_steps hn

theorem letFunction_steps (v : Var) {f : Source.Function}
    (hf : ∀ name ∈ f.body.globals, Known name) {x x' : BodyM Node}
    (hx : L.Steps (Like L.view) x x') :
    L.Steps Eq (c.letFunction v f x) (c'.letFunction v f x') := by
  refine (fresh_steps v.name).bind_eq fun name => (bindVar_steps v _).bind_eq fun _ => ?_
  refine (H.closure_steps _ hf hx).bind fun f₁ f₂ h => ?_
  have htype : (f₂.mapRefs L.view).fnType = (f₁.mapRefs L.view).fnType := by rw [h]
  change f₂.fnType = f₁.fnType at htype
  rw [htype]
  refine (bindVar_steps v _).bind_eq fun _ => emit_steps ?_
  exact congrArg Lowered.Function.toNode h

theorem clause_steps (scrutinee result : Option Ty) (p : Source.Pattern) {e : Expr}
    (he : ∀ name ∈ e.globals, Known name) {x x' : BodyM Node} (hx : L.Steps (Like L.view) x x') :
    L.Steps (fun r r' => r'.1.1 = r.1.1 ∧ Like L.view r.1.2 r'.1.2 ∧ r'.2 = r.2)
      (c.clause scrutinee result p e x) (c'.clause scrutinee result p e x') := by
  apply restoringEnv_steps
  refine (H.lowerPattern_steps p scrutinee).bind_eq fun q => ?_
  refine (closeScope_steps H.func hx).bind fun n n' hn => ?_
  split
  · exact .pure ⟨rfl, hn, rfl⟩
  · exact (H.typeOf_steps he).bind_eq fun _ => .pure ⟨rfl, hn, rfl⟩

/-- A global is called with the arity that both sides have reserved for it. -/
theorem checkGlobalArity_steps {name : String} (hname : Known name) (found : Nat)
    {R : α → α → Prop} {f f' : FunctionId → BodyM α}
    (hf : ∀ id id', L.view ⟨id', name⟩ = L.view ⟨id, name⟩ → L.Steps R (f id) (f' id')) :
    L.Steps R (do let id ← c.ensure name; c.checkGlobalArity name id found; f id)
      (do let id ← c'.ensure name; c'.checkGlobalArity name id found; f' id) := by
  intro s s' g g' hs hg
  refine (H.ensure hname hg).lift.bind fun r g₁ r' g₁' hr hg₁ => ?_
  obtain ⟨id, s₁⟩ := r
  obtain ⟨id', s₁'⟩ := r'
  obtain ⟨⟨hid, hparams⟩, rfl, rfl⟩ := hr
  have hcheck : L.Steps Eq (c.checkArity ("function '" ++ name ++ "'")
      (((g₁.table.signature? id).map (·.params.length)).getD found) found)
      (c'.checkArity ("function '" ++ name ++ "'")
      (((g₁'.table.signature? id').map (·.params.length)).getD found) found) := by
    rw [hparams]
    exact H.checkArity_steps _ _ _
  exact (hcheck hs hg₁).bind (x := c.checkGlobalArity name id found)
    (y := c'.checkGlobalArity name id' found) fun r g₂ r' g₂' hr hg₂ => hf id id' hid hr.2 hg₂

end Ties

/-! ## Expressions -/

section

variable (L) (Known : String → Prop) (c c' : BodyContext)

/-- Side by side, the expression is lowered to nodes that differ in references only. -/
def Lowers (e : Expr) : Prop :=
  (∀ name ∈ e.globals, Known name) → L.Steps (Like L.view) (lowerExpr c e) (lowerExpr c' e)

def LowersAll (es : List Expr) : Prop :=
  (∀ name ∈ Expr.listGlobals es, Known name) →
    L.Steps (fun ns ns' => Node.mapRefsAll L.view ns' = Node.mapRefsAll L.view ns)
      (lowerExprs c es) (lowerExprs c' es)

def LowersClauses (cs : List (Source.Pattern × Expr)) : Prop :=
  (∀ name ∈ Expr.clauseGlobals cs, Known name) → ∀ scrutinee result : Option Ty,
    L.Steps (fun r r' => Node.mapRefsClauses L.view r'.1 = Node.mapRefsClauses L.view r.1 ∧
        r'.2 = r.2)
      (lowerClauses c scrutinee result cs) (lowerClauses c' scrutinee result cs)

end

variable {Known : String → Prop} {c c' : BodyContext}

theorem Ties.matchOn_steps (H : L.Ties Known c c') {data : Expr}
    {clauses : List (Source.Pattern × Expr)} {ty : Ty} (ih : L.Lowers Known c c' data)
    (ihs : L.LowersClauses Known c c' clauses) :
    L.Lowers Known c c' (.matchOn data clauses ty) := by
  intro h
  simp only [Expr.globals, List.mem_append, or_imp, forall_and] at h
  rw [lowerExpr, lowerExpr]
  refine (ih h.1).bind fun n n' hn => (H.typeOf_steps h.1).bind_eq fun scrutinee => ?_
  refine (ihs h.2 scrutinee ty.resolved?).bind fun r r' hr => ?_
  obtain ⟨cs, result⟩ := r
  obtain ⟨cs', result'⟩ := r'
  obtain ⟨hcs, rfl⟩ := hr
  have hpatterns := congrArg (List.map Prod.fst) hcs
  rw [Node.patterns_mapRefsClauses, Node.patterns_mapRefsClauses] at hpatterns
  dsimp only
  rw [hpatterns]
  refine (H.coverage scrutinee _).bind_eq fun _ => ?_
  cases result' with
  | none =>
    rw [H.func]
    exact .throw
  | some ty' =>
    have hnode : n'.mapRefs L.view = n.mapRefs L.view := hn
    apply checked_steps H.func
    rw [← Node.mkMatch_mapRefs, ← Node.mkMatch_mapRefs, hcs, hnode]

/-- Lowering goes in lockstep where the contexts answer alike. -/
theorem Ties.cases (H : L.Ties Known c c') :
    Expr.Cases (L.Lowers Known c c') (L.LowersAll Known c c') (L.LowersClauses Known c c') where
  var v _ := by
    rw [lowerExpr, lowerExpr]
    exact (H.lookup_steps v).bind_eq fun _ => .pure rfl
  const t _ := by
    rw [lowerExpr, lowerExpr]
    exact .pure rfl
  letFunction v params fbody ret body ihf ih h := by
    simp only [Expr.globals, List.mem_append, or_imp, forall_and] at h
    rw [lowerExpr, lowerExpr]
    exact (H.letFunction_steps v (f := ⟨params, fbody, ret⟩) h.1 (ihf h.1)).bind_eq fun _ => ih h.2
  letValue v value body hvalue ihv ih h := by
    simp only [Expr.globals, List.mem_append, or_imp, forall_and] at h
    rw [lowerExpr_letIn hvalue, lowerExpr_letIn hvalue]
    exact (H.letValue_steps v h.1 (ihv h.1)).bind_eq fun _ => ih h.2
  func params body ret ih h := by
    rw [lowerExpr, lowerExpr]
    refine (H.closure_steps none (f := ⟨params, body, ret⟩) h (ih h)).bind fun f f' hf => .pure ?_
    exact congrArg Lowered.Function.toNode hf
  global name h := by
    rw [lowerExpr, lowerExpr]
    refine Steps.bind (R := fun id id' => L.view ⟨id', name⟩ = L.view ⟨id, name⟩) (.lift fun g g' hg => ?_)
      fun id id' hid => .pure (congrArg Node.global hid)
    exact (H.ensure (h name (List.mem_singleton_self name)) hg).imp fun _ _ _ _ hid _ => hid.1
  op name _ := by
    rw [lowerExpr, lowerExpr, H.func]
    exact .throw
  callKernel name args ty ihs h := by
    rw [lowerExpr, lowerExpr]
    refine (H.kernelArity_steps name ty h).bind_eq fun shape => ?_
    refine (ihs h).bind fun ns ns' hns => checked_steps H.func ?_
    rw [← Node.mkPacked_mapRefs, ← Node.mkPacked_mapRefs, hns]
  callGlobal name args ty ihs h := by
    rw [lowerExpr, lowerExpr]
    refine H.checkGlobalArity_steps (h name (by simp)) args.length fun id id' hid => ?_
    refine (ihs fun name hname => h name (by simp [hname])).bind fun ns ns' hns => .pure ?_
    exact congrArg₂ Node.invoke hid hns
  call callee args ty hcallee ih ihs h := by
    simp only [Expr.globals, List.mem_append, or_imp, forall_and] at h
    rw [lowerExpr_call hcallee, lowerExpr_call hcallee]
    refine (H.checkCallee_steps h.1 _).bind_eq fun _ => (ih h.1).bind fun n n' hn => ?_
    exact (ihs h.2).bind fun ns ns' hns => .pure (congrArg₂ Node.apply hn hns)
  ite cond onTrue onFalse ty ihc iht ihf h := by
    have h' := h
    simp only [Expr.globals, List.mem_append, or_imp, forall_and] at h'
    rw [lowerExpr, lowerExpr]
    refine (ihc h'.1).bind fun n₁ n₁' hn₁ => (H.checkCondition_steps h'.1).bind_eq fun _ => ?_
    refine (closeScope_steps H.func (iht h'.2.1)).bind fun n₂ n₂' hn₂ => ?_
    refine (closeScope_steps H.func (ihf h'.2.2)).bind fun n₃ n₃' hn₃ => ?_
    refine (H.requireType_steps h _).bind_eq fun ty => checked_steps H.func ?_
    unfold Like at hn₁ hn₂ hn₃
    rw [← Node.mkIte_mapRefs, ← Node.mkIte_mapRefs, hn₁, hn₂, hn₃]
  tuple fields ty ihs h := by
    rw [lowerExpr, lowerExpr]
    refine (ihs h).bind fun ns ns' hns => (H.requireType_steps h _).bind_eq fun ty => ?_
    apply checked_steps H.func
    rw [← Node.mkTuple_mapRefs, ← Node.mkTuple_mapRefs, hns]
  matchOn data clauses ty ih ihs := H.matchOn_steps ih ihs
  construct name fields ty ihs h := by
    rw [lowerExpr, lowerExpr]
    refine (H.constructInfo_steps name _ ty).bind_eq fun info => (ihs h).bind fun ns ns' hns => ?_
    apply checked_steps H.func
    rw [← Node.mkCtor_mapRefs, ← Node.mkCtor_mapRefs, hns]
  nil _ := by
    rw [lowerExprs, lowerExprs]
    exact .pure rfl
  cons e es ih ihs h := by
    simp only [Expr.listGlobals, List.mem_append, or_imp, forall_and] at h
    rw [lowerExprs, lowerExprs]
    refine (ih h.1).bind fun n n' hn => (ihs h.2).bind fun ns ns' hns => .pure ?_
    exact congrArg₂ List.cons hn hns
  nilClause _ scrutinee result := by
    rw [lowerClauses, lowerClauses]
    exact .pure ⟨rfl, rfl⟩
  consClause p e rest ih ihs h scrutinee result := by
    simp only [Expr.clauseGlobals, List.mem_append, or_imp, forall_and] at h
    rw [lowerClauses, lowerClauses]
    refine (H.clause_steps scrutinee result p h.1 (ih h.1)).bind fun r r' hr => ?_
    obtain ⟨⟨q, n⟩, ty⟩ := r
    obtain ⟨⟨q', n'⟩, ty'⟩ := r'
    obtain ⟨rfl, hn, rfl⟩ := hr
    refine (ihs h.2 scrutinee ty').bind fun r r' hr => .pure ⟨?_, hr.2⟩
    exact congrArg₂ List.cons (congrArg (Prod.mk q') hn) hr.1

/-- The lowering of a definition. -/
theorem Ties.definition_agrees (H : L.Ties Known c c') {f : Source.Function} (ret : Option Ty)
    (hf : ∀ name ∈ f.body.globals, Known name) {g g' : Progress} (hg : L.Rel g g') :
    L.Agrees (fun r _ r' _ => r'.1.mapRefs L.view = r.1.mapRefs L.view ∧ r'.2.counter = r.2.counter)
      (c.function none f [] ret (lowerExpr c f.body) {} g)
      (c'.function none f [] ret (lowerExpr c' f.body) {} g') :=
  (H.function_steps none [] ret hf (H.cases.expr f.body hf) ⟨rfl, rfl, rfl⟩ hg).imp
    fun _ _ _ _ hr _ => ⟨hr.1, hr.2.counter⟩

end Lockstep

end TensorIR.Lowering
