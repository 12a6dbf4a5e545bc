import TensorIR.Proofs.LoweringTranslates

/-! What lowering does to a unit, whether it succeeds or fails.

A unit goes on after a failed request, with all that the request has done to its table. Most steps are
simple ones, which do nothing to it (`Inert`). What the others keep is told by a growth of tables
(`Growth.Keeps`): the invariant holds again however the step ends, and a success has a result with
some property. -/

namespace TensorIR.Lowering

open Source Lowered

/-! ## Simple steps -/

/-- A node has been refused. -/
def LowerError.refusesNode : LowerError → Bool
  | .invalidNode .. => true
  | _ => false

/-- The step is put together from steps that look at what is known, name variables or give up. It
neither builds nodes nor turns to other functions. -/
inductive Simple : {α : Type} → BodyM α → Prop
  | pure {α : Type} (a : α) : Simple (Pure.pure a)
  | throw {α : Type} {e : LowerError} : e.refusesNode = false →
    Simple (MonadExcept.throw e : BodyM α)
  | update {α : Type} {f : Scope → α × Scope} : (∀ s, (f s).2.bindings = s.bindings) →
    Simple (modifyGet f : BodyM α)
  | shared {α : Type} {x : LowerM α} : (∀ g, ∃ a g', x g = .ok a g' ∧ g'.table = g.table) →
    Simple (liftM x : BodyM α)
  | bind {α β : Type} {x : BodyM α} {f : α → BodyM β} : Simple x → (∀ a, Simple (f a)) →
    Simple (x >>= f)

namespace Simple

theorem throw_bind {α β : Type} {e : LowerError} (h : e.refusesNode = false) (f : α → BodyM β) :
    Simple ((MonadExcept.throw e : BodyM α) >>= f) :=
  Simple.throw h

theorem get : Simple (MonadState.get : BodyM Scope) :=
  .update (f := fun s => (s, s)) fun _ => rfl

end Simple

theorem fresh_simple (hint : String) : Simple (fresh hint) :=
  .update (f := fun s => (numberedName hint s.counter, { s with counter := s.counter + 1 }))
    fun _ => rfl

theorem bindVar_simple (v : Var) (b : Binding) : Simple (bindVar v b) := .update fun _ => rfl

namespace BodyContext

variable {c : BodyContext}

theorem lookup_simple (v : Var) : Simple (c.lookup v) := by
  refine Simple.get.bind fun s => ?_
  split
  · exact .pure _
  · exact .throw rfl

theorem checkArity_simple (callee : String) (expected found : Nat) :
    Simple (c.checkArity callee expected found) := by
  unfold checkArity
  split
  · exact .pure _
  · exact .throw rfl

theorem typeOf_simple (e : Expr) : Simple (c.typeOf e) :=
  Simple.get.bind fun _ => .shared fun _ => ⟨_, _, rfl, rfl⟩

theorem requireType_simple (e : Expr) (construct : String) : Simple (c.requireType e construct) := by
  refine (typeOf_simple e).bind fun ty => ?_
  cases ty with
  | some ty => exact .pure ty
  | none => exact .throw rfl

theorem letType_simple (v : Var) (value : Expr) : Simple (c.letType v value) := by
  unfold letType
  split
  · exact .pure _
  · exact (typeOf_simple value).bind fun _ => .pure _

theorem ctorInfo_simple (name : String) : Simple (c.ctorInfo name) := by
  unfold ctorInfo
  split
  · exact .pure _
  · exact .throw rfl

theorem checkCtorPattern_simple (name : String) (info : CtorInfo) (ty : Option Ty) :
    Simple (c.checkCtorPattern name info ty) := by
  unfold checkCtorPattern
  split
  · exact .pure _
  · split
    · exact .pure _
    · exact .throw rfl

theorem tuplePatternFields_simple (width : Nat) (ty : Option Ty) :
    Simple (c.tuplePatternFields width ty) := by
  unfold tuplePatternFields
  split
  · exact .pure _
  · exact (checkArity_simple _ _ _).bind fun _ => .pure _
  · exact .throw rfl

theorem checkCoverage_simple (scrutinee : Option Ty) (patterns : List Lowered.Pattern) :
    Simple (c.checkCoverage scrutinee patterns) := by
  unfold checkCoverage
  split
  · split
    · exact .shared fun _ => ⟨_, _, rfl, rfl⟩
    · split
      · exact .pure _
      · exact .throw rfl
  · exact .pure _

theorem checkCallee_simple (callee : Expr) (found : Nat) :
    Simple (c.checkCallee callee found) := by
  refine (typeOf_simple callee).bind fun ty => ?_
  split
  · exact checkArity_simple _ _ _
  · exact .pure _

theorem checkCondition_simple (cond : Expr) : Simple (c.checkCondition cond) := by
  refine (typeOf_simple cond).bind fun ty => ?_
  split
  · exact .pure _
  · split
    · exact .pure _
    · exact .throw rfl

theorem checkGlobalArity_simple (name : String) (id : FunctionId) (found : Nat) :
    Simple (c.checkGlobalArity name id found) := by
  have hget : Simple (getThe Progress : BodyM Progress) :=
    .shared (x := MonadState.get) fun g => ⟨g, g, rfl, rfl⟩
  exact hget.bind fun _ => checkArity_simple _ _ _

theorem constructInfo_simple (name : String) (found : Nat) (ty : Ty) :
    Simple (c.constructInfo name found ty) := by
  refine (ctorInfo_simple name).bind fun info => ?_
  dsimp only
  split
  · exact .throw_bind rfl _
  · exact (checkArity_simple _ _ _).bind fun _ => .pure _

theorem kernelArity_simple (name : String) (args : List Expr) (ty : Ty) :
    Simple (c.kernelArity name args ty) := by
  have hhead : Simple (args.head?.elim (pure none) c.typeOf) := by
    cases args with
    | nil => exact .pure _
    | cons e es => exact typeOf_simple e
  unfold kernelArity
  split
  · split
    all_goals dsimp only; split
    · exact .throw_bind rfl _
    · exact (checkArity_simple _ _ _).bind fun _ => .pure _
    · exact .throw_bind rfl _
    · refine (checkArity_simple _ _ _).bind fun _ => hhead.bind fun ty => ?_
      split
      · exact .pure _
      · exact .throw rfl
      · exact .throw rfl
  · exact .throw rfl

theorem bindParams_simple (vs : List Var) : Simple (c.bindParams vs) := by
  induction vs with
  | nil => exact .pure _
  | cons v vs ih =>
    rw [bindParams]
    split
    · exact .throw_bind rfl _
    · exact (fresh_simple v.name).bind fun _ => (bindVar_simple v _).bind fun _ =>
        ih.bind fun _ => .pure _

theorem captures_simple (self : Option Nat) (vs : List Var) : Simple (c.captures self vs) := by
  induction vs with
  | nil => exact .pure _
  | cons v vs ih =>
    rw [captures]
    split
    · exact ih
    · exact (lookup_simple v).bind fun _ => ih.bind fun _ => .pure _

end BodyContext

mutual

theorem lowerPattern_simple {c : BodyContext} : ∀ (p : Source.Pattern) (ty : Option Ty),
    Simple (lowerPattern c p ty)
  | .wildcard, _ => by
    rw [lowerPattern]
    exact .pure _
  | .var v, _ => by
    rw [lowerPattern]
    exact (fresh_simple _).bind fun _ => (bindVar_simple _ _).bind fun _ => .pure _
  | .ctor name ps, _ => by
    rw [lowerPattern]
    exact (BodyContext.ctorInfo_simple name).bind fun info =>
      (BodyContext.checkCtorPattern_simple name info _).bind fun _ =>
        (BodyContext.checkArity_simple _ _ _).bind fun _ =>
          (lowerPatterns_simple ps info.fields).bind fun _ => .pure _
  | .tuple ps, _ => by
    rw [lowerPattern]
    exact (BodyContext.tuplePatternFields_simple _ _).bind fun tys =>
      (lowerPatterns_simple ps tys).bind fun _ => .pure _

theorem lowerPatterns_simple {c : BodyContext} : ∀ (ps : List Source.Pattern) (tys : List Ty),
    Simple (lowerPatterns c ps tys)
  | [], _ => by
    rw [lowerPatterns]
    exact .pure _
  | p :: ps, tys => by
    rw [lowerPatterns]
    exact (lowerPattern_simple p _).bind fun _ => (lowerPatterns_simple ps _).bind fun _ => .pure _

end

/-! ## Inert steps -/

/-- The step leaves the function table and the open bindings as they are. -/
def Inert {α : Type} (x : BodyM α) : Prop :=
  ∀ s g, match x s g with
    | .ok (_, s') g' => s'.bindings = s.bindings ∧ g'.table = g.table
    | .error _ g' => g'.table = g.table

namespace Inert

variable {α β : Type}

theorem throw (e : LowerError) : Inert (MonadExcept.throw e : BodyM α) := fun _ _ => rfl

theorem bind {x : BodyM α} {f : α → BodyM β} (hx : Inert x) (hf : ∀ a, Inert (f a)) :
    Inert (x >>= f) := by
  intro s g
  have hfirst := hx s g
  rw [bind_apply]
  cases hr : x s g with
  | error e g' =>
    rw [hr] at hfirst
    exact hfirst
  | ok r g' =>
    obtain ⟨a, s'⟩ := r
    rw [hr] at hfirst
    have hsecond := hf a s' g'
    cases hr' : f a s' g' with
    | error e g'' =>
      rw [hr'] at hsecond
      simpa only [hr'] using hsecond.trans hfirst.2
    | ok r' g'' =>
      rw [hr'] at hsecond
      simpa only [hr'] using ⟨hsecond.1.trans hfirst.1, hsecond.2.trans hfirst.2⟩

end Inert

theorem Simple.inert {α : Type} {x : BodyM α} (h : Simple x) : Inert x := by
  induction h with
  | pure a => exact fun _ _ => ⟨rfl, rfl⟩
  | throw => exact .throw _
  | update hf => exact fun s _ => ⟨hf s, rfl⟩
  | shared hx =>
    intro s g
    obtain ⟨a, g', hr, htable⟩ := hx g
    rw [lift_eq_ok.mpr ⟨hr, rfl⟩]
    exact ⟨rfl, htable⟩
  | bind _ _ ih ihf => exact ih.bind ihf

/-- Checking a node may refuse it, and does nothing else. -/
theorem BodyContext.checked_inert {c : BodyContext} {α : Type} (result : Except NodeError α) :
    Inert (c.checked result) := by
  cases result with
  | ok a => exact fun _ _ => ⟨rfl, rfl⟩
  | error e => exact .throw _

/-! ## Steps that keep what is known of the table -/

/-- However the step ends, the table has grown and satisfies the invariant again; and a success has
a result with the property. -/
def Growth.Keeps {α : Type} (S : Growth) (g : Progress) (Q : α → FunctionTable → Prop) :
    EStateM.Result LowerError Progress α → Prop
  | .ok a g' => S.Extends g g' ∧ Q a g'.table
  | .error _ g' => S.Extends g g'

namespace Growth.Keeps

variable {S : Growth} {α β : Type} {s : Scope} {g g₀ : Progress}

theorem imp {Q Q' : α → FunctionTable → Prop} {r : EStateM.Result LowerError Progress α}
    (h : S.Keeps g Q r) (hQ : ∀ a g', S.Extends g g' → Q a g'.table → Q' a g'.table) :
    S.Keeps g Q' r := by
  cases r with
  | ok a g' => exact ⟨h.1, hQ a g' h.1 h.2⟩
  | error e g' => exact h

theorem pure {Q : α × Scope → FunctionTable → Prop} {a : α} (hinv : S.Inv g.table)
    (hQ : Q (a, s) g.table) : S.Keeps g Q ((Pure.pure a : BodyM α) s g) :=
  ⟨.of_table_eq hinv rfl, hQ⟩

theorem with_eq {Q : α → FunctionTable → Prop} {r : EStateM.Result LowerError Progress α}
    (h : S.Keeps g Q r) : S.Keeps g (fun a t => Q a t ∧ ∃ g', r = .ok a g') r := by
  cases r with
  | ok a g' => exact ⟨h.1, h.2, g', rfl⟩
  | error e g' => exact h

/-- What a step keeps it keeps from any earlier point on. -/
theorem after {Q : α → FunctionTable → Prop} {r : EStateM.Result LowerError Progress α}
    (h : S.Keeps g Q r) (hext : S.Extends g₀ g) : S.Keeps g₀ Q r := by
  cases r with
  | ok a g' => exact ⟨hext.trans h.1, h.2⟩
  | error e g' => exact hext.trans h

theorem bind {Q : α × Scope → FunctionTable → Prop} {Q' : β × Scope → FunctionTable → Prop}
    {x : BodyM α} {f : α → BodyM β} (hx : S.Keeps g Q (x s g))
    (hf : ∀ a s' g', S.Extends g g' → Q (a, s') g'.table → S.Keeps g' Q' (f a s' g')) :
    S.Keeps g Q' ((x >>= f) s g) := by
  rw [bind_apply]
  cases hr : x s g with
  | error e g' =>
    rw [hr] at hx
    exact hx
  | ok r g' =>
    rw [hr] at hx
    exact (hf r.1 r.2 g' hx.1 hx.2).after hx.1

theorem shared_bind {Q : α → FunctionTable → Prop} {Q' : β → FunctionTable → Prop}
    {x : LowerM α} {f : α → LowerM β} (hx : S.Keeps g Q (x g))
    (hf : ∀ a g', S.Extends g g' → Q a g'.table → S.Keeps g' Q' (f a g')) :
    S.Keeps g Q' ((x >>= f) g) := by
  change S.Keeps g Q' (EStateM.bind x f g)
  rw [EStateM.bind]
  cases hr : x g with
  | error e g' =>
    rw [hr] at hx
    exact hx
  | ok a g' =>
    rw [hr] at hx
    exact (hf a g' hx.1 hx.2).after hx.1

theorem lift {Q : α → FunctionTable → Prop} {x : LowerM α} (h : S.Keeps g Q (x g)) :
    S.Keeps g (fun r t => Q r.1 t ∧ r.2 = s) ((liftM x : BodyM α) s g) :=
  h.shared_bind fun _ _ hext ha => ⟨.of_table_eq hext.1 rfl, ha, rfl⟩

/-- A simple step changes nothing, and what its success tells may be used after it. -/
theorem simple_bind {Q : β × Scope → FunctionTable → Prop} {x : BodyM α} {f : α → BodyM β}
    (hx : Simple x) (hinv : S.Inv g.table)
    (hf : ∀ a s' g', x s g = .ok (a, s') g' → s'.bindings = s.bindings → g'.table = g.table →
      S.Keeps g' Q (f a s' g')) : S.Keeps g Q ((x >>= f) s g) := by
  have hfirst := hx.inert s g
  rw [bind_apply]
  cases hr : x s g with
  | error e g' =>
    rw [hr] at hfirst
    exact .of_table_eq hinv hfirst
  | ok r g' =>
    rw [hr] at hfirst
    exact (hf r.1 r.2 g' hr hfirst.1 hfirst.2).after (.of_table_eq hinv hfirst.2)

/-- An inert step at the end. -/
theorem of_inert {Q : α × Scope → FunctionTable → Prop} {x : BodyM α} (hx : Inert x)
    (hinv : S.Inv g.table)
    (hQ : ∀ a s' g', x s g = .ok (a, s') g' → s'.bindings = s.bindings → Q (a, s') g.table) :
    S.Keeps g Q (x s g) := by
  have hfirst := hx s g
  cases hr : x s g with
  | error e g' =>
    rw [hr] at hfirst
    exact .of_table_eq hinv hfirst
  | ok r g' =>
    rw [hr] at hfirst
    refine ⟨.of_table_eq hinv hfirst.2, ?_⟩
    rw [hfirst.2]
    exact hQ r.1 r.2 g' hr hfirst.1

end Growth.Keeps

end TensorIR.Lowering
