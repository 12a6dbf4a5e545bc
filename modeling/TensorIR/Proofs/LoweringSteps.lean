import TensorIR.Lowering.Unit
import TensorIR.Proofs.Steps

/-! What the single steps of lowering do when they succeed.

Most checks read the state and leave it as it is (`Reads`). The others change the scope in one way
each, which their lemma states. Nothing but the lowering of further globals changes the function
table. -/

namespace TensorIR.Lowering

open Source Lowered

attribute [local simp] BodyContext.checkArity BodyContext.letType BodyContext.ctorInfo
  BodyContext.checkCtorPattern BodyContext.checkCoverage

/-- A step that, when it succeeds, has left the scope and the function table as they were. -/
def Reads {α : Type} (x : BodyM α) : Prop :=
  ∀ ⦃s s' : Scope⦄ ⦃g g' : Progress⦄ ⦃a : α⦄, x s g = .ok (a, s') g' → s' = s ∧ g'.table = g.table

namespace Reads

variable {α β : Type}

theorem pure (a : α) : Reads (Pure.pure a : BodyM α) := by
  intro s s' g g' b h
  obtain ⟨_, rfl, rfl⟩ := pure_eq_ok.mp h
  exact ⟨rfl, rfl⟩

theorem throw (e : LowerError) : Reads (MonadExcept.throw e : BodyM α) := by
  intro s s' g g' b h
  exact (throw_ne_ok h).elim

theorem bind {x : BodyM α} {f : α → BodyM β} (hx : Reads x) (hf : ∀ a, Reads (f a)) :
    Reads (x >>= f) := by
  intro s s' g g' b h
  obtain ⟨a, s₁, g₁, h₁, h₂⟩ := bind_eq_ok.mp h
  obtain ⟨rfl, hg⟩ := hx h₁
  obtain ⟨rfl, hg'⟩ := hf a h₂
  exact ⟨rfl, hg'.trans hg⟩

end Reads

variable {c : BodyContext} {s s' : Scope} {g g' : Progress}

theorem Setting.infer_eq_ok {setting : Setting} {locals : Var → Option Ty} {e : Expr}
    {ty : Option Ty} (h : setting.infer locals e g = .ok ty g') : g'.table = g.table := by
  injection h with _ h
  exact h ▸ rfl

theorem Setting.retType_eq_ok {setting : Setting} {name : String} {f : Source.Function}
    {ty : Option Ty} (h : setting.retType name f g = .ok ty g') : g'.table = g.table := by
  injection h with _ h
  exact h ▸ rfl

theorem fresh_eq_ok {hint x : String} :
    fresh hint s g = .ok (x, s') g' ↔
      x = numberedName hint s.counter ∧ s' = { s with counter := s.counter + 1 } ∧ g' = g := by
  have hfresh : fresh hint s g =
      .ok (numberedName hint s.counter, { s with counter := s.counter + 1 }) g := rfl
  rw [hfresh]
  constructor
  · intro h
    injection h with h hg
    injection h with hx hs
    exact ⟨hx.symm, hs.symm, hg.symm⟩
  · rintro ⟨rfl, rfl, rfl⟩
    rfl

theorem bindVar_eq_ok {v : Var} {b : Binding} {a : Unit} :
    bindVar v b s g = .ok (a, s') g' ↔ s' = { s with env := (v.id, b) :: s.env } ∧ g' = g :=
  modify_eq_ok

theorem emit_eq_ok {name : String} {node : Node} {a : Unit} :
    emit name node s g = .ok (a, s') g' ↔
      s' = { s with bindings := s.bindings ++ [(name, node)] } ∧ g' = g :=
  modify_eq_ok

theorem restoringEnv_eq_ok {α : Type} {x : BodyM α} {a : α} (h : restoringEnv x s g = .ok (a, s') g') :
    ∃ s₁, x s g = .ok (a, s₁) g' ∧ s' = { s₁ with env := s.env } := by
  obtain ⟨_, _, _, h₁, k₁⟩ := bind_eq_ok.mp h
  obtain ⟨rfl, rfl, rfl⟩ := get_eq_ok.mp h₁
  obtain ⟨a', s₁, g₁, hx, k₂⟩ := bind_eq_ok.mp k₁
  obtain ⟨_, _, _, h₃, k₃⟩ := bind_eq_ok.mp k₂
  obtain ⟨rfl, rfl⟩ := modify_eq_ok.mp h₃
  obtain ⟨rfl, rfl, rfl⟩ := pure_eq_ok.mp k₃
  exact ⟨s₁, hx, rfl⟩

namespace BodyContext

theorem lookup_eq_ok {v : Var} {b : Binding} (h : c.lookup v s g = .ok (b, s') g') :
    s.env.lookup v.id = some b ∧ s' = s ∧ g' = g := by
  obtain ⟨s₀, s₁, g₁, h₁, k₁⟩ := bind_eq_ok.mp h
  obtain ⟨hs₀, rfl, rfl⟩ := get_eq_ok.mp h₁
  cases hb : s₀.env.lookup v.id with
  | some b' =>
    simp only [hb] at k₁
    obtain ⟨rfl, rfl, rfl⟩ := pure_eq_ok.mp k₁
    exact ⟨hs₀ ▸ hb, rfl, rfl⟩
  | none =>
    simp only [hb] at k₁
    exact (throw_ne_ok k₁).elim

theorem checked_eq_ok {α : Type} {r : Except NodeError α} {a : α}
    (h : c.checked r s g = .ok (a, s') g') : r = .ok a ∧ s' = s ∧ g' = g := by
  cases r with
  | ok a' =>
    obtain ⟨rfl, rfl, rfl⟩ := pure_eq_ok.mp h
    exact ⟨rfl, rfl, rfl⟩
  | error e => exact (throw_ne_ok h).elim

theorem checkArity_eq_ok {callee : String} {expected found : Nat} {a : Unit}
    (h : c.checkArity callee expected found s g = .ok (a, s') g') :
    expected = found ∧ s' = s ∧ g' = g := by
  unfold checkArity at h
  split at h
  · obtain ⟨-, rfl, rfl⟩ := pure_eq_ok.mp h
    exact ⟨‹_›, rfl, rfl⟩
  · exact (throw_ne_ok h).elim

theorem checkArity_reads {callee : String} {expected found : Nat} :
    Reads (c.checkArity callee expected found) := by
  intro s s' g g' a h
  obtain ⟨_, rfl, rfl⟩ := checkArity_eq_ok h
  exact ⟨rfl, rfl⟩

theorem closeScope_eq_ok {x : BodyM Node} {n : Node} (h : c.closeScope x s g = .ok (n, s') g') :
    ∃ body s₁, x { s with bindings := [] } g = .ok (body, s₁) g' ∧
      Node.wrapDecl s₁.bindings body = .ok n ∧ s' = { s₁ with bindings := s.bindings } := by
  obtain ⟨_, _, _, h₁, k₁⟩ := bind_eq_ok.mp h
  obtain ⟨rfl, rfl, rfl⟩ := get_eq_ok.mp h₁
  obtain ⟨_, _, _, h₂, k₂⟩ := bind_eq_ok.mp k₁
  obtain ⟨rfl, rfl⟩ := modify_eq_ok.mp h₂
  obtain ⟨body, s₁, g₁, hx, k₃⟩ := bind_eq_ok.mp k₂
  obtain ⟨_, _, _, h₄, k₄⟩ := bind_eq_ok.mp k₃
  obtain ⟨rfl, rfl, rfl⟩ := get_eq_ok.mp h₄
  obtain ⟨_, _, _, h₅, k₅⟩ := bind_eq_ok.mp k₄
  obtain ⟨rfl, rfl⟩ := modify_eq_ok.mp h₅
  obtain ⟨hwrap, rfl, rfl⟩ := checked_eq_ok k₅
  exact ⟨body, _, hx, hwrap, rfl⟩

theorem typeOf_reads {e : Expr} : Reads (c.typeOf e) := by
  intro s s' g g' ty h
  obtain ⟨_, _, _, h₁, k₁⟩ := bind_eq_ok.mp h
  obtain ⟨rfl, rfl, rfl⟩ := get_eq_ok.mp h₁
  obtain ⟨hinfer, rfl⟩ := lift_eq_ok.mp k₁
  exact ⟨rfl, Setting.infer_eq_ok hinfer⟩

theorem requireType_reads {e : Expr} {construct : String} : Reads (c.requireType e construct) := by
  refine typeOf_reads.bind fun ty => ?_
  cases ty with
  | some ty => exact .pure ty
  | none => exact .throw _

theorem letType_reads {v : Var} {value : Expr} : Reads (c.letType v value) := by
  unfold letType
  split
  · exact .pure _
  · exact typeOf_reads.bind fun ty => .pure _

theorem ctorInfo_eq_ok {name : String} {info : CtorInfo}
    (h : c.ctorInfo name s g = .ok (info, s') g') :
    c.setting.module.ctor? name = some info ∧ s' = s ∧ g' = g := by
  cases hinfo : c.setting.module.ctor? name with
  | some info' =>
    simp only [ctorInfo, hinfo] at h
    obtain ⟨rfl, rfl, rfl⟩ := pure_eq_ok.mp h
    exact ⟨rfl, rfl, rfl⟩
  | none =>
    simp only [ctorInfo, hinfo] at h
    exact (throw_ne_ok h).elim

theorem checkCtorPattern_eq_ok {name : String} {info : CtorInfo} {ty : Option Ty} {a : Unit}
    (h : c.checkCtorPattern name info ty s g = .ok (a, s') g') :
    (∀ t, ty = some t → t = .adt info.adt.name) ∧ s' = s ∧ g' = g := by
  cases ty with
  | none =>
    obtain ⟨-, rfl, rfl⟩ := pure_eq_ok.mp h
    exact ⟨nofun, rfl, rfl⟩
  | some ty =>
    simp only [checkCtorPattern] at h
    split at h
    · obtain ⟨-, rfl, rfl⟩ := pure_eq_ok.mp h
      refine ⟨fun t ht => ?_, rfl, rfl⟩
      cases ht
      assumption
    · exact (throw_ne_ok h).elim

theorem tuplePatternFields_eq_ok {width : Nat} {ty : Option Ty} {tys : List Ty}
    (h : c.tuplePatternFields width ty s g = .ok (tys, s') g') :
    (∀ t, ty = some t → t = .tuple tys ∧ tys.length = width) ∧ s' = s ∧ g' = g := by
  cases ty with
  | none =>
    obtain ⟨-, rfl, rfl⟩ := pure_eq_ok.mp h
    exact ⟨nofun, rfl, rfl⟩
  | some ty =>
    cases ty with
    | tuple tys' =>
      obtain ⟨_, s₁, g₁, h₁, k₁⟩ := bind_eq_ok.mp h
      obtain ⟨hlen, rfl, rfl⟩ := checkArity_eq_ok h₁
      obtain ⟨rfl, rfl, rfl⟩ := pure_eq_ok.mp k₁
      refine ⟨fun t ht => ?_, rfl, rfl⟩
      cases ht
      exact ⟨rfl, hlen⟩
    | _ => exact (throw_ne_ok h).elim

theorem checkCoverage_reads {scrutinee : Option Ty} {patterns : List Lowered.Pattern} :
    Reads (c.checkCoverage scrutinee patterns) := by
  unfold checkCoverage
  split
  · cases scrutinee with
    | none =>
      intro s s' g g' a h
      obtain ⟨h, rfl⟩ := lift_eq_ok.mp h
      cases h
      exact ⟨rfl, rfl⟩
    | some ty =>
      dsimp only
      split
      · exact .pure _
      · exact .throw _
  · exact .pure _

theorem checkCallee_reads {callee : Expr} {found : Nat} : Reads (c.checkCallee callee found) := by
  refine typeOf_reads.bind fun ty => ?_
  split
  · exact checkArity_reads
  · exact .pure _

theorem checkCondition_reads {cond : Expr} : Reads (c.checkCondition cond) := by
  refine typeOf_reads.bind fun ty => ?_
  split
  · exact .pure _
  · split
    · exact .pure _
    · exact .throw _

theorem checkGlobalArity_reads {name : String} {id : FunctionId} {found : Nat} :
    Reads (c.checkGlobalArity name id found) := by
  intro s s' g g' a h
  obtain ⟨p, s₁, g₁, h₁, h⟩ := bind_eq_ok.mp h
  cases h₁
  exact checkArity_reads h

theorem constructInfo_eq_ok {name : String} {found : Nat} {ty : Ty} {info : CtorInfo}
    (h : c.constructInfo name found ty s g = .ok (info, s') g') :
    c.setting.module.ctor? name = some info ∧ info.fields.length = found ∧ s' = s ∧ g' = g := by
  obtain ⟨info', s₁, g₁, h₁, k₁⟩ := bind_eq_ok.mp h
  obtain ⟨hinfo, rfl, rfl⟩ := ctorInfo_eq_ok h₁
  split at k₁
  · exact (throw_ne_ok (s := s₁) k₁).elim
  · obtain ⟨_, s₂, g₂, h₂, k₂⟩ := bind_eq_ok.mp k₁
    obtain ⟨hlen, rfl, rfl⟩ := checkArity_eq_ok h₂
    obtain ⟨rfl, rfl, rfl⟩ := pure_eq_ok.mp k₂
    exact ⟨hinfo, hlen, rfl, rfl⟩

end BodyContext

/-! ## Patterns -/

section

variable {p : Source.Pattern} {ps : List Source.Pattern} {ty : Option Ty} {tys : List Ty}
  {q : Lowered.Pattern} {qs : List Lowered.Pattern}

theorem lowerPattern_ctor_eq_ok {name : String}
    (h : lowerPattern c (.ctor name ps) ty s g = .ok (q, s') g') :
    ∃ info qs, c.setting.module.ctor? name = some info ∧
      (∀ t, ty.bind Ty.resolved? = some t → t = .adt info.adt.name) ∧
      info.fields.length = ps.length ∧ lowerPatterns c ps info.fields s g = .ok (qs, s') g' ∧
      q = .ctor info.tag name qs := by
  rw [lowerPattern] at h
  obtain ⟨info, s₁, g₁, h₁, k₁⟩ := bind_eq_ok.mp h
  obtain ⟨hinfo, rfl, rfl⟩ := BodyContext.ctorInfo_eq_ok h₁
  obtain ⟨_, s₂, g₂, h₂, k₂⟩ := bind_eq_ok.mp k₁
  obtain ⟨hadt, rfl, rfl⟩ := BodyContext.checkCtorPattern_eq_ok h₂
  obtain ⟨_, s₃, g₃, h₃, k₃⟩ := bind_eq_ok.mp k₂
  obtain ⟨hlen, rfl, rfl⟩ := BodyContext.checkArity_eq_ok h₃
  obtain ⟨qs, s₄, g₄, h₄, k₄⟩ := bind_eq_ok.mp k₃
  obtain ⟨rfl, rfl, rfl⟩ := pure_eq_ok.mp k₄
  exact ⟨info, qs, hinfo, hadt, hlen, h₄, rfl⟩

theorem lowerPattern_tuple_eq_ok (h : lowerPattern c (.tuple ps) ty s g = .ok (q, s') g') :
    ∃ tys qs, (∀ t, ty.bind Ty.resolved? = some t → t = .tuple tys ∧ tys.length = ps.length) ∧
      lowerPatterns c ps tys s g = .ok (qs, s') g' ∧ q = .tuple qs := by
  rw [lowerPattern] at h
  obtain ⟨tys, s₁, g₁, h₁, k₁⟩ := bind_eq_ok.mp h
  obtain ⟨htuple, rfl, rfl⟩ := BodyContext.tuplePatternFields_eq_ok h₁
  obtain ⟨qs, s₂, g₂, h₂, k₂⟩ := bind_eq_ok.mp k₁
  obtain ⟨rfl, rfl, rfl⟩ := pure_eq_ok.mp k₂
  exact ⟨tys, qs, htuple, h₂, rfl⟩

theorem lowerPatterns_cons_eq_ok (h : lowerPatterns c (p :: ps) tys s g = .ok (qs, s') g') :
    ∃ q qs' s₁ g₁, lowerPattern c p tys.head? s g = .ok (q, s₁) g₁ ∧
      lowerPatterns c ps tys.tail s₁ g₁ = .ok (qs', s') g' ∧ qs = q :: qs' := by
  rw [lowerPatterns] at h
  obtain ⟨q, s₁, g₁, h₁, k₁⟩ := bind_eq_ok.mp h
  obtain ⟨qs', s₂, g₂, h₂, k₂⟩ := bind_eq_ok.mp k₁
  obtain ⟨rfl, rfl, rfl⟩ := pure_eq_ok.mp k₂
  exact ⟨q, qs', s₁, g₁, h₁, h₂, rfl⟩

end

end TensorIR.Lowering
