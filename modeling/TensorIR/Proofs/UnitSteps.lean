import TensorIR.Proofs.FunctionTables
import TensorIR.Proofs.Lockstep
import TensorIR.Proofs.TypeInference

/-! The steps of a unit, whatever comes of them.

A function is refused before anything has happened, or its name is reserved first and its body lowered
then. A body reaches the unit through the globals that it asks for, and otherwise reports unchecked
matches only; so what each request for a global leaves behind, the whole body leaves behind. -/

namespace TensorIR.Lowering

open Source Lowered

/-! ## Bodies -/

/-- Relations between two states of a unit that hold between the states before and after the
lowering of a body if they hold for each of its requests. -/
structure Lasting (T : Progress → Progress → Prop) : Prop where
  refl : ∀ g, T g g
  trans : ∀ {g₁ g₂ g₃}, T g₁ g₂ → T g₂ g₃ → T g₁ g₃
  report : ∀ g func, T g { g with events := g.events.push (.uncheckedMatch func) }

/-- What a step brings the unit to. Nothing is said of the failures that are left out. -/
def Brings {α : Type} (T : Progress → Progress → Prop) (Lost : LowerError → Prop) (g : Progress) :
    EStateM.Result LowerError Progress α → Prop
  | .ok _ g' => T g g'
  | .error e g' => Lost e ∨ T g g'

namespace Lockstep

variable {L : Lockstep} {c c' : BodyContext}

/-- Contexts with the same options check matches alike. -/
theorem coverage_steps (hfunc : c'.func = c.func) (hmodule : c'.setting.module = c.setting.module)
    (hoptions : c'.setting.options = c.setting.options)
    (hreport : ∀ g g' func, L.Rel g g' →
      L.Rel { g with events := g.events.push (.uncheckedMatch func) }
        { g' with events := g'.events.push (.uncheckedMatch func) })
    (scrutinee : Option Ty) (patterns : List Lowered.Pattern) :
    L.Steps Eq (c.checkCoverage scrutinee patterns) (c'.checkCoverage scrutinee patterns) := by
  unfold BodyContext.checkCoverage
  rw [hfunc, hmodule, hoptions]
  split
  · split
    · exact .lift fun g g' hg => ⟨rfl, hreport g g' c.func hg⟩
    · split
      · exact .pure rfl
      · exact .throw
  · exact .pure rfl

end Lockstep

/-- Two ways to lower in the same unit, as long as its states have the property. -/
def Lockstep.along (P : Progress → Prop) (Lost : LowerError → Prop) : Lockstep where
  Rel g g' := g' = g ∧ P g
  view := id
  Lost := Lost

section

variable {P : Progress → Prop} {Lost : LowerError → Prop} {c c' : BodyContext}

/-- Contexts of the same unit that obtain globals in the same way. -/
theorem Lockstep.along_ties {Known : String → Prop} (hsetting : c'.setting = c.setting)
    (hfunc : c'.func = c.func)
    (hreport : ∀ g func, P g → P { g with events := g.events.push (.uncheckedMatch func) })
    (hens : ∀ name, Known name → ∀ g, P g → c'.ensure name g = c.ensure name g ∧
      Brings (fun _ g' => P g') Lost g (c.ensure name g)) :
    (along P Lost).Ties Known c c' where
  func := hfunc
  module := by rw [hsetting]
  kernels := by rw [hsetting]
  infer := by
    rintro locals e _ g _ ⟨rfl, hg⟩
    obtain ⟨ty, hty⟩ := c.setting.infer_leaves locals e g
    rw [hsetting, hty]
    exact ⟨rfl, rfl, hg⟩
  coverage := by
    apply coverage_steps hfunc (by rw [hsetting]) (by rw [hsetting])
    rintro _ g func ⟨rfl, hg⟩
    exact ⟨rfl, hreport g func hg⟩
  ensure := by
    rintro name _ g hname ⟨rfl, hg⟩
    obtain ⟨hsame, hbrings⟩ := hens name hname g hg
    rw [hsame]
    cases hr : c.ensure name g with
    | ok id g₁ =>
      rw [hr] at hbrings
      exact ⟨⟨rfl, rfl⟩, rfl, hbrings⟩
    | error e g₁ =>
      rw [hr] at hbrings
      rcases hbrings with hlost | hbrings
      · exact .inl hlost
      · exact .inr ⟨g₁, rfl, rfl, hbrings⟩

end

/-- A definition brings the unit to what its requests bring it to. -/
theorem Lasting.definition {T : Progress → Progress → Prop} {Lost : LowerError → Prop}
    {c : BodyContext} (hT : Lasting T) {f : Source.Function}
    (hens : ∀ name ∈ f.body.globals, ∀ g, Brings T Lost g (c.ensure name g)) (ret : Option Ty)
    (g : Progress) : Brings T Lost g (c.function none f [] ret (lowerExpr c f.body) {} g) := by
  have hties : (Lockstep.along (T g) Lost).Ties (· ∈ f.body.globals) c c := by
    apply Lockstep.along_ties rfl rfl
    · exact fun g₁ func hg₁ => hT.trans hg₁ (hT.report g₁ func)
    · intro name hname g₁ hg₁
      have hbrings := hens name hname g₁
      refine ⟨rfl, ?_⟩
      cases hr : c.ensure name g₁ with
      | ok id g₂ =>
        rw [hr] at hbrings
        exact hT.trans hg₁ hbrings
      | error e g₂ =>
        rw [hr] at hbrings
        exact hbrings.imp_right (hT.trans hg₁)
  have hagrees := hties.definition_agrees ret (fun _ h => h) ⟨rfl, hT.refl g⟩
  cases hr : c.function none f [] ret (lowerExpr c f.body) {} g with
  | ok r g' =>
    rw [hr] at hagrees
    exact hagrees.2.2
  | error e g' =>
    rw [hr] at hagrees
    rcases hagrees with hlost | ⟨g'', -, -, hg⟩
    · exact .inl hlost
    · exact .inr hg

/-! ## Globals -/

/-- The unit with the name reserved for a function that is about to be lowered. -/
def Progress.reserved (g : Progress) (name : String) (sig : Signature) : Progress :=
  { g with
    table := ⟨g.table.entries ++ [{ name, sig }]⟩
    events := g.events.push (.reserved name ⟨g.table.size⟩ sig.params.length) }

namespace Setting

variable {s : Setting} {ensure : String → String → LowerM FunctionId} {name : String}
  {f : Source.Function} {g : Progress}

/-- The context in which the function with the name is lowered. -/
def context (s : Setting) (ensure : String → String → LowerM FunctionId) (name : String) :
    BodyContext :=
  ⟨s, name, fun global => ensure global name⟩

/-- The lowering of a function whose name is reserved with the given result type. -/
def lowerDefinition (s : Setting) (ensure : String → String → LowerM FunctionId) (name : String)
    (f : Source.Function) (ret : Ty) : LowerM (Lowered.Function × Scope) :=
  (s.context ensure name).function none f [] (some ret) (lowerExpr (s.context ensure name) f.body) {}

/-- A signature is found, or refused, without changing the unit. -/
theorem signature_leaves (s : Setting) (name : String) (f : Source.Function) (g : Progress) :
    (∃ e, s.signature name f g = .error e g) ∨
      ∃ ret, s.signature name f g = .ok ⟨f.params.map Var.ty, ret⟩ g := by
  unfold Setting.signature
  split
  · exact .inl ⟨_, rfl⟩
  · obtain ⟨ty, hty⟩ := s.retType_leaves name f g
    dsimp only
    rw [shared_bind_of_ok hty]
    cases ty with
    | none => exact .inl ⟨_, rfl⟩
    | some ret => exact .inr ⟨ret, rfl⟩

theorem onTable_reserve {sig : Signature} (hnew : g.table.lookup? name = none) :
    onTable name (·.reserve name sig) g =
      .ok ⟨g.table.size⟩ { g with table := ⟨g.table.entries ++ [{ name, sig }]⟩ } := by
  rw [onTable, shared_get_bind, FunctionTable.reserve, hnew]
  rfl

theorem lowerGlobalWith_of_taken {id : FunctionId} (h : g.table.lookup? name = some id) :
    s.lowerGlobalWith ensure name f g = .error (.duplicateFunction name) g := by
  unfold Setting.lowerGlobalWith
  rw [shared_get_bind, h]
  rfl

theorem lowerGlobalWith_of_unsigned {e : LowerError} (hnew : g.table.lookup? name = none)
    (hsig : s.signature name f g = .error e g) : s.lowerGlobalWith ensure name f g = .error e g := by
  unfold Setting.lowerGlobalWith
  rw [shared_get_bind, hnew, Option.isSome_none, if_neg Bool.false_ne_true]
  exact shared_bind_of_error hsig

/-- A function that is not refused has its name reserved before its body is lowered. -/
theorem lowerGlobalWith_of_new {sig : Signature} (hnew : g.table.lookup? name = none)
    (hsig : s.signature name f g = .ok sig g) :
    s.lowerGlobalWith ensure name f g = (do
      let r ← s.lowerDefinition ensure name f sig.ret
      onTable name fun table => (table.define ⟨g.table.size⟩ r.1).map ((), ·)
      record (.finalized name ⟨g.table.size⟩ r.2.counter)
      return ⟨g.table.size⟩ : LowerM FunctionId) (g.reserved name sig) := by
  unfold Setting.lowerGlobalWith
  rw [shared_get_bind, hnew, Option.isSome_none, if_neg Bool.false_ne_true]
  refine (shared_bind_of_ok hsig).trans ?_
  exact (shared_bind_of_ok (onTable_reserve hnew)).trans rfl

/-- The ways in which the lowering of a function ends. -/
inductive LowersGlobal (s : Setting) (ensure : String → String → LowerM FunctionId) (name : String)
    (f : Source.Function) (g : Progress) : EStateM.Result LowerError Progress FunctionId → Prop
  | refused {e : LowerError} : s.LowersGlobal ensure name f g (.error e g)
  | abandoned {ret : Ty} {e : LowerError} {g' : Progress} : g.table.lookup? name = none →
    s.signature name f g = .ok ⟨f.params.map Var.ty, ret⟩ g →
    s.lowerDefinition ensure name f ret (g.reserved name ⟨f.params.map Var.ty, ret⟩) = .error e g' →
    s.LowersGlobal ensure name f g (.error e g')
  | done {ret : Ty} {f' : Lowered.Function} {sc : Scope} {g' : Progress}
    {r : EStateM.Result LowerError Progress FunctionId} : g.table.lookup? name = none →
    s.signature name f g = .ok ⟨f.params.map Var.ty, ret⟩ g →
    s.lowerDefinition ensure name f ret (g.reserved name ⟨f.params.map Var.ty, ret⟩) =
      .ok (f', sc) g' →
    (do onTable name fun table => (table.define ⟨g.table.size⟩ f').map ((), ·)
        record (.finalized name ⟨g.table.size⟩ sc.counter)
        return ⟨g.table.size⟩ : LowerM FunctionId) g' = r →
    s.LowersGlobal ensure name f g r

theorem lowersGlobal (s : Setting) (ensure : String → String → LowerM FunctionId) (name : String)
    (f : Source.Function) (g : Progress) :
    s.LowersGlobal ensure name f g (s.lowerGlobalWith ensure name f g) := by
  cases hnew : g.table.lookup? name with
  | some id =>
    rw [lowerGlobalWith_of_taken hnew]
    exact .refused
  | none =>
    rcases s.signature_leaves name f g with ⟨e, hsig⟩ | ⟨ret, hsig⟩
    · rw [lowerGlobalWith_of_unsigned hnew hsig]
      exact .refused
    · rw [lowerGlobalWith_of_new hnew hsig]
      cases hbody : s.lowerDefinition ensure name f ret (g.reserved name ⟨f.params.map Var.ty, ret⟩) with
      | error e g' =>
        rw [shared_bind_of_error hbody]
        exact .abandoned hnew hsig hbody
      | ok r g' =>
        rw [shared_bind_of_ok hbody]
        exact .done hnew hsig hbody rfl

/-- Two ways to obtain globals that agree on the states which are met make the same of a body. -/
theorem lowerDefinition_congr {P : Progress → Prop}
    {ensure' : String → String → LowerM FunctionId}
    (hreport : ∀ g func, P g → P { g with events := g.events.push (.uncheckedMatch func) })
    (hens : ∀ global requester g, P g → ensure' global requester g = ensure global requester g ∧
      Brings (fun _ g' => P g') (fun _ => False) g (ensure global requester g))
    (ret : Ty) (hg : P g) :
    (∃ e g', s.lowerDefinition ensure name f ret g = .error e g' ∧
      s.lowerDefinition ensure' name f ret g = .error e g') ∨
    ∃ f' sc sc' g', s.lowerDefinition ensure name f ret g = .ok (f', sc) g' ∧
      s.lowerDefinition ensure' name f ret g = .ok (f', sc') g' ∧ sc'.counter = sc.counter := by
  have hties : (Lockstep.along P fun _ => False).Ties (· ∈ f.body.globals)
      (s.context ensure name) (s.context ensure' name) :=
    Lockstep.along_ties rfl rfl hreport fun global _ g => hens global name g
  have hagrees := hties.definition_agrees (some ret) (fun _ h => h) ⟨rfl, hg⟩
  change (Lockstep.along P fun _ => False).Agrees _ (s.lowerDefinition ensure name f ret g)
    (s.lowerDefinition ensure' name f ret g) at hagrees
  cases hr : s.lowerDefinition ensure name f ret g with
  | error e g' =>
    rw [hr] at hagrees
    obtain ⟨_, hr', rfl, -⟩ := hagrees.resolve_left id
    exact .inl ⟨e, _, rfl, hr'⟩
  | ok r g' =>
    cases hr' : s.lowerDefinition ensure' name f ret g with
    | error e g'' =>
      rw [hr, hr'] at hagrees
      exact hagrees.elim
    | ok r' g'' =>
      rw [hr, hr'] at hagrees
      obtain ⟨f', sc⟩ := r
      obtain ⟨f'', sc'⟩ := r'
      obtain ⟨⟨hf, hcounter⟩, rfl, -⟩ := hagrees
      have hf' : f''.mapRefs id = f'.mapRefs id := hf
      rw [Function.mapRefs_id, Function.mapRefs_id] at hf'
      exact .inr ⟨f', sc, sc', _, rfl, by rw [hf'], hcounter⟩

/-- Two ways to obtain globals that agree on the states which are met make the same of a function. -/
theorem lowerGlobalWith_congr {P : Progress → Prop} {ensure' : String → String → LowerM FunctionId}
    (hreport : ∀ g func, P g → P { g with events := g.events.push (.uncheckedMatch func) })
    (hens : ∀ global requester g, P g → ensure' global requester g = ensure global requester g ∧
      Brings (fun _ g' => P g') (fun _ => False) g (ensure global requester g))
    (hstart : ∀ sig, g.table.lookup? name = none → P (g.reserved name sig)) :
    s.lowerGlobalWith ensure' name f g = s.lowerGlobalWith ensure name f g := by
  cases hnew : g.table.lookup? name with
  | some id => rw [lowerGlobalWith_of_taken hnew, lowerGlobalWith_of_taken hnew]
  | none =>
    rcases s.signature_leaves name f g with ⟨e, hsig⟩ | ⟨ret, hsig⟩
    · rw [lowerGlobalWith_of_unsigned hnew hsig, lowerGlobalWith_of_unsigned hnew hsig]
    · rw [lowerGlobalWith_of_new hnew hsig, lowerGlobalWith_of_new hnew hsig]
      rcases lowerDefinition_congr hreport hens ret (hstart ⟨f.params.map Var.ty, ret⟩ hnew) with
        ⟨e, g', h, h'⟩ | ⟨f', sc, sc', g', h, h', hcounter⟩
      · rw [shared_bind_of_error h, shared_bind_of_error h']
      · rw [shared_bind_of_ok h, shared_bind_of_ok h', hcounter]

theorem ensureWithin_of_lookup? {pending : Nat} {requester : String} {id : FunctionId}
    (h : g.table.lookup? name = some id) : s.ensureWithin pending name requester g = .ok id g := by
  unfold Setting.ensureWithin
  rw [shared_get_bind, h]
  rfl

theorem ensureWithin_of_undefined {pending : Nat} {requester : String}
    (h : g.table.lookup? name = none) (hf : s.module.function? name = none) :
    s.ensureWithin pending name requester g = .error (.undefinedGlobal requester name) g := by
  unfold Setting.ensureWithin
  rw [shared_get_bind, h, hf]
  rfl

theorem ensureWithin_zero {requester : String} (h : g.table.lookup? name = none) :
    s.ensureWithin 0 name requester g = .error (.undefinedGlobal requester name) g := by
  unfold Setting.ensureWithin
  rw [shared_get_bind, h]
  cases s.module.function? name with
  | none => rfl
  | some f => rfl

theorem ensureWithin_succ {pending : Nat} {requester : String} (h : g.table.lookup? name = none)
    (hf : s.module.function? name = some f) :
    s.ensureWithin (pending + 1) name requester g =
      s.lowerGlobalWith (s.ensureWithin pending) name f g := by
  unfold Setting.ensureWithin
  rw [shared_get_bind, h, hf]

/-- What holds for globals that have a place, for requests that are refused, and for a function if it
holds for the globals that this asks for, holds for all requests. -/
theorem ensureWithin_induction
    {Q : String → Progress → EStateM.Result LowerError Progress FunctionId → Prop}
    (hfound : ∀ name id g, g.table.lookup? name = some id → Q name g (.ok id g))
    (hrefused : ∀ name requester g, Q name g (.error (.undefinedGlobal requester name) g))
    (hlower : ∀ pending name f g, g.table.lookup? name = none → s.module.function? name = some f →
      (∀ global requester g, Q global g (s.ensureWithin pending global requester g)) →
        Q name g (s.lowerGlobalWith (s.ensureWithin pending) name f g))
    (pending : Nat) (name requester : String) (g : Progress) :
    Q name g (s.ensureWithin pending name requester g) := by
  induction pending generalizing name requester g with
  | zero =>
    cases hid : g.table.lookup? name with
    | some id =>
      rw [ensureWithin_of_lookup? hid]
      exact hfound name id g hid
    | none =>
      rw [ensureWithin_zero hid]
      exact hrefused name requester g
  | succ pending ih =>
    cases hid : g.table.lookup? name with
    | some id =>
      rw [ensureWithin_of_lookup? hid]
      exact hfound name id g hid
    | none =>
      cases hf : s.module.function? name with
      | none =>
        rw [ensureWithin_of_undefined hid hf]
        exact hrefused name requester g
      | some f =>
        rw [ensureWithin_succ hid hf]
        exact hlower pending name f g hid hf ih

end Setting

end TensorIR.Lowering
