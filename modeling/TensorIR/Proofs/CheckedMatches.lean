import TensorIR.Proofs.Requests

/-! The check of matches only ever rejects.

Two units that differ in this option alone are lowered side by side. Their tables stay the same, since
nothing that is lowered depends on the option; only reports of unchecked matches differ. So the unit
with the check ends as the other one does, unless it meets a match that leaves values uncovered. -/

namespace TensorIR.Lowering

open Source Lowered Matching

/-- The setting with matches checked or not. -/
def Setting.checking (s : Setting) (on : Bool) : Setting :=
  { s with options := { s.options with checkExhaustiveness := on } }

/-- The refusal of a match whose patterns leave values of a type uncovered, shown by a witness. -/
inductive LowerError.OfUncovered (m : Module) : LowerError → Prop
  | intro {func : String} {patterns : List Lowered.Pattern} {ty : Ty} {missing : Witness} :
    missingPattern? m.types patterns ty = some missing →
      LowerError.OfUncovered m (.nonExhaustiveMatch func ty missing)

/-- Units with the same table, the first of which may refuse a match. -/
def Lockstep.checked (m : Module) : Lockstep where
  Rel g g' := g'.table = g.table ∧ g'.resolving = g.resolving
  view := id
  Lost := LowerError.OfUncovered m

namespace Setting

variable {s : Setting} {g g' : Progress}

/-! ## What the option does not touch -/

/-- The types that a unit shows depend on its table and marks only. -/
theorem infer_checking {locals : Var → Option Ty} {e : Expr}
    (hg : (Lockstep.checked s.module).Rel g g') :
    (Lockstep.checked s.module).Agrees (fun ty _ ty' _ => ty = ty')
      ((s.checking true).infer locals e g) ((s.checking false).infer locals e g') := by
  obtain ⟨htable, hmarks⟩ := hg
  obtain ⟨ty, hty, hty'⟩ : ∃ ty, (s.checking true).infer locals e g = .ok ty g ∧
      (s.checking false).infer locals e g' = .ok ty g' := by
    apply infer_same rfl
    intro name _
    rw [htable, hmarks]
    obtain ⟨ty, hty⟩ := globalRet_finds s.module.globals.length name g.resolving
    exact ⟨rfl, ty, hty, hty⟩
  rw [hty, hty']
  exact ⟨rfl, htable, hmarks⟩

theorem retType_checking (name : String) (f : Source.Function)
    (hg : (Lockstep.checked s.module).Rel g g') :
    ∃ ty, (s.checking true).retType name f g = .ok ty g ∧
      (s.checking false).retType name f g' = .ok ty g' := by
  obtain ⟨htable, hmarks⟩ := hg
  obtain ⟨ty, hty⟩ := (s.checking true).retType_leaves name f g
  refine ⟨ty, hty, ?_⟩
  have happly : ∀ (on : Bool) (g : Progress), (s.checking on).retType name f g =
      let found := functionRet (inferType s.module g.table
        (globalRet s.module g.table s.module.globals.length) fun _ => none) name f g.resolving
      .ok found.1 { g with resolving := found.2 } := fun _ _ => rfl
  rw [happly] at hty ⊢
  rw [htable, hmarks]
  injection hty with hfound hleft
  have hresolving := congrArg Progress.resolving hleft
  dsimp only at hresolving ⊢
  rw [hfound, hresolving, ← hmarks, ← htable]

theorem signature_checking (name : String) (f : Source.Function)
    (hg : (Lockstep.checked s.module).Rel g g') :
    (∃ e, (s.checking true).signature name f g = .error e g ∧
      (s.checking false).signature name f g' = .error e g') ∨
    ∃ sig, (s.checking true).signature name f g = .ok sig g ∧
      (s.checking false).signature name f g' = .ok sig g' := by
  obtain ⟨ty, hty, hty'⟩ := retType_checking name f hg
  unfold Setting.signature
  split
  · exact .inl ⟨_, rfl, rfl⟩
  · dsimp only
    rw [shared_bind_of_ok hty, shared_bind_of_ok hty']
    cases ty with
    | none => exact .inl ⟨_, rfl, rfl⟩
    | some ret => exact .inr ⟨_, rfl, rfl⟩

/-! ## Bodies -/

/-- The check passes, reports that there is nothing to check, or refuses an uncovered match. -/
theorem checkCoverage_checking {c c' : BodyContext} (hc : c.setting = s.checking true)
    (hc' : c'.setting = s.checking false) (scrutinee : Option Ty)
    (patterns : List Lowered.Pattern) :
    (Lockstep.checked s.module).Steps Eq (c.checkCoverage scrutinee patterns)
      (c'.checkCoverage scrutinee patterns) := by
  unfold BodyContext.checkCoverage
  rw [hc, hc']
  cases scrutinee with
  | none => exact fun _ _ _ _ hs hg => ⟨⟨rfl, hs⟩, hg⟩
  | some ty =>
    cases hmissing : missingPattern? s.module.types patterns ty with
    | none =>
      have hpass : missingPattern? (s.checking true).module.types patterns ty = none := hmissing
      dsimp only
      rw [hpass]
      exact .pure rfl
    | some missing =>
      have hfail : missingPattern? (s.checking true).module.types patterns ty = some missing :=
        hmissing
      dsimp only
      rw [hfail]
      exact fun _ _ _ _ _ _ => .inl (.intro hmissing)

/-- Both units obtain the globals at the same places. -/
def EnsureAlike (s : Setting) (ensure ensure' : String → String → LowerM FunctionId) : Prop :=
  ∀ global requester g g', (Lockstep.checked s.module).Rel g g' →
    (Lockstep.checked s.module).Agrees (fun id _ id' _ => id' = id) (ensure global requester g)
      (ensure' global requester g')

variable {ensure ensure' : String → String → LowerM FunctionId}

theorem context_checking (hens : s.EnsureAlike ensure ensure') (name : String) :
    (Lockstep.checked s.module).Ties (fun _ => True) ((s.checking true).context ensure name)
      ((s.checking false).context ensure' name) where
  func := rfl
  module := rfl
  kernels := rfl
  infer _ _ _ _ _ hg := infer_checking hg
  coverage := checkCoverage_checking rfl rfl
  ensure := by
    intro global g g' _ hg
    refine (hens global name g g' hg).imp ?_
    rintro id g₁ _ g₁' rfl hg₁
    exact ⟨rfl, by rw [hg₁.1]⟩

theorem lowerDefinition_checking (hens : s.EnsureAlike ensure ensure') (name : String)
    (f : Source.Function) (ret : Ty) (hg : (Lockstep.checked s.module).Rel g g') :
    (Lockstep.checked s.module).Agrees (fun r _ r' _ => r'.1 = r.1 ∧ r'.2.counter = r.2.counter)
      ((s.checking true).lowerDefinition ensure name f ret g)
      ((s.checking false).lowerDefinition ensure' name f ret g') := by
  refine ((context_checking hens name).definition_agrees (some ret) (fun _ _ => trivial) hg).imp ?_
  intro r g₁ r' g₁' hr _
  have hf : r'.1.mapRefs id = r.1.mapRefs id := hr.1
  rw [Function.mapRefs_id, Function.mapRefs_id] at hf
  exact ⟨hf, hr.2⟩

/-! ## Units -/

theorem onTable_checking {α : Type} (name : String)
    (step : FunctionTable → Except TableError (α × FunctionTable))
    (hg : (Lockstep.checked s.module).Rel g g') :
    (Lockstep.checked s.module).Agrees (fun a _ a' _ => a' = a) (onTable name step g)
      (onTable name step g') := by
  rw [onTable, shared_get_bind, shared_get_bind, hg.1]
  cases step g.table with
  | ok r => exact ⟨rfl, rfl, hg.2⟩
  | error e => exact .inr ⟨g', rfl, hg⟩

theorem lowerGlobalWith_checking (hens : s.EnsureAlike ensure ensure') (name : String)
    (f : Source.Function) (hg : (Lockstep.checked s.module).Rel g g') :
    (Lockstep.checked s.module).Agrees (fun id _ id' _ => id' = id)
      ((s.checking true).lowerGlobalWith ensure name f g)
      ((s.checking false).lowerGlobalWith ensure' name f g') := by
  have hlookup : g'.table.lookup? name = g.table.lookup? name := by rw [hg.1]
  cases hnew : g.table.lookup? name with
  | some id =>
    rw [lowerGlobalWith_of_taken hnew, lowerGlobalWith_of_taken (hlookup.trans hnew)]
    exact .inr ⟨g', rfl, hg⟩
  | none =>
    rcases signature_checking name f hg with ⟨e, hsig, hsig'⟩ | ⟨sig, hsig, hsig'⟩
    · rw [lowerGlobalWith_of_unsigned hnew hsig,
        lowerGlobalWith_of_unsigned (hlookup.trans hnew) hsig']
      exact .inr ⟨g', rfl, hg⟩
    · rw [lowerGlobalWith_of_new hnew hsig, lowerGlobalWith_of_new (hlookup.trans hnew) hsig',
        hg.1]
      have hreserved : (Lockstep.checked s.module).Rel (g.reserved name sig)
          (g'.reserved name sig) := by
        refine ⟨?_, hg.2⟩
        rw [Progress.reserved, Progress.reserved, hg.1]
      refine (lowerDefinition_checking hens name f sig.ret hreserved).shared_bind ?_
      rintro ⟨f₁, sc⟩ g₁ ⟨f₁', sc'⟩ g₁' ⟨hf, hcounter⟩ hg₁
      dsimp only at hf hcounter ⊢
      rw [hf, hcounter]
      refine (onTable_checking name _ hg₁).shared_bind ?_
      exact fun _ g₂ _ g₂' _ hg₂ => ⟨rfl, hg₂⟩

theorem ensureWithin_checking (pending : Nat) : s.EnsureAlike
    ((s.checking true).ensureWithin pending) ((s.checking false).ensureWithin pending) := by
  induction pending with
  | zero =>
    intro name requester g g' hg
    have hlookup : g'.table.lookup? name = g.table.lookup? name := by rw [hg.1]
    cases hid : g.table.lookup? name with
    | some id =>
      rw [ensureWithin_of_lookup? hid, ensureWithin_of_lookup? (hlookup.trans hid)]
      exact ⟨rfl, hg⟩
    | none =>
      rw [ensureWithin_zero hid, ensureWithin_zero (hlookup.trans hid)]
      exact .inr ⟨g', rfl, hg⟩
  | succ pending ih =>
    intro name requester g g' hg
    have hlookup : g'.table.lookup? name = g.table.lookup? name := by rw [hg.1]
    cases hid : g.table.lookup? name with
    | some id =>
      rw [ensureWithin_of_lookup? hid, ensureWithin_of_lookup? (hlookup.trans hid)]
      exact ⟨rfl, hg⟩
    | none =>
      cases hf : s.module.function? name with
      | none =>
        have hf' : ∀ on, (s.checking on).module.function? name = none := fun _ => hf
        rw [ensureWithin_of_undefined hid (hf' true),
          ensureWithin_of_undefined (hlookup.trans hid) (hf' false)]
        exact .inr ⟨g', rfl, hg⟩
      | some f =>
        have hf' : ∀ on, (s.checking on).module.function? name = some f := fun _ => hf
        rw [ensureWithin_succ hid (hf' true), ensureWithin_succ (hlookup.trans hid) (hf' false)]
        exact lowerGlobalWith_checking ih name f hg

theorem finish_checking (hg : (Lockstep.checked s.module).Rel g g') :
    (Lockstep.checked s.module).Agrees (fun p _ p' _ => p' = p) ((s.checking true).finish g)
      ((s.checking false).finish g') := by
  unfold Setting.finish
  rw [shared_get_bind, shared_get_bind, hg.1]
  cases g.table.freeze with
  | error e => exact .inr ⟨g', rfl, hg⟩
  | ok p =>
    have hdump : (s.checking false).options.dumpLowered = (s.checking true).options.dumpLowered :=
      rfl
    rw [hdump]
    dsimp only
    split
    · exact ⟨rfl, hg⟩
    · exact ⟨rfl, hg⟩

theorem ensureAll_checking (globals : List (String × Source.Function))
    (hg : (Lockstep.checked s.module).Rel g g') :
    (Lockstep.checked s.module).Agrees (fun _ _ _ _ => True)
      ((s.checking true).ensureAll globals g) ((s.checking false).ensureAll globals g') := by
  induction globals generalizing g g' with
  | nil => exact ⟨trivial, hg⟩
  | cons global globals ih =>
    refine (ensureWithin_checking _ global.1 global.1 g g' hg).shared_bind ?_
    exact fun _ _ _ _ _ hg₁ => ih hg₁

theorem lowerModule_checking (hg : (Lockstep.checked s.module).Rel g g') :
    (Lockstep.checked s.module).Agrees (fun p _ p' _ => p' = p) ((s.checking true).lowerModule g)
      ((s.checking false).lowerModule g') :=
  (ensureAll_checking s.module.globals hg).shared_bind fun _ _ _ _ _ hg₁ => finish_checking hg₁

theorem compile_checking (f : Source.Function) (hg : (Lockstep.checked s.module).Rel g g') :
    (Lockstep.checked s.module).Agrees (fun r _ r' _ => r' = r) ((s.checking true).compile f g)
      ((s.checking false).compile f g') := by
  have hentry : (s.checking false).options.entryName = (s.checking true).options.entryName := rfl
  have hmodule : (s.checking false).module = (s.checking true).module := rfl
  unfold Setting.compile
  rw [hentry, hmodule]
  dsimp only
  split
  · exact .inr ⟨g', rfl, hg⟩
  · refine (lowerGlobalWith_checking (ensureWithin_checking _) _ f hg).shared_bind ?_
    rintro entry g₁ _ g₁' rfl hg₁
    refine (finish_checking hg₁).shared_bind ?_
    rintro p g₂ _ g₂' rfl hg₂
    exact ⟨rfl, hg₂⟩

end Setting

/-! ## Outcomes -/

/-- What a step of a unit returns: its result, or why it fails. -/
def outcome {α : Type} : EStateM.Result LowerError Progress α → Except LowerError α
  | .ok a _ => .ok a
  | .error e _ => .error e

theorem Lockstep.Agrees.outcome_eq_or {m : Module} {α : Type}
    {r r' : EStateM.Result LowerError Progress α}
    (h : (Lockstep.checked m).Agrees (fun a _ a' _ => a' = a) r r') :
    outcome r = outcome r' ∨ ∃ e, e.OfUncovered m ∧ outcome r = .error e := by
  cases r with
  | error e g =>
    rcases h with hlost | ⟨g', rfl, -⟩
    · exact .inr ⟨e, hlost, rfl⟩
    · exact .inl rfl
  | ok a g =>
    cases r' with
    | error e g' => exact h.elim
    | ok a' g' =>
      obtain ⟨rfl, -⟩ := h
      exact .inl rfl

/-- The check of matches only ever rejects. With it, the lowering of an entry function or of a module
returns what it returns without it, be it a program or a failure, unless it refuses a match whose
patterns leave values uncovered. -/
theorem match_check_only_rejects (s : Setting) :
    (∀ f, outcome ((s.checking true).compile f {}) = outcome ((s.checking false).compile f {}) ∨
      ∃ e, e.OfUncovered s.module ∧ outcome ((s.checking true).compile f {}) = .error e) ∧
    (outcome ((s.checking true).lowerModule {}) = outcome ((s.checking false).lowerModule {}) ∨
      ∃ e, e.OfUncovered s.module ∧ outcome ((s.checking true).lowerModule {}) = .error e) :=
  ⟨fun f => (Setting.compile_checking f ⟨rfl, rfl⟩).outcome_eq_or,
    (Setting.lowerModule_checking ⟨rfl, rfl⟩).outcome_eq_or⟩

end TensorIR.Lowering
