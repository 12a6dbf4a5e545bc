import TensorIR.Proofs.ReachableGlobals

/-! Units in which every global declares its result type.

The types that a global shows to others are then those that it declares, whether its name is reserved
yet or not. So it makes no difference to the lowering of a body what else the unit has: up to the
places of globals, each global is lowered to what it is lowered to in the unit that has a place for
every global from the start. -/

namespace TensorIR

open Source Lowered Lowering

/-- The signature that a function declares. -/
def Source.Function.declaredSig (f : Source.Function) : Signature := ⟨f.params.map Var.ty, f.ret⟩

/-- All parameters have complete types. -/
def Source.Function.paramsResolved (f : Source.Function) : Bool :=
  f.params.all fun v => v.ty.isResolved

/-- Every global declares its result type. -/
def Source.Module.DeclaresResults (m : Module) : Prop :=
  ∀ ⦃name f⦄, m.function? name = some f → f.ret.isResolved = true

namespace Lowering

variable {s : Setting} {foreign : String → Prop} {g g' : Progress} {name : String}

/-! ## Signatures -/

theorem signature_of_resolved {f : Source.Function} (hret : f.ret.isResolved = true)
    (hparams : f.paramsResolved = true) : s.signature name f g = .ok f.declaredSig g := by
  have hany : (f.params.any fun v => !v.ty.isResolved) = false := by
    simpa [Source.Function.paramsResolved] using hparams
  have htype : s.retType name f g = .ok (some f.ret) g := by
    refine Setting.retType_of_finds ?_
    rw [functionRet, annotatedOr, if_pos hret]
    rfl
  unfold Setting.signature
  rw [hany, if_neg Bool.false_ne_true]
  exact (shared_bind_of_ok htype).trans rfl

theorem signature_of_unresolved {f : Source.Function} (hparams : f.paramsResolved = false) :
    s.signature name f g = .error (.unresolvedType name "function parameter") g := by
  have hany : (f.params.any fun v => !v.ty.isResolved) = true := by
    simpa [Source.Function.paramsResolved] using hparams
  unfold Setting.signature
  rw [hany]
  rfl

/-- A function that is given a signature is given the one that it declares. -/
theorem declared_of_signature {f : Source.Function} {sig : Signature}
    (hret : f.ret.isResolved = true) (h : s.signature name f g = .ok sig g) :
    f.paramsResolved = true ∧ sig = f.declaredSig := by
  cases hparams : f.paramsResolved with
  | true =>
    rw [signature_of_resolved hret hparams] at h
    cases h
    exact ⟨rfl, rfl⟩
  | false =>
    rw [signature_of_unresolved hparams] at h
    cases h

/-- The entry is for a global of the module and has the signature that this declares. -/
structure EntryDeclared (m : Module) (e : TableEntry) (f : Source.Function) : Prop where
  source : m.function? e.name = some f
  params : f.paramsResolved = true
  sig : e.sig = f.declaredSig

/-- All entries are for globals of the module, apart from foreign ones. -/
def Setting.Declared (s : Setting) (foreign : String → Prop) (g : Progress) : Prop :=
  ∀ e ∈ g.table.entries, ¬ foreign e.name → ∃ f, EntryDeclared s.module e f

theorem Setting.Declared.lookup? (h : s.Declared foreign g) (hname : ¬ foreign name)
    {id : FunctionId} (hid : g.table.lookup? name = some id) :
    ∃ f, s.module.function? name = some f ∧ f.paramsResolved = true ∧
      g.table.signature? id = some f.declaredSig := by
  obtain ⟨⟨e, he, rfl⟩, -⟩ := FunctionTable.lookup?_eq_some.mp hid
  obtain ⟨f, hf⟩ := h e (List.mem_of_getElem? he) hname
  exact ⟨f, hf.source, hf.params, by rw [FunctionTable.signature?, FunctionTable.entry?, he,
    Option.map_some, hf.sig]⟩

/-- A global shows the parameter types that it declares. -/
theorem Setting.Declared.globalParams? (h : s.Declared foreign g) (hname : ¬ foreign name) :
    globalParams? s.module g.table name =
      (s.module.function? name).map fun f => f.params.map Var.ty := by
  unfold Lowering.globalParams?
  cases hid : g.table.lookup? name with
  | none => rfl
  | some id =>
    obtain ⟨f, hf, -, hsig⟩ := h.lookup? hname hid
    simp only [hsig, hf, Option.map_some, Source.Function.declaredSig]

/-- A global shows the result type that it declares. -/
theorem Setting.Declared.globalRet (h : s.Declared foreign g) (hname : ¬ foreign name)
    (hret : s.module.DeclaresResults) (depth : Nat) (marks : List String) :
    Finds (globalRet s.module g.table depth name) marks
      ((s.module.function? name).map Source.Function.ret) := by
  have hwith : ∀ infer, Finds (globalRetWith s.module g.table infer name) marks
      ((s.module.function? name).map Source.Function.ret) := by
    intro infer
    unfold globalRetWith
    cases hid : g.table.lookup? name with
    | some id =>
      obtain ⟨f, hf, -, hsig⟩ := h.lookup? hname hid
      simp only [hsig, hf, Option.map_some, Source.Function.declaredSig]
      rfl
    | none =>
      cases hf : s.module.function? name with
      | none => rfl
      | some f =>
        simp only [functionRet, annotatedOr, hret hf, if_true, Option.map_some]
        rfl
  cases depth with
  | zero => exact hwith _
  | succ depth => exact hwith _

/-- In two such units a global shows the same types. -/
theorem Setting.Declared.showsSame (h : s.Declared foreign g) (h' : s.Declared foreign g')
    (hname : ¬ foreign name) (hret : s.module.DeclaresResults) (depth : Nat)
    (marks marks' : List String) :
    ShowsSame s.module g.table g'.table (Lowering.globalRet s.module g.table depth)
      (Lowering.globalRet s.module g'.table depth) marks marks' name where
  params := by rw [h.globalParams? hname, h'.globalParams? hname]
  ret := ⟨_, h.globalRet hname hret depth marks, h'.globalRet hname hret depth marks'⟩

/-! ## Two units side by side -/

/-- The reference without its place. -/
def unplaced (r : GlobalRef) : GlobalRef := ⟨⟨0⟩, r.name⟩

/-- The functions differ in the places of globals only. -/
def SameUnplaced (f f' : Lowered.Function) : Prop := f'.mapRefs unplaced = f.mapRefs unplaced

/-- Two units whose states are related, compared as long as the first one succeeds. -/
def Lockstep.unplaced (R : Progress → Progress → Prop) : Lockstep where
  Rel := R
  view := Lowering.unplaced
  Lost _ := True

/-- Globals that a request has found have the signature that they declare. -/
theorem Setting.Declared.ensured (h : s.Declared foreign g') (hname : ¬ foreign name)
    {pending : Nat} {requester : String} {id : FunctionId}
    (hens : s.ensureWithin pending name requester g = .ok id g') :
    ∃ f, s.module.function? name = some f ∧ f.paramsResolved = true ∧
      g'.table.signature? id = some f.declaredSig := by
  have hanswers := ensureWithin_answers s pending name requester g
  rw [hens] at hanswers
  obtain ⟨e, he, rfl⟩ := hanswers.entry
  obtain ⟨f, hf⟩ := h e (List.mem_of_getElem? he) hname
  exact ⟨f, hf.source, hf.params, by rw [FunctionTable.signature?, FunctionTable.entry?, he,
    Option.map_some, hf.sig]⟩

/-- In two units that show the declared types, a body is lowered alike if the second one obtains the
globals that the first one does. -/
theorem lowerDefinition_alike {R : Progress → Progress → Prop} {pending pending' : Nat}
    {func : String} (hret : s.module.DeclaresResults)
    (hR : ∀ g g', R g g' → s.Declared foreign g ∧ s.Declared foreign g')
    (hreport : ∀ g g' func, R g g' →
      R { g with events := g.events.push (.uncheckedMatch func) }
        { g' with events := g'.events.push (.uncheckedMatch func) })
    (hens : ∀ name id g g' g₁, ¬ foreign name → R g g' →
      s.ensureWithin pending name func g = .ok id g₁ →
        ∃ id' g₁', s.ensureWithin pending' name func g' = .ok id' g₁' ∧ R g₁ g₁')
    {f : Source.Function} (hf : ∀ name ∈ f.body.globals, ¬ foreign name) (hg : R g g')
    {f₁ : Lowered.Function} {sc : Scope} {g₁ : Progress}
    (h : s.lowerDefinition (s.ensureWithin pending) func f f.ret g = .ok (f₁, sc) g₁) :
    ∃ f₁' sc' g₁', s.lowerDefinition (s.ensureWithin pending') func f f.ret g' =
      .ok (f₁', sc') g₁' ∧ SameUnplaced f₁ f₁' ∧ R g₁ g₁' := by
  have hties : (Lockstep.unplaced R).Ties (fun name => ¬ foreign name)
      (s.context (s.ensureWithin pending) func) (s.context (s.ensureWithin pending') func) :=
    { func := rfl
      module := rfl
      kernels := rfl
      infer := by
        intro locals e g g' he hg
        obtain ⟨hd, hd'⟩ := hR g g' hg
        obtain ⟨ty, hty, hty'⟩ : ∃ ty, s.infer locals e g = .ok ty g ∧
            s.infer locals e g' = .ok ty g' :=
          Setting.infer_same rfl fun name hname => hd.showsSame hd' (he name hname) hret _ _ _
        change (Lockstep.unplaced R).Agrees _ (s.infer locals e g) (s.infer locals e g')
        rw [hty, hty']
        exact ⟨rfl, hg⟩
      coverage := Lockstep.coverage_steps rfl rfl rfl hreport
      ensure := by
        intro name g g' hname hg
        change (Lockstep.unplaced R).Agrees _ (s.ensureWithin pending name func g)
          (s.ensureWithin pending' name func g')
        cases hr : s.ensureWithin pending name func g with
        | error e g₁ => exact .inl trivial
        | ok id g₁ =>
          obtain ⟨id', g₁', hr', hg₁⟩ := hens name id g g' g₁ hname hg hr
          obtain ⟨hd, hd'⟩ := hR g₁ g₁' hg₁
          obtain ⟨f, hf, -, hsig⟩ := hd.ensured hname hr
          obtain ⟨f', hf', -, hsig'⟩ := hd'.ensured hname hr'
          cases hf.symm.trans hf'
          rw [hr']
          exact ⟨⟨rfl, by rw [hsig, hsig']⟩, hg₁⟩ }
  have hagrees := hties.definition_agrees (some f.ret) hf hg
  change (Lockstep.unplaced R).Agrees _ (s.lowerDefinition (s.ensureWithin pending) func f f.ret g)
    (s.lowerDefinition (s.ensureWithin pending') func f f.ret g') at hagrees
  rw [h] at hagrees
  cases hr : s.lowerDefinition (s.ensureWithin pending') func f f.ret g' with
  | error e g₁' =>
    rw [hr] at hagrees
    exact hagrees.elim
  | ok r g₁' =>
    rw [hr] at hagrees
    exact ⟨r.1, r.2, g₁', rfl, hagrees.1.1, hagrees.2⟩

/-! ## The unit with a place for every global -/

/-- A table with all globals whose parameters have complete types. -/
def declaredTable (m : Module) : FunctionTable where
  entries := m.globals.filterMap fun global => (m.function? global.1).bind fun f =>
    if f.paramsResolved then some { name := global.1, sig := f.declaredSig } else none

theorem declaredTable_entry {m : Module} {e : TableEntry} (h : e ∈ (declaredTable m).entries) :
    ∃ f, EntryDeclared m e f := by
  obtain ⟨global, -, he⟩ := List.mem_filterMap.mp h
  obtain ⟨f, hf, he⟩ := Option.bind_eq_some_iff.mp he
  split at he
  · next hparams =>
    cases he
    exact ⟨f, hf, hparams, rfl⟩
  · cases he

theorem declared_of_table_eq (h : g.table = declaredTable s.module) : s.Declared foreign g :=
  fun _ he _ => declaredTable_entry (h ▸ he)

theorem exists_declared_place {m : Module} {f : Source.Function} (hf : m.function? name = some f)
    (hparams : f.paramsResolved = true) : ∃ id, (declaredTable m).lookup? name = some id := by
  have hmem : name ∈ m.globals.map Prod.fst := by
    by_contra hnot
    cases (Module.function?_eq_none_iff.mpr hnot).symm.trans hf
  obtain ⟨global, hglobal, rfl⟩ := List.mem_map.mp hmem
  apply mem_names_iff.mp
  refine List.mem_map.mpr ⟨{ name := global.1, sig := f.declaredSig }, ?_, rfl⟩
  refine List.mem_filterMap.mpr ⟨global, hglobal, ?_⟩
  rw [hf, Option.bind_some, if_pos hparams]

/-- What a global is lowered to if every global has its place already. -/
def Setting.declaredLowering? (s : Setting) (name : String) (f : Source.Function) :
    Option Lowered.Function :=
  ((s.lowerDefinition (s.ensureWithin 0) name f f.ret).run'
    { table := declaredTable s.module }).map Prod.fst

theorem declaredLowering?_eq_some {f : Source.Function} {f₀ : Lowered.Function} :
    s.declaredLowering? name f = some f₀ ↔ ∃ sc g, s.lowerDefinition (s.ensureWithin 0) name f f.ret
      { table := declaredTable s.module } = .ok (f₀, sc) g := by
  unfold Setting.declaredLowering?
  constructor
  · intro h
    obtain ⟨r, hr, rfl⟩ := Option.map_eq_some_iff.mp h
    obtain ⟨g, hg⟩ := exists_eq_ok_of_run' hr
    exact ⟨r.2, g, hg⟩
  · rintro ⟨sc, g, h⟩
    unfold EStateM.run' EStateM.run
    rw [h]
    rfl

/-- A table that does not change. -/
def fixedGrowth (t₀ : FunctionTable) : Growth where
  Inv t := t = t₀
  le t t' := t' = t
  place t name id := t.lookup? name = some id
  refl _ := rfl
  trans h h' := h'.trans h

/-- A global that is lowered refers to globals of the module only. -/
theorem exists_of_declaredLowering? {f : Source.Function} {f₀ : Lowered.Function}
    (h : s.declaredLowering? name f = some f₀) :
    ∀ global ∈ f.body.globals, ∃ f', s.module.function? global = some f' := by
  have hens : ∀ global, (fixedGrowth (declaredTable s.module)).Ensures
      (s.context (s.ensureWithin 0) name) global := by
    intro global g g' id hinv hr
    rcases ensureWithin_eq_ok hr with ⟨rfl, hid⟩ | ⟨_, _, _, hzero, _⟩
    · refine ⟨.of_table_eq hinv rfl, fun t ht => ?_⟩
      cases ht
      exact hid
    · cases hzero
  intro global hglobal
  obtain ⟨sc, g, h₀⟩ := declaredLowering?_eq_some.mp h
  have hstart : (fixedGrowth (declaredTable s.module)).Inv
    ({ table := declaredTable s.module } : Progress).table := rfl
  obtain ⟨⟨hinv, -⟩, -, hlowers⟩ := function_translates (fun global _ => hens global) hstart h₀
  obtain ⟨bs, n, hbody, -⟩ := (hlowers g.table rfl).body_eq
  obtain ⟨id, hid⟩ := places_cases.expr hbody global hglobal
  have hplace : g.table.lookup? global = some id := hid
  rw [show g.table = declaredTable s.module from hinv] at hplace
  obtain ⟨⟨e, he, rfl⟩, -⟩ := FunctionTable.lookup?_eq_some.mp hplace
  obtain ⟨f', hf'⟩ := declaredTable_entry (List.mem_of_getElem? he)
  exact ⟨f', hf'.source⟩

/-- All entries are for globals, apart from foreign ones, and their functions are what the globals
are lowered to anywhere, if these do not refer to foreign functions. -/
def Setting.Settled (s : Setting) (foreign : String → Prop) (g : Progress) : Prop :=
  ∀ e ∈ g.table.entries, ¬ foreign e.name → ∃ f, EntryDeclared s.module e f ∧
    ((∀ global ∈ f.body.globals, ¬ foreign global) → ∀ f', e.func = some f' →
      ∃ f₀, s.declaredLowering? e.name f = some f₀ ∧ SameUnplaced f₀ f')

namespace Setting.Settled

theorem declared (h : s.Settled foreign g) : s.Declared foreign g := by
  intro e he hname
  obtain ⟨f, hf, -⟩ := h e he hname
  exact ⟨f, hf⟩

theorem of_table_eq (h : s.Settled foreign g) (htable : g'.table = g.table) :
    s.Settled foreign g' := by
  unfold Setting.Settled at h ⊢
  rw [htable]
  exact h

theorem start : s.Settled foreign {} := fun _ he => (List.not_mem_nil he).elim

/-- The name of a global, or a foreign name, can be reserved. -/
theorem reserved (h : s.Settled foreign g) {sig : Signature}
    (hname : ¬ foreign name → ∃ f, EntryDeclared s.module { name, sig } f) :
    s.Settled foreign (g.reserved name sig) := by
  intro e he hforeign
  rcases List.mem_append.mp he with he | he
  · exact h e he hforeign
  · cases List.mem_singleton.mp he
    obtain ⟨f, hf⟩ := hname hforeign
    refine ⟨f, hf, fun _ f' hf' => ?_⟩
    cases hf'

/-- The function of a reserved entry can be installed if it is what the global is lowered to. -/
theorem installed {sig : Signature} {new : List TableEntry} {f' : Lowered.Function}
    (h : s.Settled foreign g) (hentries : g.table.entries = g'.table.entries ++ { name, sig } :: new)
    (hf' : ¬ foreign name → ∀ f, s.module.function? name = some f →
      (∀ global ∈ f.body.globals, ¬ foreign global) →
        ∃ f₀, s.declaredLowering? name f = some f₀ ∧ SameUnplaced f₀ f') {g'' : Progress}
    (htable : g''.table = ⟨g'.table.entries ++ { name, sig, func := some f' } :: new⟩) :
    s.Settled foreign g'' := by
  intro e he hforeign
  rw [htable] at he
  rcases List.mem_append.mp he with he | he
  · exact h e (by rw [hentries]; exact List.mem_append_left _ he) hforeign
  · rcases List.mem_cons.mp he with rfl | he
    · obtain ⟨f, hf, -⟩ := h { name, sig } (by rw [hentries]; simp) hforeign
      refine ⟨f, ⟨hf.source, hf.params, hf.sig⟩, fun hclosed f'' hf'' => ?_⟩
      cases hf''
      exact hf' hforeign f hf.source hclosed
    · exact h e (by rw [hentries]; simp [he]) hforeign

end Setting.Settled

def Setting.KeepsSettled (s : Setting) (foreign : String → Prop) (g g' : Progress) : Prop :=
  s.Settled foreign g → s.Settled foreign g'

theorem lasting_settled : Lasting (s.KeepsSettled foreign) where
  refl _ h := h
  trans h h' hg := h' (h hg)
  report _ _ h := h.of_table_eq rfl

/-- What a global is lowered to in a settled unit is what it is lowered to with all places known. -/
theorem lowerDefinition_settled {pending : Nat} (hret : s.module.DeclaresResults)
    (hens : ∀ global requester g, Brings (s.KeepsSettled foreign) (fun _ => False) g
      (s.ensureWithin pending global requester g))
    {f : Source.Function} (hf : ∀ global ∈ f.body.globals, ¬ foreign global)
    (hg : s.Settled foreign g) {f' : Lowered.Function} {sc : Scope}
    (h : s.lowerDefinition (s.ensureWithin pending) name f f.ret g = .ok (f', sc) g') :
    ∃ f₀, s.declaredLowering? name f = some f₀ ∧ SameUnplaced f₀ f' := by
  have halike : ∃ f₀ sc₀ g₀, s.lowerDefinition (s.ensureWithin 0) name f f.ret
      { table := declaredTable s.module } = .ok (f₀, sc₀) g₀ ∧ SameUnplaced f' f₀ ∧
        s.Settled foreign g' ∧ g₀.table = declaredTable s.module := by
    refine lowerDefinition_alike
      (R := fun g g' => s.Settled foreign g ∧ g'.table = declaredTable s.module) hret ?_ ?_ ?_ hf
      ⟨hg, rfl⟩ h
    · exact fun g g' hR => ⟨hR.1.declared, declared_of_table_eq hR.2⟩
    · rintro g g' func ⟨hg, hg'⟩
      exact ⟨hg.of_table_eq rfl, hg'⟩
    · rintro global id g g' g₁ hglobal ⟨hg, hg'⟩ hr
      have hkeeps := hens global name g
      rw [hr] at hkeeps
      obtain ⟨f, hf, hparams, -⟩ := (hkeeps hg).declared.ensured hglobal hr
      obtain ⟨id', hid'⟩ := exists_declared_place hf hparams
      exact ⟨id', g', Setting.ensureWithin_of_lookup? (hg' ▸ hid'), hkeeps hg, hg'⟩
  obtain ⟨f₀, sc₀, g₀, h₀, hsame, -⟩ := halike
  exact ⟨f₀, declaredLowering?_eq_some.mpr ⟨sc₀, g₀, h₀⟩, hsame.symm⟩

/-- A function that is lowered leaves a settled unit settled. -/
theorem lowerGlobalWith_settled {pending : Nat} (hret : s.module.DeclaresResults)
    (hens : ∀ global requester g, Brings (s.KeepsSettled foreign) (fun _ => False) g
      (s.ensureWithin pending global requester g))
    {f : Source.Function} (hf : ¬ foreign name → s.module.function? name = some f) (g : Progress) :
    Brings (s.KeepsSettled foreign) (fun _ => False) g
      (s.lowerGlobalWith (s.ensureWithin pending) name f g) := by
  have hbody : ∀ ret g, Brings (s.KeepsSettled foreign) (fun _ => False) g
      (s.lowerDefinition (s.ensureWithin pending) name f ret g) := fun ret g =>
    lasting_settled.definition (fun global _ g => hens global name g) (some ret) g
  have hreserved : ∀ ret, s.signature name f g = .ok ⟨f.params.map Var.ty, ret⟩ g →
      s.KeepsSettled foreign g (g.reserved name ⟨f.params.map Var.ty, ret⟩) := by
    intro ret hsig hg
    refine hg.reserved fun hforeign => ?_
    obtain ⟨hparams, heq⟩ := declared_of_signature (hret (hf hforeign)) hsig
    exact ⟨f, hf hforeign, hparams, heq⟩
  have hcases := s.lowersGlobal (s.ensureWithin pending) name f g
  revert hcases
  generalize s.lowerGlobalWith (s.ensureWithin pending) name f g = r
  intro hcases
  cases hcases with
  | refused => exact .inr id
  | @abandoned ret e g' hnew hsig h =>
    have hkeeps := hbody ret (g.reserved name ⟨f.params.map Var.ty, ret⟩)
    rw [h] at hkeeps
    exact .inr (lasting_settled.trans (hreserved ret hsig) (hkeeps.resolve_left id))
  | @done ret f' sc g' r hnew hsig h hr =>
    have hkeeps := hbody ret (g.reserved name ⟨f.params.map Var.ty, ret⟩)
    rw [h] at hkeeps
    have hextends := lowerDefinition_extends (s := s) (fun global requester g =>
      (ensureWithin_answers s pending global requester g).extends) name f ret
      (g.reserved name ⟨f.params.map Var.ty, ret⟩)
    rw [h] at hextends
    obtain ⟨new, hadds, -⟩ := hextends
    have hentries := ((Adds.reserved hnew).trans hadds).entries
    rw [shared_bind_of_ok (onTable_define hentries f')] at hr
    subst hr
    intro hg
    refine (hkeeps (hreserved ret hsig hg)).installed hentries ?_ rfl
    intro hforeign f₁ hf₁ hclosed
    cases hf₁.symm.trans (hf hforeign)
    obtain ⟨-, heq⟩ := declared_of_signature (hret (hf hforeign)) hsig
    cases heq
    exact lowerDefinition_settled hret hens hclosed (hreserved _ hsig hg) h

theorem ensureWithin_settled (hret : s.module.DeclaresResults) (pending : Nat)
    (name requester : String) (g : Progress) :
    Brings (s.KeepsSettled foreign) (fun _ => False) g
      (s.ensureWithin pending name requester g) := by
  apply Setting.ensureWithin_induction
    (Q := fun _ g r => Brings (s.KeepsSettled foreign) (fun _ => False) g r)
  · exact fun name id g _ => lasting_settled.refl g
  · exact fun name requester g => .inr (lasting_settled.refl g)
  · exact fun pending name f g _ hf ih => lowerGlobalWith_settled hret ih (fun _ => hf) g

/-! ## Requests that succeed -/

/-- Every global that can be asked for is lowered if every global has its place already. -/
def Setting.Lowerable (s : Setting) : Prop :=
  ∀ name f, s.module.function? name = some f → f.paramsResolved = true →
    ∃ f₀, s.declaredLowering? name f = some f₀

/-- A body is lowered in any state in which the globals can be obtained, if it is lowered at all. -/
theorem lowerDefinition_succeeds (hret : s.module.DeclaresResults) {n pending : Nat}
    (hens : ∀ global requester f g, s.Settled (fun _ => False) g → unreserved s.module g ≤ n →
      s.module.function? global = some f → f.paramsResolved = true →
        ∃ id g', s.ensureWithin pending global requester g = .ok id g')
    {f : Source.Function} {f₀ : Lowered.Function} (hf₀ : s.declaredLowering? name f = some f₀)
    (hg : s.Settled (fun _ => False) g) (hn : unreserved s.module g ≤ n) :
    ∃ f' sc g', s.lowerDefinition (s.ensureWithin pending) name f f.ret g = .ok (f', sc) g' := by
  obtain ⟨sc₀, g₀, h₀⟩ := declaredLowering?_eq_some.mp hf₀
  have halike : ∃ f' sc g', s.lowerDefinition (s.ensureWithin pending) name f f.ret g =
      .ok (f', sc) g' ∧ SameUnplaced f₀ f' ∧ g₀.table = declaredTable s.module ∧
        s.Settled (fun _ => False) g' ∧ unreserved s.module g' ≤ n := by
    refine lowerDefinition_alike (R := fun g g' => g.table = declaredTable s.module ∧
      s.Settled (fun _ => False) g' ∧ unreserved s.module g' ≤ n) hret ?_ ?_ ?_
      (fun _ _ => id) ⟨rfl, hg, hn⟩ h₀
    · exact fun g g' hR => ⟨declared_of_table_eq hR.1, hR.2.1.declared⟩
    · rintro g g' func ⟨hg, hg', hn'⟩
      exact ⟨hg, hg'.of_table_eq rfl, hn'⟩
    · rintro global id g g' g₁ - ⟨hg, hg', hn'⟩ hr
      rcases ensureWithin_eq_ok hr with ⟨rfl, hid⟩ | ⟨_, _, _, hzero, _⟩
      · rw [hg] at hid
        obtain ⟨⟨e, he, rfl⟩, -⟩ := FunctionTable.lookup?_eq_some.mp hid
        obtain ⟨f, hf⟩ := declaredTable_entry (List.mem_of_getElem? he)
        obtain ⟨id', g₁', hr'⟩ := hens e.name name f g' hg' hn' hf.source hf.params
        have hkeeps : Brings (s.KeepsSettled fun _ => False) (fun _ => False) g'
            (s.ensureWithin pending e.name name g') := ensureWithin_settled hret pending e.name name g'
        have hextends := (ensureWithin_answers s pending e.name name g').extends
        rw [hr'] at hkeeps hextends
        obtain ⟨new, hadds, -⟩ := hextends
        exact ⟨id', g₁', hr', hg, hkeeps hg', Nat.le_trans hadds.unreserved_le hn'⟩
      · cases hzero
  obtain ⟨f', sc, g', hbody, -⟩ := halike
  exact ⟨f', sc, g', hbody⟩

/-- Then all such globals are obtained, in whichever state the unit is. The induction is on the number
of globals that have no place yet. -/
theorem ensureWithin_succeeds (hret : s.module.DeclaresResults) (hall : s.Lowerable)
    {n pending : Nat} {requester : String} {f : Source.Function}
    (hg : s.Settled (fun _ => False) g) (hn : unreserved s.module g ≤ n) (hpending : n ≤ pending)
    (hf : s.module.function? name = some f) (hparams : f.paramsResolved = true) :
    ∃ id g', s.ensureWithin pending name requester g = .ok id g' := by
  induction n generalizing pending name requester f g with
  | zero =>
    cases hid : g.table.lookup? name with
    | some id => exact ⟨id, g, Setting.ensureWithin_of_lookup? hid⟩
    | none =>
      have hfewer : unreserved s.module (g.reserved name default) < unreserved s.module g :=
        unreserved_reserved_lt hf hid
      omega
  | succ n ih =>
    cases hid : g.table.lookup? name with
    | some id => exact ⟨id, g, Setting.ensureWithin_of_lookup? hid⟩
    | none =>
      obtain ⟨pending, rfl⟩ :=
        Nat.exists_eq_succ_of_ne_zero (Nat.ne_of_gt (Nat.zero_lt_of_lt hpending))
      have hfewer : unreserved s.module (g.reserved name f.declaredSig) < unreserved s.module g :=
        unreserved_reserved_lt hf hid
      have hreserved : s.Settled (fun _ => False) (g.reserved name f.declaredSig) :=
        hg.reserved fun _ => ⟨f, hf, hparams, rfl⟩
      obtain ⟨f₀, hf₀⟩ := hall name f hf hparams
      obtain ⟨f', sc, g', hbody⟩ := lowerDefinition_succeeds hret
        (fun global requester f g hg hn => ih hg hn (Nat.le_of_succ_le_succ hpending)) hf₀ hreserved
        (by omega)
      rw [Setting.ensureWithin_succ hid hf]
      obtain ⟨g'', hg''⟩ := exists_lowerGlobalWith_eq_ok (fun global requester g =>
        (ensureWithin_answers s pending global requester g).extends) hid
        (signature_of_resolved (hret hf) hparams) hbody
      exact ⟨_, g'', hg''⟩

end Lowering

end TensorIR
