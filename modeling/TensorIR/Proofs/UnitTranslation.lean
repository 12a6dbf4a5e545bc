import TensorIR.Proofs.FunctionTables
import TensorIR.Proofs.LoweringTranslates
import TensorIR.Proofs.Modules

/-! Units hold translations of everything they reach.

A unit starts from one function and takes in the globals that functions refer to, each when it is
first met. The invariant of its table says that every name in it is reached from the first one, and
that every function installed is the translation of the definition with its name, with the places
that the table has now or later. -/

namespace TensorIR

open Source Lowered Lowering

/-- The global is `start` or can be reached from it by references in function bodies. -/
inductive Source.Module.Reaches (m : Module) (start : String) : String → Prop
  | refl : m.Reaches start start
  | step {name global : String} {f : Source.Function} : m.Reaches start name →
    m.function? name = some f → global ∈ f.body.globals → m.Reaches start global

namespace Lowering

/-- The places that a table gives to names, in a unit. -/
def Setting.link (s : Setting) (t : FunctionTable) : Linkage :=
  ⟨s.module, s.kernels, fun name id => t.lookup? name = some id⟩

/-- What a unit knows of an entry of its table. -/
structure EntryTranslated (s : Setting) (m : Module) (start : String) (t : FunctionTable)
    (e : TableEntry) : Prop where
  reached : m.Reaches start e.name
  defined : ∃ f, m.function? e.name = some f ∧ ∀ f', e.func = some f' →
    ∀ t', t.Grows t' → LowersDefinition (s.link t') .threaded f f'

/-- Tables of a unit that starts with a function of the module `m`. -/
def unitGrowth (s : Setting) (m : Module) (start : String) : Growth where
  Inv t := ∀ e ∈ t.entries, EntryTranslated s m start t e
  le := FunctionTable.Grows
  place t name id := t.lookup? name = some id
  refl := .refl
  trans := .trans

section

variable {s : Setting} {m : Module} {start : String} {g g' : Progress}

theorem onTable_eq_ok {α : Type} {name : String}
    {step : FunctionTable → Except TableError (α × FunctionTable)} {a : α}
    (h : onTable name step g = .ok a g') : ∃ t, step g.table = .ok (a, t) ∧ g'.table = t := by
  obtain ⟨p, g₁, h₁, k₁⟩ := shared_bind_eq_ok.mp h
  cases h₁
  cases hstep : step g.table with
  | error e =>
    simp only [hstep] at k₁
    cases k₁
  | ok r =>
    simp only [hstep] at k₁
    cases k₁
    exact ⟨r.2, rfl, rfl⟩

theorem EntryTranslated.mono {t t' : FunctionTable} {e : TableEntry}
    (h : EntryTranslated s m start t e) (hgrows : t.Grows t') : EntryTranslated s m start t' e := by
  obtain ⟨f, hf, hlowers⟩ := h.defined
  exact ⟨h.reached, f, hf, fun f' hf' t'' ht'' => hlowers f' hf' t'' (hgrows.trans ht'')⟩

/-- A reserved name is one that is reached. -/
theorem reserve_extends {name : String} {f : Source.Function} {sig : Signature} {id : FunctionId}
    (hreach : m.Reaches start name) (hf : m.function? name = some f)
    (hinv : (unitGrowth s m start).Inv g.table)
    (h : onTable name (·.reserve name sig) g = .ok id g') :
    (unitGrowth s m start).Extends g g' ∧ g'.table.lookup? name = some id := by
  obtain ⟨t, hreserve, rfl⟩ := onTable_eq_ok h
  have hgrows := FunctionTable.reserve_grows hreserve
  refine ⟨⟨fun e he => ?_, hgrows⟩, FunctionTable.reserve_lookup? hreserve⟩
  obtain ⟨-, -, ht⟩ := FunctionTable.reserve_eq_ok hreserve
  rw [ht, List.mem_append, List.mem_singleton] at he
  rcases he with he | rfl
  · exact (hinv e he).mono hgrows
  · exact ⟨hreach, f, hf, nofun⟩

/-- An installed function is the translation of the definition with its name. -/
theorem define_extends {name : String} {f : Source.Function} {f' : Lowered.Function}
    {id : FunctionId} (hf : m.function? name = some f) (hid : g.table.lookup? name = some id)
    (hlowers : ∀ t, g.table.Grows t → LowersDefinition (s.link t) .threaded f f')
    (hinv : (unitGrowth s m start).Inv g.table) {a : Unit}
    (h : onTable name (fun table => (table.define id f').map ((), ·)) g = .ok a g') :
    (unitGrowth s m start).Extends g g' := by
  obtain ⟨t, hstep, rfl⟩ := onTable_eq_ok h
  cases hdefine : g.table.define id f' with
  | error e =>
    rw [hdefine] at hstep
    cases hstep
  | ok t =>
    rw [hdefine] at hstep
    injection hstep with hstep
    injection hstep with _ ht
    have hgrows : g.table.Grows g'.table := ht ▸ FunctionTable.define_grows hdefine
    refine ⟨fun e he => ?_, hgrows⟩
    obtain ⟨d, hd, -, heq⟩ := FunctionTable.define_eq_ok hdefine
    obtain ⟨⟨d', hd', hname⟩, -⟩ := FunctionTable.lookup?_eq_some.mp hid
    obtain rfl : d = d' := Option.some.inj (hd.symm.trans hd')
    rw [← ht, heq] at he
    rcases List.mem_or_eq_of_mem_set he with he | rfl
    · exact (hinv e he).mono hgrows
    · refine ⟨(hinv d (List.mem_of_getElem? hd)).reached, f, by simpa [hname] using hf, ?_⟩
      rintro _ heq t' ht'
      cases heq
      exact hlowers t' (hgrows.trans ht')

theorem record_eq_ok {e : Event} {a : Unit} (h : record e g = .ok a g') : g'.table = g.table := by
  cases h
  rfl

theorem signature_eq_ok {name : String} {f : Source.Function} {sig : Signature}
    (h : s.signature name f g = .ok sig g') : g'.table = g.table := by
  unfold Setting.signature at h
  split at h
  · cases h
  · obtain ⟨ty, g₁, h₁, k₁⟩ := shared_bind_eq_ok.mp h
    cases ty with
    | none => cases k₁
    | some ty =>
      cases k₁
      exact Setting.retType_eq_ok h₁

/-- Lowering a function that is reached takes in the globals that it refers to. -/
theorem lowerGlobalWith_extends {ensure : String → String → LowerM FunctionId} {name : String}
    {f : Source.Function} {id : FunctionId}
    (hens : ∀ global requester, m.Reaches start global →
      (unitGrowth s m start).Ensures ⟨s, requester, fun global => ensure global requester⟩ global)
    (hreach : m.Reaches start name) (hf : m.function? name = some f)
    (hinv : (unitGrowth s m start).Inv g.table)
    (h : s.lowerGlobalWith ensure name f g = .ok id g') :
    (unitGrowth s m start).Extends g g' ∧ g'.table.lookup? name = some id := by
  obtain ⟨p, g₁, h₁, k₁⟩ := shared_bind_eq_ok.mp h
  cases h₁
  split at k₁
  · cases k₁
  · obtain ⟨sig, g₂, h₂, k₂⟩ := shared_bind_eq_ok.mp k₁
    have hsig : (unitGrowth s m start).Extends g g₂ := .of_table_eq hinv (signature_eq_ok h₂)
    obtain ⟨id', g₃, h₃, k₃⟩ := shared_bind_eq_ok.mp k₂
    obtain ⟨hreserve, hid⟩ := reserve_extends hreach hf hsig.1 h₃
    obtain ⟨_, g₄, h₄, k₄⟩ := shared_bind_eq_ok.mp k₃
    have hnoted : (unitGrowth s m start).Extends g₃ g₄ := .of_table_eq hreserve.1 (record_eq_ok h₄)
    obtain ⟨⟨f', scope⟩, g₅, h₅, k₅⟩ := shared_bind_eq_ok.mp k₄
    obtain ⟨hbody, -, hlowers⟩ := function_translates
      (fun global hglobal => hens global name (hreach.step hf hglobal)) hnoted.1 h₅
    obtain ⟨_, g₆, h₆, k₆⟩ := shared_bind_eq_ok.mp k₅
    have hid' := FunctionTable.Grows.lookup? (hnoted.trans hbody).2 hid
    have hdefine := define_extends hf hid' hlowers hbody.1 h₆
    obtain ⟨_, g₇, h₇, k₇⟩ := shared_bind_eq_ok.mp k₆
    have hdone : (unitGrowth s m start).Extends g₆ g₇ := .of_table_eq hdefine.1 (record_eq_ok h₇)
    cases k₇
    refine ⟨hsig.trans (hreserve.trans (hnoted.trans (hbody.trans (hdefine.trans hdone)))), ?_⟩
    exact FunctionTable.Grows.lookup? (hdefine.trans hdone).2 hid'

/-- A global that has a place keeps it, and one that has none is taken in. -/
theorem ensureWithin_eq_ok {pending : Nat} {name requester : String} {id : FunctionId}
    (h : s.ensureWithin pending name requester g = .ok id g') :
    g' = g ∧ g.table.lookup? name = some id ∨
      ∃ f rest, s.module.function? name = some f ∧ pending = rest + 1 ∧
        s.lowerGlobalWith (s.ensureWithin rest) name f g = .ok id g' := by
  unfold Setting.ensureWithin at h
  obtain ⟨p, g₁, h₁, k₁⟩ := shared_bind_eq_ok.mp h
  cases h₁
  cases hid : g.table.lookup? name with
  | some id' =>
    simp only [hid] at k₁
    cases k₁
    exact .inl ⟨rfl, rfl⟩
  | none =>
    simp only [hid] at k₁
    cases hf : s.module.function? name with
    | none =>
      simp only [hf] at k₁
      cases k₁
    | some f =>
      simp only [hf] at k₁
      cases pending with
      | zero => cases k₁
      | succ rest => exact .inr ⟨f, rest, rfl, rfl, k₁⟩

/-- Obtaining a global that is reached takes it in, with all that it refers to. -/
theorem ensureWithin_ensures
    (hmodule : ∀ name f, s.module.function? name = some f → m.function? name = some f)
    (pending : Nat) (name requester : String) (hreach : m.Reaches start name) :
    (unitGrowth s m start).Ensures
      ⟨s, requester, fun global => s.ensureWithin pending global requester⟩ name := by
  induction pending generalizing name requester with
  | zero =>
    intro g g' id hinv h
    rcases ensureWithin_eq_ok h with ⟨rfl, hid⟩ | ⟨f, rest, -, hpending, -⟩
    · exact ⟨.of_table_eq hinv rfl, fun t ht => ht.lookup? hid⟩
    · cases hpending
  | succ pending ih =>
    intro g g' id hinv h
    rcases ensureWithin_eq_ok h with ⟨rfl, hid⟩ | ⟨f, rest, hf, hpending, hlower⟩
    · exact ⟨.of_table_eq hinv rfl, fun t ht => ht.lookup? hid⟩
    · cases hpending
      obtain ⟨hext, hid⟩ := lowerGlobalWith_extends (fun global requester => ih global requester)
        hreach (hmodule name f hf) hinv hlower
      exact ⟨hext, fun t ht => ht.lookup? hid⟩

end

/-! ## Finished units -/

/-- The program has, in every place, the translation of a definition that is reached. -/
structure Translated (L : Linkage) (m : Module) (start : String) (entry : FunctionId)
    (program : Program) : Prop where
  entry_place : L.place start entry
  function : ∀ ⦃name id⦄, L.place name id → ∃ f f', m.function? name = some f ∧
    program.functions[id.index]? = some (name, f') ∧ LowersDefinition L .threaded f f' ∧
      m.Reaches start name

theorem finish_eq_ok {s : Setting} {g g' : Progress} {program : Program}
    (h : s.finish g = .ok program g') : g.table.freeze = .ok program ∧ g'.table = g.table := by
  obtain ⟨p, g₁, h₁, k₁⟩ := shared_bind_eq_ok.mp h
  cases h₁
  cases hfreeze : g.table.freeze with
  | error e =>
    simp only [hfreeze] at k₁
    cases k₁
  | ok program' =>
    simp only [hfreeze] at k₁
    split at k₁
    · obtain ⟨_, g₂, h₂, k₂⟩ := shared_bind_eq_ok.mp k₁
      cases k₂
      exact ⟨rfl, record_eq_ok h₂⟩
    · cases k₁
      exact ⟨rfl, rfl⟩

/-- An entry function is compiled by lowering it and then closing the unit. -/
theorem compile_eq_ok {s : Setting} {f : Source.Function} {g g' : Progress} {entry : FunctionId}
    {program : Program} (h : s.compile f g = .ok (entry, program) g') :
    ∃ g₁, s.lowerGlobal s.options.entryName f g = .ok entry g₁ ∧ s.finish g₁ = .ok program g' := by
  unfold Setting.compile at h
  split at h
  · cases h
  · obtain ⟨id, g₁, h₁, k₁⟩ := shared_bind_eq_ok.mp h
    obtain ⟨program', g₂, h₂, k₂⟩ := shared_bind_eq_ok.mp k₁
    cases k₂
    exact ⟨g₁, h₁, h₂⟩

/-- A compiled unit is the translation of the module together with the entry function. -/
theorem compile_translated_link {s : Setting} {m : Module} {f : Source.Function} {g : Progress}
    {entry : FunctionId} {program : Program} (hentry : s.module.define s.options.entryName f = .ok m)
    (h : s.compile f {} = .ok (entry, program) g) :
    Translated (s.link g.table) m s.options.entryName entry program := by
  obtain ⟨g₁, h₁, h₂⟩ := compile_eq_ok h
  obtain ⟨hfreeze, htable⟩ := finish_eq_ok h₂
  have hmodule : ∀ name f', s.module.function? name = some f' → m.function? name = some f' :=
    fun _ _ hf => Module.function?_define hentry hf
  obtain ⟨hext, hid⟩ := lowerGlobalWith_extends
    (fun global requester => ensureWithin_ensures hmodule _ global requester) .refl
    (Module.function?_define_self hentry) (fun _ he => (List.not_mem_nil he).elim) h₁
  rw [htable]
  refine ⟨hid, fun name id hplace => ?_⟩
  obtain ⟨⟨e, he, rfl⟩, -⟩ := FunctionTable.lookup?_eq_some.mp hplace
  obtain ⟨f', hf', hprogram⟩ := FunctionTable.freeze_eq_ok hfreeze he
  obtain ⟨hreach, f, hf, hlowers⟩ := hext.1 e (List.mem_of_getElem? he)
  exact ⟨f, f', hf, hprogram, hlowers f' hf' _ (.refl _), hreach⟩

theorem compile_translated {s : Setting} {m : Module} {f : Source.Function} {g : Progress}
    {entry : FunctionId} {program : Program} (hentry : s.module.define s.options.entryName f = .ok m)
    (h : s.compile f {} = .ok (entry, program) g) :
    ∃ place, Translated ⟨s.module, s.kernels, place⟩ m s.options.entryName entry program :=
  ⟨_, compile_translated_link hentry h⟩

end Lowering

end TensorIR
