import TensorIR.Proofs.LinkedCode
import TensorIR.Proofs.UnitTranslation

/-! Units through all their requests.

A unit takes one request after the other, each for a global of its module or for a function that it
is given, and goes on after a request that fails. Whatever the requests were, each function in its
table has been lowered from a definition for its name, has the signature that was reserved for it,
and refers to what the unit has. -/

namespace TensorIR

open Source Lowered Lowering

namespace Lowering

/-! ## Requests -/

/-- The step ends in the state, with a result or an error. -/
def Ends {α : Type} (x : LowerM α) (g g' : Progress) : Prop :=
  (∃ a, x g = .ok a g') ∨ ∃ e, x g = .error e g'

/-- The states of a unit that is given functions by name. -/
inductive Setting.Reached (s : Setting) (given : String → Source.Function → Prop) : Progress → Prop
  | start : s.Reached given {}
  | ensure {g g' : Progress} {name requester : String} : s.Reached given g →
    Ends (s.ensureGlobal name requester) g g' → s.Reached given g'
  | lower {g g' : Progress} {name : String} {f : Source.Function} : s.Reached given g →
    given name f → Ends (s.lowerGlobal name f) g g' → s.Reached given g'

/-- The ways to a finished program, with the table that it was made from. -/
inductive Setting.Makes (s : Setting) :
    (given : String → Source.Function → Prop) → FunctionTable → Program → Prop
  | finish {given : String → Source.Function → Prop} {g g' : Progress} {p : Program} :
    s.Reached given g → s.finish g = .ok p g' → s.Makes given g'.table p
  | lowerModule {g' : Progress} {p : Program} :
    s.lowerModule {} = .ok p g' → s.Makes (fun _ _ => False) g'.table p
  | compile {f : Source.Function} {entry : FunctionId} {g' : Progress} {p : Program} :
    s.compile f {} = .ok (entry, p) g' →
      s.Makes (fun name f' => name = s.options.entryName ∧ f' = f) g'.table p

/-- A definition that the unit may take in under the name. -/
def Setting.Offers (s : Setting) (given : String → Source.Function → Prop) (name : String)
    (f : Source.Function) : Prop :=
  given name f ∨ s.module.function? name = some f

/-- Lowering accepts the definition somewhere and makes the function of it. -/
def Accepts (f : Source.Function) (f' : Lowered.Function) : Prop :=
  ∃ (c : BodyContext) (ret : Option Ty) (s' : Scope) (g g' : Progress),
    c.function none f [] ret (lowerExpr c f.body) {} g = .ok (f', s') g'

/-! ## What is known of the entries -/

/-- The function of an entry comes from a definition for its name, has its signature, captures
nothing and refers to what the table has. -/
structure EntryInstalled (s : Setting) (given : String → Source.Function → Prop) (t : FunctionTable)
    (e : TableEntry) (f' : Lowered.Function) : Prop where
  source : ∃ f, s.Offers given e.name f ∧ Accepts f f'
  name_eq : f'.name = none
  captures_eq : f'.captures = []
  signature_eq : e.sig = ⟨f'.params.map Param.ty, f'.ret⟩
  linked : f'.body.Linked s t.directory

/-- Tables of a unit that is given functions by name. -/
def historyGrowth (s : Setting) (given : String → Source.Function → Prop) : Growth where
  Inv t := ∀ e ∈ t.entries, ∀ f', e.func = some f' → EntryInstalled s given t e f'
  le t t' := t.Grows t' ∧ t.KeepsSignatures t'
  place t name id := t.lookup? name = some id
  refl t := ⟨.refl t, fun _ _ h => h⟩
  trans h h' := ⟨h.1.trans h'.1, fun _ _ hsig => h'.2 (h.2 hsig)⟩

section

variable {s : Setting} {given : String → Source.Function → Prop} {g g' : Progress}

theorem directory_within {t t' : FunctionTable} (h : (historyGrowth s given).le t t') :
    t.directory.Within t'.directory := by
  intro id entry hentry
  obtain ⟨e, he, rfl⟩ := Option.map_eq_some_iff.mp hentry
  obtain ⟨e', he', hname, -⟩ := h.1 he
  have hsig : t'.signature? id = some e.sig := h.2 (by rw [FunctionTable.signature?, he]; rfl)
  rw [FunctionTable.signature?, FunctionTable.entry?, he', Option.map_some, Option.some.injEq] at hsig
  rw [FunctionTable.directory, FunctionTable.entry?, he', Option.map_some, hname, hsig]

theorem EntryInstalled.mono {t t' : FunctionTable} {e : TableEntry} {f' : Lowered.Function}
    (h : EntryInstalled s given t e f') (hle : (historyGrowth s given).le t t') :
    EntryInstalled s given t' e f' :=
  { h with linked := h.linked.mono (directory_within hle) }

theorem directory_of_lookup? {t : FunctionTable} {name : String} {id : FunctionId}
    (h : t.lookup? name = some id) : ∃ params, t.directory id = some (name, params) := by
  obtain ⟨⟨e, he, rfl⟩, -⟩ := FunctionTable.lookup?_eq_some.mp h
  exact ⟨e.sig.params.length, by rw [FunctionTable.directory, FunctionTable.entry?, he]; rfl⟩

/-! ## Single steps -/

theorem onTable_keeps {S : Growth} {α : Type} {name : String}
    {step : FunctionTable → Except TableError (α × FunctionTable)} {Q : α → FunctionTable → Prop}
    (hinv : S.Inv g.table)
    (hstep : ∀ a t, step g.table = .ok (a, t) → S.Inv t ∧ S.le g.table t ∧ Q a t) :
    S.Keeps g Q (onTable name step g) := by
  rw [onTable, shared_get_bind]
  cases hr : step g.table with
  | error e => exact .of_table_eq hinv rfl
  | ok r =>
    obtain ⟨hinv', hle, hQ⟩ := hstep r.1 r.2 hr
    exact ⟨⟨hinv', hle⟩, hQ⟩

theorem record_keeps {S : Growth} {e : Event} (hinv : S.Inv g.table) :
    S.Keeps g (fun _ t => t = g.table) (record e g) :=
  ⟨.of_table_eq hinv rfl, rfl⟩

/-- The signature of a function has the types of its parameters. -/
theorem signature_keeps {S : Growth} {name : String} {f : Source.Function} (hinv : S.Inv g.table) :
    S.Keeps g (fun sig _ => sig.params = f.params.map Var.ty) (s.signature name f g) := by
  unfold Setting.signature
  split
  · exact .of_table_eq hinv rfl
  · refine Growth.Keeps.shared_bind (Q := fun _ _ => True) ⟨.of_table_eq hinv rfl, trivial⟩ ?_
    intro ty g₁ hext _
    cases ty with
    | none => exact .of_table_eq hext.1 rfl
    | some ty => exact ⟨.of_table_eq hext.1 rfl, rfl⟩

theorem reserve_keeps {name : String} {sig : Signature}
    (hinv : (historyGrowth s given).Inv g.table) :
    (historyGrowth s given).Keeps g
      (fun id t => t.lookup? name = some id ∧ t.signature? id = some sig)
      (onTable name (·.reserve name sig) g) := by
  refine onTable_keeps hinv fun id t hreserve => ?_
  have hle : (historyGrowth s given).le g.table t :=
    ⟨FunctionTable.reserve_grows hreserve, FunctionTable.reserve_keepsSignatures hreserve⟩
  refine ⟨fun e he f' hf' => ?_, hle, FunctionTable.reserve_lookup? hreserve,
    FunctionTable.reserve_signature? hreserve⟩
  obtain ⟨-, -, ht⟩ := FunctionTable.reserve_eq_ok hreserve
  rw [ht, List.mem_append, List.mem_singleton] at he
  rcases he with he | rfl
  · exact (hinv e he f' hf').mono hle
  · cases hf'

theorem define_keeps {name : String} {sig : Signature} {id : FunctionId} {f' : Lowered.Function}
    (hinv : (historyGrowth s given).Inv g.table) (hid : g.table.lookup? name = some id)
    (hsig : g.table.signature? id = some sig)
    (hentry : EntryInstalled s given g.table { name := name, sig := sig, func := none } f') :
    (historyGrowth s given).Keeps g (fun _ _ => True)
      (onTable name (fun table => (table.define id f').map ((), ·)) g) := by
  refine onTable_keeps hinv fun _ t hstep => ?_
  cases hdefine : g.table.define id f' with
  | error e =>
    rw [hdefine] at hstep
    cases hstep
  | ok t' =>
    rw [hdefine] at hstep
    cases hstep
    have hle : (historyGrowth s given).le g.table t :=
      ⟨FunctionTable.define_grows hdefine, FunctionTable.define_keepsSignatures hdefine⟩
    refine ⟨fun e he f'' hf'' => ?_, hle, trivial⟩
    obtain ⟨d, hd, -, heq⟩ := FunctionTable.define_eq_ok hdefine
    rw [heq] at he
    rcases List.mem_or_eq_of_mem_set he with he | rfl
    · exact (hinv e he f'' hf'').mono hle
    · cases hf''
      obtain ⟨⟨d', hd', hname⟩, -⟩ := FunctionTable.lookup?_eq_some.mp hid
      obtain rfl : d = d' := Option.some.inj (hd.symm.trans hd')
      rw [FunctionTable.signature?, FunctionTable.entry?, hd, Option.map_some,
        Option.some.injEq] at hsig
      have hdone := hentry.mono hle
      rw [← hname, ← hsig] at hdone
      exact { hdone with }

/-! ## Functions and globals -/

theorem bindParams_types {c : BodyContext} {vs : List Var} {ps : List Param} {sc sc' : Scope}
    (h : c.bindParams vs sc g = .ok (ps, sc') g') : ps.map Param.ty = vs.map Var.ty := by
  induction vs generalizing ps sc sc' g g' with
  | nil =>
    rw [BodyContext.bindParams] at h
    obtain ⟨rfl, -, -⟩ := pure_eq_ok.mp h
    rfl
  | cons v vs ih =>
    rw [BodyContext.bindParams] at h
    split at h
    · obtain ⟨_, s₁, g₁, h₁, -⟩ := bind_eq_ok.mp h
      exact (throw_ne_ok h₁).elim
    · obtain ⟨x, s₁, g₁, -, k₁⟩ := bind_eq_ok.mp h
      obtain ⟨_, s₂, g₂, -, k₂⟩ := bind_eq_ok.mp k₁
      obtain ⟨ps', s₃, g₃, h₃, k₃⟩ := bind_eq_ok.mp k₂
      obtain ⟨rfl, -, -⟩ := pure_eq_ok.mp k₃
      rw [List.map_cons, ih h₃, List.map_cons]

/-- A function with a given result type has it, and the types of its parameters. -/
theorem function_types {c : BodyContext} {name : Option String} {f : Source.Function}
    {captures : List Param} {ret : Ty} {x : BodyM Node} {f' : Lowered.Function} {sc sc' : Scope}
    (h : c.function name f captures (some ret) x sc g = .ok (f', sc') g') :
    f'.params.map Param.ty = f.params.map Var.ty ∧ f'.ret = ret := by
  obtain ⟨⟨params, body, ret'⟩, s₁, g₁, h₁, k₁⟩ := bind_eq_ok.mp h
  obtain ⟨rfl, -⟩ := mkChecked_eq_ok (BodyContext.checked_eq_ok k₁).1
  obtain ⟨s₂, h₂, -⟩ := restoringEnv_eq_ok h₁
  obtain ⟨ps, s₃, g₃, h₃, k₃⟩ := bind_eq_ok.mp h₂
  obtain ⟨body', s₄, g₄, -, k₄⟩ := bind_eq_ok.mp k₃
  obtain ⟨heq, -, -⟩ := pure_eq_ok.mp k₄
  cases heq
  exact ⟨bindParams_types h₃, rfl⟩

/-- Whatever comes of it, lowering a function that is on offer keeps what is known of the unit. -/
theorem lowerGlobalWith_keeps {ensure : String → String → LowerM FunctionId} {name : String}
    {f : Source.Function}
    (hens : ∀ requester, Obtains (historyGrowth s given)
      ⟨s, requester, fun global => ensure global requester⟩)
    (hf : s.Offers given name f) (hinv : (historyGrowth s given).Inv g.table) :
    (historyGrowth s given).Keeps g (fun id t => ∃ params, t.directory id = some (name, params))
      (s.lowerGlobalWith ensure name f g) := by
  unfold Setting.lowerGlobalWith
  refine Growth.Keeps.shared_bind (Q := fun _ _ => True) ⟨.of_table_eq hinv rfl, trivial⟩ ?_
  intro p g₁ hext₁ _
  split
  · exact .of_table_eq hext₁.1 rfl
  · refine (signature_keeps hext₁.1).shared_bind fun sig g₂ hext₂ hparams => ?_
    refine (reserve_keeps hext₂.1).shared_bind fun id g₃ hext₃ hid => ?_
    refine (record_keeps hext₃.1).shared_bind fun _ g₄ hext₄ _ => ?_
    have hready : Ready (historyGrowth s given)
        ⟨s, name, fun global => ensure global name⟩ {} g₄ := ⟨hext₄.1, nofun⟩
    have hbody := (exprLinked_cases (fun _ _ => directory_within) (hens name)).expr f.body
    refine (function_links (fun _ _ => directory_within) hbody hready).with_eq.shared_bind ?_
    rintro ⟨f', sc⟩ g₅ hext₅ ⟨⟨hlinked, -⟩, g₆, hfunction⟩
    have hid' : g₅.table.lookup? name = some id := (hext₄.trans hext₅).2.1.lookup? hid.1
    have hsig' : g₅.table.signature? id = some sig := (hext₄.trans hext₅).2.2 hid.2
    obtain ⟨htypes, hret⟩ := function_types hfunction
    obtain ⟨-, -, -, -, -, -, -, -, -, -, hname, hcaptures, -, -, -⟩ := function_eq_ok hfunction
    have hentry : EntryInstalled s given g₅.table { name := name, sig := sig, func := none } f' :=
      ⟨⟨f, hf, _, _, _, _, _, hfunction⟩, hname, hcaptures, by rw [htypes, hret, ← hparams], hlinked⟩
    refine (define_keeps hext₅.1 hid' hsig' hentry).shared_bind fun _ g₇ hext₇ _ => ?_
    refine (record_keeps hext₇.1).shared_bind fun _ g₈ hext₈ _ => ?_
    exact ⟨.of_table_eq hext₈.1 rfl, directory_of_lookup? ((hext₇.trans hext₈).2.1.lookup? hid')⟩

theorem ensureWithin_keeps {S : Growth} {pending : Nat} {name requester : String}
    (hinv : S.Inv g.table)
    (hlower : ∀ f, s.module.function? name = some f → ∀ rest, pending = rest + 1 →
      S.Keeps g (fun id t => ∃ params, t.directory id = some (name, params))
        (s.lowerGlobalWith (s.ensureWithin rest) name f g)) :
    S.Keeps g (fun id t => ∃ params, t.directory id = some (name, params))
      (s.ensureWithin pending name requester g) := by
  unfold Setting.ensureWithin
  rw [shared_get_bind]
  cases hid : g.table.lookup? name with
  | some id => exact ⟨.of_table_eq hinv rfl, directory_of_lookup? hid⟩
  | none =>
    cases hf : s.module.function? name with
    | none => exact .of_table_eq hinv rfl
    | some f =>
      cases pending with
      | zero => exact .of_table_eq hinv rfl
      | succ rest => exact hlower f hf rest rfl

theorem ensureWithin_obtains (pending : Nat) (requester : String) :
    Obtains (historyGrowth s given)
      ⟨s, requester, fun global => s.ensureWithin pending global requester⟩ := by
  induction pending generalizing requester with
  | zero =>
    intro name g hinv
    refine ensureWithin_keeps hinv fun f hf rest hpending => ?_
    cases hpending
  | succ pending ih =>
    intro name g hinv
    refine ensureWithin_keeps hinv fun f hf rest hpending => ?_
    cases hpending
    exact lowerGlobalWith_keeps ih (.inr hf) hinv

/-! ## Whole units -/

theorem Ends.inv {S : Growth} {α : Type} {Q : α → FunctionTable → Prop} {x : LowerM α}
    (h : Ends x g g') (hx : S.Keeps g Q (x g)) : S.Inv g'.table := by
  rcases h with ⟨a, ha⟩ | ⟨e, he⟩
  · rw [ha] at hx
    exact hx.1.1
  · rw [he] at hx
    exact hx.1

theorem Setting.Reached.inv (h : s.Reached given g) : (historyGrowth s given).Inv g.table := by
  induction h with
  | start => exact fun _ he => (List.not_mem_nil he).elim
  | ensure _ hends ih => exact hends.inv (ensureWithin_obtains _ _ ih)
  | lower _ hgiven hends ih =>
    exact hends.inv (lowerGlobalWith_keeps (fun _ => ensureWithin_obtains _ _) (.inl hgiven) ih)

theorem ensureAll_reached {globals : List (String × Source.Function)} {a : Unit}
    (hg : s.Reached given g) (h : s.ensureAll globals g = .ok a g') : s.Reached given g' := by
  induction globals generalizing g with
  | nil =>
    cases h
    exact hg
  | cons global globals ih =>
    obtain ⟨id, g₁, h₁, k₁⟩ := shared_bind_eq_ok.mp h
    exact ih (.ensure hg (.inl ⟨id, h₁⟩)) k₁

/-- All finished programs come from the table of a unit. -/
theorem Setting.Makes.exists_reached {t : FunctionTable} {p : Program} (h : s.Makes given t p) :
    ∃ g, s.Reached given g ∧ g.table = t ∧ t.freeze = .ok p := by
  cases h with
  | finish hg hfinish =>
    obtain ⟨hfreeze, htable⟩ := finish_eq_ok hfinish
    exact ⟨_, hg, htable.symm, htable ▸ hfreeze⟩
  | lowerModule h =>
    obtain ⟨_, g₁, h₁, k₁⟩ := shared_bind_eq_ok.mp h
    obtain ⟨hfreeze, htable⟩ := finish_eq_ok k₁
    exact ⟨g₁, ensureAll_reached .start h₁, htable.symm, htable ▸ hfreeze⟩
  | compile h =>
    obtain ⟨g₁, h₁, h₂⟩ := compile_eq_ok h
    obtain ⟨hfreeze, htable⟩ := finish_eq_ok h₂
    exact ⟨g₁, .lower .start ⟨rfl, rfl⟩ (.inl ⟨_, h₁⟩), htable.symm, htable ▸ hfreeze⟩

end

end Lowering

end TensorIR
