import TensorIR.Proofs.DeclaredUnits
import TensorIR.Proofs.LinkedPrograms

/-! The order of requests.

Where every global declares its result type, it makes no difference in which order the globals of a
module are asked for: the programs have the same functions under the same names, and only the places
of the functions differ. -/

namespace TensorIR

open Source Lowered Lowering

/-! ## Programs with other places -/

namespace Lowered

/-- The reference as the second program has it, which finds the place by the name that the first
program has in it. -/
def Program.relabel (p p' : Program) (r : GlobalRef) : GlobalRef :=
  ⟨((p.name? r.id).bind p'.idOf?).getD ⟨p'.size⟩, r.name⟩

/-- The second program has the same functions under the same names as the first one, with the places
renamed. -/
structure Program.Relabels (p p' : Program) : Prop where
  names : p'.names.Perm p.names
  functions : ∀ name, p'.functionByName? name =
    (p.functionByName? name).map (Function.mapRefs (p.relabel p'))

/-- The reference with the place that the program has for its name. -/
def Program.place (p : Program) (r : GlobalRef) : GlobalRef :=
  ⟨(p.idOf? r.name).getD ⟨p.size⟩, r.name⟩

section

variable {p : Program} {name : String} {f : Function}

theorem Program.exists_of_functionByName? (h : p.functionByName? name = some f) :
    ∃ i : Nat, p.functions[i]? = some (name, f) := by
  obtain ⟨id, hid, hf⟩ := Option.bind_eq_some_iff.mp h
  obtain ⟨i, hi, rfl⟩ := Option.map_eq_some_iff.mp hid
  obtain ⟨function, hfunction, rfl⟩ := Option.map_eq_some_iff.mp hf
  obtain ⟨hlt, hname, -⟩ := List.findIdx?_eq_some_iff_getElem.mp hi
  have hget : some p.functions[i] = some function := (List.getElem?_eq_getElem hlt).symm.trans hfunction
  cases hget
  exact ⟨i, by rw [List.getElem?_eq_getElem hlt, ← eq_of_beq hname]⟩

/-- References to places of the program have them already. -/
theorem Program.place_of_directory (hnodup : p.names.Nodup) {target : GlobalRef} {params : Nat}
    (h : p.directory target.id = some (target.name, params)) : p.place target = target := by
  rw [Program.place, Program.idOf?_of_name? hnodup (directory_eq_some h).1]
  rfl

/-- Functions that differ in places only are the same function with the places of their programs. -/
theorem relabel_of_sameUnplaced {s : Setting} {given given' : String → Source.Function → Prop}
    {t t' : FunctionTable} {p' : Program} {name' : String} {f' : Function} {i i' : Nat}
    (hp : s.Makes given t p) (hp' : s.Makes given' t' p') (hnodup : p'.names.Nodup)
    (hf : p.functions[i]? = some (name, f)) (hf' : p'.functions[i']? = some (name', f'))
    (hsame : SameUnplaced f f') : f' = f.mapRefs (p.relabel p') := by
  have hfirst : Node.RefsAgree (fun _ => Node.LinkedHere s p.directory)
      (p'.place ∘ unplaced) (p.relabel p') := by
    have hplace : ∀ {target : GlobalRef} {params}, p.directory target.id = some (target.name, params) →
        (p'.place ∘ unplaced) target = p.relabel p' target := by
      intro target params h
      have hname : p.name? target.id = some target.name := (directory_eq_some h).1
      rw [Program.relabel, hname]
      rfl
    constructor
    · exact fun scope target h => h.elim fun params => hplace
    · exact fun scope target args => hplace
  have hsecond : Node.RefsAgree (fun _ => Node.LinkedHere s p'.directory)
      (p'.place ∘ unplaced) id := by
    constructor
    · exact fun scope target h => h.elim fun params => Program.place_of_directory hnodup
    · exact fun scope target args => Program.place_of_directory hnodup
  calc
    f' = f'.mapRefs id := (Function.mapRefs_id f').symm
    _ = f'.mapRefs (p'.place ∘ unplaced) :=
      (Function.mapRefs_congr hsecond (hp'.linked hf')).symm
    _ = (f'.mapRefs unplaced).mapRefs p'.place := (Function.mapRefs_mapRefs f').symm
    _ = (f.mapRefs unplaced).mapRefs p'.place := congrArg _ hsame
    _ = f.mapRefs (p'.place ∘ unplaced) := Function.mapRefs_mapRefs f
    _ = f.mapRefs (p.relabel p') := Function.mapRefs_congr hfirst (hp.linked hf)

theorem Program.functionByName?_eq_none : p.functionByName? name = none ↔ name ∉ p.names := by
  constructor
  · intro h hname
    obtain ⟨id, hid, hsome⟩ := exists_idOf? hname
    rw [Program.functionByName?, hid, Option.bind_some] at h
    rw [h] at hsome
    cases hsome
  · intro h
    cases hf : p.functionByName? name with
    | none => rfl
    | some f =>
      obtain ⟨i, hi⟩ := Program.exists_of_functionByName? hf
      exact absurd (List.mem_map.mpr ⟨_, List.mem_of_getElem? hi, rfl⟩) h

end

end Lowered

/-! ## Units after all requests -/

namespace Lowering

variable {s : Setting} {g g' : Progress} {p p' : Program} {name : String}

/-- Requests for globals of the module, each on behalf of a function. -/
def ensureRequests (rs : List (String × String)) : List Request := rs.map fun r => .ensure r.1 r.2

/-- All globals of the module are asked for. -/
def Setting.Covers (s : Setting) (rs : List (String × String)) : Prop :=
  ∀ ⦃name f⦄, s.module.function? name = some f → name ∈ rs.map Prod.fst

theorem after_reached {given : String → Source.Function → Prop} (rs : List (String × String))
    (hg : s.Reached given g) : s.Reached given (s.after g (ensureRequests rs)) := by
  induction rs generalizing g with
  | nil => exact hg
  | cons r rs ih =>
    apply ih
    apply Setting.Reached.ensure hg
    cases hr : s.serve (.ensure r.1 r.2) g with
    | ok id g₁ => exact .inl ⟨id, by rw [Setting.next_of_ok hr]; exact hr⟩
    | error e g₁ => exact .inr ⟨e, by rw [Setting.next_of_error hr]; exact hr⟩

theorem after_settled (hret : s.module.DeclaresResults) (rs : List (String × String)) :
    s.Settled (fun _ => False) (s.after {} (ensureRequests rs)) := by
  refine Setting.after_of_brings (T := s.KeepsSettled fun _ => False) lasting_settled ?_ {} .start
  intro r hr g
  obtain ⟨⟨name, requester⟩, -, rfl⟩ := List.mem_map.mp hr
  exact ensureWithin_settled hret _ name requester g

theorem exists_pending {m : Module} {f : Source.Function} (h : m.function? name = some f) :
    ∃ pending, m.globals.length = pending + 1 := by
  apply Nat.exists_eq_succ_of_ne_zero
  intro hlength
  rw [Module.function?, List.eq_nil_of_length_eq_zero hlength] at h
  cases h

/-- A global that can be asked for has its name reserved, whatever comes of the request. -/
theorem mem_next_ensure (hret : s.module.DeclaresResults) {f : Source.Function}
    (hf : s.module.function? name = some f) (hparams : f.paramsResolved = true) (requester : String)
    (g : Progress) :
    name ∈ (s.next g (.ensure name requester)).table.entries.map TableEntry.name := by
  cases hr : s.serve (.ensure name requester) g with
  | ok id g' =>
    obtain ⟨e, he, hname⟩ := Setting.serve_entry hr
    rw [Setting.next_of_ok hr]
    exact List.mem_map.mpr ⟨e, List.mem_of_getElem? he, hname⟩
  | error e g' =>
    rw [Setting.next_of_error hr]
    have hens : s.ensureWithin s.module.globals.length name requester g = .error e g' := hr
    cases hid : g.table.lookup? name with
    | some id =>
      rw [Setting.ensureWithin_of_lookup? hid] at hens
      cases hens
    | none =>
      obtain ⟨pending, hpending⟩ := exists_pending hf
      have hsig : s.signature name f g = .ok f.declaredSig g :=
        signature_of_resolved (hret hf) hparams
      have hext : ∀ global requester g, Extends g (s.ensureWithin pending global requester g) :=
        fun global requester g => (ensureWithin_answers s pending global requester g).extends
      rw [hpending, Setting.ensureWithin_succ hid hf] at hens
      cases hbody : s.lowerDefinition (s.ensureWithin pending) name f f.declaredSig.ret
          (g.reserved name f.declaredSig) with
      | ok r g₁ =>
        obtain ⟨g'', hok⟩ := exists_lowerGlobalWith_eq_ok hext hid hsig hbody
        cases hens.symm.trans hok
      | error e' g₁ =>
        rw [Setting.lowerGlobalWith_of_new hid hsig, shared_bind_of_error hbody] at hens
        cases hens
        have hextends := lowerDefinition_extends hext name f f.declaredSig.ret (s := s)
          (g.reserved name f.declaredSig)
        rw [hbody] at hextends
        obtain ⟨new, hadds⟩ := hextends
        rw [((Adds.reserved hid).trans hadds).entries]
        simp

/-- The globals that are not refused. -/
def Setting.Requestable (s : Setting) (name : String) : Prop :=
  ∃ f, s.module.function? name = some f ∧ f.paramsResolved = true

/-- After requests for all globals, the unit has exactly those that can be asked for. -/
theorem mem_after_iff (hret : s.module.DeclaresResults) {rs : List (String × String)}
    (hcovers : s.Covers rs) :
    name ∈ (s.after {} (ensureRequests rs)).table.entries.map TableEntry.name ↔ s.Requestable name := by
  constructor
  · intro hname
    obtain ⟨e, he, rfl⟩ := List.mem_map.mp hname
    obtain ⟨f, hf⟩ := (after_settled hret rs).declared e he id
    exact ⟨f, hf.source, hf.params⟩
  · rintro ⟨f, hf, hparams⟩
    obtain ⟨r, hr, rfl⟩ := List.mem_map.mp (hcovers hf)
    obtain ⟨before, later, rfl⟩ := List.append_of_mem hr
    have hmem := mem_next_ensure hret hf hparams r.2 (s.after {} (ensureRequests before))
    obtain ⟨new, hadds⟩ := s.after_adds (ensureRequests later)
      (s.next (s.after {} (ensureRequests before)) (.ensure r.1 r.2))
    have hafter : s.after {} (ensureRequests (before ++ r :: later)) =
        s.after (s.next (s.after {} (ensureRequests before)) (.ensure r.1 r.2))
          (ensureRequests later) := by
      rw [ensureRequests, List.map_append, Setting.after_append]
      rfl
    rw [hafter, hadds.entries, List.map_append, List.mem_append]
    exact .inl hmem

/-- Requests in a settled unit do no harm if all globals can be lowered. -/
theorem ensure_harmless (hret : s.module.DeclaresResults) (hall : s.Lowerable)
    (hg : s.Settled (fun _ => False) g) (name requester : String) :
    s.Harmless g (.ensure name requester) := by
  intro e g' hr
  have hens : s.ensureWithin s.module.globals.length name requester g = .error e g' := hr
  cases hid : g.table.lookup? name with
  | some id =>
    rw [Setting.ensureWithin_of_lookup? hid] at hens
    cases hens
  | none =>
    cases hf : s.module.function? name with
    | none =>
      rw [Setting.ensureWithin_of_undefined hid hf] at hens
      cases hens
      rfl
    | some f =>
      cases hparams : f.paramsResolved with
      | true =>
        have hok : ∃ id g₁, s.serve (.ensure name requester) g = .ok id g₁ :=
          ensureWithin_succeeds hret hall hg (unmarked_le _ _) (Nat.le_refl _) hf hparams
        obtain ⟨id, g₁, hok⟩ := hok
        cases hr.symm.trans hok
      | false =>
        obtain ⟨pending, hpending⟩ := exists_pending hf
        rw [hpending, Setting.ensureWithin_succ hid hf,
          Setting.lowerGlobalWith_of_unsigned hid (signature_of_unresolved hparams)] at hens
        cases hens
        rfl

/-- Whether a unit with requests for all globals can be closed depends on the module alone. -/
theorem exists_finish_after_iff (hret : s.module.DeclaresResults) {rs : List (String × String)}
    (hcovers : s.Covers rs) :
    (∃ p g', s.finish (s.after {} (ensureRequests rs)) = .ok p g') ↔ s.Lowerable := by
  rw [Setting.exists_finish_iff]
  constructor
  · intro hcomplete name f hf hparams
    obtain ⟨e, he, rfl⟩ := List.mem_map.mp ((mem_after_iff hret hcovers).mpr ⟨f, hf, hparams⟩)
    obtain ⟨f', hf', hfunc⟩ := after_settled hret rs e he id
    cases hf.symm.trans hf'.source
    obtain ⟨f₁, hf₁⟩ := Option.isSome_iff_exists.mp (hcomplete e he)
    obtain ⟨f₀, hf₀, -⟩ := hfunc (fun _ _ => id) f₁ hf₁
    exact ⟨f₀, hf₀⟩
  · intro hall
    rw [Setting.after_complete_iff]
    refine ⟨fun _ he => (List.not_mem_nil he).elim, fun before r later heq => ?_⟩
    obtain ⟨rs₁, rs₂, rfl, rfl, hrs₂⟩ := List.map_eq_append_iff.mp heq
    obtain ⟨⟨name, requester⟩, rs₃, rfl, rfl, -⟩ := List.map_eq_cons_iff.mp hrs₂
    exact ensure_harmless hret hall (after_settled hret rs₁) name requester

/-! ## The programs -/

/-- A function in the program of a settled unit is what the global is lowered to anywhere. -/
theorem Setting.Settled.function {foreign : String → Prop} (hg : s.Settled foreign g)
    (h : s.finish g = .ok p g') {f' : Lowered.Function} (hf' : p.functionByName? name = some f')
    (hname : ¬ foreign name) : ∃ f, s.module.function? name = some f ∧
      ((∀ global ∈ f.body.globals, ¬ foreign global) →
        ∃ f₀, s.declaredLowering? name f = some f₀ ∧ SameUnplaced f₀ f') := by
  obtain ⟨i, hi⟩ := Program.exists_of_functionByName? hf'
  obtain ⟨e, he, rfl, hfunc⟩ := FunctionTable.exists_entry_of_freeze (finish_eq_ok h).1 hi
  obtain ⟨f, hf, hlowered⟩ := hg e (List.mem_of_getElem? he) hname
  exact ⟨f, hf.source, fun hclosed => hlowered hclosed f' hfunc⟩

/-- Two units with requests for all globals have the same program up to places. -/
theorem relabels_of_covers (hret : s.module.DeclaresResults) {rs rs' : List (String × String)}
    (hcovers : s.Covers rs) (hcovers' : s.Covers rs')
    (h : s.finish (s.after {} (ensureRequests rs)) = .ok p g)
    (h' : s.finish (s.after {} (ensureRequests rs')) = .ok p' g') : p.Relabels p' := by
  have hnames : ∀ name, name ∈ p'.names ↔ name ∈ p.names := by
    intro name
    rw [Setting.finish_names h, Setting.finish_names h', mem_after_iff hret hcovers,
      mem_after_iff hret hcovers']
  have hnodup := Setting.names_nodup h'
  refine ⟨(List.perm_ext_iff_of_nodup hnodup (Setting.names_nodup h)).mpr hnames, fun name => ?_⟩
  cases hf : p.functionByName? name with
  | none =>
    rw [Program.functionByName?_eq_none, ← hnames] at hf
    exact Program.functionByName?_eq_none.mpr hf
  | some f =>
    cases hf' : p'.functionByName? name with
    | none =>
      rw [Program.functionByName?_eq_none, hnames, ← Program.functionByName?_eq_none, hf] at hf'
      cases hf'
    | some f' =>
      obtain ⟨source, hsource, hlowered⟩ := (after_settled hret rs).function h hf id
      obtain ⟨source', hsource', hlowered'⟩ := (after_settled hret rs').function h' hf' id
      cases hsource.symm.trans hsource'
      obtain ⟨f₀, hf₀, hsame⟩ := hlowered fun _ _ => id
      obtain ⟨f₀', hf₀', hsame'⟩ := hlowered' fun _ _ => id
      cases hf₀.symm.trans hf₀'
      have hmakes : s.Makes (fun _ _ => False) _ p := .finish (after_reached rs .start) h
      have hmakes' : s.Makes (fun _ _ => False) _ p' := .finish (after_reached rs' .start) h'
      obtain ⟨i, hi⟩ := Program.exists_of_functionByName? hf
      obtain ⟨i', hi'⟩ := Program.exists_of_functionByName? hf'
      exact congrArg some
        (relabel_of_sameUnplaced hmakes hmakes' hnodup hi hi' (hsame'.trans hsame.symm))

/-! ## Units that end with the first failure -/

/-- Obtains the globals in the given order and closes the unit. -/
def Setting.lowerInOrder (s : Setting) (order : List (String × Source.Function)) : LowerM Program := do
  s.ensureAll order
  s.finish

/-- The requests of globals on their own behalf. -/
def ownRequests (order : List (String × Source.Function)) : List (String × String) :=
  order.map fun global => (global.1, global.1)

theorem ensureAll_eq_after {order : List (String × Source.Function)} {a : Unit}
    (h : s.ensureAll order g = .ok a g') : g' = s.after g (ensureRequests (ownRequests order)) := by
  induction order generalizing g with
  | nil =>
    cases h
    rfl
  | cons global order ih =>
    obtain ⟨id, g₁, h₁, k₁⟩ := shared_bind_eq_ok.mp h
    have hserve : s.serve (.ensure global.1 global.1) g = .ok id g₁ := h₁
    rw [ih k₁, ← Setting.next_of_ok hserve]
    rfl

theorem lowerInOrder_eq_ok {order : List (String × Source.Function)}
    (h : s.lowerInOrder order {} = .ok p g) :
    s.finish (s.after {} (ensureRequests (ownRequests order))) = .ok p g := by
  obtain ⟨_, g₁, h₁, h₂⟩ := shared_bind_eq_ok.mp h
  rw [← ensureAll_eq_after h₁]
  exact h₂

theorem exists_ensureAll_eq_ok (hret : s.module.DeclaresResults) (hall : s.Lowerable)
    {order : List (String × Source.Function)}
    (horder : ∀ global ∈ order, s.Requestable global.1) (hg : s.Settled (fun _ => False) g) :
    ∃ a g', s.ensureAll order g = .ok a g' := by
  induction order generalizing g with
  | nil => exact ⟨(), g, rfl⟩
  | cons global order ih =>
    rw [List.forall_mem_cons] at horder
    obtain ⟨⟨f, hf, hparams⟩, horder⟩ := horder
    have hok : ∃ id g₁, s.ensureGlobal global.1 global.1 g = .ok id g₁ :=
      ensureWithin_succeeds hret hall hg (unmarked_le _ _) (Nat.le_refl _) hf hparams
    obtain ⟨id, g₁, h₁⟩ := hok
    have hkeeps : Brings (s.KeepsSettled fun _ => False) (fun _ => False) g
      (s.ensureGlobal global.1 global.1 g) := ensureWithin_settled hret _ _ _ g
    rw [h₁] at hkeeps
    obtain ⟨a, g₂, h₂⟩ := ih horder (hkeeps hg)
    exact ⟨a, g₂, shared_bind_eq_ok.mpr ⟨id, g₁, h₁, h₂⟩⟩

/-- The order has the globals of the module. -/
def Setting.Orders (s : Setting) (order : List (String × Source.Function)) : Prop :=
  ∀ name, name ∈ order.map Prod.fst ↔ name ∈ s.module.globals.map Prod.fst

theorem Setting.Orders.covers {order : List (String × Source.Function)} (h : s.Orders order) :
    s.Covers (ownRequests order) := by
  intro name f hf
  have hname : name ∈ s.module.globals.map Prod.fst := by
    by_contra hnot
    cases (Module.function?_eq_none_iff.mpr hnot).symm.trans hf
  obtain ⟨global, hglobal, rfl⟩ := List.mem_map.mp ((h name).mpr hname)
  exact List.mem_map.mpr ⟨_, List.mem_map.mpr ⟨global, hglobal, rfl⟩, rfl⟩

/-- Whether all globals can be lowered one after the other depends on the module alone. -/
theorem exists_lowerInOrder_iff (hret : s.module.DeclaresResults)
    {order : List (String × Source.Function)} (horder : s.Orders order) :
    (∃ p g, s.lowerInOrder order {} = .ok p g) ↔
      s.Lowerable ∧ ∀ name ∈ s.module.globals.map Prod.fst, s.Requestable name := by
  constructor
  · rintro ⟨p, g, h⟩
    have hfinish := lowerInOrder_eq_ok h
    refine ⟨(exists_finish_after_iff hret horder.covers).mp ⟨p, g, hfinish⟩, fun name hname => ?_⟩
    obtain ⟨_, g₁, h₁, -⟩ := shared_bind_eq_ok.mp h
    obtain ⟨global, hglobal, rfl⟩ := List.mem_map.mp ((horder name).mpr hname)
    rw [← mem_after_iff hret horder.covers, ← ensureAll_eq_after h₁]
    exact (ensureAll_adds h₁).2 global hglobal
  · rintro ⟨hall, hrequestable⟩
    have hglobals : ∀ global ∈ order, s.Requestable global.1 := fun global hglobal =>
      hrequestable _ ((horder _).mp (List.mem_map_of_mem hglobal))
    obtain ⟨a, g₁, h₁⟩ := exists_ensureAll_eq_ok hret hall hglobals .start
    obtain ⟨p, g, hfinish⟩ := (exists_finish_after_iff hret horder.covers).mpr hall
    rw [← ensureAll_eq_after h₁] at hfinish
    exact ⟨p, g, shared_bind_eq_ok.mpr ⟨a, g₁, h₁, hfinish⟩⟩

/-! ## Compiled units -/

theorem compile_settled (hret : s.module.DeclaresResults) {f : Source.Function}
    {entry : FunctionId} (h : s.compile f {} = .ok (entry, p) g) :
    ∃ g₁, s.Settled (· = s.options.entryName) g₁ ∧ s.finish g₁ = .ok p g := by
  obtain ⟨g₁, h₁, h₂⟩ := compile_eq_ok h
  have hens : ∀ global requester g, Brings (s.KeepsSettled (· = s.options.entryName))
      (fun _ => False) g (s.ensureWithin s.module.globals.length global requester g) :=
    ensureWithin_settled hret _
  have hkeeps : Brings (s.KeepsSettled (· = s.options.entryName)) (fun _ => False) {}
      (s.lowerGlobal s.options.entryName f {}) :=
    lowerGlobalWith_settled hret hens (fun hname => absurd rfl hname) {}
  rw [h₁] at hkeeps
  exact ⟨g₁, hkeeps .start, h₂⟩

/-- The globals that a compiled unit has are those of the whole module. No global refers to the name
of the entry function, or else the module could not be lowered without it. -/
theorem compile_function (hret : s.module.DeclaresResults) {f : Source.Function}
    {entry : FunctionId} (h : s.compile f {} = .ok (entry, p) g)
    (h' : s.lowerModule {} = .ok p' g') (hname : name ∈ p.names)
    (hentry : name ≠ s.options.entryName) : ∃ f', p'.functionByName? name = some f' ∧
      p.functionByName? name = some (f'.mapRefs (p'.relabel p)) := by
  obtain ⟨g₁, hsettled, hfinish⟩ := compile_settled hret h
  obtain ⟨-, -, honce, m, hm, -⟩ := compile_names h
  have hfinish' : s.finish (s.after {} (ensureRequests (ownRequests s.module.globals))) = .ok p' g' :=
    lowerInOrder_eq_ok h'
  cases hf : p.functionByName? name with
  | none => exact absurd hname (Program.functionByName?_eq_none.mp hf)
  | some f₁ =>
    obtain ⟨source, hsource, hlowered⟩ := hsettled.function hfinish hf hentry
    have hname' : name ∈ p'.names := by
      by_contra hnot
      rw [(lowerModule_names h').2, ← Module.function?_eq_none_iff, hsource] at hnot
      cases hnot
    cases hf' : p'.functionByName? name with
    | none => exact absurd hname' (Program.functionByName?_eq_none.mp hf')
    | some f' =>
      obtain ⟨source', hsource', hlowered'⟩ := (after_settled hret _).function hfinish' hf' id
      cases hsource.symm.trans hsource'
      obtain ⟨f₀, hf₀, hsame'⟩ := hlowered' fun _ _ => id
      have hclosed : ∀ global ∈ source.body.globals, global ≠ s.options.entryName := by
        rintro _ hglobal rfl
        obtain ⟨f'', hf''⟩ := exists_of_declaredLowering? hf₀ _ hglobal
        rw [Module.define, hf''] at hm
        cases hm
      obtain ⟨f₀', hf₀', hsame⟩ := hlowered hclosed
      cases hf₀.symm.trans hf₀'
      obtain ⟨i, hi⟩ := Program.exists_of_functionByName? hf
      obtain ⟨i', hi'⟩ := Program.exists_of_functionByName? hf'
      exact ⟨f', rfl, congrArg some (relabel_of_sameUnplaced (.lowerModule h') (.compile h)
        honce.nodup hi' hi (hsame.trans hsame'.symm))⟩

end Lowering

open Lowering

/-- The order of requests makes no difference. Where every global declares its result type, a unit
that has been asked for all globals of its module, in any order and on behalf of any functions, can be
closed in one order exactly if it can in another, and the programs are the same up to the places of
the functions. The same holds if the first request that fails ends the lowering, as it does when a
module is lowered in the order of its definitions. Where that succeeds, a compiled unit has the same
functions for the globals that it reaches. -/
theorem request_order_irrelevant {s : Setting} (hret : s.module.DeclaresResults) :
    (∀ rs rs', s.Covers rs → s.Covers rs' →
      ((∃ p g, s.finish (s.after {} (ensureRequests rs)) = .ok p g) ↔
        ∃ p g, s.finish (s.after {} (ensureRequests rs')) = .ok p g) ∧
      ∀ p g p' g', s.finish (s.after {} (ensureRequests rs)) = .ok p g →
        s.finish (s.after {} (ensureRequests rs')) = .ok p' g' → p.Relabels p') ∧
    (∀ order, s.Orders order →
      ((∃ p g, s.lowerInOrder order {} = .ok p g) ↔ ∃ p g, s.lowerModule {} = .ok p g) ∧
      ∀ p g p' g', s.lowerModule {} = .ok p g → s.lowerInOrder order {} = .ok p' g' →
        p.Relabels p') ∧
    ∀ f entry p g p' g', s.compile f {} = .ok (entry, p) g → s.lowerModule {} = .ok p' g' →
      ∀ name ∈ p.names, name ≠ s.options.entryName → ∃ f', p'.functionByName? name = some f' ∧
        p.functionByName? name = some (f'.mapRefs (p'.relabel p)) := by
  have hmodule : s.Orders s.module.globals := fun _ => Iff.rfl
  refine ⟨fun rs rs' hcovers hcovers' => ⟨?_, ?_⟩, fun order horder => ⟨?_, ?_⟩, ?_⟩
  · rw [exists_finish_after_iff hret hcovers, exists_finish_after_iff hret hcovers']
  · exact fun p g p' g' => relabels_of_covers hret hcovers hcovers'
  · rw [exists_lowerInOrder_iff hret horder]
    exact (exists_lowerInOrder_iff hret hmodule).symm
  · intro p g p' g' h h'
    exact relabels_of_covers hret hmodule.covers horder.covers (lowerInOrder_eq_ok h)
      (lowerInOrder_eq_ok h')
  · exact fun f entry p g p' g' h h' name => compile_function hret h h'

/-! ## Functions that reach each other, in two orders -/

/-- `odd`, which declares its result type, is reached from `even` and reaches it. -/
def declaredParity : List (String × Source.Function) :=
  [("idle", ⟨[flag], .var flag, .scalar .bool⟩), ("odd", { oddGlobal with ret := .scalar .bool }),
    ("even", evenGlobal)]

def declaredSetting : Setting := ⟨⟨declaredParity, []⟩, {}, {}⟩

theorem declaredSetting_declaresResults : declaredSetting.module.DeclaresResults := by
  intro name f hf
  obtain ⟨before, later, heq, -⟩ := List.lookup_eq_some_iff.mp hf
  have hmem : (name, f) ∈ declaredSetting.module.globals := heq ▸ by simp
  have hall : ∀ global ∈ declaredSetting.module.globals, global.2.ret.isResolved = true := by decide
  exact hall _ hmem

/-- The module in the order of its definitions and the other way round, all its globals asked for on
behalf of `even` after a request that fails, and `fn (flag) { even(flag) }` compiled. -/
theorem declaredParity_orders :
    (∃ p g p' g', declaredSetting.lowerModule {} = .ok p g ∧
      declaredSetting.lowerInOrder declaredParity.reverse {} = .ok p' g' ∧
      p.names = ["idle", "odd", "even"] ∧ p'.names = ["even", "odd", "idle"] ∧ p.Relabels p') ∧
    (∃ p g, declaredSetting.finish (declaredSetting.after {} (ensureRequests
      [("nowhere", "main"), ("even", "even"), ("idle", "even"), ("odd", "even")])) = .ok p g) ∧
    ∃ p g entry p' g' f', declaredSetting.lowerModule {} = .ok p g ∧
      declaredSetting.compile (forward "even") {} = .ok (entry, p') g' ∧
      p'.names = ["main", "even", "odd"] ∧ p.functionByName? "odd" = some f' ∧
      p'.functionByName? "odd" = some (f'.mapRefs (p.relabel p')) := by
  obtain ⟨hcovers, horders, hcompile⟩ := request_order_irrelevant declaredSetting_declaresResults
  have hmodule : (declaredSetting.lowerModule.run' {}).map Program.names =
    some ["idle", "odd", "even"] := by decide +kernel
  have hreverse : ((declaredSetting.lowerInOrder declaredParity.reverse).run' {}).map
    Program.names = some ["even", "odd", "idle"] := by decide +kernel
  have hentry : ((declaredSetting.compile (forward "even")).run' {}).map (·.2.names) =
    some ["main", "even", "odd"] := by decide +kernel
  obtain ⟨p, hp, hnames⟩ := Option.map_eq_some_iff.mp hmodule
  obtain ⟨g, hg⟩ := exists_eq_ok_of_run' hp
  obtain ⟨p', hp', hnames'⟩ := Option.map_eq_some_iff.mp hreverse
  obtain ⟨g', hg'⟩ := exists_eq_ok_of_run' hp'
  obtain ⟨⟨entry, q⟩, hq, hnames''⟩ := Option.map_eq_some_iff.mp hentry
  obtain ⟨g'', hg''⟩ := exists_eq_ok_of_run' hq
  refine ⟨⟨p, g, p', g', hg, hg', hnames, hnames', ?_⟩, ?_, ?_⟩
  · refine (horders declaredParity.reverse fun name => ?_).2 p g p' g' hg hg'
    rw [List.map_reverse, List.mem_reverse]
    rfl
  · have hown : declaredSetting.Covers (ownRequests declaredParity) :=
      Setting.Orders.covers fun _ => Iff.rfl
    have hother : declaredSetting.Covers
        [("nowhere", "main"), ("even", "even"), ("idle", "even"), ("odd", "even")] := by
      intro name f hf
      have hsubset : (ownRequests declaredParity).map Prod.fst ⊆
        [("nowhere", "main"), ("even", "even"), ("idle", "even"), ("odd", "even")].map Prod.fst := by
        decide
      exact hsubset (hown hf)
    exact (hcovers _ _ hown hother).1.mp ⟨p, g, lowerInOrder_eq_ok hg⟩
  · obtain ⟨f', hf', hf''⟩ := hcompile _ entry q g'' p g hg'' hg "odd"
      (by rw [show q.names = _ from hnames'']; decide) (by decide)
    exact ⟨p, g, entry, q, g'', f', hg, hg'', hnames'', hf', hf''⟩

end TensorIR
