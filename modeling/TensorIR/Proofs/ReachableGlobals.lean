import TensorIR.Proofs.Requests
import TensorIR.Proofs.UnitHistory

/-! What a unit takes in.

A function has its name reserved before its body is lowered, so a global that is asked for inside its
own lowering has a place already: globals are lowered inside each other at most as often as there are
globals. What a unit has taken in in the end is closed under references. -/

namespace TensorIR

open Source Lowered Lowering

namespace Lowering

/-! ## Nesting -/

/-- Obtaining a global with the recursion unfolded `depth` times, over any step for what lies
deeper. -/
def Setting.ensureOver (s : Setting) (deeper : String → String → LowerM FunctionId) :
    (depth : Nat) → (name requester : String) → LowerM FunctionId
  | 0, name, requester => deeper name requester
  | depth + 1, name, requester => do
    match (← get).table.lookup? name with
    | some id => return id
    | none =>
      match s.module.function? name with
      | some f => s.lowerGlobalWith (ensureOver s deeper depth) name f
      | none => throw (.undefinedGlobal requester name)

section

variable {s : Setting} {deeper : String → String → LowerM FunctionId} {depth : Nat}
  {name requester : String} {g : Progress}

theorem ensureOver_of_lookup? {id : FunctionId} (h : g.table.lookup? name = some id) :
    s.ensureOver deeper (depth + 1) name requester g = .ok id g := by
  unfold Setting.ensureOver
  rw [shared_get_bind, h]
  rfl

theorem ensureOver_of_undefined (h : g.table.lookup? name = none)
    (hf : s.module.function? name = none) :
    s.ensureOver deeper (depth + 1) name requester g =
      .error (.undefinedGlobal requester name) g := by
  unfold Setting.ensureOver
  rw [shared_get_bind, h, hf]
  rfl

theorem ensureOver_succ {f : Source.Function} (h : g.table.lookup? name = none)
    (hf : s.module.function? name = some f) :
    s.ensureOver deeper (depth + 1) name requester g =
      s.lowerGlobalWith (s.ensureOver deeper depth) name f g := by
  unfold Setting.ensureOver
  rw [shared_get_bind, h, hf]

/-- How many globals have no place yet. -/
def unreserved (m : Module) (g : Progress) : Nat :=
  unmarked m (g.table.entries.map TableEntry.name)

theorem Adds.unreserved_le {m : Module} {new : List TableEntry} {g' : Progress} (h : Adds new g g') :
    unreserved m g' ≤ unreserved m g := by
  apply unmarked_anti
  rw [h.entries, List.map_append]
  exact List.subset_append_left _ _

/-- Reserving the name of a global leaves fewer of them. -/
theorem unreserved_reserved_lt {m : Module} {f : Source.Function} {sig : Signature}
    (hf : m.function? name = some f) (h : g.table.lookup? name = none) :
    unreserved m (g.reserved name sig) < unreserved m g := by
  have hnew : name ∉ g.table.entries.map TableEntry.name := by
    simpa using FunctionTable.lookup?_eq_none.mp h
  refine Nat.lt_of_le_of_lt (unmarked_anti ?_) (unmarked_cons_lt hf hnew)
  rw [Progress.reserved, List.map_append]
  exact List.cons_subset.mpr ⟨by simp, List.subset_append_left _ _⟩

theorem unreserved_brings {m : Module} {n : Nat} {α : Type}
    {r : EStateM.Result LowerError Progress α} (h : Extends g r) (hn : unreserved m g ≤ n) :
    Brings (fun _ g' => unreserved m g' ≤ n) (fun _ => False) g r := by
  cases r with
  | ok a g' =>
    obtain ⟨new, hadds, -⟩ := h
    exact Nat.le_trans hadds.unreserved_le hn
  | error e g' =>
    obtain ⟨new, hadds⟩ := h
    exact .inr (Nat.le_trans hadds.unreserved_le hn)

/-- Nothing lies deeper than the number of globals that have no place. -/
theorem ensureOver_eq_ensureWithin {n pending : Nat} (hn : unreserved s.module g ≤ n)
    (hdepth : n < depth) (hpending : n ≤ pending) :
    s.ensureOver deeper depth name requester g = s.ensureWithin pending name requester g := by
  induction n generalizing depth pending name requester g with
  | zero =>
    obtain ⟨depth, rfl⟩ := Nat.exists_eq_succ_of_ne_zero (Nat.ne_of_gt hdepth)
    cases hid : g.table.lookup? name with
    | some id => rw [ensureOver_of_lookup? hid, Setting.ensureWithin_of_lookup? hid]
    | none =>
      cases hf : s.module.function? name with
      | none => rw [ensureOver_of_undefined hid hf, Setting.ensureWithin_of_undefined hid hf]
      | some f =>
        have hfewer : unreserved s.module (g.reserved name default) < unreserved s.module g :=
          unreserved_reserved_lt hf hid
        omega
  | succ n ih =>
    obtain ⟨depth, rfl⟩ := Nat.exists_eq_succ_of_ne_zero (Nat.ne_of_gt (Nat.zero_lt_of_lt hdepth))
    obtain ⟨pending, rfl⟩ := Nat.exists_eq_succ_of_ne_zero (Nat.ne_of_gt (Nat.zero_lt_of_lt hpending))
    cases hid : g.table.lookup? name with
    | some id => rw [ensureOver_of_lookup? hid, Setting.ensureWithin_of_lookup? hid]
    | none =>
      cases hf : s.module.function? name with
      | none => rw [ensureOver_of_undefined hid hf, Setting.ensureWithin_of_undefined hid hf]
      | some f =>
        rw [ensureOver_succ hid hf, Setting.ensureWithin_succ hid hf]
        apply Setting.lowerGlobalWith_congr (P := fun g => unreserved s.module g ≤ n)
        · exact fun g func hg => Nat.le_trans (Adds.report g func).unreserved_le hg
        · intro global requester g hg
          refine ⟨ih hg (by omega) (by omega), ?_⟩
          exact unreserved_brings (ensureWithin_answers s pending global requester g).extends hg
        · intro sig _
          have hfewer : unreserved s.module (g.reserved name sig) < unreserved s.module g :=
            unreserved_reserved_lt hf hid
          omega

/-- Lowering ends: globals are lowered inside each other at most as often as there are globals, so
that it makes no difference what would be done deeper. -/
theorem ensureOver_eq_ensureGlobal (hdepth : s.module.globals.length < depth) :
    s.ensureOver deeper depth = s.ensureGlobal := by
  funext name requester g
  exact ensureOver_eq_ensureWithin (unmarked_le _ _) hdepth (Nat.le_refl _)

end

/-! ## References -/

/-- Every reference of an expression that is lowered has a place. -/
theorem places_cases {L : Linkage} {mode : Scoping} : Lowers.Cases L mode
    (fun _ _ e _ _ => ∀ name ∈ e.globals, ∃ id, L.place name id)
    (fun _ _ es _ _ => ∀ name ∈ Expr.listGlobals es, ∃ id, L.place name id)
    (fun _ _ clauses _ => ∀ name ∈ Expr.clauseGlobals clauses, ∃ id, L.place name id) where
  var _ _ := List.forall_mem_nil _
  const _ := List.forall_mem_nil _
  letFunction _ _ _ _ _ _ _ ihf ih := List.forall_mem_append.mpr ⟨ihf, ih⟩
  letValue _ _ _ _ _ _ ihv ih := List.forall_mem_append.mpr ⟨ihv, ih⟩
  func _ _ _ _ ih := ih
  global _ hplace := List.forall_mem_singleton.mpr ⟨_, hplace⟩
  callKernel _ _ _ _ _ ihs := ihs
  callGlobal _ _ hplace _ ihs := List.forall_mem_cons.mpr ⟨⟨_, hplace⟩, ihs⟩
  call _ _ _ _ _ ih ihs := List.forall_mem_append.mpr ⟨ih, ihs⟩
  ite _ _ _ _ _ _ _ _ ihc iht ihf :=
    List.forall_mem_append.mpr ⟨ihc, List.forall_mem_append.mpr ⟨iht, ihf⟩⟩
  tuple _ _ ihs := ihs
  matchOn _ _ _ _ ih ihs := List.forall_mem_append.mpr ⟨ih, ihs⟩
  construct _ _ _ _ ihs := ihs
  nil := List.forall_mem_nil _
  cons _ _ _ _ ih ihs := List.forall_mem_append.mpr ⟨ih, ihs⟩
  nilClause := List.forall_mem_nil _
  consClause _ _ _ _ _ _ _ ih ihs := List.forall_mem_append.mpr ⟨ih, ihs⟩

/-- What has a place is exactly what is reached. -/
theorem Translated.place_iff {L : Linkage} {m : Module} {start : String} {entry : FunctionId}
    {p : Program} (h : Translated L m start entry p) {name : String} :
    (∃ id, L.place name id) ↔ m.Reaches start name := by
  constructor
  · rintro ⟨id, hid⟩
    obtain ⟨f, f', -, -, -, hreach⟩ := h.function hid
    exact hreach
  · intro hreach
    induction hreach with
    | refl => exact ⟨entry, h.entry_place⟩
    | step _ hf hglobal ih =>
      obtain ⟨id, hid⟩ := ih
      obtain ⟨f, f', hf', -, hlowers, -⟩ := h.function hid
      rw [hf] at hf'
      cases hf'
      obtain ⟨bs, n, hbody, -⟩ := hlowers.body_eq
      exact places_cases.expr hbody _ hglobal

/-! ## Finished units -/

theorem mem_names_iff {t : FunctionTable} {name : String} :
    name ∈ t.entries.map TableEntry.name ↔ ∃ id, t.lookup? name = some id := by
  rw [← Option.isSome_iff_exists, ← Option.ne_none_iff_isSome, Ne,
    FunctionTable.lookup?_eq_none]
  simp

section

variable {s : Setting} {g g' : Progress} {p : Program}

/-- Closing a unit reports no function. -/
theorem finish_reports (h : s.finish g = .ok p g') :
    g'.started = g.started ∧ g'.completed = g.completed := by
  unfold Setting.finish at h
  rw [shared_get_bind, (finish_eq_ok h).1] at h
  dsimp only at h
  split at h
  · cases h
    exact ⟨(filterMap_push ..).trans (List.append_nil _),
      (filterMap_push ..).trans (List.append_nil _)⟩
  · cases h
    exact ⟨rfl, rfl⟩

/-- The program of a unit has the functions that have been lowered, each of them once. -/
structure ListsOnce (g : Progress) (p : Program) : Prop where
  nodup : p.names.Nodup
  started : g.started = p.names
  completed : g.completed.Perm p.names

theorem finish_listsOnce {new : List TableEntry} (hadds : Adds new {} g) (hcomplete : Complete new)
    (h : s.finish g = .ok p g') : ListsOnce g' p := by
  have hnames : p.names = new.map TableEntry.name := by
    rw [Setting.finish_names h, hadds.entries]
    rfl
  obtain ⟨hstarted, hcompleted⟩ := finish_reports h
  have hfilter : new.filter (·.func.isSome) = new := List.filter_eq_self.mpr hcomplete
  refine ⟨?_, ?_, ?_⟩
  · rw [Setting.finish_names h]
    exact hadds.nodup List.nodup_nil
  · rw [hstarted, hnames]
    exact hadds.started
  · have hperm := hadds.completed
    rw [hfilter, ← hnames] at hperm
    rw [hcompleted]
    exact hperm

theorem ensureAll_adds {globals : List (String × Source.Function)} {a : Unit}
    (h : s.ensureAll globals g = .ok a g') : (∃ new, Adds new g g' ∧ Complete new) ∧
      ∀ global ∈ globals, global.1 ∈ g'.table.entries.map TableEntry.name := by
  induction globals generalizing g with
  | nil =>
    cases h
    exact ⟨lasting_complete.refl g', fun _ hglobal => (List.not_mem_nil hglobal).elim⟩
  | cons global globals ih =>
    obtain ⟨id, g₁, h₁, k₁⟩ := shared_bind_eq_ok.mp h
    have hserve : s.serve (.ensure global.1 global.1) g = .ok id g₁ := h₁
    obtain ⟨hrest, hmem⟩ := ih k₁
    have hfirst := (s.serve_answers (.ensure global.1 global.1) g).extends
    rw [hserve] at hfirst
    refine ⟨lasting_complete.trans hfirst hrest, fun global' hglobal => ?_⟩
    rcases List.mem_cons.mp hglobal with rfl | hglobal
    · obtain ⟨e, he, hname⟩ := Setting.serve_entry hserve
      obtain ⟨new, hadds, -⟩ := hrest
      rw [hadds.entries, List.map_append, List.mem_append]
      exact .inl (List.mem_map.mpr ⟨e, List.mem_of_getElem? he, hname⟩)
    · exact hmem global' hglobal

/-- A finished module has exactly its globals. -/
theorem lowerModule_names (h : s.lowerModule {} = .ok p g) :
    ListsOnce g p ∧ ∀ name, name ∈ p.names ↔ name ∈ s.module.globals.map Prod.fst := by
  obtain ⟨_, g₁, h₁, h₂⟩ := shared_bind_eq_ok.mp h
  obtain ⟨⟨new, hadds, hcomplete⟩, hmem⟩ := ensureAll_adds h₁
  refine ⟨finish_listsOnce hadds hcomplete h₂, fun name => ?_⟩
  rw [Setting.finish_names h₂]
  constructor
  · intro hname
    obtain ⟨e, he, rfl⟩ := List.mem_map.mp hname
    have hnew : e ∈ new := by
      rw [hadds.entries] at he
      exact he
    obtain ⟨f', hf'⟩ := Option.isSome_iff_exists.mp (hcomplete e hnew)
    have hreached : s.Reached (fun _ _ => False) g₁ := ensureAll_reached .start h₁
    obtain ⟨f, hf, -⟩ := (hreached.inv e he f' hf').source
    by_contra hglobal
    cases (Module.function?_eq_none_iff.mpr hglobal).symm.trans (hf.resolve_left id)
  · intro hname
    obtain ⟨global, hglobal, rfl⟩ := List.mem_map.mp hname
    exact hmem global hglobal

/-- A compiled unit has exactly what its entry function reaches. -/
theorem compile_names {f : Source.Function} {entry : FunctionId}
    (h : s.compile f {} = .ok (entry, p) g) :
    entry = ⟨0⟩ ∧ p.name? ⟨0⟩ = some s.options.entryName ∧ ListsOnce g p ∧
      ∃ m, s.module.define s.options.entryName f = .ok m ∧ ∀ name, name ∈ p.names ↔
        name = s.options.entryName ∨
          (s.module.function? name).isSome ∧ m.Reaches s.options.entryName name := by
  obtain ⟨g₁, h₁, h₂⟩ := compile_eq_ok h
  have hanswers := s.serve_answers (.lower s.options.entryName f) {}
  rw [show s.serve (.lower s.options.entryName f) {} = .ok entry g₁ from h₁] at hanswers
  rcases hanswers with ⟨-, hid⟩ | ⟨rfl, sig, f', new, hadds, hcomplete⟩
  · cases hid
  · have hdefined : s.module.function? s.options.entryName = none := by
      unfold Setting.compile at h
      split at h
      · cases h
      · next hnew => simpa using hnew
    have hdefine : ∃ m, s.module.define s.options.entryName f = .ok m := by
      rw [Module.define, hdefined]
      exact ⟨_, rfl⟩
    obtain ⟨m, hm⟩ := hdefine
    refine ⟨rfl, ?_, ?_, m, hm, fun name => ?_⟩
    · obtain ⟨f'', -, hfirst⟩ := FunctionTable.freeze_eq_ok (finish_eq_ok h₂).1 (i := 0)
        (by rw [hadds.entries]; rfl)
      rw [Program.name?, hfirst]
      rfl
    · refine finish_listsOnce hadds ?_ h₂
      intro e he
      rcases List.mem_cons.mp he with rfl | he
      · rfl
      · exact hcomplete e he
    · have hlink := compile_translated_link hm h
      have hreach : name ∈ p.names ↔ m.Reaches s.options.entryName name := by
        rw [← hlink.place_iff, Setting.finish_names h₂, mem_names_iff, ← (finish_eq_ok h₂).2]
        rfl
      rw [hreach]
      constructor
      · intro hname
        by_cases heq : name = s.options.entryName
        · exact .inl heq
        · obtain ⟨id, hid⟩ := hlink.place_iff.mpr hname
          obtain ⟨f, -, hf, -⟩ := hlink.function hid
          rw [Module.function?_define_of_ne hm heq] at hf
          exact .inr ⟨by rw [hf]; rfl, hname⟩
      · rintro (rfl | ⟨-, hname⟩)
        · exact .refl
        · exact hname

end

end Lowering

open Lowering

/-- A unit contains exactly what is reachable, once. Lowering ends, since neither lowering nor
inference goes deeper than there are globals. A compiled unit has its entry function in its first
place and otherwise the globals of the module that the entry function reaches; a unit made of a whole
module has its globals. Each function has been lowered once. -/
theorem unit_contents (s : Setting) :
    (∀ depth, s.module.globals.length < depth →
      (∀ deeper, s.ensureOver deeper depth = s.ensureGlobal) ∧
      ∀ t deeper, globalRetOver s.module t deeper depth =
        globalRet s.module t s.module.globals.length) ∧
    (∀ f entry p g, s.compile f {} = .ok (entry, p) g →
      entry = ⟨0⟩ ∧ p.name? ⟨0⟩ = some s.options.entryName ∧ ListsOnce g p ∧
        ∃ m, s.module.define s.options.entryName f = .ok m ∧ ∀ name, name ∈ p.names ↔
          name = s.options.entryName ∨
            (s.module.function? name).isSome ∧ m.Reaches s.options.entryName name) ∧
    (s.module.Built → ∀ p g, s.lowerModule {} = .ok p g →
      ListsOnce g p ∧ p.names.Perm (s.module.globals.map Prod.fst)) := by
  refine ⟨fun depth hdepth => ⟨?_, ?_⟩, fun f entry p g => compile_names, ?_⟩
  · exact fun deeper => ensureOver_eq_ensureGlobal hdepth
  · exact fun t deeper => globalRetOver_eq hdepth
  · intro hbuilt p g h
    obtain ⟨honce, hnames⟩ := lowerModule_names h
    exact ⟨honce, (List.perm_ext_iff_of_nodup honce.nodup hbuilt.globals_nodup).mpr hnames⟩

/-! ## Functions that reach each other -/

def flag : Var := ⟨0, "flag", .scalar .bool⟩

/-- `fn (flag) { let go = fn (c) { odd(c) }; go(flag) }` -/
def evenGlobal : Source.Function :=
  let c : Var := ⟨1, "c", .scalar .bool⟩
  let go : Var := ⟨2, "go", .infer⟩
  ⟨[flag], .letIn go (.func [c] (.call (.global "odd") [.var c] .infer) .infer)
    (.call (.var go) [.var flag] .infer), .scalar .bool⟩

/-- `fn (flag) { if flag { even(flag) } else { flag } }` -/
def oddGlobal : Source.Function :=
  ⟨[flag], .ite (.var flag) (.call (.global "even") [.var flag] .infer) (.var flag) .infer, .infer⟩

def idleGlobal : Source.Function := ⟨[flag], .var flag, .infer⟩

def paritySetting : Setting :=
  ⟨⟨[("idle", idleGlobal), ("odd", oddGlobal), ("even", evenGlobal)], []⟩, {}, {}⟩

theorem paritySetting_built : paritySetting.module.Built := by
  have hidle : Module.define {} "idle" idleGlobal = .ok ⟨[("idle", idleGlobal)], []⟩ := rfl
  have hodd : Module.define ⟨[("idle", idleGlobal)], []⟩ "odd" oddGlobal =
    .ok ⟨[("idle", idleGlobal), ("odd", oddGlobal)], []⟩ := if_neg (by decide)
  have heven : Module.define ⟨[("idle", idleGlobal), ("odd", oddGlobal)], []⟩ "even" evenGlobal =
    .ok paritySetting.module := if_neg (by decide)
  exact .define (.define (.define .empty hidle) hodd) heven

/-- `fn (flag) { even(flag) }` reaches `even` and, through a nested function, `odd`. -/
theorem parity_contents :
    (∃ p g, paritySetting.compile (forward "even") {} = .ok (⟨0⟩, p) g ∧
      p.names = ["main", "even", "odd"] ∧ ListsOnce g p ∧
      ∃ m, paritySetting.module.define "main" (forward "even") = .ok m ∧
        m.Reaches "main" "odd" ∧ ¬ m.Reaches "main" "idle") ∧
    ∃ p g, paritySetting.lowerModule {} = .ok p g ∧ p.names = ["idle", "odd", "even"] ∧
      ListsOnce g p := by
  obtain ⟨-, hcompile, hlower⟩ := unit_contents paritySetting
  have hcompiled : ((paritySetting.compile (forward "even")).run' {}).map (·.2.names) =
    some ["main", "even", "odd"] := by decide +kernel
  have hlowered : (paritySetting.lowerModule.run' {}).map Program.names =
    some ["idle", "odd", "even"] := by decide +kernel
  obtain ⟨r, hr, hnames⟩ := Option.map_eq_some_iff.mp hcompiled
  obtain ⟨p, hp, hnames'⟩ := Option.map_eq_some_iff.mp hlowered
  obtain ⟨g, hg⟩ := exists_eq_ok_of_run' hr
  obtain ⟨g', hg'⟩ := exists_eq_ok_of_run' hp
  obtain ⟨hentry, -, honce, m, hm, hreach⟩ := hcompile _ _ _ _ hg
  refine ⟨⟨r.2, g, hentry ▸ hg, hnames, honce, m, hm, ?_, ?_⟩, p, g', hg', hnames', ?_⟩
  · have hodd := (hreach "odd").mp (by rw [hnames]; decide)
    exact (hodd.resolve_left (by decide)).2
  · intro hidle
    have hmem := (hreach "idle").mpr (.inr ⟨by decide, hidle⟩)
    rw [hnames] at hmem
    exact absurd hmem (by decide)
  · exact (hlower paritySetting_built p g' hg').1

end TensorIR
