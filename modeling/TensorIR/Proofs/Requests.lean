import TensorIR.Proofs.UnitSteps
import TensorIR.Proofs.UnitTranslation

/-! Requests to a unit, and what is left of those that fail.

Entries are only ever added to the table of a unit, and an entry gets its function in the request that
has added it, or never. So a request that fails has done nothing, or has left an entry that will not
get a function any more. -/

namespace TensorIR.Lowering

open Source Lowered

/-! ## What steps add -/

/-- The function whose name an event reports as reserved. -/
def Event.started? : Event → Option String
  | .reserved name _ _ => some name
  | _ => none

/-- The function that an event reports as lowered. -/
def Event.completed? : Event → Option String
  | .finalized name _ _ => some name
  | _ => none

/-- The functions whose lowering has started. -/
def Progress.started (g : Progress) : List String := g.events.toList.filterMap Event.started?

/-- The functions whose lowering has come to its end. -/
def Progress.completed (g : Progress) : List String := g.events.toList.filterMap Event.completed?

theorem filterMap_push (F : Event → Option String) (events : Array Event) (e : Event) :
    (events.push e).toList.filterMap F = events.toList.filterMap F ++ (F e).toList := by
  rw [Array.toList_push, List.filterMap_append]
  cases h : F e with
  | none => simp [h]
  | some name => simp [h]

/-- The entries are new in the table, and what has been reported since is their reservation and the
lowering of those that have functions. -/
structure Adds (new : List TableEntry) (g g' : Progress) : Prop where
  entries : g'.table.entries = g.table.entries ++ new
  nodup : (g.table.entries.map TableEntry.name).Nodup →
    (g'.table.entries.map TableEntry.name).Nodup
  started : g'.started = g.started ++ new.map TableEntry.name
  completed : (g'.completed).Perm
    (g.completed ++ (new.filter (·.func.isSome)).map TableEntry.name)

/-- All entries have functions. -/
def Complete (es : List TableEntry) : Prop := ∀ e ∈ es, e.func.isSome

namespace Adds

variable {new new' : List TableEntry} {g g' g'' : Progress}

theorem refl (g : Progress) : Adds [] g g where
  entries := (List.append_nil _).symm
  nodup h := h
  started := (List.append_nil _).symm
  completed := .of_eq (List.append_nil _).symm

theorem trans (h : Adds new g g') (h' : Adds new' g' g'') : Adds (new ++ new') g g'' where
  entries := by rw [h'.entries, h.entries, List.append_assoc]
  nodup hg := h'.nodup (h.nodup hg)
  started := by rw [h'.started, h.started, List.map_append, List.append_assoc]
  completed := by
    rw [List.filter_append, List.map_append, ← List.append_assoc]
    exact h'.completed.trans (h.completed.append_right _)

theorem report (g : Progress) (func : String) :
    Adds [] g { g with events := g.events.push (.uncheckedMatch func) } where
  entries := (List.append_nil _).symm
  nodup h := h
  started := filterMap_push ..
  completed := .of_eq (filterMap_push ..)

theorem reserved {name : String} {sig : Signature} (hnew : g.table.lookup? name = none) :
    Adds [{ name, sig }] g (g.reserved name sig) where
  entries := rfl
  nodup h := by
    have hname : name ∉ g.table.entries.map TableEntry.name := by
      simpa using FunctionTable.lookup?_eq_none.mp hnew
    rw [Progress.reserved, List.map_append]
    exact List.nodup_append_comm.mp (List.nodup_cons.mpr ⟨hname, h⟩)
  started := filterMap_push ..
  completed := .of_eq (filterMap_push ..)

/-- The lowering of a function ends with its own entry, which is before those of its requests. -/
theorem finalized {name : String} {sig : Signature} {f : Lowered.Function} {bindings : Nat}
    (h : Adds ({ name, sig } :: new) g g') :
    Adds ({ name, sig, func := some f } :: new) g
      { g' with
        table := ⟨g.table.entries ++ { name, sig, func := some f } :: new⟩
        events := g'.events.push (.finalized name ⟨g.table.size⟩ bindings) } where
  entries := rfl
  nodup hg := by
    have hnodup := h.nodup hg
    rw [h.entries] at hnodup
    rw [List.map_append, List.map_cons] at hnodup ⊢
    exact hnodup
  started := (filterMap_push ..).trans ((List.append_nil _).trans h.started)
  completed := by
    refine (List.Perm.of_eq (filterMap_push ..)).trans ?_
    refine (h.completed.append_right [name]).trans ?_
    rw [List.append_assoc]
    exact (List.perm_append_singleton name _).append_left g.completed

end Adds

/-- Successful steps add entries with functions only. -/
def Extends {α : Type} (g : Progress) : EStateM.Result LowerError Progress α → Prop
  | .ok _ g' => ∃ new, Adds new g g' ∧ Complete new
  | .error _ g' => ∃ new, Adds new g g'

theorem lasting_adds : Lasting fun g g' => ∃ new, Adds new g g' where
  refl g := ⟨[], .refl g⟩
  trans h h' := by
    obtain ⟨new, hnew⟩ := h
    obtain ⟨new', hnew'⟩ := h'
    exact ⟨new ++ new', hnew.trans hnew'⟩
  report g func := ⟨[], .report g func⟩

theorem lasting_complete : Lasting fun g g' => ∃ new, Adds new g g' ∧ Complete new where
  refl g := ⟨[], .refl g, fun _ he => (List.not_mem_nil he).elim⟩
  trans h h' := by
    obtain ⟨new, hnew, hcomplete⟩ := h
    obtain ⟨new', hnew', hcomplete'⟩ := h'
    refine ⟨new ++ new', hnew.trans hnew', fun e he => ?_⟩
    rcases List.mem_append.mp he with he | he
    · exact hcomplete e he
    · exact hcomplete' e he
  report g func := ⟨[], .report g func, fun _ he => (List.not_mem_nil he).elim⟩

namespace Extends

variable {α : Type} {g : Progress} {r : EStateM.Result LowerError Progress α}

theorem adds (h : Extends g r) : Brings (fun g g' => ∃ new, Adds new g g') (fun _ => False) g r := by
  cases r with
  | ok a g' =>
    obtain ⟨new, hnew, -⟩ := h
    exact ⟨new, hnew⟩
  | error e g' => exact .inr h

theorem complete (h : Extends g r) :
    Brings (fun g g' => ∃ new, Adds new g g' ∧ Complete new) (fun _ => True) g r := by
  cases r with
  | ok a g' => exact h
  | error e g' => exact .inl trivial

theorem of_brings (hadds : Brings (fun g g' => ∃ new, Adds new g g') (fun _ => False) g r)
    (hcomplete : Brings (fun g g' => ∃ new, Adds new g g' ∧ Complete new) (fun _ => True) g r) :
    Extends g r := by
  cases r with
  | ok a g' => exact hcomplete
  | error e g' => exact hadds.resolve_left id

end Extends

/-- The lowering of a body adds what its requests add. -/
theorem lowerDefinition_extends {s : Setting} {ensure : String → String → LowerM FunctionId}
    (hens : ∀ global requester g, Extends g (ensure global requester g)) (name : String)
    (f : Source.Function) (ret : Ty) (g : Progress) :
    Extends g (s.lowerDefinition ensure name f ret g) := by
  apply Extends.of_brings
  · exact lasting_adds.definition (fun global _ g => (hens global name g).adds) (some ret) g
  · exact lasting_complete.definition (fun global _ g => (hens global name g).complete) (some ret) g

/-! ## Requests -/

/-- What comes of a request for the global: its place if it has one, and else an entry for it, which
has a function if the request succeeds and none if it fails, unless nothing has happened. -/
def Answers (name : String) (g : Progress) : EStateM.Result LowerError Progress FunctionId → Prop
  | .ok id g' => (g' = g ∧ g.table.lookup? name = some id) ∨
    (id = ⟨g.table.size⟩ ∧ ∃ sig f new, Adds ({ name, sig, func := some f } :: new) g g' ∧
      Complete new)
  | .error _ g' => g' = g ∨ ∃ sig new, Adds ({ name, sig } :: new) g g'

theorem Answers.extends {name : String} {g : Progress}
    {r : EStateM.Result LowerError Progress FunctionId} (h : Answers name g r) : Extends g r := by
  cases r with
  | ok id g' =>
    rcases h with ⟨rfl, -⟩ | ⟨-, sig, f, new, hadds, hcomplete⟩
    · exact lasting_complete.refl g'
    · refine ⟨_, hadds, fun e he => ?_⟩
      rcases List.mem_cons.mp he with rfl | he
      · rfl
      · exact hcomplete e he
  | error e g' =>
    rcases h with rfl | ⟨sig, new, hadds⟩
    · exact lasting_adds.refl g'
    · exact ⟨_, hadds⟩

/-- A request that succeeds gives the place of an entry for the global. -/
theorem Answers.entry {name : String} {g g' : Progress} {id : FunctionId}
    (h : Answers name g (.ok id g')) :
    ∃ e, g'.table.entries[id.index]? = some e ∧ e.name = name := by
  rcases h with ⟨rfl, hid⟩ | ⟨rfl, sig, f, new, hadds, -⟩
  · exact (FunctionTable.lookup?_eq_some.mp hid).1
  · refine ⟨{ name, sig, func := some f }, ?_, rfl⟩
    rw [hadds.entries]
    simp [FunctionTable.size]

theorem onTable_define {name : String} {sig : Signature} {new : List TableEntry} {g g' : Progress}
    (h : g'.table.entries = g.table.entries ++ { name, sig } :: new) (f : Lowered.Function) :
    onTable name (fun table => (table.define ⟨g.table.size⟩ f).map ((), ·)) g' =
      .ok () { g' with table := ⟨g.table.entries ++ { name, sig, func := some f } :: new⟩ } := by
  have hdefine : g'.table.define ⟨g.table.size⟩ f =
      .ok ⟨g.table.entries ++ { name, sig, func := some f } :: new⟩ := by
    rw [← FunctionTable.define_append (e := { name, sig }) rfl f, ← h]
    rfl
  rw [onTable, shared_get_bind, hdefine]
  rfl

/-- A function that is lowered gets an entry, unless it is refused. -/
theorem lowerGlobalWith_answers {s : Setting} {ensure : String → String → LowerM FunctionId}
    (hens : ∀ global requester g, Extends g (ensure global requester g)) (name : String)
    (f : Source.Function) (g : Progress) :
    Answers name g (s.lowerGlobalWith ensure name f g) := by
  have hcases := s.lowersGlobal ensure name f g
  revert hcases
  generalize s.lowerGlobalWith ensure name f g = r
  intro hcases
  cases hcases with
  | refused => exact .inl rfl
  | @abandoned ret e g' hnew _ hbody =>
    have hextends := lowerDefinition_extends hens name f ret
      (s := s) (g.reserved name ⟨f.params.map Var.ty, ret⟩)
    rw [hbody] at hextends
    obtain ⟨new, hadds⟩ := hextends
    exact .inr ⟨_, new, (Adds.reserved hnew).trans hadds⟩
  | @done ret f' sc g' r hnew _ hbody hr =>
    have hextends := lowerDefinition_extends hens name f ret
      (s := s) (g.reserved name ⟨f.params.map Var.ty, ret⟩)
    rw [hbody] at hextends
    obtain ⟨new, hadds, hcomplete⟩ := hextends
    have hall := (Adds.reserved hnew).trans hadds
    rw [shared_bind_of_ok (onTable_define hall.entries f')] at hr
    subst hr
    exact .inr ⟨rfl, _, f', new, hall.finalized, hcomplete⟩

/-- A function whose body is lowered is installed. -/
theorem exists_lowerGlobalWith_eq_ok {s : Setting} {ensure : String → String → LowerM FunctionId}
    (hens : ∀ global requester g, Extends g (ensure global requester g)) {name : String}
    {f : Source.Function} {sig : Signature} {g g' : Progress} {f' : Lowered.Function} {sc : Scope}
    (hnew : g.table.lookup? name = none) (hsig : s.signature name f g = .ok sig g)
    (hbody : s.lowerDefinition ensure name f sig.ret (g.reserved name sig) = .ok (f', sc) g') :
    ∃ g'', s.lowerGlobalWith ensure name f g = .ok ⟨g.table.size⟩ g'' := by
  have hextends := lowerDefinition_extends hens name f sig.ret (s := s) (g.reserved name sig)
  rw [hbody] at hextends
  obtain ⟨new, hadds, -⟩ := hextends
  have hentries := ((Adds.reserved hnew).trans hadds).entries
  rw [Setting.lowerGlobalWith_of_new hnew hsig, shared_bind_of_ok hbody]
  exact ⟨_, (shared_bind_of_ok (onTable_define hentries f')).trans rfl⟩

theorem ensureWithin_answers (s : Setting) (pending : Nat) (name requester : String) (g : Progress) :
    Answers name g (s.ensureWithin pending name requester g) := by
  apply Setting.ensureWithin_induction
  · exact fun name id g hid => .inl ⟨rfl, hid⟩
  · exact fun name requester g => .inl rfl
  · intro pending name f g _ _ ih
    exact lowerGlobalWith_answers (fun global requester g => (ih global requester g).extends) name f g

/-- What a unit can be asked for. -/
inductive Request where
  /-- A global of the module, on behalf of a function. -/
  | ensure (name requester : String)
  /-- A function that is given along with a name for it. -/
  | lower (name : String) (f : Source.Function)

def Request.name : Request → String
  | .ensure name _ => name
  | .lower name _ => name

namespace Setting

variable {s : Setting} {g g' : Progress}

def serve (s : Setting) : Request → LowerM FunctionId
  | .ensure name requester => s.ensureGlobal name requester
  | .lower name f => s.lowerGlobal name f

/-- The unit after a request, whatever has come of it. -/
def next (s : Setting) (g : Progress) (r : Request) : Progress :=
  match s.serve r g with
  | .ok _ g' => g'
  | .error _ g' => g'

/-- Why a request fails. -/
def failure? (s : Setting) (g : Progress) (r : Request) : Option LowerError :=
  match s.serve r g with
  | .ok _ _ => none
  | .error e _ => some e

/-- The unit after requests, with those that have failed passed over. -/
def after (s : Setting) (g : Progress) (rs : List Request) : Progress := rs.foldl s.next g

theorem serve_answers (s : Setting) (r : Request) (g : Progress) :
    Answers r.name g (s.serve r g) := by
  cases r with
  | ensure name requester => exact ensureWithin_answers s _ name requester g
  | lower name f =>
    apply lowerGlobalWith_answers
    exact fun global requester g => (ensureWithin_answers s _ global requester g).extends

theorem next_of_ok {r : Request} {id : FunctionId} (h : s.serve r g = .ok id g') :
    s.next g r = g' := by
  rw [next, h]

theorem next_of_error {r : Request} {e : LowerError} (h : s.serve r g = .error e g') :
    s.next g r = g' := by
  rw [next, h]

theorem serve_of_failure? {r : Request} {e : LowerError} (h : s.failure? g r = some e) :
    s.serve r g = .error e (s.next g r) := by
  unfold failure? at h
  cases hr : s.serve r g with
  | ok id g' =>
    rw [hr] at h
    cases h
  | error e' g' =>
    rw [hr] at h
    cases h
    rw [next_of_error hr]

theorem serve_of_success {r : Request} (h : s.failure? g r = none) :
    ∃ id, s.serve r g = .ok id (s.next g r) := by
  unfold failure? at h
  cases hr : s.serve r g with
  | ok id g' => exact ⟨id, by rw [next_of_ok hr]⟩
  | error e' g' =>
    rw [hr] at h
    cases h

theorem next_of_brings {T : Progress → Progress → Prop} {r : Request}
    (h : Brings T (fun _ => False) g (s.serve r g)) : T g (s.next g r) := by
  cases hr : s.serve r g with
  | ok id g' =>
    rw [hr] at h
    rw [next_of_ok hr]
    exact h
  | error e g' =>
    rw [hr] at h
    rw [next_of_error hr]
    exact h.resolve_left id

/-- What each request does to the unit, all of them do. -/
theorem after_of_brings {T : Progress → Progress → Prop} (hT : Lasting T) {rs : List Request}
    (h : ∀ r ∈ rs, ∀ g, Brings T (fun _ => False) g (s.serve r g)) (g : Progress) :
    T g (s.after g rs) := by
  induction rs generalizing g with
  | nil => exact hT.refl g
  | cons r rs ih =>
    rw [List.forall_mem_cons] at h
    exact hT.trans (next_of_brings (h.1 g)) (ih h.2 (s.next g r))

theorem after_adds (s : Setting) (rs : List Request) (g : Progress) :
    ∃ new, Adds new g (s.after g rs) :=
  after_of_brings lasting_adds (fun r _ g => (s.serve_answers r g).extends.adds) g

theorem after_cons (r : Request) (rs : List Request) :
    s.after g (r :: rs) = s.after (s.next g r) rs := rfl

theorem after_append (before later : List Request) :
    s.after g (before ++ later) = s.after (s.after g before) later := List.foldl_append

/-! ## Closing the unit -/

theorem finish_of_find? {e : TableEntry}
    (h : g.table.entries.find? (·.func.isNone) = some e) :
    s.finish g = .error (.undefinedGlobal e.name e.name) g := by
  unfold finish
  rw [shared_get_bind, FunctionTable.freeze_of_find? h]
  rfl

theorem finish_of_complete (h : Complete g.table.entries) :
    ∃ p g', s.finish g = .ok p g' ∧ p.names = g.table.entries.map TableEntry.name := by
  obtain ⟨p, hfreeze, hnames⟩ := FunctionTable.freeze_of_complete h
  unfold finish
  rw [shared_get_bind, hfreeze]
  dsimp only
  split
  · exact ⟨p, _, rfl, hnames⟩
  · exact ⟨p, _, rfl, hnames⟩

/-- The unit can be closed exactly when all its entries have functions. -/
theorem exists_finish_iff :
    (∃ p g', s.finish g = .ok p g') ↔ Complete g.table.entries := by
  constructor
  · rintro ⟨p, g', h⟩ e he
    obtain ⟨i, hi⟩ := List.mem_iff_getElem?.mp he
    obtain ⟨f, hf, -⟩ := FunctionTable.freeze_eq_ok (finish_eq_ok h).1 hi
    rw [hf]
    rfl
  · intro h
    obtain ⟨p, g', hfinish, -⟩ := finish_of_complete (s := s) h
    exact ⟨p, g', hfinish⟩

theorem finish_names {p : Program} (h : s.finish g = .ok p g') :
    p.names = g.table.entries.map TableEntry.name :=
  FunctionTable.freeze_names (finish_eq_ok h).1

theorem names_nodup {rs : List Request} {p : Program}
    (h : s.finish (s.after {} rs) = .ok p g) : p.names.Nodup := by
  obtain ⟨new, hadds⟩ := s.after_adds rs {}
  rw [finish_names h]
  exact hadds.nodup List.nodup_nil

/-- An entry that has no function stays the first one without, whatever is asked for later. -/
theorem finish_after_of_find? {e : TableEntry}
    (h : g.table.entries.find? (·.func.isNone) = some e) (rs : List Request) :
    s.finish (s.after g rs) = .error (.undefinedGlobal e.name e.name) (s.after g rs) := by
  obtain ⟨new, hadds⟩ := s.after_adds rs g
  apply finish_of_find?
  rw [hadds.entries, List.find?_append, h]
  rfl

/-- If the request fails, then it leaves the table as it was. -/
def Harmless (s : Setting) (g : Progress) (r : Request) : Prop :=
  ∀ e g', s.serve r g = .error e g' → g'.table = g.table

theorem next_complete_iff {r : Request} : Complete (s.next g r).table.entries ↔
    Complete g.table.entries ∧ s.Harmless g r := by
  have hanswers := s.serve_answers r g
  cases hr : s.serve r g with
  | ok id g' =>
    have hharmless : s.Harmless g r := by
      intro e g'' h
      rw [hr] at h
      cases h
    have hextends := hanswers.extends
    rw [hr] at hextends
    obtain ⟨new, hadds, hcomplete⟩ := hextends
    rw [next_of_ok hr, hadds.entries, and_iff_left hharmless]
    refine ⟨fun h e he => h e (List.mem_append_left _ he), fun h e he => ?_⟩
    rcases List.mem_append.mp he with he | he
    · exact h e he
    · exact hcomplete e he
  | error e g' =>
    rw [hr] at hanswers
    rw [next_of_error hr]
    rcases hanswers with rfl | ⟨sig, new, hadds⟩
    · refine (and_iff_left fun e' g'' h => ?_).symm
      rw [hr] at h
      cases h
      rfl
    · constructor
      · intro h
        have hentry := h { name := r.name, sig := sig } (by rw [hadds.entries]; simp)
        cases hentry
      · intro h
        have htable := hadds.entries
        rw [h.2 e g' hr] at htable
        simp at htable

theorem after_complete_iff {rs : List Request} : Complete (s.after g rs).table.entries ↔
    Complete g.table.entries ∧ ∀ before r later, rs = before ++ r :: later →
      s.Harmless (s.after g before) r := by
  induction rs generalizing g with
  | nil => exact (and_iff_left fun before r later h => by simp at h).symm
  | cons r rs ih =>
    rw [after_cons, ih, next_complete_iff, and_assoc, and_congr_right_iff]
    intro _
    constructor
    · rintro ⟨hfirst, hrest⟩ before r' later heq
      cases before with
      | nil =>
        cases heq
        exact hfirst
      | cons r'' before =>
        cases heq
        exact hrest before r' later rfl
    · intro h
      exact ⟨h [] r rs rfl, fun before r' later heq => h (r :: before) r' later (heq ▸ rfl)⟩

theorem serve_entry {r : Request} {id : FunctionId} (h : s.serve r g = .ok id g') :
    ∃ e, g'.table.entries[id.index]? = some e ∧ e.name = r.name :=
  (h ▸ s.serve_answers r g).entry

end Setting

/-- No partial unit is ever closed. A failing request leaves the table as it was, or it leaves a new
name without a function; then the unit cannot be closed any more, whatever is asked for later, and
the first name without a function is reported. Otherwise the unit can be closed: every name in its
table is in the program once, and every place that was handed out has a function. -/
theorem no_partial_unit (s : Setting) :
    (∀ r g e g', s.serve r g = .error e g' → g'.table = g.table ∨
      (∃ sig new, g'.table.entries = g.table.entries ++ { name := r.name, sig } :: new) ∧
        ∃ entry, g'.table.entries.find? (·.func.isNone) = some entry ∧ ∀ later,
          s.finish (s.after g' later) =
            .error (.undefinedGlobal entry.name entry.name) (s.after g' later)) ∧
    ∀ rs, ((∃ p g', s.finish (s.after {} rs) = .ok p g') ↔
        ∀ before r later, rs = before ++ r :: later → s.Harmless (s.after {} before) r) ∧
      ∀ p g', s.finish (s.after {} rs) = .ok p g' →
        p.names = (s.after {} rs).table.entries.map TableEntry.name ∧ p.names.Nodup ∧
        ∀ before r later id g₁, rs = before ++ r :: later →
          s.serve r (s.after {} before) = .ok id g₁ → ∃ f, p.functions[id.index]? = some (r.name, f) := by
  refine ⟨fun r g e g' h => ?_, fun rs => ⟨?_, fun p g' h => ?_⟩⟩
  · have hanswers := s.serve_answers r g
    rw [h] at hanswers
    rcases hanswers with rfl | ⟨sig, new, hadds⟩
    · exact .inl rfl
    · have hsome : (g'.table.entries.find? (·.func.isNone)).isSome := by
        rw [List.find?_isSome]
        exact ⟨{ name := r.name, sig }, by rw [hadds.entries]; simp, rfl⟩
      obtain ⟨entry, hentry⟩ := Option.isSome_iff_exists.mp hsome
      exact .inr ⟨⟨sig, new, hadds.entries⟩, entry, hentry, Setting.finish_after_of_find? hentry⟩
  · rw [Setting.exists_finish_iff, Setting.after_complete_iff, and_iff_right]
    exact fun _ he => (List.not_mem_nil he).elim
  · refine ⟨Setting.finish_names h, Setting.names_nodup h, ?_⟩
    intro before r later id g₁ heq hserve
    obtain ⟨entry, hentry, hname⟩ := Setting.serve_entry hserve
    obtain ⟨more, hmore⟩ := s.after_adds later g₁
    have hafter : s.after {} rs = s.after g₁ later := by
      rw [heq, Setting.after_append, Setting.after_cons, Setting.next_of_ok hserve]
    have hlater : (s.after {} rs).table.entries[id.index]? = some entry := by
      rw [hafter, hmore.entries, List.getElem?_append_left (List.getElem?_eq_some_iff.mp hentry).1,
        hentry]
    obtain ⟨f, -, hf⟩ := FunctionTable.freeze_eq_ok (finish_eq_ok h).1 hlater
    exact ⟨f, hname ▸ hf⟩

/-! ## A unit with a request that breaks off -/

/-- `fn (b) { callee(b) }` -/
def forward (callee : String) : Source.Function :=
  let b : Var := ⟨0, "b", .scalar .bool⟩
  ⟨[b], .call (.global callee) [.var b] .infer, .scalar .bool⟩

/-- `fn () { let p = ping; nowhere }` -/
def broken : Source.Function :=
  ⟨[], .letIn ⟨0, "p", .infer⟩ (.global "ping") (.global "nowhere"), .scalar .bool⟩

/-- Two functions that call each other, and one that refers to a function which does not exist. -/
def brokenSetting : Setting :=
  ⟨⟨[("ping", forward "pong"), ("pong", forward "ping"), ("broken", broken)], []⟩, {}, {}⟩

/-- The request for `broken` leaves it without a function, and closing the unit reports that. A
request for a function that does not exist does no harm. -/
theorem brokenSetting_partial : ∃ e g,
    brokenSetting.serve (.ensure "broken" "main") {} = .error e g ∧
      (g.table.entries.map fun entry => (entry.name, entry.func.isSome)) =
        [("broken", false), ("ping", true), ("pong", true)] ∧
      (∀ later, brokenSetting.finish (brokenSetting.after g later) =
        .error (.undefinedGlobal "broken" "broken") (brokenSetting.after g later)) ∧
      ∃ p g' id g₁, brokenSetting.finish
          (brokenSetting.after {} [.ensure "nowhere" "main", .ensure "pong" "main"]) = .ok p g' ∧
        brokenSetting.serve (.ensure "pong" "main")
          (brokenSetting.after {} [.ensure "nowhere" "main"]) = .ok id g₁ ∧
        p.names = ["pong", "ping"] ∧ ∃ f, p.functions[id.index]? = some ("pong", f) := by
  obtain ⟨hfailing, hclosed⟩ := no_partial_unit brokenSetting
  have hfails : (brokenSetting.failure? {} (.ensure "broken" "main")).isSome = true := by
    decide +kernel
  obtain ⟨e, he⟩ := Option.isSome_iff_exists.mp hfails
  have hserve := Setting.serve_of_failure? he
  have hentries : ((brokenSetting.next {} (.ensure "broken" "main")).table.entries.map
      fun entry => (entry.name, entry.func.isSome)) =
    [("broken", false), ("ping", true), ("pong", true)] := by decide +kernel
  refine ⟨e, _, hserve, hentries, fun later => ?_, ?_⟩
  · rcases hfailing _ _ _ _ hserve with htable | ⟨-, entry, hentry, hlater⟩
    · rw [htable] at hentries
      cases hentries
    · have hfirst : ((brokenSetting.next {} (.ensure "broken" "main")).table.entries.find?
        (·.func.isNone)).map TableEntry.name = some "broken" := by decide +kernel
      rw [hentry, Option.map_some, Option.some.injEq] at hfirst
      rw [hlater later, hfirst]
  · have hcomplete : ∀ entry ∈ (brokenSetting.after {}
        [.ensure "nowhere" "main", .ensure "pong" "main"]).table.entries,
      entry.func.isSome := by decide +kernel
    have hnames : (brokenSetting.after {}
        [.ensure "nowhere" "main", .ensure "pong" "main"]).table.entries.map TableEntry.name =
      ["pong", "ping"] := by decide +kernel
    obtain ⟨p, g', hfinish⟩ := Setting.exists_finish_iff.mpr hcomplete
    obtain ⟨id, hid⟩ := Setting.serve_of_success (s := brokenSetting)
      (g := brokenSetting.after {} [.ensure "nowhere" "main"]) (r := .ensure "pong" "main")
      (by decide +kernel)
    obtain ⟨hprogram, -, hplaces⟩ := (hclosed _).2 p g' hfinish
    exact ⟨p, g', id, _, hfinish, hid, hprogram.trans hnames, hplaces _ _ [] id _ rfl hid⟩

end TensorIR.Lowering
