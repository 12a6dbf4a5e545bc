import Mathlib.Data.List.Induction
import TensorIR.Proofs.FunctionTables

/-! Runs of calls on a function table.

A run starts with the empty table and makes calls in any order, some of which are refused. What the
table answers after it can be read off the calls: a name has the place that its reservation was given,
and a place has the function of the first call that defined it. The program of a table that can be
closed inherits both. -/

namespace TensorIR.Lowered

inductive TableCall where
  | reserve (name : String) (sig : Signature)
  | define (id : FunctionId) (f : Function)

namespace FunctionTable

variable {t t' : FunctionTable} {call : TableCall} {calls before later : List TableCall}
  {name : String} {sig : Signature} {id : FunctionId} {f : Function}

/-- The table that the call makes, unless it is refused. -/
def serve (t : FunctionTable) : TableCall → Except TableError FunctionTable
  | .reserve name sig => (t.reserve name sig).map Prod.snd
  | .define id f => t.define id f

/-- The table after the call. A call that is refused leaves it as it is. -/
def step (t : FunctionTable) (call : TableCall) : FunctionTable :=
  match t.serve call with
  | .ok t' => t'
  | .error _ => t

/-- The table after a run. -/
def after (calls : List TableCall) : FunctionTable := calls.foldl step {}

/-- The reservations of the run that are not refused. -/
def reservations (t : FunctionTable) : List TableCall → List (String × Signature)
  | [] => []
  | .reserve name sig :: calls =>
    match t.reserve name sig with
    | .ok (_, t') => (name, sig) :: t'.reservations calls
    | .error _ => t.reservations calls
  | .define id f :: calls => (t.step (.define id f)).reservations calls

/-- The place has been given to a name. -/
def Reserved (t : FunctionTable) (id : FunctionId) : Prop := (t.name? id).isSome

/-! ## One call -/

/-- A call is refused, or it gives the next place to a new name, or it puts a function in a place that
has none. -/
theorem step_cases (t : FunctionTable) (call : TableCall) :
    (∃ e, t.serve call = .error e ∧ t.step call = t) ∨
    (∃ name sig, call = .reserve name sig ∧ t.reserve name sig = .ok (⟨t.size⟩, t.step call)) ∨
    ∃ id f, call = .define id f ∧ t.define id f = .ok (t.step call) := by
  unfold step
  cases hserve : t.serve call with
  | error e => exact .inl ⟨e, rfl, rfl⟩
  | ok t' =>
    cases call with
    | define id f => exact .inr (.inr ⟨id, f, rfl, hserve⟩)
    | reserve name sig =>
      cases hreserve : t.reserve name sig with
      | error e => simp [serve, hreserve, Except.map] at hserve
      | ok made =>
        obtain ⟨id, t''⟩ := made
        obtain ⟨-, rfl, -⟩ := reserve_eq_ok hreserve
        obtain rfl : t'' = t' := by simpa [serve, hreserve, Except.map] using hserve
        exact .inr (.inl ⟨name, sig, rfl, hreserve⟩)

theorem step_of_reserve (h : t.reserve name sig = .ok (id, t')) :
    t.step (.reserve name sig) = t' := by
  simp [step, serve, h, Except.map]

theorem step_of_refused {e : TableError} (h : t.reserve name sig = .error e) :
    t.step (.reserve name sig) = t := by
  simp [step, serve, h, Except.map]

theorem step_grows (t : FunctionTable) (call : TableCall) : t.Grows (t.step call) := by
  rcases step_cases t call with ⟨e, -, h⟩ | ⟨name, sig, -, h⟩ | ⟨id, f, -, h⟩
  · rw [h]
    exact Grows.refl t
  · exact reserve_grows h
  · exact define_grows h

theorem step_keepsSignatures (t : FunctionTable) (call : TableCall) :
    t.KeepsSignatures (t.step call) := by
  rcases step_cases t call with ⟨e, -, h⟩ | ⟨name, sig, -, h⟩ | ⟨id, f, -, h⟩
  · rw [h]
    exact fun _ _ hsig => hsig
  · exact reserve_keepsSignatures h
  · exact define_keepsSignatures h

theorem define_heads (h : t.define id f = .ok t') :
    t'.entries.map (fun e => (e.name, e.sig)) = t.entries.map fun e => (e.name, e.sig) := by
  obtain ⟨e, he, -, rfl⟩ := define_eq_ok h
  obtain ⟨hlt, rfl⟩ := List.getElem?_eq_some_iff.mp he
  refine List.ext_getElem (by simp) fun i hi hi' => ?_
  by_cases hid : id.index = i
  · subst hid
    simp
  · simp [List.getElem_set_ne hid]

theorem define_names (h : t.define id f = .ok t') :
    t'.entries.map TableEntry.name = t.entries.map TableEntry.name := by
  have hnames := congrArg (List.map Prod.fst) (define_heads h)
  rw [List.map_map, List.map_map] at hnames
  exact hnames

/-! ## The function of a place -/

theorem Grows.function? (h : t.Grows t') (hf : t.function? id = some f) :
    t'.function? id = some f := by
  obtain ⟨e, he, hfunc⟩ := Option.bind_eq_some_iff.mp hf
  obtain ⟨e', he', -, hfunc'⟩ := h he
  exact Option.bind_eq_some_iff.mpr ⟨e', he', hfunc' f hfunc⟩

/-- A call to define a place that is reserved gives it the function, unless it has one. -/
theorem function?_step_define (h : t.Reserved id) :
    (t.step (.define id f)).function? id = some ((t.function? id).getD f) := by
  obtain ⟨name, hname⟩ := Option.isSome_iff_exists.mp h
  obtain ⟨e, he, -⟩ := Option.map_eq_some_iff.mp hname
  have hlt : id.index < t.entries.length := (List.getElem?_eq_some_iff.mp he).1
  cases hfunc : e.func with
  | some g =>
    have hg : t.function? id = some g := by rw [function?, he, Option.bind_some, hfunc]
    have hstep : t.step (.define id f) = t := by simp [step, serve, define, he, hfunc]
    rw [hstep, hg, Option.getD_some]
  | none =>
    have hnone : t.function? id = none := by rw [function?, he, Option.bind_some, hfunc]
    have hstep : t.step (.define id f) = ⟨t.entries.set id.index { e with func := some f }⟩ := by
      simp [step, serve, define, he, hfunc]
    rw [hstep, hnone, function?, entry?, List.getElem?_set_self hlt]
    rfl

/-- Only a call to define a place that is reserved and has no function gives it one. -/
theorem function?_step (h : (t.step call).function? id = some f) :
    t.function? id = some f ∨ call = .define id f ∧ t.Reserved id ∧ t.function? id = none := by
  rcases step_cases t call with ⟨e, -, hstep⟩ | ⟨name, sig, -, hstep⟩ | ⟨id', g, rfl, hstep⟩
  · exact .inl (hstep ▸ h)
  · obtain ⟨-, -, hentries⟩ := reserve_eq_ok hstep
    rw [hentries, function?, entry?] at h
    by_cases hlt : id.index < t.entries.length
    · rw [List.getElem?_append_left hlt] at h
      exact .inl h
    · -- The entry of the new name has no function yet.
      obtain ⟨e, he, hfunc⟩ := Option.bind_eq_some_iff.mp h
      rw [List.getElem?_append_right (Nat.not_lt.mp hlt)] at he
      rw [List.eq_of_mem_singleton (List.mem_of_getElem? he)] at hfunc
      cases hfunc
  · obtain ⟨e, he, hnone, hentries⟩ := define_eq_ok hstep
    by_cases hid : id'.index = id.index
    · obtain rfl : id' = id := by
        cases id'
        cases id
        cases hid
        rfl
      have hreserved : t.Reserved id' := by rw [Reserved, name?, entry?, he]; rfl
      have hfunc : t.function? id' = none := by rw [function?, entry?, he, Option.bind_some, hnone]
      rw [function?_step_define hreserved, hfunc] at h
      cases h
      exact .inr ⟨rfl, hreserved, hfunc⟩
    · rw [hentries, function?, entry?, List.getElem?_set_ne hid] at h
      exact .inl h

/-! ## Whole runs -/

theorem after_append : after (before ++ later) = later.foldl step (after before) :=
  List.foldl_append

theorem after_concat : after (calls ++ [call]) = (after calls).step call := by
  rw [after_append]
  rfl

theorem foldl_step_grows (t : FunctionTable) (calls : List TableCall) :
    t.Grows (calls.foldl step t) := by
  induction calls generalizing t with
  | nil => exact Grows.refl t
  | cons call calls ih => exact (step_grows t call).trans (ih _)

theorem foldl_step_keepsSignatures (t : FunctionTable) (calls : List TableCall) :
    t.KeepsSignatures (calls.foldl step t) := by
  induction calls generalizing t with
  | nil => exact fun _ _ h => h
  | cons call calls ih => exact fun _ _ h => ih _ (step_keepsSignatures t call h)

theorem foldl_step_heads (t : FunctionTable) (calls : List TableCall) :
    (calls.foldl step t).entries.map (fun e => (e.name, e.sig)) =
      t.entries.map (fun e => (e.name, e.sig)) ++ t.reservations calls := by
  induction calls generalizing t with
  | nil => simp [reservations]
  | cons call calls ih =>
    rw [List.foldl_cons, ih]
    cases call with
    | define id f =>
      rw [reservations]
      rcases step_cases t (.define id f) with ⟨e, -, h⟩ | ⟨name, sig, h, -⟩ | ⟨id', f', -, h⟩
      · rw [h]
      · cases h
      · rw [define_heads h]
    | reserve name sig =>
      cases h : t.reserve name sig with
      | error e =>
        simp only [reservations, h, step_of_refused h]
      | ok made =>
        obtain ⟨id, t'⟩ := made
        obtain ⟨-, -, hentries⟩ := reserve_eq_ok h
        rw [step_of_reserve h]
        simp only [reservations, h]
        rw [hentries, List.map_append, List.append_assoc]
        rfl

/-- The places that are given are the reservations that are not refused. -/
theorem after_size (calls : List TableCall) :
    (after calls).size = (reservations {} calls).length := by
  have hlength := congrArg List.length (foldl_step_heads {} calls)
  simpa [after, size] using hlength

/-- The call defines the place, which is reserved by then, and no call before it does. -/
def FirstDefine (calls : List TableCall) (id : FunctionId) (f : Function) : Prop :=
  ∃ before later, calls = before ++ .define id f :: later ∧ (after before).Reserved id ∧
    ∀ earlier g rest, before = earlier ++ .define id g :: rest → ¬ (after earlier).Reserved id

theorem after_eq_foldl_step (before later : List TableCall) (call : TableCall) :
    after (before ++ call :: later) = later.foldl step ((after before).step call) := by
  rw [after_append, List.foldl_cons]

theorem function?_after_ne_none (h : (after before).Reserved id) :
    (after (before ++ .define id f :: later)).function? id ≠ none := by
  rw [after_eq_foldl_step, (foldl_step_grows _ later).function? (function?_step_define h)]
  exact Option.some_ne_none _

theorem FirstDefine.append (h : FirstDefine calls id f) (later : List TableCall) :
    FirstDefine (calls ++ later) id f := by
  obtain ⟨before, rest, rfl, hreserved, hfirst⟩ := h
  exact ⟨before, rest ++ later, by simp, hreserved, hfirst⟩

theorem firstDefine_of_function? (h : (after calls).function? id = some f) :
    FirstDefine calls id f := by
  induction calls using List.reverseRecOn with
  | nil => simp [after, function?, entry?] at h
  | append_singleton calls call ih =>
    rw [after_concat] at h
    rcases function?_step h with hbefore | ⟨rfl, hreserved, hnone⟩
    · exact (ih hbefore).append [call]
    · refine ⟨calls, [], rfl, hreserved, ?_⟩
      rintro earlier g rest rfl hearlier
      exact function?_after_ne_none hearlier hnone

/-- The function of a place is that of the first call that defines it. -/
theorem function?_after : (after calls).function? id = some f ↔ FirstDefine calls id f := by
  constructor
  · exact firstDefine_of_function?
  · rintro ⟨before, later, rfl, hreserved, hfirst⟩
    have hnone : (after before).function? id = none := by
      refine Option.eq_none_iff_forall_ne_some.mpr fun g hg => ?_
      obtain ⟨earlier, rest, hsplit, hearlier, -⟩ := firstDefine_of_function? hg
      exact hfirst earlier g rest hsplit hearlier
    have hstep := function?_step_define (f := f) hreserved
    rw [hnone] at hstep
    rw [after_eq_foldl_step]
    exact (foldl_step_grows _ later).function? hstep

/-! ## Closed tables -/

theorem function?_eq_none_of_entry {e : TableEntry} (he : t.entries[id.index]? = some e)
    (hnone : e.func = none) : t.function? id = none := by
  rw [function?, entry?, he, Option.bind_some, hnone]

/-- A table that is not closed names the first place that has no function. -/
theorem freeze_eq_error {e : TableError} (h : t.freeze = .error e) :
    ∃ id name, e = .undefined name ∧ t.name? id = some name ∧ t.function? id = none ∧
      ∀ id', id'.index < id.index → ∃ f, t.function? id' = some f := by
  cases hfind : t.entries.find? (·.func.isNone) with
  | none =>
    have hcomplete : ∀ e ∈ t.entries, e.func.isSome := fun e he =>
      Option.isSome_iff_ne_none.mpr (by simpa using List.find?_eq_none.mp hfind e he)
    obtain ⟨p, hp, -⟩ := freeze_of_complete hcomplete
    cases h.symm.trans hp
  | some d =>
    cases h.symm.trans (freeze_of_find? hfind)
    obtain ⟨hnone, i, hi, rfl, hbefore⟩ := List.find?_eq_some_iff_getElem.mp hfind
    have hentry : t.entries[i]? = some t.entries[i] := List.getElem?_eq_getElem hi
    refine ⟨⟨i⟩, _, rfl, by rw [name?, entry?, hentry, Option.map_some],
      function?_eq_none_of_entry hentry (Option.isNone_iff_eq_none.mp hnone), fun id' hlt => ?_⟩
    have hsome := hbefore id'.index hlt
    obtain ⟨f, hf⟩ := Option.isSome_iff_exists.mp (by simpa using hsome)
    exact ⟨f, Option.bind_eq_some_iff.mpr
      ⟨_, List.getElem?_eq_getElem (Nat.lt_trans hlt hi), hf⟩⟩

theorem freeze_isOk_iff :
    (∃ p, t.freeze = .ok p) ↔ ∀ id, t.Reserved id → ∃ f, t.function? id = some f := by
  constructor
  · rintro ⟨p, hp⟩ id hreserved
    obtain ⟨name, hname⟩ := Option.isSome_iff_exists.mp hreserved
    obtain ⟨e, he, -⟩ := Option.map_eq_some_iff.mp hname
    obtain ⟨f, hf, -⟩ := freeze_eq_ok hp he
    exact ⟨f, Option.bind_eq_some_iff.mpr ⟨e, he, hf⟩⟩
  · intro hdefined
    cases h : t.freeze with
    | ok p => exact ⟨p, rfl⟩
    | error e =>
      obtain ⟨id, name, -, hname, hnone, -⟩ := freeze_eq_error h
      obtain ⟨f, hf⟩ := hdefined id (Option.isSome_iff_exists.mpr ⟨name, hname⟩)
      cases hnone.symm.trans hf

/-- The program has the name and the function of every place of the table. -/
theorem freeze_functions {p : Program} (h : t.freeze = .ok p) (id : FunctionId) :
    p.functions[id.index]? = (t.entries[id.index]?).bind fun e => e.func.map (e.name, ·) := by
  cases he : t.entries[id.index]? with
  | some e =>
    obtain ⟨f, hf, hp⟩ := freeze_eq_ok h he
    rw [hp, Option.bind_some, hf, Option.map_some]
  | none =>
    cases hp : p.functions[id.index]? with
    | none => rfl
    | some function =>
      obtain ⟨e, he', -⟩ := exists_entry_of_freeze h hp
      cases he.symm.trans he'

theorem freeze_name? {p : Program} (h : t.freeze = .ok p) (id : FunctionId) :
    p.name? id = t.name? id := by
  rw [Program.name?, freeze_functions h, name?, entry?]
  cases he : t.entries[id.index]? with
  | none => rfl
  | some e =>
    obtain ⟨f, hf, -⟩ := freeze_eq_ok h he
    simp [hf]

theorem freeze_function? {p : Program} (h : t.freeze = .ok p) (id : FunctionId) :
    p.function? id = t.function? id := by
  rw [Program.function?, freeze_functions h, function?, entry?]
  cases he : t.entries[id.index]? with
  | none => rfl
  | some e =>
    obtain ⟨f, hf, -⟩ := freeze_eq_ok h he
    simp [hf]

/-! ## Answers after a run -/

theorem after_reserved {t : FunctionTable} (hcalls : calls = before ++ .reserve name sig :: later)
    (h : (after before).reserve name sig = .ok (id, t)) :
    id = ⟨(reservations {} before).length⟩ ∧ (after calls).lookup? name = some id ∧
      (after calls).name? id = some name ∧ (after calls).signature? id = some sig := by
  obtain ⟨-, hid, -⟩ := reserve_eq_ok h
  have hcalls' : after calls = later.foldl step t := by
    rw [hcalls, after_eq_foldl_step, step_of_reserve h]
  have hlookup := (foldl_step_grows t later).lookup? (reserve_lookup? h)
  refine ⟨by rw [hid, after_size], ?_⟩
  rw [hcalls']
  obtain ⟨⟨e, he, hname⟩, -⟩ := lookup?_eq_some.mp hlookup
  exact ⟨hlookup, by rw [name?, entry?, he, Option.map_some, hname],
    foldl_step_keepsSignatures t later (reserve_signature? h)⟩

end FunctionTable

end TensorIR.Lowered
