import TensorIR.Lowered.IndexedTable
import TensorIR.Proofs.NameIndexes
import TensorIR.Proofs.Steps
import TensorIR.Proofs.TableCalls

/-! Function tables with an index stay in step with their entries.

The index of a table leads a name to exactly the place whose entry has it, as long as the numbers of
the places have not run out. Every call keeps it so, and one that is refused has not changed anything
by then. So the two phases of filling a table keep their contract over every run, and the program of a
closed table inherits the index. -/

namespace TensorIR.Lowered

namespace IndexedTable

variable {t n : IndexedTable} {name : String} {sig : Signature} {id : FunctionId} {f : Function}

/-- The index leads to exactly the places that have a name. -/
def Agrees (t : IndexedTable) : Prop :=
  t.index.Indexes FunctionId.index (t.entries.map TableEntry.name)

theorem agrees_empty : ({} : IndexedTable).Agrees := by simp [Agrees, NameMap.Indexes]

theorem Agrees.lookup?_eq_some (H : t.Agrees) : t.lookup? name = some id ↔ t.name? id = some name := by
  rw [lookup?, H, List.getElem?_map, name?, entry?]

/-- The index has the answers of a search through the entries. -/
theorem Agrees.lookup?_eq (H : t.Agrees) (name : String) : t.lookup? name = t.table.lookup? name := by
  refine Option.ext fun id => ?_
  rw [H.lookup?_eq_some, FunctionTable.lookup?_eq_some, name?, Option.map_eq_some_iff]
  refine (and_iff_left_of_imp fun hid i hi e he hname => ?_).symm
  have hplace : t.lookup? name = some id := H.lookup?_eq_some.mpr (Option.map_eq_some_iff.mpr hid)
  have hearlier : t.name? ⟨i⟩ = some name := Option.map_eq_some_iff.mpr ⟨e, he, hname⟩
  cases hplace.symm.trans (H.lookup?_eq_some.mpr hearlier)
  exact Nat.lt_irrefl i hi

/-! ## Single calls -/

theorem reserve_run (t : IndexedTable) (name : String) (sig : Signature) :
    reserve name sig t =
      if t.index.contains name then .error (.nameTaken name) t
      else .ok ⟨t.size % placeCount⟩ ⟨t.entries ++ [{ name := name, sig := sig }],
        t.index.insert name ⟨t.size % placeCount⟩⟩ :=
  shared_refused (fun t : IndexedTable => t.index.contains name) _ _ t

/-- A new name is entered with the place of its entry. -/
theorem Agrees.reserved (H : t.Agrees) (hnew : t.lookup? name = none) (sig : Signature) :
    Agrees ⟨t.entries ++ [{ name := name, sig := sig }], t.index.insert name ⟨t.size⟩⟩ := by
  rw [Agrees, List.map_append]
  exact H.concat hnew (List.length_map _).symm fun _ h => congrArg FunctionId.mk h

/-- A reservation takes the place after the last one, unless the name has a place. -/
theorem Agrees.reserve_refines (H : t.Agrees) (name : String) (sig : Signature) :
    (t.table.reserve name sig = .error (.nameTaken name) ∧
      reserve name sig t = .error (.nameTaken name) t) ∨
    ∃ id n, reserve name sig t = .ok id n ∧ t.table.reserve name sig = .ok (⟨t.size⟩, n.table) ∧
      (t.size < placeCount → id = ⟨t.size⟩ ∧ n.Agrees) := by
  have hrun := reserve_run t name sig
  cases hname : t.lookup? name with
  | some id =>
    have htaken : t.index.contains name = true := by
      rw [NameMap.contains]
      exact Option.isSome_of_eq_some hname
    rw [if_pos htaken] at hrun
    rw [FunctionTable.reserve, ← H.lookup?_eq name, hname]
    exact .inl ⟨rfl, hrun⟩
  | none =>
    rw [NameMap.contains_eq_false.mpr hname] at hrun
    rw [FunctionTable.reserve, ← H.lookup?_eq name, hname]
    refine .inr ⟨_, _, hrun, rfl, fun hsize => ?_⟩
    rw [Nat.mod_eq_of_lt hsize]
    exact ⟨rfl, H.reserved hname sig⟩

section

variable {e : TableEntry} {g : Function}

theorem define_of_missing (h : t.entry? id = none) : define id f t = .error (.notReserved id) t := by
  rw [define, shared_get_bind, h]
  rfl

theorem define_of_filled (h : t.entry? id = some e) (hf : e.func = some g) :
    define id f t = .error (.alreadyDefined e.name) t := by
  rw [define, shared_get_bind, h]
  simp only [hf, Option.isSome_some]
  rfl

theorem define_of_empty (h : t.entry? id = some e) (hf : e.func = none) :
    define id f t =
      .ok () { t with entries := t.entries.set id.index { e with func := some f } } := by
  rw [define, shared_get_bind, h]
  simp only [hf, Option.isSome_none]
  rfl

end

/-- A definition fills the entry of a place, unless there is none or it is filled already. -/
theorem Agrees.define_refines (H : t.Agrees) (id : FunctionId) (f : Function) :
    (∃ e, t.table.define id f = .error e ∧ define id f t = .error e t) ∨
      ∃ n, define id f t = .ok () n ∧ t.table.define id f = .ok n.table ∧ n.Agrees := by
  cases he : t.entry? id with
  | none =>
    have hlist : t.table.entry? id = none := he
    exact .inl ⟨_, by rw [FunctionTable.define, hlist], define_of_missing he⟩
  | some e =>
    have hlist : t.table.entry? id = some e := he
    cases hf : e.func with
    | some g =>
      exact .inl ⟨_, by rw [FunctionTable.define, hlist]; simp only [hf], define_of_filled he hf⟩
    | none =>
      have hdefine : t.table.define id f =
          .ok ⟨t.entries.set id.index { e with func := some f }⟩ := by
        rw [FunctionTable.define, hlist]
        simp only [hf]
        rfl
      refine .inr ⟨_, define_of_empty he hf, hdefine, ?_⟩
      rw [Agrees, FunctionTable.define_names hdefine]
      exact H

/-! ## Runs of calls -/

def serve : TableCall → TableM Unit
  | .reserve name sig => do
    let _ ← reserve name sig
  | .define id f => define id f

/-- The table after the call, also after one that is refused. -/
def step (t : IndexedTable) (call : TableCall) : IndexedTable :=
  match serve call t with
  | .ok _ t' => t'
  | .error _ t' => t'

/-- The table after a run. -/
def after (calls : List TableCall) : IndexedTable := calls.foldl step {}

/-- The reservations of the run that are not refused. -/
def reservations (t : IndexedTable) : List TableCall → List (String × Signature)
  | [] => []
  | .reserve name sig :: calls =>
    match reserve name sig t with
    | .ok _ t' => (name, sig) :: t'.reservations calls
    | .error _ t' => t'.reservations calls
  | .define id f :: calls => (t.step (.define id f)).reservations calls

/-- The place has been given to a name. -/
def Reserved (t : IndexedTable) (id : FunctionId) : Prop := (t.name? id).isSome

/-- The call defines the place, which is reserved by then, and no call before it does. -/
def FirstDefine (calls : List TableCall) (id : FunctionId) (f : Function) : Prop :=
  ∃ before later, calls = before ++ .define id f :: later ∧ (after before).Reserved id ∧
    ∀ earlier g rest, before = earlier ++ .define id g :: rest → ¬ (after earlier).Reserved id

variable {call : TableCall} {calls before later : List TableCall}

/-- A call does to a table with an index what it does to the table without it. One that is refused
leaves the entries and the index as they are. -/
theorem Agrees.serve_refines (H : t.Agrees) (call : TableCall) :
    (∃ e, t.table.serve call = .error e ∧ serve call t = .error e t) ∨
      ∃ n, serve call t = .ok () n ∧ t.table.serve call = .ok n.table ∧
        (t.size < placeCount → n.Agrees) := by
  cases call with
  | define id f =>
    rcases H.define_refines id f with ⟨e, hlist, hrun⟩ | ⟨n, hrun, hlist, hn⟩
    · exact .inl ⟨e, hlist, hrun⟩
    · exact .inr ⟨n, hrun, hlist, fun _ => hn⟩
  | reserve name sig =>
    rcases H.reserve_refines name sig with ⟨hlist, hrun⟩ | ⟨id, n, hrun, hlist, hn⟩
    · refine .inl ⟨_, ?_, shared_bind_of_error hrun⟩
      rw [FunctionTable.serve, hlist]
      rfl
    · refine .inr ⟨n, shared_bind_of_ok hrun, ?_, fun hsize => (hn hsize).2⟩
      rw [FunctionTable.serve, hlist]
      rfl

theorem step_of_ok (h : serve call t = .ok () n) : t.step call = n := by rw [step, h]

theorem step_of_error {e : TableError} (h : serve call t = .error e n) : t.step call = n := by
  rw [step, h]

/-- As long as there are numbers for the places, the entries and the index agree, and the entries are
those of the run without an index. -/
theorem Agrees.run (H : t.Agrees) (hfit : t.size + (t.reservations calls).length ≤ placeCount) :
    (calls.foldl step t).Agrees ∧
      (calls.foldl step t).table = calls.foldl FunctionTable.step t.table ∧
      t.reservations calls = t.table.reservations calls := by
  induction calls generalizing t with
  | nil => exact ⟨H, rfl, rfl⟩
  | cons call calls ih =>
    rw [List.foldl_cons, List.foldl_cons]
    cases call with
    | reserve name sig =>
      rw [reservations] at hfit ⊢
      rw [FunctionTable.reservations]
      rcases H.reserve_refines name sig with ⟨hlist, hrun⟩ | ⟨id, n, hrun, hlist, hn⟩
      · have hstep : t.step (.reserve name sig) = t := step_of_error (shared_bind_of_error hrun)
        simp only [hrun] at hfit
        simp only [hrun, hlist, hstep, FunctionTable.step_of_refused hlist]
        exact ih H hfit
      · have hstep : t.step (.reserve name sig) = n := step_of_ok (shared_bind_of_ok hrun)
        have hsize : n.size = t.size + 1 := by
          obtain ⟨-, -, hentries⟩ := FunctionTable.reserve_eq_ok hlist
          simpa [size, table, FunctionTable.size] using congrArg FunctionTable.size hentries
        simp only [hrun, List.length_cons] at hfit
        simp only [hrun, hlist, hstep, FunctionTable.step_of_reserve hlist]
        obtain ⟨hagrees, htable, hreservations⟩ := ih (hn (by omega)).2 (by omega)
        exact ⟨hagrees, htable, congrArg ((name, sig) :: ·) hreservations⟩
    | define id f =>
      rw [reservations] at hfit ⊢
      rw [FunctionTable.reservations]
      rcases H.define_refines id f with ⟨e, hlist, hrun⟩ | ⟨n, hrun, hlist, hn⟩
      · have hstep : t.step (.define id f) = t := step_of_error hrun
        have hstep' : t.table.step (.define id f) = t.table := by
          rw [FunctionTable.step, FunctionTable.serve, hlist]
        rw [hstep] at hfit ⊢
        rw [hstep']
        exact ih H hfit
      · have hstep : t.step (.define id f) = n := step_of_ok hrun
        have hstep' : t.table.step (.define id f) = n.table := by
          rw [FunctionTable.step, FunctionTable.serve, hlist]
        have hsize : n.size = t.size := by
          simpa [size, table] using congrArg List.length (FunctionTable.define_names hlist)
        rw [hstep] at hfit ⊢
        rw [hstep']
        exact ih hn (by omega)

theorem reservations_append (t : IndexedTable) (before later : List TableCall) :
    t.reservations (before ++ later) =
      t.reservations before ++ (before.foldl step t).reservations later := by
  induction before generalizing t with
  | nil => rfl
  | cons call before ih =>
    rw [List.cons_append, List.foldl_cons]
    cases call with
    | define id f =>
      rw [reservations, reservations]
      exact ih _
    | reserve name sig =>
      rw [reservations, reservations]
      cases hrun : reserve name sig t with
      | ok id n =>
        have hstep : t.step (.reserve name sig) = n := step_of_ok (shared_bind_of_ok hrun)
        rw [hstep]
        exact congrArg ((name, sig) :: ·) (ih n)
      | error e n =>
        have hstep : t.step (.reserve name sig) = n := step_of_error (shared_bind_of_error hrun)
        rw [hstep]
        exact ih n

/-- What holds after a run with enough numbers for its places, and after every run that it starts
with. -/
theorem after_agrees (hfit : (reservations {} calls).length ≤ placeCount) (h : before <+: calls) :
    (after before).Agrees ∧ (after before).table = FunctionTable.after before ∧
      reservations {} before = FunctionTable.reservations {} before := by
  obtain ⟨later, rfl⟩ := h
  rw [reservations_append, List.length_append] at hfit
  refine agrees_empty.run ?_
  simp only [size, List.length_nil]
  omega

theorem reserved_iff (hfit : (reservations {} calls).length ≤ placeCount) (h : before <+: calls) :
    (after before).Reserved id ↔ (FunctionTable.after before).Reserved id := by
  rw [← (after_agrees hfit h).2.1]
  rfl

theorem firstDefine_iff (hfit : (reservations {} calls).length ≤ placeCount) :
    FirstDefine calls id f ↔ FunctionTable.FirstDefine calls id f := by
  have hbefore : ∀ {before later}, calls = before ++ .define id f :: later →
      ((after before).Reserved id ∧ (∀ earlier g rest,
        before = earlier ++ .define id g :: rest → ¬ (after earlier).Reserved id) ↔
      (FunctionTable.after before).Reserved id ∧ ∀ earlier g rest,
        before = earlier ++ .define id g :: rest → ¬ (FunctionTable.after earlier).Reserved id) := by
    intro before later hcalls
    have hprefix : before <+: calls := ⟨_, hcalls.symm⟩
    rw [reserved_iff hfit hprefix]
    refine and_congr_right fun _ => forall_congr' fun earlier => forall_congr' fun g =>
      forall_congr' fun rest => forall_congr' fun hsplit => not_congr (reserved_iff hfit ?_)
    exact (hsplit ▸ List.prefix_append _ _ : earlier <+: before).trans hprefix
  constructor
  · rintro ⟨before, later, hcalls, h⟩
    exact ⟨before, later, hcalls, (hbefore hcalls).mp h⟩
  · rintro ⟨before, later, hcalls, h⟩
    exact ⟨before, later, hcalls, (hbefore hcalls).mpr h⟩

/-! ## Closed tables -/

theorem unpack_eq (functions : List Function) (names : List String) (es : List TableEntry) :
    unpack functions names es = (FunctionTable.installed es).map fun installed =>
      (functions ++ installed.map Prod.snd, names ++ installed.map Prod.fst) := by
  induction es generalizing functions names with
  | nil => simp [unpack, FunctionTable.installed, Except.map]
  | cons e es ih =>
    rw [unpack, FunctionTable.installed]
    cases e.func with
    | none => rfl
    | some f =>
      simp only [ih]
      cases FunctionTable.installed es with
      | error e => rfl
      | ok installed => simp [Except.map]

/-- A table with an index is closed like the table without it, and the program has the index. -/
theorem freeze_eq (t : IndexedTable) : t.freeze = t.table.freeze.map fun p =>
    ⟨p.functions.map Prod.snd, p.functions.map Prod.fst, t.index⟩ := by
  have hentries : t.table.entries = t.entries := rfl
  rw [freeze, unpack_eq, FunctionTable.freeze, hentries]
  cases FunctionTable.installed t.entries <;> rfl

theorem freeze_eq_ok {p : IndexedProgram} (h : t.freeze = .ok p) :
    t.table.freeze = .ok p.program ∧ p.functions = p.program.functions.map Prod.snd ∧
      p.names = p.program.functions.map Prod.fst ∧ p.index = t.index := by
  rw [freeze_eq] at h
  cases hq : t.table.freeze with
  | error e =>
    rw [hq] at h
    cases h
  | ok q =>
    rw [hq] at h
    cases h
    have hprogram : (q.functions.map Prod.fst).zip (q.functions.map Prod.snd) = q.functions := by
      rw [List.zip_map', List.map_id']
    simp only [IndexedProgram.program, hprogram]
    trivial

theorem freeze_eq_error {e : TableError} (h : t.freeze = .error e) : t.table.freeze = .error e := by
  rw [freeze_eq] at h
  cases hq : t.table.freeze with
  | error e' =>
    rw [hq] at h
    cases h
    rfl
  | ok q =>
    rw [hq] at h
    cases h

theorem freeze_isOk_iff : (∃ p, t.freeze = .ok p) ↔ ∃ q, t.table.freeze = .ok q := by
  constructor
  · rintro ⟨p, hp⟩
    exact ⟨p.program, (freeze_eq_ok hp).1⟩
  · rintro ⟨q, hq⟩
    rw [freeze_eq, hq]
    exact ⟨_, rfl⟩

/-- The program of a closed table gives the answers of the table. -/
theorem freeze_answers {p : IndexedProgram} (h : t.freeze = .ok p) :
    (∀ name, p.idOf? name = t.lookup? name) ∧ (∀ id, p.name? id = t.name? id) ∧
      ∀ id, p.function? id = t.function? id := by
  obtain ⟨hlist, hfunctions, hnames, hindex⟩ := freeze_eq_ok h
  refine ⟨fun name => by rw [IndexedProgram.idOf?, hindex, lookup?], fun id => ?_, fun id => ?_⟩
  · rw [IndexedProgram.name?, hnames, List.getElem?_map]
    exact FunctionTable.freeze_name? hlist id
  · rw [IndexedProgram.function?, hfunctions, List.getElem?_map]
    exact FunctionTable.freeze_function? hlist id

/-! ## The contract of the two phases -/

/-- What the two phases promise of the table after a run. -/
structure TwoPhase (calls : List TableCall) : Prop where
  /-- The index leads to exactly the places that have a name. -/
  indexed : ∀ name id, (after calls).lookup? name = some id ↔ (after calls).name? id = some name
  /-- No two places have one name. -/
  names_unique : ∀ id id' name,
    (after calls).name? id = some name → (after calls).name? id' = some name → id = id'
  /-- A reservation gives the place whose number is the count of the reservations before it, and the
  name, the place and the signature belong together from then on. -/
  reserved : ∀ before name sig later id t, calls = before ++ .reserve name sig :: later →
    reserve name sig (after before) = .ok id t →
      id = ⟨(reservations {} before).length⟩ ∧ (after calls).lookup? name = some id ∧
        (after calls).name? id = some name ∧ (after calls).signature? id = some sig
  /-- The function of a place is that of the first call that defines it. -/
  defined : ∀ id f, (after calls).function? id = some f ↔ FirstDefine calls id f
  /-- The function of a place does not change. -/
  kept : ∀ before later id f, calls = before ++ later →
    (after before).function? id = some f → (after calls).function? id = some f
  /-- A call that is refused changes neither the entries nor the index. -/
  refused : ∀ call e t, serve call (after calls) = .error e t → t = after calls
  /-- The table can be closed exactly if every place that is given has been defined. -/
  closes : (∃ p, (after calls).freeze = .ok p) ↔
    ∀ id, (after calls).Reserved id → ∃ f, FirstDefine calls id f
  /-- Otherwise the first name whose place has not been defined is reported. -/
  missing : ∀ e, (after calls).freeze = .error e →
    ∃ id name, e = .undefined name ∧ (after calls).name? id = some name ∧
      (∀ f, ¬ FirstDefine calls id f) ∧
      ∀ id', id'.index < id.index → ∃ f, FirstDefine calls id' f
  /-- A closed table has the same names in the same places, and a function is found by its name as by
  its place. -/
  closed : ∀ p, (after calls).freeze = .ok p →
    (∀ id name, p.idOf? name = some id ↔ p.name? id = some name) ∧
    (∀ id, p.name? id = (after calls).name? id) ∧
    ∀ id name, p.name? id = some name → ∃ f, FirstDefine calls id f ∧
      p.function? id = some f ∧ p.functionByName? name = some f

theorem after_table (hfit : (reservations {} calls).length ≤ placeCount) :
    (after calls).table = FunctionTable.after calls :=
  (after_agrees hfit (List.prefix_refl calls)).2.1

theorem function?_after (hfit : (reservations {} calls).length ≤ placeCount) :
    (after calls).function? id = some f ↔ FirstDefine calls id f := by
  rw [firstDefine_iff hfit, ← FunctionTable.function?_after, ← after_table hfit]
  rfl

theorem after_reserved (hfit : (reservations {} calls).length ≤ placeCount)
    (hcalls : calls = before ++ .reserve name sig :: later)
    (h : reserve name sig (after before) = .ok id t) :
    id = ⟨(reservations {} before).length⟩ ∧ (after calls).lookup? name = some id ∧
      (after calls).name? id = some name ∧ (after calls).signature? id = some sig := by
  obtain ⟨H, htable, hreservations⟩ := after_agrees hfit ⟨_, hcalls.symm⟩
  obtain ⟨H', htable', -⟩ := after_agrees hfit (List.prefix_refl calls)
  have hsize : (after before).size = (reservations {} before).length := by
    rw [hreservations, ← FunctionTable.after_size, ← htable]
    rfl
  have hroom : (after before).size < placeCount := by
    rw [hcalls, reservations_append, List.length_append, reservations] at hfit
    have hrun : reserve name sig (before.foldl step {}) = .ok id t := h
    simp only [hrun, List.length_cons] at hfit
    omega
  rcases H.reserve_refines name sig with ⟨-, hrun⟩ | ⟨id', n, hrun, hlist, hn⟩
  · cases hrun.symm.trans h
  · cases hrun.symm.trans h
    rw [htable, ← (hn hroom).1] at hlist
    obtain ⟨hid, hlookup, hname, hsig⟩ := FunctionTable.after_reserved hcalls hlist
    rw [← htable'] at hlookup hname hsig
    rw [hreservations, H'.lookup?_eq]
    exact ⟨hid, hlookup, hname, hsig⟩

theorem after_closed (hfit : (reservations {} calls).length ≤ placeCount) {p : IndexedProgram}
    (h : (after calls).freeze = .ok p) :
    (∀ id name, p.idOf? name = some id ↔ p.name? id = some name) ∧
    (∀ id, p.name? id = (after calls).name? id) ∧
    ∀ id name, p.name? id = some name → ∃ f, FirstDefine calls id f ∧
      p.function? id = some f ∧ p.functionByName? name = some f := by
  obtain ⟨H, -, -⟩ := after_agrees hfit (List.prefix_refl calls)
  obtain ⟨hid, hname, hfunction⟩ := freeze_answers h
  have hinverse : ∀ id name, p.idOf? name = some id ↔ p.name? id = some name := fun id name => by
    rw [hid, hname, H.lookup?_eq_some]
  refine ⟨hinverse, hname, fun id name hnamed => ?_⟩
  have hreserved : (after calls).table.Reserved id :=
    Option.isSome_of_eq_some ((hname id).symm.trans hnamed)
  obtain ⟨f, hf⟩ := FunctionTable.freeze_isOk_iff.mp ⟨_, (freeze_eq_ok h).1⟩ id hreserved
  have hpf : p.function? id = some f := (hfunction id).trans hf
  refine ⟨f, (function?_after hfit).mp hf, hpf, ?_⟩
  exact Option.bind_eq_some_iff.mpr ⟨id, (hinverse id name).mpr hnamed, hpf⟩

/-- Every run of calls on the empty table keeps the contract, as long as the numbers of its places have
32 bits. -/
theorem after_twoPhase (calls : List TableCall)
    (hfit : (reservations {} calls).length ≤ placeCount) : TwoPhase calls := by
  obtain ⟨H, htable, -⟩ := after_agrees hfit (List.prefix_refl calls)
  refine {
    indexed := fun _ _ => H.lookup?_eq_some
    names_unique := fun id id' name h h' => ?_
    reserved := fun _ _ _ _ _ _ => after_reserved hfit
    defined := fun _ _ => function?_after hfit
    kept := fun before later id f hcalls hf => ?_
    refused := fun call e t h => ?_
    closes := ?_
    missing := fun e he => ?_
    closed := fun _ => after_closed hfit }
  · exact Option.some.inj ((H.lookup?_eq_some.mpr h).symm.trans (H.lookup?_eq_some.mpr h'))
  · rw [function?_after hfit, firstDefine_iff hfit, hcalls]
    have hbefore := (after_agrees hfit ⟨later, hcalls.symm⟩).2.1
    refine FunctionTable.FirstDefine.append (FunctionTable.function?_after.mp ?_) later
    rw [← hbefore]
    exact hf
  · rcases H.serve_refines call with ⟨e', -, hrun⟩ | ⟨n, hrun, -⟩
    · cases hrun.symm.trans h
      rfl
    · cases hrun.symm.trans h
  · simp only [← function?_after hfit]
    exact freeze_isOk_iff.trans FunctionTable.freeze_isOk_iff
  · simp only [← function?_after hfit, ← Option.eq_none_iff_forall_ne_some]
    exact FunctionTable.freeze_eq_error (freeze_eq_error he)

/-- The function that answers with the truth value. -/
def answering (b : Bool) : Function :=
  { name := none, params := [], captures := [], body := .literal (.scalarBool b), ret := .scalar .bool }

/-- The second reservation of a name and the second definition of a place are refused. -/
def repeatedCalls : List TableCall :=
  [.reserve "yes" ⟨[], .scalar .bool⟩, .reserve "yes" ⟨[.scalar .bool], .scalar .bool⟩,
    .reserve "no" ⟨[], .scalar .bool⟩, .define ⟨0⟩ (answering true), .define ⟨0⟩ (answering false)]

/-- The refused calls have left no trace, and `no` is the first name without a function. -/
theorem repeatedCalls_refused :
    (reservations {} repeatedCalls).length = 2 ∧
      (after repeatedCalls).lookup? "no" = some ⟨1⟩ ∧
      (after repeatedCalls).signature? ⟨0⟩ = some ⟨[], .scalar .bool⟩ ∧
      FirstDefine repeatedCalls ⟨0⟩ (answering true) ∧
      ∀ p, (after repeatedCalls).freeze ≠ .ok p := by
  have hlength : (reservations {} repeatedCalls).length = 2 := by decide
  have h : TwoPhase repeatedCalls := after_twoPhase repeatedCalls (by rw [hlength]; decide)
  obtain ⟨-, -, -, hsig⟩ := h.reserved [] "yes" ⟨[], .scalar .bool⟩ _ _ _ rfl rfl
  refine ⟨hlength, (h.indexed "no" ⟨1⟩).mpr rfl, hsig, (h.defined ⟨0⟩ (answering true)).mp rfl,
    fun p hp => ?_⟩
  obtain ⟨f, hf⟩ := h.closes.mp ⟨p, hp⟩ ⟨1⟩ rfl
  cases (h.defined ⟨1⟩ f).mpr hf

end IndexedTable

end TensorIR.Lowered
