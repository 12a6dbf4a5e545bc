import TensorIR.Lowered.Table

/-! Function tables only grow: an entry keeps its place, its name and, once it has one, its
function. -/

namespace TensorIR.Lowered.FunctionTable

variable {t t' t'' : FunctionTable} {name : String} {id : FunctionId} {f : Function}

/-- Every entry is still in its place, with its name and its function if it had one. -/
def Grows (t t' : FunctionTable) : Prop :=
  ∀ ⦃i : Nat⦄ ⦃e : TableEntry⦄, t.entries[i]? = some e →
    ∃ e', t'.entries[i]? = some e' ∧ e'.name = e.name ∧ ∀ f, e.func = some f → e'.func = some f

namespace Grows

theorem refl (t : FunctionTable) : t.Grows t := fun _ e he => ⟨e, he, rfl, fun _ h => h⟩

theorem trans (h : t.Grows t') (h' : t'.Grows t'') : t.Grows t'' := by
  intro i e he
  obtain ⟨e', he', hname, hfunc⟩ := h he
  obtain ⟨e'', he'', hname', hfunc'⟩ := h' he'
  exact ⟨e'', he'', hname'.trans hname, fun f hf => hfunc' f (hfunc f hf)⟩

end Grows

/-! ## Lookup -/

/-- The place of a name is the first one with it. -/
theorem lookup?_eq_some : t.lookup? name = some id ↔
    (∃ e, t.entries[id.index]? = some e ∧ e.name = name) ∧
      ∀ i < id.index, ∀ e, t.entries[i]? = some e → e.name ≠ name := by
  obtain ⟨index⟩ := id
  simp only [lookup?, Option.map_eq_some_iff, FunctionId.mk.injEq, exists_eq_right,
    List.findIdx?_eq_some_iff_getElem, beq_iff_eq, List.getElem?_eq_some_iff]
  constructor
  · rintro ⟨hlt, hname, hbefore⟩
    refine ⟨⟨_, ⟨hlt, rfl⟩, hname⟩, ?_⟩
    rintro i hi e ⟨hi', rfl⟩
    exact hbefore i hi
  · rintro ⟨⟨e, ⟨hlt, rfl⟩, hname⟩, hbefore⟩
    exact ⟨hlt, hname, fun j hj => hbefore j hj _ ⟨Nat.lt_trans hj hlt, rfl⟩⟩

theorem lookup?_eq_none : t.lookup? name = none ↔ ∀ e ∈ t.entries, e.name ≠ name := by
  simp [lookup?, List.findIdx?_eq_none_iff]

/-- A name that has a place keeps it. -/
theorem Grows.lookup? (h : t.Grows t') (hid : t.lookup? name = some id) :
    t'.lookup? name = some id := by
  obtain ⟨⟨e, he, hname⟩, hbefore⟩ := lookup?_eq_some.mp hid
  obtain ⟨e', he', hname', -⟩ := h he
  refine lookup?_eq_some.mpr ⟨⟨e', he', hname'.trans hname⟩, fun i hi d hd => ?_⟩
  have hlt : i < t.entries.length := Nat.lt_trans hi (List.getElem?_eq_some_iff.mp he).1
  obtain ⟨d', hd', hsame, -⟩ := h (List.getElem?_eq_getElem hlt)
  obtain rfl : d = d' := Option.some.inj (hd.symm.trans hd')
  rw [hsame]
  exact hbefore i hi _ (List.getElem?_eq_getElem hlt)

/-! ## The two phases -/

theorem reserve_eq_ok {sig : Signature} (h : t.reserve name sig = .ok (id, t')) :
    t.lookup? name = none ∧ id = ⟨t.size⟩ ∧ t' = ⟨t.entries ++ [{ name := name, sig := sig }]⟩ := by
  unfold reserve at h
  split at h
  · cases h
  · cases h
    exact ⟨‹_›, rfl, rfl⟩

theorem reserve_grows {sig : Signature} (h : t.reserve name sig = .ok (id, t')) : t.Grows t' := by
  obtain ⟨-, rfl, rfl⟩ := reserve_eq_ok h
  intro i e he
  have hlt : i < t.entries.length := (List.getElem?_eq_some_iff.mp he).1
  exact ⟨e, by rw [List.getElem?_append_left hlt, he], rfl, fun _ h => h⟩

theorem reserve_lookup? {sig : Signature} (h : t.reserve name sig = .ok (id, t')) :
    t'.lookup? name = some id := by
  obtain ⟨hnew, rfl, rfl⟩ := reserve_eq_ok h
  refine lookup?_eq_some.mpr ⟨⟨{ name := name, sig := sig }, by simp [size], rfl⟩, fun i hi e he => ?_⟩
  rw [List.getElem?_append_left hi] at he
  exact lookup?_eq_none.mp hnew e (List.mem_of_getElem? he)

theorem define_eq_ok (h : t.define id f = .ok t') :
    ∃ e, t.entries[id.index]? = some e ∧ e.func = none ∧
      t' = ⟨t.entries.set id.index { e with func := some f }⟩ := by
  unfold define at h
  split at h
  · cases h
  · next e he =>
    split at h
    · cases h
    · cases h
      exact ⟨e, he, ‹_›, rfl⟩

theorem define_grows (h : t.define id f = .ok t') : t.Grows t' := by
  obtain ⟨e, he, hnone, rfl⟩ := define_eq_ok h
  intro i d hd
  by_cases hi : id.index = i
  · subst hi
    obtain rfl : e = d := Option.some.inj (he.symm.trans hd)
    refine ⟨{ e with func := some f }, ?_, rfl, fun g hg => ?_⟩
    · rw [List.getElem?_set_self (List.getElem?_eq_some_iff.mp he).1]
    · cases hnone.symm.trans hg
  · exact ⟨d, by rw [List.getElem?_set_ne hi, hd], rfl, fun _ h => h⟩

/-- The function of an entry is installed in its place, with the entries before and after as they
were. -/
theorem define_append {es new : List TableEntry} {e : TableEntry} (he : e.func = none)
    (f : Function) : (⟨es ++ e :: new⟩ : FunctionTable).define ⟨es.length⟩ f =
      .ok ⟨es ++ { e with func := some f } :: new⟩ := by
  simp [define, entry?, he]

/-! ## Signatures -/

/-- Every place still has its signature. -/
def KeepsSignatures (t t' : FunctionTable) : Prop :=
  ∀ ⦃id sig⦄, t.signature? id = some sig → t'.signature? id = some sig

theorem reserve_signature? {sig : Signature} (h : t.reserve name sig = .ok (id, t')) :
    t'.signature? id = some sig := by
  obtain ⟨-, rfl, rfl⟩ := reserve_eq_ok h
  simp [signature?, entry?, size]

theorem reserve_keepsSignatures {sig : Signature} (h : t.reserve name sig = .ok (id, t')) :
    t.KeepsSignatures t' := by
  obtain ⟨-, rfl, rfl⟩ := reserve_eq_ok h
  intro id sig' hsig
  obtain ⟨e, he, rfl⟩ := Option.map_eq_some_iff.mp hsig
  have hlt : id.index < t.entries.length := (List.getElem?_eq_some_iff.mp he).1
  rw [signature?, entry?, List.getElem?_append_left hlt]
  exact hsig

theorem define_keepsSignatures (h : t.define id f = .ok t') : t.KeepsSignatures t' := by
  obtain ⟨e, he, -, rfl⟩ := define_eq_ok h
  intro id' sig hsig
  by_cases hi : id.index = id'.index
  · rw [signature?, entry?, ← hi, he] at hsig
    rw [signature?, entry?, ← hi, List.getElem?_set_self (List.getElem?_eq_some_iff.mp he).1]
    exact hsig
  · rw [signature?, entry?, List.getElem?_set_ne hi]
    exact hsig

/-! ## Closed tables -/

theorem installed_eq_ok {es : List TableEntry} {functions : List (String × Function)}
    (h : installed es = .ok functions) {i : Nat} {e : TableEntry} (he : es[i]? = some e) :
    ∃ f, e.func = some f ∧ functions[i]? = some (e.name, f) := by
  induction es generalizing functions i with
  | nil => cases he
  | cons d es ih =>
    unfold installed at h
    split at h
    · cases h
    · next g hg =>
      cases hes : installed es with
      | error _ =>
        rw [hes] at h
        cases h
      | ok rest =>
        rw [hes] at h
        cases h
        cases i with
        | zero =>
          cases he
          exact ⟨g, hg, rfl⟩
        | succ i => exact ih hes he

theorem installed_length {es : List TableEntry} {functions : List (String × Function)}
    (h : installed es = .ok functions) : functions.length = es.length := by
  induction es generalizing functions with
  | nil =>
    cases h
    rfl
  | cons d es ih =>
    unfold installed at h
    split at h
    · cases h
    · cases hes : installed es with
      | error _ =>
        rw [hes] at h
        cases h
      | ok rest =>
        rw [hes] at h
        cases h
        rw [List.length_cons, ih hes, List.length_cons]

theorem installed_of_find? {es : List TableEntry} {e : TableEntry}
    (h : es.find? (·.func.isNone) = some e) : installed es = .error (.undefined e.name) := by
  induction es with
  | nil => cases h
  | cons d es ih =>
    cases hd : d.func with
    | none =>
      simp only [List.find?_cons, hd, Option.isNone_none] at h
      cases h
      simp only [installed, hd]
    | some f =>
      simp only [List.find?_cons, hd, Option.isNone_some] at h
      simp only [installed, hd, ih h]
      rfl

theorem installed_of_complete {es : List TableEntry} (h : ∀ e ∈ es, e.func.isSome) :
    ∃ functions, installed es = .ok functions ∧
      functions.map Prod.fst = es.map TableEntry.name := by
  induction es with
  | nil => exact ⟨[], rfl, rfl⟩
  | cons d es ih =>
    obtain ⟨f, hf⟩ := Option.isSome_iff_exists.mp (h d List.mem_cons_self)
    obtain ⟨functions, hes, hnames⟩ := ih fun e he => h e (List.mem_cons_of_mem d he)
    refine ⟨(d.name, f) :: functions, ?_, by rw [List.map_cons, hnames, List.map_cons]⟩
    simp only [installed, hf, hes]
    rfl

/-- A table is not closed while an entry has no function, and the first such entry is named. -/
theorem freeze_of_find? {e : TableEntry} (h : t.entries.find? (·.func.isNone) = some e) :
    t.freeze = .error (.undefined e.name) := by
  rw [freeze, installed_of_find? h]
  rfl

/-- A table whose entries all have functions is closed to a program with the same names. -/
theorem freeze_of_complete (h : ∀ e ∈ t.entries, e.func.isSome) :
    ∃ p, t.freeze = .ok p ∧ p.names = t.entries.map TableEntry.name := by
  obtain ⟨functions, hfunctions, hnames⟩ := installed_of_complete h
  exact ⟨⟨functions⟩, by rw [freeze, hfunctions]; rfl, hnames⟩

/-- Every entry of a closed table is a function of the program. -/
theorem freeze_eq_ok {p : Program} (h : t.freeze = .ok p) {i : Nat} {e : TableEntry}
    (he : t.entries[i]? = some e) : ∃ f, e.func = some f ∧ p.functions[i]? = some (e.name, f) := by
  unfold freeze at h
  cases hes : installed t.entries with
  | error _ =>
    rw [hes] at h
    cases h
  | ok functions =>
    rw [hes] at h
    cases h
    exact installed_eq_ok hes he

theorem freeze_names {p : Program} (h : t.freeze = .ok p) :
    p.names = t.entries.map TableEntry.name := by
  have hcomplete : ∀ e ∈ t.entries, e.func.isSome := by
    intro e he
    obtain ⟨i, hi⟩ := List.mem_iff_getElem?.mp he
    obtain ⟨f, hf, -⟩ := freeze_eq_ok h hi
    rw [hf]
    rfl
  obtain ⟨p', hfreeze, hnames⟩ := freeze_of_complete hcomplete
  rw [h] at hfreeze
  cases hfreeze
  exact hnames

/-- Every function of the program is an entry of the closed table. -/
theorem exists_entry_of_freeze {p : Program} (h : t.freeze = .ok p) {i : Nat} {function}
    (hf : p.functions[i]? = some function) :
    ∃ e, t.entries[i]? = some e ∧ e.name = function.1 ∧ e.func = some function.2 := by
  have hlength : p.functions.length = t.entries.length := by
    unfold freeze at h
    cases hes : installed t.entries with
    | error _ =>
      rw [hes] at h
      cases h
    | ok functions =>
      rw [hes] at h
      cases h
      exact installed_length hes
  have hlt : i < t.entries.length := hlength ▸ (List.getElem?_eq_some_iff.mp hf).1
  obtain ⟨f, hfunc, hf'⟩ := freeze_eq_ok h (List.getElem?_eq_getElem hlt)
  obtain rfl := Option.some.inj (hf.symm.trans hf')
  exact ⟨_, List.getElem?_eq_getElem hlt, rfl, hfunc⟩

end TensorIR.Lowered.FunctionTable

namespace TensorIR.Lowered.Program

variable {p : Program} {name : String} {id : FunctionId}

/-! ## Names and places of a program -/

theorem idOf?_of_name? (hnodup : p.names.Nodup) (h : p.name? id = some name) :
    p.idOf? name = some id := by
  obtain ⟨function, hfunction, rfl⟩ := Option.map_eq_some_iff.mp h
  obtain ⟨hlt, hget⟩ := List.getElem?_eq_some_iff.mp hfunction
  have hindex : p.functions.findIdx? (·.1 == function.1) = some id.index := by
    rw [List.findIdx?_eq_some_iff_getElem]
    refine ⟨hlt, by simp [hget], fun j hj heq => ?_⟩
    have hdistinct := List.pairwise_iff_getElem.mp hnodup j id.index
      (by simpa [names] using Nat.lt_trans hj hlt) (by simpa [names] using hlt) hj
    simp only [names, List.getElem_map, hget] at hdistinct
    exact hdistinct (eq_of_beq heq)
  rw [idOf?, hindex]
  rfl

end TensorIR.Lowered.Program
