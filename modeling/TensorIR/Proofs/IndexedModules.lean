import TensorIR.Proofs.ModuleHistory
import TensorIR.Proofs.NameIndexes
import TensorIR.Proofs.Steps
import TensorIR.Source.IndexedModule

/-! Modules with indexes stay in step with their lists.

The maps of a module lead to exactly the places where its lists have a name. Every definition that is
accepted keeps it so, and one that is refused has not changed anything by then. So a module with
indexes gives the answers of the module without them, through all calls. -/

namespace TensorIR.Source

/-- The constructor of the data type with the given name. -/
def TypeData.ctorInfo? (data : TypeData) (name : String) : Option CtorInfo := do
  let tag ← data.tag? name
  let ctor ← data.ctors[tag]?
  return ⟨data, tag, ctor.fields⟩

theorem TypeData.ctorInfo?_eq_some {data : TypeData} {name : String} {info : CtorInfo} :
    data.ctorInfo? name = some info ↔ ∃ tag c, data.tag? name = some tag ∧
      data.ctors[tag]? = some c ∧ ⟨data, tag, c.fields⟩ = info := by
  simp [ctorInfo?, Option.bind_eq_some_iff]

namespace IndexedModule

variable {m n : IndexedModule} {name : String}

/-- The maps lead to exactly the places where the lists have a name. -/
structure Agrees (m : IndexedModule) : Prop where
  globals : m.globalIndex.Indexes id (m.globals.map Prod.fst)
  types : m.typeIndex.Indexes id (m.types.map TypeData.name)
  ctor_iff : ∀ name place, m.ctorIndex.get? name = some place ↔
    ∃ data, m.types[place.1]? = some data ∧ data.tag? name = some place.2

theorem agrees_empty : ({} : IndexedModule).Agrees :=
  ⟨by simp [NameMap.Indexes], by simp [NameMap.Indexes], by simp⟩

/-! ## Answers -/

namespace Agrees

theorem function?_eq (H : m.Agrees) (name : String) :
    m.function? name = m.module.function? name ∧
      m.globalIndex.contains name = (m.module.function? name).isSome := by
  have hplace : ∀ i, m.globalIndex.get? name = some i ↔ ∃ global, m.globals[i]? = some global ∧
      (if name == global.1 then some global.2 else none).isSome := by
    intro i
    rw [H.globals]
    simp [@eq_comm _ name]
  rw [function?, NameMap.contains, Module.function?, module, List.lookup_eq_findSome?]
  rcases findSome?_of_place hplace with ⟨hnone, hfind⟩ | ⟨i, global, f, hi, hglobal, hf, hfind⟩
  · rw [hnone, hfind]
    exact ⟨rfl, rfl⟩
  · obtain rfl : global.2 = f := by
      split at hf
      · exact Option.some.inj hf
      · cases hf
    rw [hi, hfind]
    exact ⟨by simp [hglobal], rfl⟩

theorem type?_eq (H : m.Agrees) (name : String) :
    m.type? name = m.module.type? name ∧
      m.typeIndex.contains name = (m.module.type? name).isSome := by
  have hplace : ∀ i, m.typeIndex.get? name = some i ↔ ∃ data, m.types[i]? = some data ∧
      (Option.guard (·.name == name) data).isSome := by
    intro i
    rw [H.types]
    simp
  rw [type?, NameMap.contains, Module.type?, module, TypeTable.get?, List.find?_eq_findSome?_guard]
  rcases findSome?_of_place hplace with ⟨hnone, hfind⟩ | ⟨i, data, found, hi, hdata, hf, hfind⟩
  · rw [hnone, hfind]
    exact ⟨rfl, rfl⟩
  · obtain ⟨rfl, -⟩ := Option.guard_eq_some_iff.mp hf
    rw [hi, hfind]
    exact ⟨hdata, rfl⟩

theorem ctor?_eq (H : m.Agrees) (name : String) :
    m.ctor? name = m.module.ctor? name ∧
      m.ctorIndex.contains name = (m.module.ctor? name).isSome := by
  have hplace : ∀ i, (m.ctorIndex.get? name).map Prod.fst = some i ↔
      ∃ data, m.types[i]? = some data ∧ (data.ctorInfo? name).isSome := by
    intro i
    simp only [Option.map_eq_some_iff, Option.isSome_iff_exists, TypeData.ctorInfo?_eq_some]
    constructor
    · rintro ⟨place, hplace, rfl⟩
      obtain ⟨data, hdata, htag⟩ := (H.ctor_iff name place).mp hplace
      obtain ⟨⟨c, hc, -⟩, -⟩ := lastTag?_eq_some htag
      exact ⟨data, hdata, _, _, c, htag, hc, rfl⟩
    · rintro ⟨data, hdata, _, tag, c, htag, -⟩
      exact ⟨(i, tag), (H.ctor_iff name (i, tag)).mpr ⟨data, hdata, htag⟩, rfl⟩
  have hctor? : m.module.ctor? name = m.types.findSome? (·.ctorInfo? name) := rfl
  rw [ctor?, NameMap.contains, hctor?]
  rcases findSome?_of_place hplace with ⟨hnone, hfind⟩ | ⟨i, data, info, hi, hdata, hinfo, hfind⟩
  · rw [Option.map_eq_none_iff.mp hnone, hfind]
    exact ⟨rfl, rfl⟩
  · obtain ⟨tag, c, htag, hc, rfl⟩ := TypeData.ctorInfo?_eq_some.mp hinfo
    rw [(H.ctor_iff name (i, tag)).mpr ⟨data, hdata, htag⟩, hfind]
    exact ⟨by simp [hdata, hc], rfl⟩

end Agrees

/-! ## Definitions -/

theorem define_run (m : IndexedModule) (name : String) (f : Function) :
    define name f m =
      if m.globalIndex.contains name then .error (.globalDefined name) m
      else .ok () { m with
        globalIndex := m.globalIndex.insert name m.globals.length
        globals := m.globals ++ [(name, f)] } :=
  shared_refused (fun m : IndexedModule => m.globalIndex.contains name) _ _ m

theorem checkCtors_run (m : IndexedModule) (cs : List CtorDef) :
    checkCtors cs m = (cs.find? fun c => m.ctorIndex.contains c.name).elim (.ok () m)
      fun c => .error (.ctorDefined c.name) m := by
  induction cs with
  | nil => rfl
  | cons c cs ih =>
    have hcons : checkCtors (c :: cs) m =
        if m.ctorIndex.contains c.name then .error (.ctorDefined c.name) m else checkCtors cs m :=
      shared_refused (fun m : IndexedModule => m.ctorIndex.contains c.name) _ _ m
    rw [hcons, ih, List.find?_cons]
    cases m.ctorIndex.contains c.name <;> rfl

/-- The constructors are entered with their tags, where a later one takes the place of an earlier one of
its name. -/
theorem insertCtors_run (adt tag : Nat) (cs : List CtorDef) (m : IndexedModule) :
    ∃ index, insertCtors adt tag cs m = .ok () { m with ctorIndex := index } ∧
      ∀ name, index.get? name =
        ((lastTag? name cs).map fun last => (adt, tag + last)).or (m.ctorIndex.get? name) := by
  induction cs generalizing tag m with
  | nil => exact ⟨m.ctorIndex, rfl, fun _ => rfl⟩
  | cons c cs ih =>
    obtain ⟨index, hrun, hget⟩ :=
      ih (tag + 1) { m with ctorIndex := m.ctorIndex.insert c.name (adt, tag) }
    refine ⟨index, hrun, fun name => ?_⟩
    rw [hget, lastTag?, NameMap.get?_insert]
    cases lastTag? name cs with
    | some last => simp [Nat.add_assoc, Nat.add_comm 1]
    | none =>
      by_cases h : name = c.name
      · simp [h]
      · simp [h, Ne.symm h]

section

variable {data : TypeData}

theorem addType_of_typeTaken (h : m.typeIndex.contains data.name = true) :
    addType data m = .error (.typeDefined data.name) m :=
  (shared_refused (fun m : IndexedModule => m.typeIndex.contains data.name) _ _ m).trans (if_pos h)

/-- Once its name is known to be new, a data type is added after a look at its constructors. -/
theorem addType_of_typeFree (h : m.typeIndex.contains data.name = false) :
    addType data m = (do
      checkCtors data.ctors
      let place := (← get).types.length
      insertCtors place 0 data.ctors
      modify fun m => { m with typeIndex := m.typeIndex.insert data.name place }
      modify fun m => { m with types := m.types ++ [data] } : ModuleM Unit) m :=
  (shared_refused (fun m : IndexedModule => m.typeIndex.contains data.name) _ _ m).trans
    (if_neg (by simp [h]))

theorem addType_of_ctorTaken {c : CtorDef} (h : m.typeIndex.contains data.name = false)
    (hc : data.ctors.find? (fun c => m.ctorIndex.contains c.name) = some c) :
    addType data m = .error (.ctorDefined c.name) m := by
  have hcheck := checkCtors_run m data.ctors
  rw [hc] at hcheck
  rw [addType_of_typeFree h]
  exact shared_bind_of_error hcheck

theorem addType_of_fresh (h : m.typeIndex.contains data.name = false)
    (hctors : data.ctors.find? (fun c => m.ctorIndex.contains c.name) = none) :
    ∃ index, addType data m = .ok () { m with
        ctorIndex := index
        typeIndex := m.typeIndex.insert data.name m.types.length
        types := m.types ++ [data] } ∧
      ∀ name, index.get? name =
        ((data.tag? name).map fun tag => (m.types.length, tag)).or (m.ctorIndex.get? name) := by
  have hcheck := checkCtors_run m data.ctors
  rw [hctors] at hcheck
  obtain ⟨index, hinsert, hget⟩ := insertCtors_run m.types.length 0 data.ctors m
  refine ⟨index, ?_, fun name => ?_⟩
  · rw [addType_of_typeFree h, shared_bind_of_ok hcheck, shared_get_bind, shared_bind_of_ok hinsert]
    rfl
  · rw [hget, TypeData.tag?]
    simp

end

/-! ## Agreement -/

theorem Agrees.define (H : m.Agrees) {f : Function} (h : m.globalIndex.get? name = none) :
    Agrees { m with
      globalIndex := m.globalIndex.insert name m.globals.length
      globals := m.globals ++ [(name, f)] } where
  globals := by
    rw [List.map_append]
    exact H.globals.concat h (List.length_map _).symm fun _ h => h
  types := H.types
  ctor_iff := H.ctor_iff

/-- A data type that is put at the end has all its names entered with the new place. -/
theorem Agrees.addType (H : m.Agrees) {data : TypeData} {index : NameMap (Nat × Nat)}
    (htype : m.typeIndex.get? data.name = none)
    (hctors : ∀ c ∈ data.ctors, m.ctorIndex.get? c.name = none)
    (hindex : ∀ name, index.get? name =
      ((data.tag? name).map fun tag => (m.types.length, tag)).or (m.ctorIndex.get? name)) :
    Agrees { m with
      ctorIndex := index
      typeIndex := m.typeIndex.insert data.name m.types.length
      types := m.types ++ [data] } where
  globals := H.globals
  types := by
    rw [List.map_append]
    exact H.types.concat htype (List.length_map _).symm fun _ h => h
  ctor_iff name place := by
    simp only [hindex, getElem?_concat_eq_some]
    cases htag : data.tag? name with
    | some tag =>
      obtain ⟨⟨c, hc, rfl⟩, -⟩ := lastTag?_eq_some htag
      rw [Option.map_some, Option.some_or, Option.some.injEq]
      constructor
      · rintro rfl
        exact ⟨data, .inr ⟨rfl, rfl⟩, htag⟩
      · rintro ⟨old, hold | ⟨hplace, rfl⟩, htag'⟩
        · cases (hctors c (List.mem_of_getElem? hc)).symm.trans
            ((H.ctor_iff c.name place).mpr ⟨old, hold, htag'⟩)
        · cases htag.symm.trans htag'
          rw [← hplace]
    | none =>
      rw [Option.map_none, Option.none_or, H.ctor_iff]
      constructor
      · rintro ⟨old, hold, htag'⟩
        exact ⟨old, .inl hold, htag'⟩
      · rintro ⟨old, hold | ⟨-, rfl⟩, htag'⟩
        · exact ⟨old, hold, htag'⟩
        · cases htag.symm.trans htag'

/-! ## Calls -/

def serve : ModuleCall → ModuleM Unit
  | .define name f => define name f
  | .addType data => addType data

/-- The module after the call, also after one that is refused. -/
def step (m : IndexedModule) (call : ModuleCall) : IndexedModule :=
  match serve call m with
  | .ok _ m' => m'
  | .error _ m' => m'

/-- The module after a run. -/
def after (calls : List ModuleCall) : IndexedModule := calls.foldl step {}

/-- The calls that are accepted when they are made one after the other. -/
def accepted (m : IndexedModule) : List ModuleCall → List ModuleCall
  | [] => []
  | call :: calls =>
    match serve call m with
    | .ok _ m' => call :: m'.accepted calls
    | .error _ m' => m'.accepted calls

/-- A call does to a module with indexes what it does to the module without them. One that is refused
leaves the lists and the maps as they are. -/
theorem Agrees.serve_refines (H : m.Agrees) (call : ModuleCall) :
    (∃ e, m.module.serve call = .error e ∧ serve call m = .error e m) ∨
      ∃ n, m.module.serve call = .ok n.module ∧ serve call m = .ok () n ∧ n.Agrees := by
  cases call with
  | define name f =>
    have hrun := define_run m name f
    have hfree := (H.function?_eq name).2
    cases hf : m.module.function? name with
    | some g =>
      rw [hfree, hf] at hrun
      exact .inl ⟨.globalDefined name, by rw [Module.serve, Module.define, hf]; rfl, hrun⟩
    | none =>
      rw [hfree, hf] at hrun
      rw [hf] at hfree
      exact .inr ⟨_, by rw [Module.serve, Module.define, hf]; rfl, hrun,
        H.define (NameMap.contains_eq_false.mp hfree)⟩
  | addType data =>
    have hfree := (H.type?_eq data.name).2
    have hctors : (fun c : CtorDef => m.ctorIndex.contains c.name) =
        fun c => (m.module.ctor? c.name).isSome := funext fun c => (H.ctor?_eq c.name).2
    cases hdata : m.module.type? data.name with
    | some old =>
      rw [hdata] at hfree
      exact .inl ⟨.typeDefined data.name, by rw [Module.serve, Module.addType, hdata]; rfl,
        addType_of_typeTaken hfree⟩
    | none =>
      rw [hdata] at hfree
      cases hfind : data.ctors.find? fun c => (m.module.ctor? c.name).isSome with
      | some c =>
        exact .inl ⟨.ctorDefined c.name, by rw [Module.serve, Module.addType, hdata, hfind]; rfl,
          addType_of_ctorTaken hfree (hctors ▸ hfind)⟩
      | none =>
        obtain ⟨index, hrun, hindex⟩ := addType_of_fresh hfree (hctors ▸ hfind)
        have hnew : ∀ c ∈ data.ctors, m.ctorIndex.get? c.name = none := fun c hc =>
          NameMap.contains_eq_false.mp (by
            rw [(H.ctor?_eq c.name).2]
            simpa using List.find?_eq_none.mp hfind c hc)
        exact .inr ⟨_, by rw [Module.serve, Module.addType, hdata, hfind]; rfl, hrun,
          H.addType (NameMap.contains_eq_false.mp hfree) hnew hindex⟩

theorem Agrees.step (H : m.Agrees) (call : ModuleCall) :
    (m.step call).Agrees ∧ (m.step call).module = m.module.step call := by
  rcases H.serve_refines call with ⟨e, hserve, hrun⟩ | ⟨n, hserve, hrun, hn⟩
  · rw [IndexedModule.step, hrun, Module.step_of_error hserve]
    exact ⟨H, rfl⟩
  · rw [IndexedModule.step, hrun, Module.step_of_ok hserve]
    exact ⟨hn, rfl⟩

theorem Agrees.run (H : m.Agrees) (calls : List ModuleCall) :
    (calls.foldl IndexedModule.step m).Agrees ∧
      (calls.foldl IndexedModule.step m).module = calls.foldl Module.step m.module := by
  induction calls generalizing m with
  | nil => exact ⟨H, rfl⟩
  | cons call calls ih =>
    obtain ⟨hstep, hmodule⟩ := H.step call
    rw [List.foldl_cons, List.foldl_cons, ← hmodule]
    exact ih hstep

/-- The lists and the maps of a module agree after every run, and the lists are those of the run
without maps. -/
theorem after_agrees (calls : List ModuleCall) :
    (after calls).Agrees ∧ (after calls).module = Module.after calls :=
  agrees_empty.run calls

theorem Agrees.accepted_eq (H : m.Agrees) (calls : List ModuleCall) :
    m.accepted calls = m.module.accepted calls := by
  induction calls generalizing m with
  | nil => rfl
  | cons call calls ih =>
    rw [accepted, Module.accepted]
    rcases H.serve_refines call with ⟨e, hserve, hrun⟩ | ⟨n, hserve, hrun, hn⟩
    · rw [hserve, hrun]
      exact ih H
    · rw [hserve, hrun]
      exact congrArg (call :: ·) (ih hn)

/-! ## Modules after a run -/

/-- No name that the call brings has an answer in the module. -/
def Fresh (m : IndexedModule) : ModuleCall → Prop
  | .define name _ => m.function? name = none
  | .addType data => m.type? data.name = none ∧ ∀ c ∈ data.ctors, m.ctor? c.name = none

theorem Agrees.fresh_iff (H : m.Agrees) (call : ModuleCall) : m.Fresh call ↔ call.Fresh m.module := by
  cases call with
  | define name f => simp only [Fresh, ModuleCall.Fresh, (H.function?_eq _).1]
  | addType data => simp only [Fresh, ModuleCall.Fresh, (H.type?_eq _).1, (H.ctor?_eq _).1]

theorem Agrees.accepts_iff (H : m.Agrees) (call : ModuleCall) :
    (∃ n, serve call m = .ok () n) ↔ m.Fresh call := by
  rw [H.fresh_iff]
  rcases H.serve_refines call with ⟨e, hserve, hrun⟩ | ⟨n, hserve, hrun, -⟩
  · constructor
    · rintro ⟨n, hn⟩
      cases hrun.symm.trans hn
    · intro hfresh
      obtain ⟨m', hm'⟩ := Module.exists_serve_of_fresh hfresh
      cases hserve.symm.trans hm'
  · exact ⟨fun _ => (Module.serve_eq_ok hserve).1, fun _ => ⟨n, hrun⟩⟩

theorem Agrees.eq_of_error (H : m.Agrees) {call : ModuleCall} {e : ModuleError}
    (h : serve call m = .error e n) : n = m := by
  rcases H.serve_refines call with ⟨e', -, hrun⟩ | ⟨n', -, hrun, -⟩
  · cases hrun.symm.trans h
    rfl
  · cases hrun.symm.trans h

theorem after_append (calls later : List ModuleCall) :
    after (calls ++ later) = later.foldl step (after calls) := List.foldl_append

theorem after_extends (calls later : List ModuleCall) :
    (after calls).module.Extends (after (calls ++ later)).module := by
  rw [after_append, ((after_agrees calls).1.run later).2]
  exact Module.extends_run _ later

/-- A call is refused exactly if it brings a name that has an answer. It then leaves the lists and the
maps as they are, as if it had never been made. Answers stay through all later calls. The globals and
the data types are those of the calls that were accepted, in the order of the calls, and no name is
listed twice. -/
theorem modules_only_grow (calls later : List ModuleCall) :
    (∀ call, (∃ m, serve call (after calls) = .ok () m) ↔ (after calls).Fresh call) ∧
    (∀ call e m, serve call (after calls) = .error e m →
      m = after calls ∧ after (calls ++ call :: later) = after (calls ++ later)) ∧
    (∀ name f, (after calls).function? name = some f →
      (after (calls ++ later)).function? name = some f) ∧
    (∀ name data, (after calls).type? name = some data →
      (after (calls ++ later)).type? name = some data) ∧
    (∀ name info, (after calls).ctor? name = some info →
      (after (calls ++ later)).ctor? name = some info) ∧
    (after calls).globals = (accepted {} calls).filterMap ModuleCall.global? ∧
    (after calls).types = (accepted {} calls).filterMap ModuleCall.type? ∧
    ((after calls).globals.map Prod.fst).Nodup ∧ ((after calls).types.map TypeData.name).Nodup := by
  obtain ⟨H, hmodule⟩ := after_agrees calls
  obtain ⟨H', -⟩ := after_agrees (calls ++ later)
  have hextends := after_extends calls later
  have hbuilt : (after calls).module.Built := hmodule ▸ Module.after_built calls
  obtain ⟨hglobals, htypes⟩ := Module.run_contents {} calls
  have haccepted : accepted {} calls = Module.accepted {} calls := agrees_empty.accepted_eq calls
  rw [haccepted]
  refine ⟨H.accepts_iff, fun call e m h => ?_, fun name f hf => ?_, fun name data hdata => ?_,
    fun name info hinfo => ?_, ?_, ?_, hbuilt.globals_nodup, hbuilt.types_nodup⟩
  · obtain rfl := H.eq_of_error h
    refine ⟨rfl, ?_⟩
    rw [after_append, after_append, List.foldl_cons, step, h]
  · rw [(H.function?_eq name).1] at hf
    rw [(H'.function?_eq name).1]
    exact hextends.function? hf
  · rw [(H.type?_eq name).1] at hdata
    rw [(H'.type?_eq name).1]
    exact hextends.type? hdata
  · rw [(H.ctor?_eq name).1] at hinfo
    rw [(H'.ctor?_eq name).1]
    exact hextends.ctor? hinfo
  · exact (congrArg Module.globals hmodule).trans hglobals
  · exact (congrArg Module.types hmodule).trans htypes

/-! ## Constructor names -/

/-- No two constructors share a name, and a name resolves to exactly the constructor that has it. -/
structure ResolvesExactly (m : IndexedModule) : Prop where
  distinct : m.module.CtorsDistinct
  ctor?_iff : ∀ name info, m.ctor? name = some info ↔
    info.adt ∈ m.types ∧ info.adt.ctors[info.tag]? = some ⟨name, info.fields⟩

theorem Agrees.ctor?_eq_some_iff (H : m.Agrees) (hbuilt : m.module.Built) {info : CtorInfo} :
    m.ctor? name = some info ↔ info.adt ∈ m.types ∧ info.IsLast name := by
  rw [(H.ctor?_eq name).1]
  exact hbuilt.typesApart.ctor?_eq_some_iff

theorem Agrees.resolvesExactly_iff (H : m.Agrees) (hbuilt : m.module.Built) :
    m.ResolvesExactly ↔ ∀ data ∈ m.types, (data.ctors.map CtorDef.name).Nodup := by
  refine ⟨fun h => hbuilt.ctorsDistinct_iff.mp h.distinct,
    fun h => ⟨hbuilt.ctorsDistinct_iff.mpr h, fun name info => ?_⟩⟩
  rw [H.ctor?_eq_some_iff hbuilt]
  exact and_congr_right fun hadt => Module.isLast_iff_of_nodup (h _ hadt)

/-- After every run, a name resolves to the last constructor of the one data type that lists it.
Resolution is exact if and only if no data type lists a name twice. -/
theorem constructor_names_resolve (calls : List ModuleCall) :
    (after calls).module.TypesApart ∧
    (∀ name info, (after calls).ctor? name = some info ↔
      info.adt ∈ (after calls).types ∧ info.IsLast name) ∧
    ((after calls).ResolvesExactly ↔
      ∀ data ∈ (after calls).types, (data.ctors.map CtorDef.name).Nodup) := by
  obtain ⟨H, hmodule⟩ := after_agrees calls
  have hbuilt : (after calls).module.Built := hmodule ▸ Module.after_built calls
  exact ⟨hbuilt.typesApart, fun _ _ => H.ctor?_eq_some_iff hbuilt, H.resolvesExactly_iff hbuilt⟩

/-- A data type that lists a name twice is accepted, and the name does not resolve to its first
constructor. -/
theorem repeated_name_hides_first :
    let twice : TypeData := ⟨"T", [⟨"A", []⟩, ⟨"A", [.scalar .bool]⟩]⟩
    twice ∈ (after [.addType twice]).types ∧ twice.ctors[0]? = some ⟨"A", []⟩ ∧
      (after [.addType twice]).ctor? "A" = some ⟨twice, 1, [.scalar .bool]⟩ ∧
      ¬ (after [.addType twice]).ResolvesExactly := by
  intro twice
  have hmem : twice ∈ (after [.addType twice]).types := List.mem_singleton.mpr rfl
  have hsecond : (after [.addType twice]).ctor? "A" = some ⟨twice, 1, [.scalar .bool]⟩ := by decide
  refine ⟨hmem, rfl, hsecond, fun h => ?_⟩
  cases hsecond.symm.trans ((h.ctor?_iff "A" ⟨twice, 0, []⟩).mpr ⟨hmem, rfl⟩)

end IndexedModule

end TensorIR.Source
