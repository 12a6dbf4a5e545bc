import Mathlib.Data.List.Nodup
import TensorIR.Source.Module

/-! Modules as they arise from the empty one by definitions, and how constructors resolve in them. -/

namespace TensorIR.Source

/-- The module arises from the empty one by accepted definitions. A refused definition leaves a module
as it was, so these are all modules there are. -/
inductive Module.Built : Module → Prop
  | empty : Module.Built {}
  | define {m m' : Module} {name : String} {f : Function} :
    m.Built → m.define name f = .ok m' → m'.Built
  | addType {m m' : Module} {data : TypeData} : m.Built → m.addType data = .ok m' → m'.Built

/-- Every field of every constructor has a resolved type. -/
def Module.FieldsResolved (m : Module) : Prop :=
  ∀ data ∈ m.types, ∀ c ∈ data.ctors, Ty.allResolved c.fields = true

instance (m : Module) : Decidable m.FieldsResolved :=
  inferInstanceAs (Decidable (∀ data ∈ m.types, ∀ c ∈ data.ctors, Ty.allResolved c.fields = true))

/-- No two constructors of the module share a name. -/
def Module.CtorsDistinct (m : Module) : Prop :=
  (m.types.flatMap fun data => data.ctors.map CtorDef.name).Nodup

instance (m : Module) : Decidable m.CtorsDistinct :=
  inferInstanceAs (Decidable (m.types.flatMap fun data => data.ctors.map CtorDef.name).Nodup)

theorem lastTag?_eq_none {name : String} {ctors : List CtorDef}
    (h : name ∉ ctors.map CtorDef.name) : lastTag? name ctors = none := by
  induction ctors with
  | nil => rfl
  | cons c cs ih =>
    rw [List.map_cons, List.mem_cons, not_or] at h
    rw [lastTag?, ih h.2]
    exact if_neg (Ne.symm h.1)

theorem lastTag?_of_nodup {ctors : List CtorDef} (hnd : (ctors.map CtorDef.name).Nodup) {tag : Nat}
    {c : CtorDef} (h : ctors[tag]? = some c) : lastTag? c.name ctors = some tag := by
  induction ctors generalizing tag with
  | nil => simp at h
  | cons d ds ih =>
    rw [List.map_cons, List.nodup_cons] at hnd
    cases tag with
    | zero =>
      cases h
      rw [lastTag?, lastTag?_eq_none hnd.1]
      exact if_pos rfl
    | succ tag => rw [lastTag?, ih hnd.2 h]

theorem TypeTable.get?_eq_none_iff {types : TypeTable} {name : String} :
    types.get? name = none ↔ name ∉ types.map TypeData.name := by
  simp only [TypeTable.get?, List.find?_eq_none, beq_iff_eq, List.mem_map, not_exists, not_and]

theorem TypeTable.get?_of_mem {types : TypeTable} (hnd : (types.map TypeData.name).Nodup)
    {data : TypeData} (h : data ∈ types) : types.get? data.name = some data := by
  induction types with
  | nil => cases h
  | cons d ds ih =>
    rw [List.map_cons, List.nodup_cons] at hnd
    rcases List.mem_cons.mp h with rfl | h
    · simp [TypeTable.get?]
    · have hne : d.name ≠ data.name := fun heq =>
        hnd.1 (heq ▸ List.mem_map.mpr ⟨data, h, rfl⟩)
      have := ih hnd.2 h
      simpa [TypeTable.get?, List.find?_cons, hne] using this

namespace Module

theorem define_eq_ok {m m' : Module} {name : String} {f : Function}
    (h : m.define name f = .ok m') :
    m.function? name = none ∧ m' = { m with globals := m.globals ++ [(name, f)] } := by
  unfold define at h
  split at h
  · cases h
  · next hnew =>
    cases h
    exact ⟨Option.not_isSome_iff_eq_none.mp hnew, rfl⟩

theorem define_types {m m' : Module} {name : String} {f : Function}
    (h : m.define name f = .ok m') : m'.types = m.types := by
  rw [(define_eq_ok h).2]

theorem function?_define_self {m m' : Module} {name : String} {f : Function}
    (h : m.define name f = .ok m') : m'.function? name = some f := by
  obtain ⟨hnew, rfl⟩ := define_eq_ok h
  rw [function?] at hnew ⊢
  rw [List.lookup_append, hnew]
  simp

/-- Definitions that were there before stay. -/
theorem function?_define {m m' : Module} {name name' : String} {f f' : Function}
    (h : m.define name f = .ok m') (hf : m.function? name' = some f') :
    m'.function? name' = some f' := by
  obtain ⟨-, rfl⟩ := define_eq_ok h
  rw [function?] at hf ⊢
  rw [List.lookup_append, hf]
  rfl

/-- A definition adds nothing else. -/
theorem function?_define_of_ne {m m' : Module} {name name' : String} {f : Function}
    (h : m.define name f = .ok m') (hne : name' ≠ name) : m'.function? name' = m.function? name' := by
  obtain ⟨-, rfl⟩ := define_eq_ok h
  have hbeq : (name' == name) = false := beq_false_of_ne hne
  have hsingle : [(name, f)].lookup name' = none := by simp only [List.lookup_cons, hbeq, List.lookup_nil]
  rw [function?, function?, List.lookup_append, hsingle, Option.or_none]

theorem addType_types {m m' : Module} {data : TypeData} (h : m.addType data = .ok m') :
    m.type? data.name = none ∧ m'.types = m.types ++ [data] := by
  unfold addType at h
  split at h
  · cases h
  · rename_i hfree
    split at h
    · cases h
    · cases h
      exact ⟨by simpa using hfree, rfl⟩

theorem addType_globals {m m' : Module} {data : TypeData} (h : m.addType data = .ok m') :
    m'.globals = m.globals := by
  unfold addType at h
  split at h
  · cases h
  · split at h
    · cases h
    · cases h
      rfl

theorem function?_eq_none_iff {m : Module} {name : String} :
    m.function? name = none ↔ name ∉ m.globals.map Prod.fst := by
  rw [function?, List.lookup_eq_none_iff]
  constructor
  · intro h hmem
    obtain ⟨global, hglobal, rfl⟩ := List.mem_map.mp hmem
    exact absurd (h global hglobal) (by simp)
  · intro h global hglobal
    simp only [bne_iff_ne]
    rintro rfl
    exact h (List.mem_map_of_mem hglobal)

/-- No two globals of a module share a name. -/
theorem Built.globals_nodup {m : Module} (H : m.Built) : (m.globals.map Prod.fst).Nodup := by
  induction H with
  | empty => exact List.nodup_nil
  | define _ h ih =>
    obtain ⟨hnew, rfl⟩ := define_eq_ok h
    rw [List.map_append]
    exact List.nodup_append_comm.mp (List.nodup_cons.mpr ⟨function?_eq_none_iff.mp hnew, ih⟩)
  | addType _ h ih =>
    rw [addType_globals h]
    exact ih

/-- No two data types of a module share a name. -/
theorem Built.types_nodup {m : Module} (H : m.Built) : (m.types.map TypeData.name).Nodup := by
  induction H with
  | empty => exact List.nodup_nil
  | define _ h ih =>
    rw [define_types h]
    exact ih
  | addType _ h ih =>
    obtain ⟨hfree, htypes⟩ := addType_types h
    rw [htypes, List.map_append, List.nodup_append]
    refine ⟨ih, List.nodup_singleton _, ?_⟩
    intro x hx y hy
    cases List.mem_singleton.mp hy
    rintro rfl
    exact TypeTable.get?_eq_none_iff.mp hfree hx

theorem ctor?_eq_some {m : Module} {name : String} {info : CtorInfo}
    (h : m.ctor? name = some info) :
    info.adt ∈ m.types ∧ ∃ c, info.adt.ctors[info.tag]? = some c ∧ c.fields = info.fields := by
  obtain ⟨data, hdata, h⟩ := List.exists_of_findSome?_eq_some h
  simp only [Option.bind_eq_bind, Option.bind_eq_some_iff, Option.pure_def,
    Option.some.injEq] at h
  obtain ⟨tag, _, c, hc, rfl⟩ := h
  exact ⟨hdata, c, hc, rfl⟩

/-- A constructor that resolves is the one of its data type with its tag. -/
theorem Built.ctorFields?_of_ctor? {m : Module} (H : m.Built) {name : String} {info : CtorInfo}
    (h : m.ctor? name = some info) :
    m.types.ctorFields? info.adt.name info.tag = some info.fields := by
  obtain ⟨hmem, c, hc, hfields⟩ := ctor?_eq_some h
  simp [TypeTable.ctorFields?, TypeTable.get?_of_mem H.types_nodup hmem, hc, hfields]

/-- Where names are distinct, a constructor resolves to its own data type and tag. -/
theorem CtorsDistinct.ctor?_eq {m : Module} (H : m.CtorsDistinct) {data : TypeData}
    (hdata : data ∈ m.types) {tag : Nat} {c : CtorDef} (hc : data.ctors[tag]? = some c) :
    m.ctor? c.name = some ⟨data, tag, c.fields⟩ := by
  unfold CtorsDistinct at H
  unfold ctor?
  generalize m.types = types at H hdata
  induction types with
  | nil => cases hdata
  | cons d ds ih =>
    rw [List.flatMap_cons, List.nodup_append] at H
    obtain ⟨hd, hds, hdisjoint⟩ := H
    rcases List.mem_cons.mp hdata with rfl | hdata
    · simp [TypeData.tag?, lastTag?_of_nodup hd hc, hc]
    · have hmem : c.name ∈ ds.flatMap fun data => data.ctors.map CtorDef.name :=
        List.mem_flatMap.mpr ⟨data, hdata, List.mem_map.mpr ⟨c, List.mem_of_getElem? hc, rfl⟩⟩
      have hnone : lastTag? c.name d.ctors = none :=
        lastTag?_eq_none fun h => hdisjoint _ h _ hmem rfl
      rw [List.findSome?_cons]
      simpa [TypeData.tag?, hnone] using ih hds hdata

theorem FieldsResolved.of_ctorFields? {m : Module} (H : m.FieldsResolved) {name : String}
    {tag : Nat} {tys : List Ty} (h : m.types.ctorFields? name tag = some tys) :
    Ty.allResolved tys = true := by
  simp only [TypeTable.ctorFields?, Option.bind_eq_bind, Option.bind_eq_some_iff, Option.pure_def,
    Option.some.injEq] at h
  obtain ⟨data, hdata, c, hc, rfl⟩ := h
  exact H data (List.mem_of_find?_eq_some hdata) c (List.mem_of_getElem? hc)

end Module

end TensorIR.Source
