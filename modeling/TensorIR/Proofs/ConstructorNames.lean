import Mathlib.Data.List.Induction
import TensorIR.Proofs.Modules

/-! Runs of definitions on a module, and what constructor names resolve to after them.

A run starts with the empty module and makes definitions in any order, some of which are refused. No
two data types share a constructor name after it. A data type is not compared with itself when it is
added, so it may list one name twice, and the name then resolves to the last constructor that has it.
-/

namespace TensorIR.Source

variable {m m' : Module} {name : String} {info : CtorInfo} {data : TypeData} {c : CtorDef}

inductive ModuleCall where
  | define (name : String) (f : Function)
  | addType (data : TypeData)

namespace Module

/-- The module that the call makes, unless it is refused. -/
def serve (m : Module) : ModuleCall → Except ModuleError Module
  | .define name f => m.define name f
  | .addType data => m.addType data

/-- The module after the call. A call that is refused leaves it as it is. -/
def step (m : Module) (call : ModuleCall) : Module :=
  match m.serve call with
  | .ok m' => m'
  | .error _ => m

/-- The module after a run. -/
def after (calls : List ModuleCall) : Module := calls.foldl step {}

theorem Built.step (H : m.Built) (call : ModuleCall) : (m.step call).Built := by
  unfold Module.step
  cases hserve : m.serve call with
  | error e => exact H
  | ok m' =>
    cases call with
    | define name f => exact .define H hserve
    | addType data => exact .addType H hserve

theorem after_built (calls : List ModuleCall) : (after calls).Built := by
  induction calls using List.reverseRecOn with
  | nil => exact .empty
  | append_singleton calls call ih =>
    rw [after, List.foldl_append]
    exact ih.step call

end Module

/-! ## The constructor of a name -/

/-- The constructor has the name, and no later one of its data type has it. -/
def CtorInfo.IsLast (info : CtorInfo) (name : String) : Prop :=
  info.adt.ctors[info.tag]? = some ⟨name, info.fields⟩ ∧
    ∀ tag c, info.tag < tag → info.adt.ctors[tag]? = some c → c.name ≠ name

theorem CtorInfo.IsLast.mem (h : info.IsLast name) : name ∈ info.adt.ctors.map CtorDef.name :=
  List.mem_map.mpr ⟨_, List.mem_of_getElem? h.1, rfl⟩

/-- A data type has one last constructor of a name. -/
theorem CtorInfo.IsLast.unique {info' : CtorInfo} (h : info.IsLast name) (h' : info'.IsLast name)
    (hadt : info.adt = info'.adt) : info = info' := by
  obtain ⟨adt, tag, fields⟩ := info
  obtain ⟨adt', tag', fields'⟩ := info'
  cases hadt
  have htag : tag = tag' := by
    rcases Nat.lt_trichotomy tag tag' with hlt | heq | hgt
    · exact absurd rfl (h.2 tag' _ hlt h'.1)
    · exact heq
    · exact absurd rfl (h'.2 tag _ hgt h.1)
  subst htag
  cases h.1.symm.trans h'.1
  rfl

theorem lastTag?_of_mem {ctors : List CtorDef} (h : name ∈ ctors.map CtorDef.name) :
    ∃ tag, lastTag? name ctors = some tag := by
  induction ctors with
  | nil => cases h
  | cons d ds ih =>
    rw [lastTag?]
    cases hds : lastTag? name ds with
    | some last => exact ⟨last + 1, rfl⟩
    | none =>
      rcases List.mem_cons.mp h with rfl | h
      · exact ⟨0, if_pos rfl⟩
      · obtain ⟨tag, htag⟩ := ih h
        cases hds.symm.trans htag

theorem lastTag?_eq_some {ctors : List CtorDef} {tag : Nat} (h : lastTag? name ctors = some tag) :
    (∃ c, ctors[tag]? = some c ∧ c.name = name) ∧
      ∀ tag' c, tag < tag' → ctors[tag']? = some c → c.name ≠ name := by
  induction ctors generalizing tag with
  | nil => cases h
  | cons d ds ih =>
    rw [lastTag?] at h
    cases hds : lastTag? name ds with
    | some last =>
      rw [hds] at h
      cases h
      obtain ⟨hlast, hlater⟩ := ih hds
      refine ⟨hlast, fun tag' c hlt hc => ?_⟩
      cases tag' with
      | zero => omega
      | succ tag' => exact hlater tag' c (by omega) hc
    | none =>
      rw [hds] at h
      obtain ⟨hname, rfl⟩ : d.name = name ∧ 0 = tag := by simpa using h
      refine ⟨⟨d, rfl, hname⟩, fun tag' c hlt hc hc' => ?_⟩
      cases tag' with
      | zero => omega
      | succ tag' =>
        have hmem : name ∈ ds.map CtorDef.name :=
          List.mem_map.mpr ⟨c, List.mem_of_getElem? hc, hc'⟩
        obtain ⟨last, hlast⟩ := lastTag?_of_mem hmem
        cases hds.symm.trans hlast

namespace Module

theorem isLast_of_ctor? (h : m.ctor? name = some info) :
    info.adt ∈ m.types ∧ info.IsLast name := by
  obtain ⟨data, hdata, h⟩ := List.exists_of_findSome?_eq_some h
  simp only [Option.bind_eq_bind, Option.bind_eq_some_iff, Option.pure_def,
    Option.some.injEq] at h
  obtain ⟨tag, htag, c, hc, rfl⟩ := h
  obtain ⟨⟨d, hd, rfl⟩, hlater⟩ := lastTag?_eq_some htag
  obtain rfl : c = d := Option.some.inj (hc.symm.trans hd)
  exact ⟨hdata, hc, hlater⟩

/-- Every constructor name of a module resolves. -/
theorem exists_ctor? (hdata : data ∈ m.types) (hname : name ∈ data.ctors.map CtorDef.name) :
    ∃ info, m.ctor? name = some info := by
  obtain ⟨tag, htag⟩ := lastTag?_of_mem hname
  obtain ⟨⟨c, hc, -⟩, -⟩ := lastTag?_eq_some htag
  refine Option.isSome_iff_exists.mp (List.findSome?_isSome_iff.mpr ⟨data, hdata, ?_⟩)
  simp [TypeData.tag?, htag, hc]

theorem addType_ctors (h : m.addType data = .ok m')
    (hname : name ∈ data.ctors.map CtorDef.name) : m.ctor? name = none := by
  obtain ⟨c, hc, rfl⟩ := List.mem_map.mp hname
  unfold addType at h
  split at h
  · cases h
  · split at h
    · cases h
    · next hnone => simpa using List.find?_eq_none.mp hnone c hc

/-- No two data types of the module share a constructor name. -/
def TypesApart (m : Module) : Prop :=
  ∀ data ∈ m.types, ∀ data' ∈ m.types, ∀ name ∈ data.ctors.map CtorDef.name,
    name ∈ data'.ctors.map CtorDef.name → data = data'

/-- A constructor name of an earlier type is refused, so types that are accepted share none. -/
theorem Built.typesApart (H : m.Built) : m.TypesApart := by
  induction H with
  | empty => simp [TypesApart]
  | define _ h ih =>
    unfold TypesApart
    rw [define_types h]
    exact ih
  | @addType m m' data _ h ih =>
    have hfresh : ∀ old ∈ m.types, ∀ name ∈ data.ctors.map CtorDef.name,
        name ∉ old.ctors.map CtorDef.name := by
      intro old hold name hname hmem
      obtain ⟨info, hinfo⟩ := exists_ctor? hold hmem
      cases (addType_ctors h hname).symm.trans hinfo
    unfold TypesApart
    rw [(addType_types h).2]
    intro d hd d' hd' name hname hname'
    rcases List.mem_append.mp hd with hd | hd <;> rcases List.mem_append.mp hd' with hd' | hd'
    · exact ih d hd d' hd' name hname hname'
    · cases List.mem_singleton.mp hd'
      exact absurd hname (hfresh d hd name hname')
    · cases List.mem_singleton.mp hd
      exact absurd hname' (hfresh d' hd' name hname)
    · rw [List.mem_singleton.mp hd, List.mem_singleton.mp hd']

theorem TypesApart.ctor?_eq_some_iff (H : m.TypesApart) :
    m.ctor? name = some info ↔ info.adt ∈ m.types ∧ info.IsLast name := by
  refine ⟨isLast_of_ctor?, ?_⟩
  rintro ⟨hadt, hlast⟩
  obtain ⟨info', hinfo'⟩ := exists_ctor? hadt hlast.mem
  obtain ⟨hadt', hlast'⟩ := isLast_of_ctor? hinfo'
  have hsame : info.adt = info'.adt := H _ hadt _ hadt' name hlast.mem hlast'.mem
  rw [hinfo', hlast.unique hlast' hsame]

/-! ## Names that are listed once -/

theorem Built.ctorsDistinct_iff (H : m.Built) :
    m.CtorsDistinct ↔ ∀ data ∈ m.types, (data.ctors.map CtorDef.name).Nodup := by
  have hdistinct : m.types.Pairwise fun data data' => data ≠ data' := H.types_nodup.of_map _
  have hapart : m.types.Pairwise fun data data' =>
      (data.ctors.map CtorDef.name).Disjoint (data'.ctors.map CtorDef.name) :=
    hdistinct.imp_of_mem fun hdata hdata' hne name hname hname' =>
      hne (H.typesApart _ hdata _ hdata' name hname hname')
  rw [CtorsDistinct, List.nodup_flatMap]
  exact and_iff_left hapart

theorem isLast_iff_of_nodup (h : (info.adt.ctors.map CtorDef.name).Nodup) :
    info.IsLast name ↔ info.adt.ctors[info.tag]? = some ⟨name, info.fields⟩ := by
  refine and_iff_left_of_imp fun htag tag c hlt hc hname => ?_
  have hlength : tag < (info.adt.ctors.map CtorDef.name).length := by
    simpa using (List.getElem?_eq_some_iff.mp hc).1
  refine List.nodup_iff_getElem?_ne_getElem?.mp h info.tag tag hlt hlength ?_
  rw [List.getElem?_map, List.getElem?_map, htag, hc, Option.map_some, Option.map_some, hname]

end Module

end TensorIR.Source
