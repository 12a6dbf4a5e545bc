import Mathlib.Data.List.Forall2
import TensorIR.Proofs.Frames
import TensorIR.Proofs.NodeTyping

/-! Values and frames of given types.

A value has a type more strictly than it conforms to one: a function value has the type of its code,
and its code is consistent in the scope of what it captured. On values without functions the two are
the same. A frame models a context when it gives every name of the context a value of its type. -/

namespace TensorIR

open Source Lowered Matching Run

/-! ## Contexts -/

namespace Context

/-- No name of the list has a type yet. -/
def Fresh (Γ : Context) (names : List String) : Prop := ∀ x ∈ names, Γ.lookup x = none

/-- Entries of one name have one type. -/
def Functional (Γ : Context) : Prop := ∀ x ty ty', (x, ty) ∈ Γ → (x, ty') ∈ Γ → ty = ty'

variable {Γ Δ : Context} {names : List String} {x : String} {ty : Ty}

theorem fresh_append {names' : List String} :
    Γ.Fresh (names ++ names') ↔ Γ.Fresh names ∧ Γ.Fresh names' := by
  simp only [Fresh, List.mem_append, or_imp, forall_and]

theorem mem_of_lookup (h : Γ.lookup x = some ty) : (x, ty) ∈ Γ := by
  obtain ⟨Γ₁, Γ₂, rfl, -⟩ := List.lookup_eq_some_iff.mp h
  simp

theorem lookup_eq_none (h : x ∉ Γ.map Prod.fst) : Γ.lookup x = none := by
  rw [List.lookup_eq_none_iff]
  intro e he
  have hne : x ≠ e.1 := fun heq => h (heq ▸ List.mem_map_of_mem he)
  simpa using hne

theorem notMem_of_lookup (h : Γ.lookup x = none) : x ∉ Γ.map Prod.fst := by
  intro hx
  obtain ⟨e, he, rfl⟩ := List.mem_map.mp hx
  simpa using List.lookup_eq_none_iff.mp h e he

theorem lookup_append_none (hΓ : Γ.lookup x = none) (hΔ : Δ.lookup x = none) :
    (Γ ++ Δ).lookup x = none := by
  rw [List.lookup_append, hΓ, hΔ]
  rfl

theorem Functional.of_nodup (h : (Γ.map Prod.fst).Nodup) : Γ.Functional := by
  intro x ty ty' hty hty'
  have := List.inj_on_of_nodup_map h hty hty' rfl
  exact congrArg Prod.snd this

end Context

/-! ## Values -/

namespace Lowered

theorem paramContext_names (params : List Param) :
    (paramContext params).map Prod.fst = params.map Param.name := by
  simp [paramContext]

/-- The function is part of the program, and consistent when its frame starts with entries of the types
of the context. -/
structure Function.Consistent (P : Program) (types : TypeTable) (Γ : Context) (f : Function) :
    Prop where
  body : Node.Typed P types (paramContext f.params ++ Γ) f.body f.ret
  params_nodup : (f.params.map Param.name).Nodup
  fresh : Context.Fresh (paramContext f.params ++ Γ) f.body.binders
  nodup : f.body.binders.Nodup
  nodes : f.body.nodes ⊆ P.nodes

/-- Global functions start with an empty frame. -/
theorem Program.ConsistentlyAnnotated.function {P : Program} {types : TypeTable}
    (h : P.ConsistentlyAnnotated types) {id : FunctionId} {f : Function}
    (hf : P.function? id = some f) : f.Consistent P types [] := by
  obtain ⟨entry, hentry, rfl⟩ := Option.map_eq_some_iff.mp hf
  have hmem : entry ∈ P.functions := List.mem_of_getElem? hentry
  obtain ⟨hbody, hnodup⟩ := h entry hmem
  obtain ⟨hparams, hbinders, hdisjoint⟩ := List.nodup_append.mp hnodup
  refine ⟨by simpa using hbody, hparams, fun x hx => ?_, hbinders, fun n hn => ?_⟩
  · refine Context.lookup_eq_none ?_
    rw [List.append_nil, paramContext_names]
    exact fun hparam => hdisjoint x hparam x hx rfl
  · exact List.mem_flatMap.mpr ⟨entry, hmem, hn⟩

end Lowered

namespace Value

mutual

/-- The value has the type. -/
inductive HasType (P : Program) (types : TypeTable) : Value → Ty → Prop
  | tensor {t : Tensor} : HasType P types (.tensor t) t.ty
  | tuple {vs : List Value} {tys : List Ty} :
    AllHaveType P types vs tys → HasType P types (.tuple vs) (.tuple tys)
  | adt {name : String} {tag : Nat} {vs : List Value} {tys : List Ty} :
    types.ctorFields? name tag = some tys → AllHaveType P types vs tys →
      HasType P types (.adt tag vs) (.adt name)
  | global {id : FunctionId} {f : Lowered.Function} :
    P.function? id = some f → HasType P types (.global id) f.fnType
  | closure {f : Lowered.Function} {vs : List Value} :
    f.Consistent P types f.boundContext → f.boundContext.Functional →
    AllHaveType P types vs (f.captures.map Param.ty) → HasType P types (.closure f vs) f.fnType

/-- As many values as types, each of its type. -/
inductive AllHaveType (P : Program) (types : TypeTable) : List Value → List Ty → Prop
  | nil : AllHaveType P types [] []
  | cons {v : Value} {ty : Ty} {vs : List Value} {tys : List Ty} :
    HasType P types v ty → AllHaveType P types vs tys →
      AllHaveType P types (v :: vs) (ty :: tys)

end

variable {P : Program} {types : TypeTable}

mutual

theorem HasType.conformsTo : ∀ {v : Value} {ty : Ty}, HasType P types v ty →
    v.conformsTo types ty = true
  | _, _, .tensor => by simp [Value.conformsTo, Tensor.ty]
  | _, _, .tuple h => by
    rw [Value.conformsTo]
    exact h.allConform
  | _, _, .adt hfields h => by
    rw [Value.conformsTo, hfields]
    exact h.allConform
  | _, _, .global _ => rfl
  | _, _, .closure .. => by simp [Lowered.Function.fnType, Value.conformsTo]

theorem AllHaveType.allConform : ∀ {vs : List Value} {tys : List Ty}, AllHaveType P types vs tys →
    Value.allConform types vs tys = true
  | _, _, .nil => rfl
  | _, _, .cons h hs => by
    rw [Value.allConform, Bool.and_eq_true]
    exact ⟨h.conformsTo, hs.allConform⟩

end

theorem AllHaveType.length_eq {vs : List Value} {tys : List Ty} (h : AllHaveType P types vs tys) :
    vs.length = tys.length :=
  allConform_length h.allConform

mutual

theorem HasType.of_isData : ∀ {v : Value} {ty : Ty}, v.isData = true →
    v.conformsTo types ty = true → HasType P types v ty
  | .tensor t, .tensor dtype shape, _, h => by
    rw [Value.conformsTo, Bool.and_eq_true, beq_iff_eq, beq_iff_eq] at h
    obtain ⟨rfl, rfl⟩ := h
    exact .tensor
  | .tuple vs, .tuple tys, hdata, h => by
    rw [isData] at hdata
    rw [Value.conformsTo] at h
    exact .tuple (.of_allData hdata h)
  | .adt tag vs, .adt name, hdata, h => by
    rw [isData] at hdata
    rw [Value.conformsTo] at h
    cases htys : types.ctorFields? name tag with
    | none => simp [htys] at h
    | some tys =>
      rw [htys] at h
      exact .adt htys (.of_allData hdata h)

theorem AllHaveType.of_allData : ∀ {vs : List Value} {tys : List Ty}, allData vs = true →
    Value.allConform types vs tys = true → AllHaveType P types vs tys
  | [], [], _, _ => .nil
  | v :: vs, ty :: tys, hdata, h => by
    rw [allData, Bool.and_eq_true] at hdata
    rw [Value.allConform, Bool.and_eq_true] at h
    exact .cons (.of_isData hdata.1 h.1) (.of_allData hdata.2 h.2)

end

/-- A boolean scalar has a boolean value. -/
theorem HasType.asBool? {v : Value} (h : HasType P types v (.scalar .bool)) :
    ∃ b, v.asBool? = some b := by
  generalize hty : Ty.scalar .bool = ty at h
  cases h with
  | @tensor t =>
    obtain ⟨shape, data, hsize⟩ := t
    injection hty with hdtype hshape
    cases data with
    | bool data =>
      have hshape : Shape.scalar = shape := hshape
      subst hshape
      have hsize : data.size = 1 := hsize
      refine ⟨data[0], ?_⟩
      simp [Value.asBool?, Value.asTensor?, Tensor.asBool?, Tensor.isScalar, Shape.scalar,
        Shape.rank, hsize]
    | _ => cases hdtype
  | tuple | adt | global | closure => cases hty

end Value

/-! ## Frames -/

namespace Run.Frame

/-- The entry gives the name of the context's entry a value of its type. -/
def EntryHasType (P : Program) (types : TypeTable) (e : String × Value) (b : String × Ty) : Prop :=
  e.1 = b.1 ∧ e.2.HasType P types b.2

/-- Every name of the context has a value of its type. -/
def Models (P : Program) (types : TypeTable) (Γ : Context) (frame : Frame) : Prop :=
  ∀ x ty, Γ.lookup x = some ty → ∃ v, frame.lookup x = some v ∧ v.HasType P types ty

/-- The second frame differs from the first one at the given names only. -/
def SameOutside (names : List String) (frame frame' : Frame) : Prop :=
  ∀ x ∉ names, frame'.lookup x = frame.lookup x

variable {P : Program} {types : TypeTable} {Γ Δ : Context} {frame frame' frame'' : Frame}

theorem SameOutside.refl (names : List String) (frame : Frame) : SameOutside names frame frame :=
  fun _ _ => rfl

theorem SameOutside.mono {names names' : List String} (h : SameOutside names frame frame')
    (hsub : names ⊆ names') : SameOutside names' frame frame' :=
  fun x hx => h x fun hmem => hx (hsub hmem)

theorem SameOutside.append {names names' : List String} (h : SameOutside names frame frame')
    (h' : SameOutside names' frame' frame'') : SameOutside (names ++ names') frame frame'' := by
  intro x hx
  rw [List.mem_append, not_or] at hx
  rw [h' x hx.2, h x hx.1]

theorem SameOutside.extend {names : List String} {entries : List (String × Value)}
    (h : entries.map Prod.fst ⊆ names) : SameOutside names frame (frame.extend entries) :=
  fun _ hx => lookup_extend_of_notMem fun hmem => hx (h hmem)

theorem exists_right_of_forall₂ {α β : Type} {R : α → β → Prop} {as : List α} {bs : List β}
    (h : List.Forall₂ R as bs) {a : α} (ha : a ∈ as) : ∃ b ∈ bs, R a b := by
  induction h with
  | nil => cases ha
  | cons hab _ ih =>
    rcases List.mem_cons.mp ha with rfl | ha
    · exact ⟨_, List.mem_cons_self, hab⟩
    · obtain ⟨b, hb, hR⟩ := ih ha
      exact ⟨b, List.mem_cons_of_mem _ hb, hR⟩

theorem models_nil (frame : Frame) : Models P types [] frame := nofun

theorem Models.of_sameOutside {names : List String} (h : Models P types Γ frame)
    (hfresh : Γ.Fresh names) (hsame : SameOutside names frame frame') :
    Models P types Γ frame' := by
  intro x ty hx
  obtain ⟨v, hv, hty⟩ := h x ty hx
  refine ⟨v, ?_, hty⟩
  rw [hsame x ?_, hv]
  intro hmem
  rw [hfresh x hmem] at hx
  cases hx

theorem names_of_forall₂ {entries : List (String × Value)}
    (h : List.Forall₂ (EntryHasType P types) entries Δ) :
    entries.map Prod.fst = Δ.map Prod.fst :=
  List.forall₂_eq_eq_eq ▸ (List.forall₂_map_left_iff.mpr
    (List.forall₂_map_right_iff.mpr (h.imp fun _ _ hb => hb.1)))

/-- Entries that fit a context model it on top of what was there. -/
theorem Models.extend {entries : List (String × Value)}
    (hentries : List.Forall₂ (EntryHasType P types) entries Δ) (hΔ : Δ.Functional)
    (h : Models P types Γ frame) : Models P types (Δ ++ Γ) (frame.extend entries) := by
  have hnames := names_of_forall₂ hentries
  intro x ty hx
  rw [List.lookup_append] at hx
  by_cases hmem : x ∈ Δ.map Prod.fst
  · obtain ⟨v, hv, hlookup⟩ : ∃ v, (x, v) ∈ entries ∧ (frame.extend entries).lookup x = some v :=
      exists_lookup_extend (hnames ▸ hmem)
    obtain ⟨⟨y, ty'⟩, hb, rfl, hty'⟩ := exists_right_of_forall₂ hentries hv
    refine ⟨v, hlookup, ?_⟩
    cases hΔx : Δ.lookup x with
    | none => exact absurd hmem (Context.notMem_of_lookup hΔx)
    | some ty'' =>
      rw [hΔx] at hx
      cases hx
      rwa [hΔ x _ _ (Context.mem_of_lookup hΔx) hb]
  · rw [Context.lookup_eq_none hmem] at hx
    obtain ⟨v, hv, hty⟩ := h x ty hx
    refine ⟨v, ?_, hty⟩
    rw [lookup_extend_of_notMem (hnames ▸ hmem), hv]

/-- The entries for the parameters fit their context. -/
theorem forall₂_zip {params : List Param} {vs : List Value}
    (h : Value.AllHaveType P types vs (params.map Param.ty)) :
    List.Forall₂ (EntryHasType P types) ((params.map Param.name).zip vs) (paramContext params) := by
  induction params generalizing vs with
  | nil => exact .nil
  | cons p params ih =>
    cases h with
    | cons hv hvs => exact .cons ⟨rfl, hv⟩ (ih hvs)

end Run.Frame

/-! ## Patterns -/

namespace Matching

variable {P : Program} {types : TypeTable}

mutual

theorem boundNames_of_typed : ∀ {p : Lowered.Pattern} {ty : Ty} {Γ : Context},
    p.Typed types ty Γ → Γ.map Prod.fst = p.boundNames
  | .wildcard, _, _, .wildcard => rfl
  | .bind _, _, _, .bind => rfl
  | .ctor .., _, _, .ctor _ h => by
    rw [Pattern.boundNames]
    exact boundNamesList_of_typed h
  | .tuple _, _, _, .tuple h => by
    rw [Pattern.boundNames]
    exact boundNamesList_of_typed h

theorem boundNamesList_of_typed : ∀ {ps : List Lowered.Pattern} {tys : List Ty} {Γ : Context},
    Pattern.AllTyped types ps tys Γ → Γ.map Prod.fst = Pattern.boundNamesList ps
  | [], _, _, .nil => rfl
  | _ :: _, _, _, .cons h hs => by
    rw [Pattern.boundNamesList, List.map_append, boundNames_of_typed h, boundNamesList_of_typed hs]

end

mutual

/-- What a pattern binds has the types of its context. -/
theorem matchPattern?_typed : ∀ {p : Lowered.Pattern} {ty : Ty} {Γ : Context} {v : Value}
    {entries : List (String × Value)}, p.Typed types ty Γ → v.HasType P types ty →
      matchPattern? p v = some entries → List.Forall₂ (Frame.EntryHasType P types) entries Γ
  | .wildcard, _, _, _, _, .wildcard, _, h => by
    cases h
    exact .nil
  | .bind _, _, _, _, _, .bind, hv, h => by
    cases h
    exact .cons ⟨rfl, hv⟩ .nil
  | .ctor tag _ ps, _, _, _, _, .ctor hfields hps, .adt hfields' hvs, h => by
    rw [matchPattern?] at h
    split at h
    · next htag =>
      subst htag
      rw [hfields] at hfields'
      cases hfields'
      exact matchPatterns?_typed hps hvs h
    · cases h
  | .tuple ps, _, _, _, _, .tuple hps, .tuple hvs, h => by
    rw [matchPattern?] at h
    exact matchPatterns?_typed hps hvs h

theorem matchPatterns?_typed : ∀ {ps : List Lowered.Pattern} {tys : List Ty} {Γ : Context}
    {vs : List Value} {entries : List (String × Value)}, Pattern.AllTyped types ps tys Γ →
      Value.AllHaveType P types vs tys → matchPatterns? ps vs = some entries →
        List.Forall₂ (Frame.EntryHasType P types) entries Γ
  | [], _, _, _, _, .nil, .nil, h => by
    cases h
    exact .nil
  | p :: ps, _, _, v :: vs, _, .cons hp hps, .cons hv hvs, h => by
    simp only [matchPatterns?, Option.bind_eq_bind, Option.bind_eq_some_iff] at h
    obtain ⟨xs, hxs, ys, hys, heq⟩ := h
    cases heq
    exact List.rel_append (matchPattern?_typed hp hv hxs) (matchPatterns?_typed hps hvs hys)

end

end Matching

end TensorIR
