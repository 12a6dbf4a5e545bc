import TensorIR.Proofs.Coverage
import TensorIR.Proofs.DataValues

/-! The shape that the coverage check reports is really missing: no pattern takes a value of that
shape, and where the data types have values at all, there is one.

A search that ends with shapes leaves a derivation behind, `Misses`, which says for each column whether
it was split or skipped. Both results are inductions over this derivation. -/

namespace TensorIR

open Source Lowered

theorem Ty.allResolved_append (tys tys' : List Ty) :
    Ty.allResolved (tys ++ tys') = (Ty.allResolved tys && Ty.allResolved tys') := by
  induction tys with
  | nil => rfl
  | cons ty tys ih => simp [Ty.allResolved, ih, Bool.and_assoc]

/-- Values of the types of two lists are values of the first and then values of the second. -/
theorem Value.exists_append_of_allConform {types : TypeTable} {tys tys' : List Ty} {vs : List Value}
    (h : Value.allConform types vs (tys ++ tys') = true) :
    ∃ us us', vs = us ++ us' ∧ Value.allConform types us tys = true ∧
      Value.allConform types us' tys' = true := by
  induction tys generalizing vs with
  | nil => exact ⟨[], vs, rfl, rfl, h⟩
  | cons ty tys ih =>
    obtain ⟨v, vs, rfl, hv, hvs⟩ := Value.allConform_cons h
    obtain ⟨us, us', rfl, hus, hus'⟩ := ih hvs
    exact ⟨v :: us, us', rfl, by simp [Value.allConform, hv, hus], hus'⟩

namespace Matching

/-! ## Shapes of values -/

mutual

/-- The value has the shape. A constructor is the one that the module knows by the name. -/
def Witness.describes (m : Module) : Witness → Value → Bool
  | .any, _ => true
  | .ctor name ws, .adt tag vs =>
    (m.ctor? name).map CtorInfo.tag == some tag && Witness.describesAll m ws vs
  | .tuple ws, .tuple vs => Witness.describesAll m ws vs
  | _, _ => false

/-- As many shapes as values, and each value has its shape. -/
def Witness.describesAll (m : Module) : List Witness → List Value → Bool
  | [], [] => true
  | w :: ws, v :: vs => w.describes m v && Witness.describesAll m ws vs
  | _, _ => false

end

namespace Witness

variable {m : Module}

theorem describesAll_anyWitnesses (vs : List Value) :
    describesAll m (anyWitnesses vs.length) vs = true := by
  induction vs with
  | nil => rfl
  | cons v vs ih => simpa [anyWitnesses, List.replicate_succ, describesAll, describes] using ih

theorem describesAll_append {ws ws' : List Witness} {us vs : List Value}
    (h : describesAll m ws us = true) (h' : describesAll m ws' vs = true) :
    describesAll m (ws ++ ws') (us ++ vs) = true := by
  induction ws generalizing us with
  | nil =>
    cases us with
    | nil => exact h'
    | cons => simp [describesAll] at h
  | cons w ws ih =>
    cases us with
    | nil => simp [describesAll] at h
    | cons u us =>
      simp only [describesAll, Bool.and_eq_true] at h
      simp only [List.cons_append, describesAll, Bool.and_eq_true]
      exact ⟨h.1, ih h.2⟩

/-- Values of the shapes of two lists are values of the first and then values of the second. -/
theorem exists_append_of_describesAll {ws ws' : List Witness} {vs : List Value}
    (h : describesAll m (ws ++ ws') vs = true) :
    ∃ us us', vs = us ++ us' ∧ us.length = ws.length ∧ describesAll m ws us = true ∧
      describesAll m ws' us' = true := by
  induction ws generalizing vs with
  | nil => exact ⟨[], vs, rfl, rfl, rfl, h⟩
  | cons w ws ih =>
    cases vs with
    | nil => simp [describesAll] at h
    | cons v vs =>
      simp only [List.cons_append, describesAll, Bool.and_eq_true] at h
      obtain ⟨us, us', rfl, hlen, hus, hus'⟩ := ih h.2
      refine ⟨v :: us, us', rfl, by simp [hlen], ?_, hus'⟩
      simp [describesAll, h.1, hus]

end Witness

/-! ## Constructors of a column -/

/-- A constructor of a type is a variant of a data type, which the shape names, or that of a tuple. -/
theorem CtorSet.witness_cases {types : TypeTable} {ty : Ty} {set : CtorSet} {tag : Nat}
    {tys : List Ty} (hset : CtorSet.of? types ty = some set)
    (htys : set.fieldTypes[tag]? = some tys) :
    (∃ name data c, ty = .adt name ∧ types.get? name = some data ∧ data.ctors[tag]? = some c ∧
        c.fields = tys ∧ ∀ ws, set.witness tag ws = .ctor c.name ws) ∨
      (ty = .tuple tys ∧ tag = 0 ∧ ∀ ws, set.witness tag ws = .tuple ws) := by
  cases ty with
  | adt name =>
    obtain ⟨data, hdata, rfl⟩ := Option.map_eq_some_iff.mp hset
    simp only [fieldTypes, List.getElem?_map, Option.map_eq_some_iff] at htys
    obtain ⟨c, hc, rfl⟩ := htys
    exact .inl ⟨name, data, c, rfl, hdata, hc, rfl, fun ws => by simp [witness, hc]⟩
  | tuple fields =>
    cases hset
    obtain ⟨rfl, rfl⟩ : tag = 0 ∧ fields = tys := by
      cases tag with
      | zero => exact ⟨rfl, by simpa [fieldTypes] using htys⟩
      | succ tag => simp [fieldTypes] at htys
    exact .inr ⟨rfl, rfl, fun _ => rfl⟩
  | _ => cases hset

theorem CtorSet.contains_field {types : TypeTable} {ty : Ty} {set : CtorSet} {tag : Nat}
    {tys : List Ty} (hset : CtorSet.of? types ty = some set)
    (htys : set.fieldTypes[tag]? = some tys) {field part : Ty} (hmem : field ∈ tys)
    (hpart : Ty.Contains types field part) : Ty.Contains types ty part := by
  rcases CtorSet.witness_cases hset htys with ⟨name, data, c, rfl, hdata, hc, rfl, -⟩ | ⟨rfl, -, -⟩
  · have hfields : types.ctorFields? name tag = some c.fields := by
      simp [TypeTable.ctorFields?, hdata, hc]
    exact .variant hfields hmem hpart
  · exact .field hmem hpart

section

variable {m : Module} {ty : Ty} {set : CtorSet} {tag : Nat} {tys : List Ty} {ws : List Witness}

/-- A value of the type whose shape starts with a constructor is built by that constructor. -/
theorem CtorSet.builtBy_of_describes (hdistinct : m.CtorsDistinct)
    (hset : CtorSet.of? m.types ty = some set) (htys : set.fieldTypes[tag]? = some tys) {v : Value}
    (hv : v.conformsTo m.types ty = true) (hw : (set.witness tag ws).describes m v = true) :
    ∃ fields, BuiltBy v tag fields ∧ Value.allConform m.types fields tys = true ∧
      Witness.describesAll m ws fields = true := by
  rcases CtorSet.witness_cases hset htys with
    ⟨name, data, c, rfl, hdata, hc, rfl, hwitness⟩ | ⟨rfl, rfl, hwitness⟩
  · rw [hwitness] at hw
    cases v with
    | adt t fields =>
      simp only [Witness.describes, hdistinct.ctor?_eq (List.mem_of_find?_eq_some hdata) hc,
        Option.map_some, Bool.and_eq_true, beq_iff_eq, Option.some.injEq] at hw
      obtain ⟨rfl, hw⟩ := hw
      simp only [Value.conformsTo, TypeTable.ctorFields?, hdata, Option.bind_eq_bind,
        Option.bind_some, hc, Option.pure_def] at hv
      exact ⟨fields, .variant, hv, hw⟩
    | _ => simp [Value.conformsTo] at hv
  · rw [hwitness] at hw
    cases v with
    | tuple fields => exact ⟨fields, .tuple, hv, hw⟩
    | _ => simp [Value.conformsTo] at hv

/-- Fields of the given shapes make up a value of the type whose shape starts with the constructor. -/
theorem CtorSet.exists_described (hdistinct : m.CtorsDistinct)
    (hset : CtorSet.of? m.types ty = some set) (htys : set.fieldTypes[tag]? = some tys)
    {fields : List Value} (hfields : Value.allConform m.types fields tys = true)
    (hws : Witness.describesAll m ws fields = true) :
    ∃ v, v.conformsTo m.types ty = true ∧ (set.witness tag ws).describes m v = true := by
  rcases CtorSet.witness_cases hset htys with
    ⟨name, data, c, rfl, hdata, hc, rfl, hwitness⟩ | ⟨rfl, rfl, hwitness⟩
  · refine ⟨.adt tag fields, ?_, ?_⟩
    · simpa [Value.conformsTo, TypeTable.ctorFields?, hdata, hc] using hfields
    · rw [hwitness]
      simpa [Witness.describes, hdistinct.ctor?_eq (List.mem_of_find?_eq_some hdata) hc] using hws
  · refine ⟨.tuple fields, hfields, ?_⟩
    rw [hwitness]
    exact hws

end

/-! ## Rows and constructors -/

theorem Skeleton.length_eq_of_acceptsAll {row : List Skeleton} {vs : List Value}
    (h : Skeleton.acceptsAll row vs = true) : row.length = vs.length := by
  induction row generalizing vs with
  | nil =>
    cases vs with
    | nil => rfl
    | cons => cases h
  | cons s row ih =>
    cases vs with
    | nil => cases h
    | cons v vs =>
      simp only [Skeleton.acceptsAll, Bool.and_eq_true] at h
      simp [ih h.2]

section

variable {types : TypeTable} {ty : Ty} {v : Value} {tag : Nat} {fields vs : List Value}

/-- A constructor skeleton only accepts what its own constructor has built. -/
theorem Skeleton.Typed.of_accepts {t : Nat} {ss : List Skeleton}
    (h : Skeleton.Typed types (.ctor t ss) ty) (hv : v.conformsTo types ty = true)
    (hbuilt : BuiltBy v tag fields) (hacc : (Skeleton.ctor t ss).accepts v = true) :
    t = tag ∧ Skeleton.acceptsAll ss fields = true := by
  cases hbuilt with
  | variant => simpa [Skeleton.accepts] using hacc
  | tuple =>
    cases h with
    | variant => simp [Value.conformsTo] at hv
    | tuple => exact ⟨rfl, hacc⟩

/-- A row that accepts what a constructor has built leaves a row that accepts the fields. -/
theorem Row.exists_specialize? {row : Row} {rest : List Ty}
    (h : Row.Typed types row (ty :: rest)) (hv : v.conformsTo types ty = true)
    (hbuilt : BuiltBy v tag fields) (hacc : Skeleton.acceptsAll row (v :: vs) = true) :
    ∃ row', Row.specialize? tag fields.length row = some row' ∧
      Skeleton.acceptsAll row' (fields ++ vs) = true := by
  cases h with
  | @cons s _ row _ hs h =>
    simp only [Skeleton.acceptsAll, Bool.and_eq_true] at hacc
    cases s with
    | any =>
      refine ⟨_, rfl, ?_⟩
      rw [Skeleton.acceptsAll_append (by simp), Bool.and_eq_true]
      exact ⟨Skeleton.acceptsAll_of_all_any (by simp [Skeleton.isAny]) (by simp), hacc.2⟩
    | ctor t ss =>
      obtain ⟨rfl, hss⟩ := hs.of_accepts hv hbuilt hacc.1
      refine ⟨ss ++ row, by simp [Row.specialize?], ?_⟩
      rw [Skeleton.acceptsAll_append (Skeleton.length_eq_of_acceptsAll hss), Bool.and_eq_true]
      exact ⟨hss, hacc.2⟩

end

/-! ## The derivation that a search leaves behind -/

/-- The search has good reason to call rows of the shapes missing from the matrix. -/
inductive Misses (types : TypeTable) : List Row → List Ty → List Witness → Prop
  | empty {tys : List Ty} : Misses types [] tys (anyWitnesses tys.length)
  | split {rows : List Row} {ty : Ty} {rest tys : List Ty} {set : CtorSet} {tag : Nat}
    {ws ws' : List Witness} :
    CtorSet.of? types ty = some set → set.fieldTypes[tag]? = some tys → ws.length = tys.length →
      Misses types (rows.filterMap (Row.specialize? tag tys.length)) (tys ++ rest) (ws ++ ws') →
        Misses types rows (ty :: rest) (set.witness tag ws :: ws')
  | skip {rows : List Row} {ty : Ty} {rest : List Ty} {ws : List Witness} :
    CtorSet.of? types ty = none → Misses types (rows.filterMap Row.default?) rest ws →
      Misses types rows (ty :: rest) (.any :: ws)
  | uncovered {rows : List Row} {ty : Ty} {rest tys : List Ty} {set : CtorSet} {tag : Nat}
    {ws : List Witness} :
    CtorSet.of? types ty = some set → set.fieldTypes[tag]? = some tys → tag ∉ headTags rows →
      Misses types (rows.filterMap Row.default?) rest ws →
        Misses types rows (ty :: rest) (set.witness tag (anyWitnesses tys.length) :: ws)

section

variable {types : TypeTable}

/-- A column that is not split has a constructor that no row asks for, or none at all. -/
theorem uncoveredHead_cases {ty : Ty} {heads : List Nat}
    (h : ∀ set, CtorSet.of? types ty = some set → set.coveredBy heads = false) :
    (CtorSet.of? types ty = none ∧ uncoveredHead (CtorSet.of? types ty) heads = .any) ∨
      ∃ set tag tys, CtorSet.of? types ty = some set ∧ set.fieldTypes[tag]? = some tys ∧
        tag ∉ heads ∧ uncoveredHead (CtorSet.of? types ty) heads =
          set.witness tag (anyWitnesses tys.length) := by
  cases hset : CtorSet.of? types ty with
  | none => exact .inl ⟨rfl, rfl⟩
  | some set =>
    have hcovered := h set hset
    simp only [uncoveredHead]
    cases hfind : (List.range set.fieldTypes.length).find? fun tag => !heads.contains tag with
    | none =>
      rw [List.find?_eq_none] at hfind
      simp only [CtorSet.coveredBy, List.all_eq_false] at hcovered
      obtain ⟨tag, htag, hnot⟩ := hcovered
      exact absurd (by simpa using hnot) (hfind tag htag)
    | some tag =>
      have htag := List.mem_range.mp (List.mem_of_find?_eq_some hfind)
      have hnot : tag ∉ heads := by simpa using List.find?_some hfind
      have htys := List.getElem?_eq_getElem htag
      exact .inr ⟨set, tag, _, rfl, htys, hnot, by simp [htys]⟩

theorem missingFrom_misses {split : List Row → List Ty → Option (List Witness)}
    (hsplit : ∀ {rows tys ws}, split rows tys = some ws → Misses types rows tys ws)
    (hlen : ∀ {rows tys ws}, split rows tys = some ws → ws.length = tys.length)
    {tys : List Ty} {rows : List Row} {ws : List Witness}
    (h : missingFrom types split tys rows = some ws) : Misses types rows tys ws := by
  induction tys generalizing rows ws with
  | nil =>
    obtain ⟨rfl, rfl⟩ := missingFrom_nil_eq_some h
    exact .empty
  | cons ty rest ih =>
    rcases missingFrom_cons_eq_some h with ⟨rfl, rfl⟩ | ⟨set, hset, h⟩ | ⟨hskip, ws, hws, rfl⟩
    · exact .empty
    · obtain ⟨tag, tys, ws, htys, hws, rfl⟩ := missingVariant_eq_some h
      rw [Nat.zero_add] at hws ⊢
      have hws' := hlen hws
      refine .split hset.ctors htys ?_ ?_
      · simp [hws']
      · rw [List.take_append_drop]
        exact hsplit hws
    · rcases uncoveredHead_cases hskip.uncovered with
        ⟨hset, hhead⟩ | ⟨set, tag, tys, hset, htys, hnot, hhead⟩
      · rw [hhead]
        exact .skip hset (ih hws)
      · rw [hhead]
        exact .uncovered hset htys hnot (ih hws)

theorem missingWithin_misses {n : Nat} {rows : List Row} {tys : List Ty} {ws : List Witness}
    (h : missingWithin types n rows tys = some ws) : Misses types rows tys ws := by
  induction n generalizing rows tys ws with
  | zero => exact missingFrom_misses (fun h => by cases h) (fun h => by cases h) h
  | succ n ih => exact missingFrom_misses ih missingWithin_length h

theorem missingPattern?_misses {patterns : List Lowered.Pattern} {ty : Ty} {w : Witness}
    (h : missingPattern? types patterns ty = some w) :
    Misses types (patterns.map fun p => [Skeleton.ofPattern p]) [ty] [w] := by
  obtain ⟨ws, hws, hw⟩ := Option.bind_eq_some_iff.mp h
  have hlen := missingWithin_length hws
  match ws, hlen with
  | [_], _ =>
    cases hw
    exact missingWithin_misses hws

end

/-! ## No row accepts what is missing -/

theorem Row.Typed.of_default? {types : TypeTable} {row row' : Row} {ty : Ty} {rest : List Ty}
    (h : Row.Typed types row (ty :: rest)) (hrow : row.default? = some row') :
    Row.Typed types row' rest := by
  match row, hrow, h with
  | .any :: _, rfl, .cons _ hrest => exact hrest

/-- If the rows that ask for nothing in the first column accept none of the values, and no row asks for
the constructor of the first value, then no row accepts them. -/
theorem not_accepted_of_default? {rows : List Row} {v : Value} {vs : List Value}
    (hhead : ∀ t ss row, Skeleton.ctor t ss :: row ∈ rows → (Skeleton.ctor t ss).accepts v = false)
    (hrest : ¬ Accepted (rows.filterMap Row.default?) vs) : ¬ Accepted rows (v :: vs) := by
  rintro ⟨row, hrow, hacc⟩
  cases row with
  | nil => cases hacc
  | cons s row =>
    simp only [Skeleton.acceptsAll, Bool.and_eq_true] at hacc
    cases s with
    | any => exact hrest ⟨row, List.mem_filterMap.mpr ⟨_, hrow, rfl⟩, hacc.2⟩
    | ctor t ss =>
      rw [hhead t ss row hrow] at hacc
      cases hacc.1

/-- **What is missing is not accepted.** The induction is over the search. -/
theorem Misses.not_accepted {m : Module} (hdistinct : m.CtorsDistinct) {rows : List Row}
    {tys : List Ty} {ws : List Witness} (h : Misses m.types rows tys ws) {vs : List Value}
    (htyped : ∀ row ∈ rows, Row.Typed m.types row tys)
    (hvs : Value.allConform m.types vs tys = true)
    (hws : Witness.describesAll m ws vs = true) : ¬ Accepted rows vs := by
  induction h generalizing vs with
  | empty =>
    rintro ⟨row, hrow, -⟩
    cases hrow
  | split hset htys hlen _ ih =>
    obtain ⟨v, vs, rfl, hv, hvs⟩ := Value.allConform_cons hvs
    simp only [Witness.describesAll, Bool.and_eq_true] at hws
    obtain ⟨fields, hbuilt, hfields, hshape⟩ :=
      CtorSet.builtBy_of_describes hdistinct hset htys hv hws.1
    have hrest := ih
      (fun row' hrow' => by
        obtain ⟨row, hrow, hs⟩ := List.mem_filterMap.mp hrow'
        exact Row.specialize?_typed hset htys (htyped row hrow) hs)
      (Value.allConform_append hfields hvs) (Witness.describesAll_append hshape hws.2)
    rintro ⟨row, hrow, hacc⟩
    obtain ⟨row', hs, hacc'⟩ := Row.exists_specialize? (htyped row hrow) hv hbuilt hacc
    rw [Value.allConform_length hfields] at hs
    exact hrest ⟨row', List.mem_filterMap.mpr ⟨row, hrow, hs⟩, hacc'⟩
  | skip hset _ ih =>
    obtain ⟨v, vs, rfl, -, hvs⟩ := Value.allConform_cons hvs
    simp only [Witness.describesAll, Bool.and_eq_true] at hws
    apply not_accepted_of_default?
    · -- a column without constructors has no skeleton that asks for one
      intro t ss row hrow
      cases htyped _ hrow with
      | cons hs _ =>
        cases hs with
        | variant hfields =>
          simp only [TypeTable.ctorFields?, Option.bind_eq_bind, Option.bind_eq_some_iff] at hfields
          obtain ⟨data, hdata, -⟩ := hfields
          simp [CtorSet.of?, hdata] at hset
        | tuple => cases hset
    · refine ih (fun row' hrow' => ?_) hvs hws.2
      obtain ⟨row, hrow, hd⟩ := List.mem_filterMap.mp hrow'
      exact (htyped row hrow).of_default? hd
  | uncovered hset htys hnot _ ih =>
    obtain ⟨v, vs, rfl, hv, hvs⟩ := Value.allConform_cons hvs
    simp only [Witness.describesAll, Bool.and_eq_true] at hws
    obtain ⟨fields, hbuilt, -, -⟩ := CtorSet.builtBy_of_describes hdistinct hset htys hv hws.1
    apply not_accepted_of_default?
    · intro t ss row hrow
      apply Bool.eq_false_iff.mpr
      intro hacc
      cases htyped _ hrow with
      | cons hs _ =>
        obtain ⟨rfl, -⟩ := hs.of_accepts hv hbuilt hacc
        exact hnot (List.mem_filterMap.mpr ⟨_, hrow, rfl⟩)
    · refine ih (fun row' hrow' => ?_) hvs hws.2
      obtain ⟨row, hrow, hd⟩ := List.mem_filterMap.mp hrow'
      exact (htyped row hrow).of_default? hd

mutual

/-- A pattern that takes a value has a skeleton that accepts it. -/
theorem Skeleton.accepts_of_matchPattern? : ∀ {p : Lowered.Pattern} {v : Value},
    (matchPattern? p v).isSome = true → (Skeleton.ofPattern p).accepts v = true
  | .wildcard, _, _ => rfl
  | .bind _, _, _ => rfl
  | .ctor tag _ ps, .adt t vs, h => by
    rw [matchPattern?] at h
    split at h
    · next heq =>
      simp [ofPattern, accepts, heq, Skeleton.acceptsAll_of_matchPatterns? h]
    · cases h
  | .tuple ps, .tuple vs, h => by
    rw [matchPattern?] at h
    exact Skeleton.acceptsAll_of_matchPatterns? h

theorem Skeleton.acceptsAll_of_matchPatterns? : ∀ {ps : List Lowered.Pattern} {vs : List Value},
    (matchPatterns? ps vs).isSome = true → Skeleton.acceptsAll (Skeleton.ofPatterns ps) vs = true
  | [], [], _ => rfl
  | p :: ps, v :: vs, h => by
    simp only [matchPatterns?, Option.bind_eq_bind, Option.isSome_iff_exists,
      Option.bind_eq_some_iff] at h
    obtain ⟨_, xs, hxs, ys, hys, -⟩ := h
    simp [ofPatterns, acceptsAll, Skeleton.accepts_of_matchPattern? (Option.isSome_of_eq_some hxs),
      Skeleton.acceptsAll_of_matchPatterns? (Option.isSome_of_eq_some hys)]

end

/-! ## Something has the missing shape -/

/-- Every data type that is a part of the type is defined and has a value. -/
def Inhabits (types : TypeTable) (ty : Ty) : Prop :=
  ∀ name, Ty.Contains types ty (.adt name) →
    (types.get? name).isSome = true ∧ ∃ v : Value, v.conformsTo types (.adt name) = true

theorem exists_tensor (dtype : DType) (shape : Shape) :
    ∃ t : Tensor, t.dtype = dtype ∧ t.shape = shape := by
  cases dtype with
  | float32 => exact ⟨⟨shape, .float32 (.replicate shape.numel 0), by simp [Buffer.size]⟩, rfl, rfl⟩
  | float64 => exact ⟨⟨shape, .float64 (.replicate shape.numel 0), by simp [Buffer.size]⟩, rfl, rfl⟩
  | int32 => exact ⟨⟨shape, .int32 (.replicate shape.numel 0), by simp [Buffer.size]⟩, rfl, rfl⟩
  | int64 => exact ⟨⟨shape, .int64 (.replicate shape.numel 0), by simp [Buffer.size]⟩, rfl, rfl⟩
  | bool => exact ⟨⟨shape, .bool (.replicate shape.numel false), by simp [Buffer.size]⟩, rfl, rfl⟩

section

variable {types : TypeTable}

mutual

theorem Inhabits.exists_value : ∀ {ty : Ty}, Inhabits types ty → ty.isResolved = true →
    ∃ v : Value, v.conformsTo types ty = true
  | .tensor dtype shape, _, _ => by
    obtain ⟨t, hd, hs⟩ := exists_tensor dtype shape
    exact ⟨.tensor t, by simp [Value.conformsTo, hd, hs]⟩
  | .tuple tys, h, hres => by
    obtain ⟨vs, hvs⟩ := Inhabits.exists_values (fun ty hty name hc => h name (.field hty hc)) hres
    exact ⟨.tuple vs, hvs⟩
  | .func params ret, _, _ => ⟨.global ⟨0⟩, rfl⟩
  | .adt name, h, _ => (h name .refl).2

theorem Inhabits.exists_values : ∀ {tys : List Ty}, (∀ ty ∈ tys, Inhabits types ty) →
    Ty.allResolved tys = true → ∃ vs : List Value, Value.allConform types vs tys = true
  | [], _, _ => ⟨[], rfl⟩
  | ty :: tys, h, hres => by
    simp only [Ty.allResolved, Bool.and_eq_true] at hres
    obtain ⟨v, hv⟩ := Inhabits.exists_value (h ty List.mem_cons_self) hres.1
    obtain ⟨vs, hvs⟩ := Inhabits.exists_values (fun t ht => h t (List.mem_cons_of_mem _ ht)) hres.2
    exact ⟨v :: vs, by simp [Value.allConform, hv, hvs]⟩

end

end

theorem CtorSet.fields_resolved {m : Module} (hres : m.FieldsResolved) {ty : Ty} {set : CtorSet}
    {tag : Nat} {tys : List Ty} (hty : ty.isResolved = true)
    (hset : CtorSet.of? m.types ty = some set) (htys : set.fieldTypes[tag]? = some tys) :
    Ty.allResolved tys = true := by
  rcases CtorSet.witness_cases hset htys with ⟨name, data, c, rfl, hdata, hc, rfl, -⟩ | ⟨rfl, -, -⟩
  · exact hres data (List.mem_of_find?_eq_some hdata) c (List.mem_of_getElem? hc)
  · exact hty

/-- **Something is missing.** Values that have the shapes can be built along the search. -/
theorem Misses.exists_values {m : Module} (hres : m.FieldsResolved) (hdistinct : m.CtorsDistinct)
    {rows : List Row} {tys : List Ty} {ws : List Witness} (h : Misses m.types rows tys ws)
    (htys : Ty.allResolved tys = true) (hinh : ∀ ty ∈ tys, Inhabits m.types ty) :
    ∃ vs, Value.allConform m.types vs tys = true ∧ Witness.describesAll m ws vs = true := by
  induction h with
  | empty =>
    obtain ⟨vs, hvs⟩ := Inhabits.exists_values hinh htys
    refine ⟨vs, hvs, ?_⟩
    rw [← Value.allConform_length hvs]
    exact Witness.describesAll_anyWitnesses vs
  | @split rows ty rest fieldTys set tag ws ws' hset hfields hlen _ ih =>
    simp only [Ty.allResolved, Bool.and_eq_true] at htys
    have hpart := fun field (hmem : field ∈ fieldTys) name hc =>
      hinh ty List.mem_cons_self name (CtorSet.contains_field hset hfields hmem hc)
    obtain ⟨vs, hvs, hws⟩ := ih
      (by rw [Ty.allResolved_append, CtorSet.fields_resolved hres htys.1 hset hfields, htys.2]; rfl)
      (fun t ht => (List.mem_append.mp ht).elim (hpart t) fun ht =>
        hinh t (List.mem_cons_of_mem _ ht))
    obtain ⟨us, us', rfl, hus, hus'⟩ := Value.exists_append_of_allConform hvs
    obtain ⟨vs₁, vs₂, heq, hlen', hws₁, hws₂⟩ := Witness.exists_append_of_describesAll hws
    obtain ⟨rfl, rfl⟩ := List.append_inj heq
      ((Value.allConform_length hus).trans (hlen.symm.trans hlen'.symm))
    obtain ⟨v, hv, hw⟩ := CtorSet.exists_described hdistinct hset hfields hus hws₁
    exact ⟨v :: us', by simp [Value.allConform, hv, hus'],
      by simp [Witness.describesAll, hw, hws₂]⟩
  | @skip rows ty rest ws hset _ ih =>
    simp only [Ty.allResolved, Bool.and_eq_true] at htys
    obtain ⟨v, hv⟩ := (hinh ty List.mem_cons_self).exists_value htys.1
    obtain ⟨vs, hvs, hws⟩ := ih htys.2 fun t ht => hinh t (List.mem_cons_of_mem _ ht)
    exact ⟨v :: vs, by simp [Value.allConform, hv, hvs],
      by simp [Witness.describesAll, Witness.describes, hws]⟩
  | @uncovered rows ty rest fieldTys set tag ws hset hfields _ _ ih =>
    simp only [Ty.allResolved, Bool.and_eq_true] at htys
    obtain ⟨us, hus⟩ := Inhabits.exists_values
      (fun field hmem name hc =>
        hinh ty List.mem_cons_self name (CtorSet.contains_field hset hfields hmem hc))
      (CtorSet.fields_resolved hres htys.1 hset hfields)
    have hany := Witness.describesAll_anyWitnesses (m := m) us
    rw [Value.allConform_length hus] at hany
    obtain ⟨v, hv, hw⟩ := CtorSet.exists_described hdistinct hset hfields hus hany
    obtain ⟨vs, hvs, hws⟩ := ih htys.2 fun t ht => hinh t (List.mem_cons_of_mem _ ht)
    exact ⟨v :: vs, by simp [Value.allConform, hv, hvs], by simp [Witness.describesAll, hw, hws]⟩

/-! ## The shape that is reported -/

/-- **A refused match has a gap.** If the coverage check reports a shape for patterns that lowering has
accepted against a resolved type, then no pattern takes a value of the type that has the shape. If the
data types in question have values at all, there is such a value. -/
theorem missingPattern?_justified {m : Module} (hm : m.Built) (hres : m.FieldsResolved)
    (hdistinct : m.CtorsDistinct) {ty : Ty} (hty : ty.isResolved = true)
    {patterns : List Lowered.Pattern} (hacc : ∀ q ∈ patterns, AcceptedAgainst m ty q) {w : Witness}
    (hmissing : missingPattern? m.types patterns ty = some w) :
    (∀ v : Value, v.conformsTo m.types ty = true → w.describes m v = true →
      ∀ q ∈ patterns, matchPattern? q v = none) ∧
    (Inhabits m.types ty →
      ∃ v : Value, v.conformsTo m.types ty = true ∧ w.describes m v = true) := by
  have hmisses := missingPattern?_misses hmissing
  constructor
  · intro v hv hw q hq
    have hnot : ¬ Accepted (patterns.map fun p => [Skeleton.ofPattern p]) [v] := by
      apply hmisses.not_accepted hdistinct
      · intro row hrow
        obtain ⟨q, hq, rfl⟩ := List.mem_map.mp hrow
        obtain ⟨Γ, hΓ⟩ := (hacc q hq).typed hm hres hty
        exact .cons (Skeleton.ofPattern_typed hΓ) .nil
      · simp [Value.allConform, hv]
      · simp [Witness.describesAll, hw]
    apply Option.not_isSome_iff_eq_none.mp
    intro hsome
    exact hnot ⟨_, List.mem_map.mpr ⟨q, hq, rfl⟩,
      by simp [Skeleton.acceptsAll, Skeleton.accepts_of_matchPattern? hsome]⟩
  · intro hinh
    obtain ⟨vs, hvs, hws⟩ := hmisses.exists_values hres hdistinct
      (by simp [Ty.allResolved, hty]) (by simpa using hinh)
    obtain ⟨v, vs, rfl, hv, hvs⟩ := Value.allConform_cons hvs
    simp only [Witness.describesAll, Bool.and_eq_true] at hws
    exact ⟨v, hv, hws.1⟩

/-- Without their last pattern, the patterns for lists of truth values miss the lists of two elements
and more, and there is such a list. -/
theorem listPatterns_gap :
    missingPattern? [boolList] (listPatternsLowered.take 2) (.adt "List") =
        some (.ctor "Cons" [.any, .ctor "Cons" [.any, .any]]) ∧
      (∀ q ∈ listPatternsLowered.take 2, matchPattern? q
        (.adt 1 [.tensor (.scalarBool true),
          .adt 1 [.tensor (.scalarBool false), .adt 0 []]]) = none) ∧
      ∃ v : Value, v.conformsTo [boolList] (.adt "List") = true ∧
        (Witness.ctor "Cons" [.any, .ctor "Cons" [.any, .any]]).describes
          { types := [boolList] } v = true := by
  have hmissing : missingPattern? [boolList] (listPatternsLowered.take 2) (.adt "List") =
      some (.ctor "Cons" [.any, .ctor "Cons" [.any, .any]]) := by rfl
  have hjustified := missingPattern?_justified (m := { types := [boolList] })
    (.addType .empty (rfl : Module.addType {} boolList = .ok _))
    (by decide +kernel) (by decide +kernel) rfl
    (fun q hq => listPatterns_accepted q (List.mem_of_mem_take hq)) hmissing
  refine ⟨hmissing, hjustified.1 _ rfl rfl, hjustified.2 ?_⟩
  -- the only data type that a list of truth values has as a part is that of the lists themselves
  have hpart : ∀ {ty part : Ty}, Ty.Contains [boolList] ty part → ty = .adt "List" ∨
      ty = .scalar .bool → part = .adt "List" ∨ part = .scalar .bool := by
    intro ty part h
    induction h with
    | refl => exact id
    | field => rintro (h | h) <;> cases h
    | @variant name tag tys ty part htys hmem _ ih =>
      rintro (h | h) <;> cases h
      refine ih ?_
      match tag, htys with
      | 0, htys =>
        cases htys
        cases hmem
      | 1, htys =>
        cases htys
        simpa [or_comm] using hmem
  intro name hname
  rcases hpart hname (.inl rfl) with h | h <;> cases h
  exact ⟨rfl, .adt 0 [], rfl⟩

end Matching

end TensorIR
