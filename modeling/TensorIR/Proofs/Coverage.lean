import TensorIR.Proofs.LoweringSteps
import TensorIR.Proofs.Modules
import TensorIR.Proofs.PatternTyping
import TensorIR.Run.Evaluator

/-! Soundness of the coverage check: if the search finds no missing row of shapes, then every row of
values of the given types is accepted by some row of the matrix.

The argument is about matrices of skeletons with one column for each type. It follows the search:
the recursion on the number of splits, and inside it the one on the columns. A split is sound because
a value of a type with constructors has exactly one of them, and the search has as many splits at its
disposal as there are constructors in the matrix, each split using up at least one. -/

namespace TensorIR.Matching

open Source Lowered

/-! ## Skeletons against values -/

mutual

/-- The skeleton accepts the value. -/
def Skeleton.accepts : Skeleton → Value → Bool
  | .any, _ => true
  | .ctor tag fields, .adt t vs => tag == t && Skeleton.acceptsAll fields vs
  | .ctor _ fields, .tuple vs => Skeleton.acceptsAll fields vs
  | .ctor .., _ => false

/-- As many skeletons as values, each of which accepts its value. -/
def Skeleton.acceptsAll : List Skeleton → List Value → Bool
  | [], [] => true
  | s :: ss, v :: vs => s.accepts v && Skeleton.acceptsAll ss vs
  | _, _ => false

end

mutual

/-- The skeleton suits values of the type. -/
inductive Skeleton.Typed (types : TypeTable) : Skeleton → Ty → Prop
  | any {ty : Ty} : Skeleton.Typed types .any ty
  | variant {adt : String} {tag : Nat} {tys : List Ty} {fields : List Skeleton} :
    types.ctorFields? adt tag = some tys → Row.Typed types fields tys →
      Skeleton.Typed types (.ctor tag fields) (.adt adt)
  | tuple {tys : List Ty} {fields : List Skeleton} :
    Row.Typed types fields tys → Skeleton.Typed types (.ctor 0 fields) (.tuple tys)

/-- The row has one column for each type, and each skeleton suits its type. -/
inductive Row.Typed (types : TypeTable) : List Skeleton → List Ty → Prop
  | nil : Row.Typed types [] []
  | cons {s : Skeleton} {ty : Ty} {row : List Skeleton} {tys : List Ty} :
    Skeleton.Typed types s ty → Row.Typed types row tys → Row.Typed types (s :: row) (ty :: tys)

end

variable {types : TypeTable}

namespace Row.Typed

theorem length_eq {row : List Skeleton} {tys : List Ty} (h : Row.Typed types row tys) :
    row.length = tys.length := by
  induction row generalizing tys with
  | nil =>
    cases h
    rfl
  | cons s row ih =>
    cases h with
    | cons _ h => simp [ih h]

theorem append {row row' : List Skeleton} {tys tys' : List Ty} (h : Row.Typed types row tys)
    (h' : Row.Typed types row' tys') : Row.Typed types (row ++ row') (tys ++ tys') := by
  induction row generalizing tys with
  | nil =>
    cases h
    exact h'
  | cons s row ih =>
    cases h with
    | cons hs h => exact .cons hs (ih h)

theorem replicate_any (tys : List Ty) :
    Row.Typed types (List.replicate tys.length .any) tys := by
  induction tys with
  | nil => exact .nil
  | cons ty tys ih => exact .cons .any ih

end Row.Typed

namespace Skeleton

theorem acceptsAll_of_all_any {row : List Skeleton} {vs : List Value}
    (hany : row.all isAny = true) (hlen : row.length = vs.length) :
    acceptsAll row vs = true := by
  induction row generalizing vs with
  | nil =>
    cases vs with
    | nil => rfl
    | cons => simp at hlen
  | cons s row ih =>
    cases vs with
    | nil => simp at hlen
    | cons v vs =>
      simp only [List.all_cons, Bool.and_eq_true] at hany
      cases s with
      | any => simpa [acceptsAll, accepts] using ih hany.2 (by simpa using hlen)
      | ctor => simp [isAny] at hany

theorem acceptsAll_append {row row' : List Skeleton} {us vs : List Value}
    (hlen : row.length = us.length) :
    acceptsAll (row ++ row') (us ++ vs) = (acceptsAll row us && acceptsAll row' vs) := by
  induction row generalizing us with
  | nil =>
    cases us with
    | nil => rfl
    | cons => simp at hlen
  | cons s row ih =>
    cases us with
    | nil => simp at hlen
    | cons u us =>
      simp only [List.cons_append, acceptsAll, ih (by simpa using hlen), Bool.and_assoc]

end Skeleton

mutual

theorem Skeleton.ofPattern_typed : ∀ {p : Lowered.Pattern} {ty : Ty} {Γ : Context},
    p.Typed types ty Γ → Skeleton.Typed types (Skeleton.ofPattern p) ty
  | .wildcard, _, _, _ => .any
  | .bind _, _, _, _ => .any
  | .ctor .., _, _, .ctor hfields h => .variant hfields (Skeleton.ofPatterns_typed h)
  | .tuple _, _, _, .tuple h => .tuple (Skeleton.ofPatterns_typed h)

theorem Skeleton.ofPatterns_typed : ∀ {ps : List Lowered.Pattern} {tys : List Ty} {Γ : Context},
    Pattern.AllTyped types ps tys Γ → Row.Typed types (Skeleton.ofPatterns ps) tys
  | [], _, _, .nil => .nil
  | _ :: _, _, _, .cons h hs => .cons (Skeleton.ofPattern_typed h) (Skeleton.ofPatterns_typed hs)

end

mutual

/-- A pattern binds its names on every value of its type that its skeleton accepts. -/
theorem Skeleton.isSome_matchPattern? : ∀ {p : Lowered.Pattern} {ty : Ty} {Γ : Context} {v : Value},
    p.Typed types ty Γ → v.conformsTo types ty = true → (Skeleton.ofPattern p).accepts v = true →
      (matchPattern? p v).isSome = true
  | .wildcard, _, _, _, _, _, _ => rfl
  | .bind _, _, _, _, _, _, _ => rfl
  | .ctor tag name ps, .adt adt, Γ, v, .ctor hfields h, hv, hacc => by
    cases v with
    | adt t vs =>
      simp only [ofPattern, accepts, Bool.and_eq_true, beq_iff_eq] at hacc
      obtain ⟨rfl, hacc⟩ := hacc
      simp only [Value.conformsTo, hfields] at hv
      simpa only [matchPattern?, if_pos] using Skeleton.isSome_matchPatterns? h hv hacc
    | _ => simp [Value.conformsTo] at hv
  | .tuple ps, .tuple tys, Γ, v, .tuple h, hv, hacc => by
    cases v with
    | tuple vs => exact Skeleton.isSome_matchPatterns? h hv hacc
    | _ => simp [Value.conformsTo] at hv

theorem Skeleton.isSome_matchPatterns? : ∀ {ps : List Lowered.Pattern} {tys : List Ty} {Γ : Context}
    {vs : List Value}, Pattern.AllTyped types ps tys Γ → Value.allConform types vs tys = true →
      Skeleton.acceptsAll (Skeleton.ofPatterns ps) vs = true → (matchPatterns? ps vs).isSome = true
  | [], _, _, [], .nil, _, _ => rfl
  | [], _, _, _ :: _, .nil, hv, _ => by simp [Value.allConform] at hv
  | p :: ps, _, _, vs, .cons h hs, hv, hacc => by
    obtain ⟨v, vs, rfl, hv, hvs⟩ := Value.allConform_cons hv
    simp only [ofPatterns, acceptsAll, Bool.and_eq_true] at hacc
    obtain ⟨xs, hxs⟩ := Option.isSome_iff_exists.mp (Skeleton.isSome_matchPattern? h hv hacc.1)
    obtain ⟨ys, hys⟩ := Option.isSome_iff_exists.mp (Skeleton.isSome_matchPatterns? hs hvs hacc.2)
    simp [matchPatterns?, hxs, hys]

end

/-! ## Splitting a column -/

/-- The value is built by the constructor with the given tag from the given fields. -/
inductive BuiltBy : Value → Nat → List Value → Prop
  | variant {tag : Nat} {fields : List Value} : BuiltBy (.adt tag fields) tag fields
  | tuple {fields : List Value} : BuiltBy (.tuple fields) 0 fields

/-- A value of a type with constructors is built by one of them. -/
theorem CtorSet.builtBy {ty : Ty} {set : CtorSet} {v : Value} (hset : CtorSet.of? types ty = some set)
    (hv : v.conformsTo types ty = true) :
    ∃ tag fields tys, BuiltBy v tag fields ∧ set.fieldTypes[tag]? = some tys ∧
      Value.allConform types fields tys = true := by
  cases ty with
  | adt name =>
    obtain ⟨data, hdata, rfl⟩ := Option.map_eq_some_iff.mp hset
    cases v with
    | adt tag fields =>
      simp only [Value.conformsTo] at hv
      split at hv
      · rename_i tys htys
        simp only [TypeTable.ctorFields?, hdata, Option.bind_eq_bind, Option.bind_some,
          Option.bind_eq_some_iff, Option.pure_def, Option.some.injEq] at htys
        obtain ⟨c, hc, rfl⟩ := htys
        exact ⟨tag, fields, c.fields, .variant, by simp [fieldTypes, hc], hv⟩
      · cases hv
    | _ => simp [Value.conformsTo] at hv
  | tuple tys =>
    cases hset
    cases v with
    | tuple fields => exact ⟨0, fields, tys, .tuple, rfl, hv⟩
    | _ => simp [Value.conformsTo] at hv
  | _ => cases hset

/-- The parts of a constructor skeleton suit the fields of that constructor. -/
theorem Skeleton.Typed.fields {ty : Ty} {set : CtorSet} {tag : Nat} {ss : List Skeleton}
    {tys : List Ty} (h : Skeleton.Typed types (.ctor tag ss) ty)
    (hset : CtorSet.of? types ty = some set) (htys : set.fieldTypes[tag]? = some tys) :
    Row.Typed types ss tys := by
  cases h with
  | variant hfields h =>
    obtain ⟨data, hdata, rfl⟩ := Option.map_eq_some_iff.mp hset
    simp only [TypeTable.ctorFields?, hdata, Option.bind_eq_bind, Option.bind_some,
      Option.bind_eq_some_iff, Option.pure_def, Option.some.injEq] at hfields
    obtain ⟨c, hc, rfl⟩ := hfields
    simp only [CtorSet.fieldTypes, List.getElem?_map, hc, Option.map_some,
      Option.some.injEq] at htys
    exact htys ▸ h
  | tuple h =>
    cases hset
    cases htys
    exact h

theorem BuiltBy.accepts {v : Value} {tag : Nat} {fields : List Value} {ss : List Skeleton}
    (h : BuiltBy v tag fields) (hacc : Skeleton.acceptsAll ss fields = true) :
    (Skeleton.ctor tag ss).accepts v = true := by
  cases h with
  | variant => simpa [Skeleton.accepts] using hacc
  | tuple => exact hacc

section

variable {ty : Ty} {rest tys : List Ty} {set : CtorSet} {tag : Nat} {row row' : Row}

theorem Row.specialize?_typed (hset : CtorSet.of? types ty = some set)
    (htys : set.fieldTypes[tag]? = some tys) (h : Row.Typed types row (ty :: rest))
    (hrow : Row.specialize? tag tys.length row = some row') :
    Row.Typed types row' (tys ++ rest) := by
  cases h with
  | @cons s _ row _ hs h =>
    cases s with
    | any =>
      cases hrow
      exact (Row.Typed.replicate_any tys).append h
    | ctor t ss =>
      simp only [Row.specialize?, Option.ite_none_right_eq_some, Option.some.injEq] at hrow
      obtain ⟨rfl, rfl⟩ := hrow
      exact (hs.fields hset htys).append h

/-- A row accepts what is built by a constructor if its specialization accepts the fields. -/
theorem Row.acceptsAll_of_specialize? (hset : CtorSet.of? types ty = some set)
    (htys : set.fieldTypes[tag]? = some tys) (h : Row.Typed types row (ty :: rest))
    (hrow : Row.specialize? tag tys.length row = some row') {v : Value} {fields vs : List Value}
    (hv : BuiltBy v tag fields) (hfields : fields.length = tys.length)
    (hacc : Skeleton.acceptsAll row' (fields ++ vs) = true) :
    Skeleton.acceptsAll row (v :: vs) = true := by
  cases h with
  | @cons s _ row _ hs h =>
    cases s with
    | any =>
      cases hrow
      rw [Skeleton.acceptsAll_append (by simp [hfields]), Bool.and_eq_true] at hacc
      simpa [Skeleton.acceptsAll, Skeleton.accepts] using hacc.2
    | ctor t ss =>
      simp only [Row.specialize?, Option.ite_none_right_eq_some, Option.some.injEq] at hrow
      obtain ⟨rfl, rfl⟩ := hrow
      have hss := (hs.fields hset htys).length_eq
      rw [Skeleton.acceptsAll_append (hss.trans hfields.symm), Bool.and_eq_true] at hacc
      simp only [Skeleton.acceptsAll, Bool.and_eq_true]
      exact ⟨hv.accepts hacc.1, hacc.2⟩

end

/-! ## Splits use up constructors -/

theorem Skeleton.ctorCountRow_append (row row' : List Skeleton) :
    ctorCountRow (row ++ row') = ctorCountRow row + ctorCountRow row' := by
  induction row with
  | nil => simp [ctorCountRow]
  | cons s row ih => simp [ctorCountRow, ih, Nat.add_assoc]

theorem Skeleton.ctorCountRow_replicate_any (n : Nat) :
    ctorCountRow (List.replicate n .any) = 0 := by
  induction n with
  | zero => rfl
  | succ n ih => simp [List.replicate_succ, ctorCountRow, ctorCount, ih]

theorem Row.ctorCount_specialize? {tag arity : Nat} {row row' : Row}
    (h : Row.specialize? tag arity row = some row') :
    row'.ctorCount + (if row.headTag?.isSome then 1 else 0) ≤ row.ctorCount := by
  match row, h with
  | .any :: rest, h =>
    cases h
    simp [ctorCount, headTag?, Skeleton.ctorCountRow_append, Skeleton.ctorCountRow_replicate_any,
      Skeleton.ctorCountRow]
  | .ctor t ss :: rest, h =>
    simp only [specialize?, Option.ite_none_right_eq_some, Option.some.injEq] at h
    obtain ⟨rfl, rfl⟩ := h
    simp only [ctorCount, headTag?, Skeleton.ctorCountRow_append, Skeleton.ctorCountRow,
      Skeleton.ctorCount, Option.isSome_some, if_true]
    omega

theorem Row.one_le_ctorCount {row : Row} (h : row.headTag?.isSome = true) : 1 ≤ row.ctorCount := by
  match row, h with
  | .ctor t ss :: rest, _ =>
    simp only [ctorCount, Skeleton.ctorCountRow, Skeleton.ctorCount]
    omega

theorem totalCtorCount_specialize? (tag arity : Nat) (rows : List Row) :
    totalCtorCount (rows.filterMap (Row.specialize? tag arity)) + (headTags rows).length ≤
      totalCtorCount rows := by
  induction rows with
  | nil => simp [headTags, totalCtorCount]
  | cons row rows ih =>
    have hhead : (headTags (row :: rows)).length =
        (if row.headTag?.isSome then 1 else 0) + (headTags rows).length := by
      cases htag : row.headTag? <;> simp [headTags, htag, Nat.add_comm]
    rw [hhead, totalCtorCount]
    cases hrow : Row.specialize? tag arity row with
    | some row' =>
      have := Row.ctorCount_specialize? hrow
      rw [List.filterMap_cons_some hrow, totalCtorCount]
      omega
    | none =>
      rw [List.filterMap_cons_none hrow]
      split
      · have := Row.one_le_ctorCount ‹_›
        omega
      · omega

theorem totalCtorCount_default? (rows : List Row) :
    totalCtorCount (rows.filterMap Row.default?) ≤ totalCtorCount rows := by
  induction rows with
  | nil => simp
  | cons row rows ih =>
    match row with
    | [] =>
      rw [List.filterMap_cons_none rfl, totalCtorCount]
      omega
    | .any :: rest =>
      simp only [List.filterMap_cons, Row.default?, totalCtorCount]
      simp only [Row.ctorCount, Skeleton.ctorCountRow, Skeleton.ctorCount] at ih ⊢
      omega
    | .ctor t ss :: rest =>
      rw [List.filterMap_cons_none rfl, totalCtorCount]
      omega

/-! ## The steps of the search -/

/-- There are rows, and none of them accepts everything. -/
structure Undecided (rows : List Row) : Prop where
  ne_nil : rows ≠ []
  noneAny : ∀ row ∈ rows, row.all Skeleton.isAny = false

/-- The first column is split by the constructors of its type. -/
structure Splits (types : TypeTable) (rows : List Row) (ty : Ty) (set : CtorSet) : Prop
    extends Undecided rows where
  ctors : CtorSet.of? types ty = some set
  covered : set.coveredBy (headTags rows) = true

/-- The first column is skipped. -/
structure Skips (types : TypeTable) (rows : List Row) (ty : Ty) : Prop extends Undecided rows where
  uncovered : ∀ set, CtorSet.of? types ty = some set → set.coveredBy (headTags rows) = false

section

variable {ty : Ty} {rest tys : List Ty} {set : CtorSet} {rows : List Row}
  {split : List Row → List Ty → Option (List Witness)}

theorem undecided_cases (rows : List Row) :
    rows = [] ∨ (∃ row ∈ rows, row.all Skeleton.isAny = true) ∨ Undecided rows := by
  by_cases hne : rows = []
  · exact .inl hne
  · by_cases hany : ∃ row ∈ rows, row.all Skeleton.isAny = true
    · exact .inr (.inl hany)
    · refine .inr (.inr ⟨hne, fun row hrow => ?_⟩)
      exact Bool.eq_false_iff.mpr fun h => hany ⟨row, hrow, h⟩

theorem Undecided.splits_or_skips (h : Undecided rows) (types : TypeTable) (ty : Ty) :
    (∃ set, Splits types rows ty set) ∨ Skips types rows ty := by
  by_cases hsplit : ∃ set, CtorSet.of? types ty = some set ∧ set.coveredBy (headTags rows) = true
  · obtain ⟨set, hset, hcovered⟩ := hsplit
    exact .inl ⟨set, h, hset, hcovered⟩
  · refine .inr ⟨h, fun set hset => ?_⟩
    exact Bool.eq_false_iff.mpr fun hcovered => hsplit ⟨set, hset, hcovered⟩

/-- Every split uses up constructors, whatever the rows are like. -/
theorem Splits.totalCtorCount_lt (h : Splits types rows ty set) {tag : Nat}
    (htys : set.fieldTypes[tag]? = some tys) (arity : Nat) :
    totalCtorCount (rows.filterMap (Row.specialize? tag arity)) < totalCtorCount rows := by
  have hmem : tag ∈ headTags rows := by
    have hcontains := List.all_eq_true.mp h.covered tag
      (List.mem_range.mpr (List.getElem?_eq_some_iff.mp htys).1)
    simpa using hcontains
  have hpos := List.length_pos_of_mem hmem
  have hle := totalCtorCount_specialize? tag arity rows
  omega

theorem Undecided.any_eq_false (h : Undecided rows) : rows.any (·.all Skeleton.isAny) = false := by
  simpa using h.noneAny

theorem missingFrom_nil (h : rows ≠ []) : missingFrom types split [] rows = none := by
  obtain ⟨row, rows, rfl⟩ := List.exists_cons_of_ne_nil h
  rfl

theorem missingFrom_accepted {row : Row} (hrow : row ∈ rows) (hany : row.all Skeleton.isAny = true) :
    missingFrom types split tys rows = none := by
  have hne := List.ne_nil_of_mem hrow
  cases tys with
  | nil => exact missingFrom_nil hne
  | cons ty rest =>
    rw [missingFrom, if_pos (List.any_eq_true.mpr ⟨row, hrow, hany⟩)]
    exact hne

theorem Splits.missingFrom_eq (h : Splits types rows ty set) :
    missingFrom types split (ty :: rest) rows =
      missingVariant split set rows rest 0 set.fieldTypes := by
  have hset : (CtorSet.of? types ty).filter (·.coveredBy (headTags rows)) = some set :=
    Option.filter_eq_some_iff.mpr ⟨h.ctors, h.covered⟩
  rw [missingFrom, if_neg (Bool.eq_false_iff.mp h.any_eq_false)]
  · dsimp only
    rw [hset]
  · exact h.ne_nil

theorem Skips.missingFrom_eq (h : Skips types rows ty) :
    missingFrom types split (ty :: rest) rows =
      (missingFrom types split rest (rows.filterMap Row.default?)).map
        (uncoveredHead (CtorSet.of? types ty) (headTags rows) :: ·) := by
  have hset : (CtorSet.of? types ty).filter (·.coveredBy (headTags rows)) = none := by
    cases hof : CtorSet.of? types ty with
    | none => rfl
    | some set => simp [Option.filter, h.uncovered set hof]
  rw [missingFrom, if_neg (Bool.eq_false_iff.mp h.any_eq_false)]
  · dsimp only
    rw [hset]
  · exact h.ne_nil

end

/-! ## The search -/

/-- Some row of the matrix accepts the row of values. -/
def Accepted (rows : List Row) (vs : List Value) : Prop :=
  ∃ row ∈ rows, Skeleton.acceptsAll row vs = true

/-- The search only comes back empty on matrices that accept every row of values of the types, if
they have fewer than `n` constructors. -/
def SearchSound (types : TypeTable) (n : Nat)
    (search : List Row → List Ty → Option (List Witness)) : Prop :=
  ∀ {rows : List Row} {tys : List Ty} {vs : List Value}, (∀ row ∈ rows, Row.Typed types row tys) →
    totalCtorCount rows < n → search rows tys = none →
      Value.allConform types vs tys = true → Accepted rows vs

/-- Either the search comes back empty for every constructor, or what it finds for the first one where
it does not is put under that constructor. -/
theorem missingVariant_cases (search : List Row → List Ty → Option (List Witness)) (set : CtorSet)
    (rows : List Row) (rest : List Ty) (first : Nat) (fieldTypes : List (List Ty)) :
    (missingVariant search set rows rest first fieldTypes = none ∧
      ∀ i tys, fieldTypes[i]? = some tys →
        search (rows.filterMap (Row.specialize? (first + i) tys.length)) (tys ++ rest) = none) ∨
    ∃ i tys ws, fieldTypes[i]? = some tys ∧
      search (rows.filterMap (Row.specialize? (first + i) tys.length)) (tys ++ rest) = some ws ∧
      missingVariant search set rows rest first fieldTypes =
        some (set.witness (first + i) (ws.take tys.length) :: ws.drop tys.length) ∧
      ∀ j fs, j < i → fieldTypes[j]? = some fs →
        search (rows.filterMap (Row.specialize? (first + j) fs.length)) (fs ++ rest) = none := by
  induction fieldTypes generalizing first with
  | nil => exact .inl ⟨rfl, by simp⟩
  | cons fields more ih =>
    cases hfirst : search (rows.filterMap (Row.specialize? first fields.length)) (fields ++ rest) with
    | some ws =>
      refine .inr ⟨0, fields, ws, rfl, hfirst, ?_, fun j _ hj => absurd hj (Nat.not_lt_zero j)⟩
      simp only [missingVariant, hfirst, Nat.add_zero]
    | none =>
      have hrest : missingVariant search set rows rest first (fields :: more) =
          missingVariant search set rows rest (first + 1) more := by
        simp only [missingVariant, hfirst]
      have hshift : ∀ i, first + 1 + i = first + (i + 1) := fun i => by omega
      rw [hrest]
      rcases ih (first + 1) with ⟨hnone, hall⟩ | ⟨i, tys, ws, htys, hws, hfound, hbefore⟩
      · refine .inl ⟨hnone, fun i tys htys => ?_⟩
        cases i with
        | zero =>
          cases htys
          exact hfirst
        | succ i => exact hshift i ▸ hall i tys htys
      · refine .inr ⟨i + 1, tys, ws, htys, hshift i ▸ hws, hshift i ▸ hfound, fun j fs hj hfs => ?_⟩
        cases j with
        | zero =>
          cases hfs
          exact hfirst
        | succ j => exact hshift j ▸ hbefore j fs (Nat.lt_of_succ_lt_succ hj) hfs

theorem missingVariant_eq_none {search : List Row → List Ty → Option (List Witness)} {set : CtorSet}
    {rows : List Row} {rest : List Ty} {first : Nat} {fieldTypes : List (List Ty)}
    (h : missingVariant search set rows rest first fieldTypes = none) {i : Nat} {tys : List Ty}
    (htys : fieldTypes[i]? = some tys) :
    search (rows.filterMap (Row.specialize? (first + i) tys.length)) (tys ++ rest) = none := by
  rcases missingVariant_cases search set rows rest first fieldTypes with
    ⟨-, hall⟩ | ⟨_, _, _, -, -, hfound, -⟩
  · exact hall i tys htys
  · rw [h] at hfound
    cases hfound

theorem missingVariant_eq_some {search : List Row → List Ty → Option (List Witness)} {set : CtorSet}
    {rows : List Row} {rest : List Ty} {first : Nat} {fieldTypes : List (List Ty)}
    {found : List Witness}
    (h : missingVariant search set rows rest first fieldTypes = some found) :
    ∃ i tys ws, fieldTypes[i]? = some tys ∧
      search (rows.filterMap (Row.specialize? (first + i) tys.length)) (tys ++ rest) = some ws ∧
      found = set.witness (first + i) (ws.take tys.length) :: ws.drop tys.length := by
  rcases missingVariant_cases search set rows rest first fieldTypes with
    ⟨hnone, -⟩ | ⟨i, tys, ws, htys, hws, hfound, -⟩
  · rw [h] at hnone
    cases hnone
  · exact ⟨i, tys, ws, htys, hws, Option.some.inj (h.symm.trans hfound)⟩

/-- The search of one matrix is sound if its splits are. The induction is on the columns. -/
theorem accepted_of_missingFrom {n : Nat} {split : List Row → List Ty → Option (List Witness)}
    (hsplit : SearchSound types n split) {tys : List Ty} {rows : List Row} {vs : List Value}
    (htyped : ∀ row ∈ rows, Row.Typed types row tys) (hcount : totalCtorCount rows ≤ n)
    (hnone : missingFrom types split tys rows = none)
    (hvs : Value.allConform types vs tys = true) : Accepted rows vs := by
  induction tys generalizing rows vs with
  | nil =>
    cases rows with
    | nil => simp [missingFrom] at hnone
    | cons row rows =>
      have hrow := (htyped row List.mem_cons_self).length_eq
      have hlen := Value.allConform_length hvs
      obtain rfl := List.length_eq_zero_iff.mp hrow
      obtain rfl := List.length_eq_zero_iff.mp hlen
      exact ⟨[], List.mem_cons_self, rfl⟩
  | cons ty rest ih =>
    rcases undecided_cases rows with rfl | ⟨row, hrow, hall⟩ | hopen
    · simp [missingFrom] at hnone
    · -- a row that asks for nothing accepts everything
      have hlen := (htyped row hrow).length_eq.trans (Value.allConform_length hvs).symm
      exact ⟨row, hrow, Skeleton.acceptsAll_of_all_any hall hlen⟩
    obtain ⟨v, vs, rfl, hv, hvs⟩ := Value.allConform_cons hvs
    rcases hopen.splits_or_skips types ty with ⟨set, hset⟩ | hskip
    · -- the column is split: the value has one of the constructors
      rw [hset.missingFrom_eq] at hnone
      obtain ⟨tag, fields, tys, hbuilt, htys, hfields⟩ := CtorSet.builtBy hset.ctors hv
      have hfewer := hset.totalCtorCount_lt htys tys.length
      have hnone' := missingVariant_eq_none hnone htys
      rw [Nat.zero_add] at hnone'
      obtain ⟨row', hrow', hacc⟩ := hsplit
        (fun row' h => by
          obtain ⟨row, hrow, hs⟩ := List.mem_filterMap.mp h
          exact Row.specialize?_typed hset.ctors htys (htyped row hrow) hs)
        (by omega) hnone' (Value.allConform_append hfields hvs)
      obtain ⟨row, hrow, hs⟩ := List.mem_filterMap.mp hrow'
      exact ⟨row, hrow, Row.acceptsAll_of_specialize? hset.ctors htys (htyped row hrow) hs hbuilt
        (Value.allConform_length hfields) hacc⟩
    · -- the column is skipped
      rw [hskip.missingFrom_eq, Option.map_eq_none_iff] at hnone
      obtain ⟨row', hrow', hacc⟩ := ih
        (fun row' h => by
          obtain ⟨row, hrow, hd⟩ := List.mem_filterMap.mp h
          match row, hd, htyped row hrow with
          | .any :: _, rfl, .cons _ hrest => exact hrest)
        (Nat.le_trans (totalCtorCount_default? rows) hcount) hnone hvs
      obtain ⟨row, hrow, hd⟩ := List.mem_filterMap.mp hrow'
      refine ⟨row, hrow, ?_⟩
      match row, hd with
      | .any :: _, rfl => simpa [Skeleton.acceptsAll, Skeleton.accepts] using hacc

theorem missingWithin_sound (n : Nat) : SearchSound types (n + 1) (missingWithin types n) := by
  induction n with
  | zero =>
    intro rows tys vs htyped hcount hnone hvs
    exact accepted_of_missingFrom (n := 0) (fun _ h => absurd h (Nat.not_lt_zero _)) htyped
      (Nat.le_of_lt_succ hcount) hnone hvs
  | succ n ih =>
    intro rows tys vs htyped hcount hnone hvs
    exact accepted_of_missingFrom ih htyped (Nat.le_of_lt_succ hcount) hnone hvs

/-! ## Witnesses have one shape for each column -/

theorem missingVariant_length {search : List Row → List Ty → Option (List Witness)} {set : CtorSet}
    {rows : List Row} {rest : List Ty} {first : Nat} {fieldTypes : List (List Ty)}
    (hsearch : ∀ {rows tys ws}, search rows tys = some ws → ws.length = tys.length)
    {ws : List Witness} (h : missingVariant search set rows rest first fieldTypes = some ws) :
    ws.length = rest.length + 1 := by
  obtain ⟨i, tys, ws, -, hws, rfl⟩ := missingVariant_eq_some h
  have hlen := hsearch hws
  rw [List.length_append] at hlen
  simp [hlen]

theorem missingFrom_nil_eq_some {split : List Row → List Ty → Option (List Witness)}
    {rows : List Row} {ws : List Witness} (h : missingFrom types split [] rows = some ws) :
    rows = [] ∧ ws = [] := by
  by_cases hrows : rows = []
  · subst hrows
    cases h
    exact ⟨rfl, rfl⟩
  · rw [missingFrom_nil hrows] at h
    cases h

/-- Witnesses are found where there are no rows, in a variant of the first column, or beside a first
column that is skipped. -/
theorem missingFrom_cons_eq_some {split : List Row → List Ty → Option (List Witness)} {ty : Ty}
    {rest : List Ty} {rows : List Row} {ws : List Witness}
    (h : missingFrom types split (ty :: rest) rows = some ws) :
    (rows = [] ∧ ws = anyWitnesses (rest.length + 1)) ∨
      (∃ set, Splits types rows ty set ∧
        missingVariant split set rows rest 0 set.fieldTypes = some ws) ∨
      Skips types rows ty ∧ ∃ ws',
        missingFrom types split rest (rows.filterMap Row.default?) = some ws' ∧
          ws = uncoveredHead (CtorSet.of? types ty) (headTags rows) :: ws' := by
  rcases undecided_cases rows with rfl | ⟨row, hrow, hall⟩ | hopen
  · cases h
    exact .inl ⟨rfl, rfl⟩
  · rw [missingFrom_accepted hrow hall] at h
    cases h
  rcases hopen.splits_or_skips types ty with ⟨set, hset⟩ | hskip
  · rw [hset.missingFrom_eq] at h
    exact .inr (.inl ⟨set, hset, h⟩)
  · rw [hskip.missingFrom_eq] at h
    obtain ⟨ws', hws', rfl⟩ := Option.map_eq_some_iff.mp h
    exact .inr (.inr ⟨hskip, ws', hws', rfl⟩)

theorem missingFrom_length {split : List Row → List Ty → Option (List Witness)}
    (hsplit : ∀ {rows tys ws}, split rows tys = some ws → ws.length = tys.length)
    {tys : List Ty} {rows : List Row} {ws : List Witness}
    (h : missingFrom types split tys rows = some ws) : ws.length = tys.length := by
  induction tys generalizing rows ws with
  | nil =>
    obtain ⟨-, rfl⟩ := missingFrom_nil_eq_some h
    rfl
  | cons ty rest ih =>
    rcases missingFrom_cons_eq_some h with ⟨-, rfl⟩ | ⟨set, -, hws⟩ | ⟨-, ws', hws', rfl⟩
    · simp [anyWitnesses]
    · exact missingVariant_length hsplit hws
    · simp [ih hws']

theorem missingWithin_length {n : Nat} {tys : List Ty} {rows : List Row} {ws : List Witness}
    (h : missingWithin types n rows tys = some ws) : ws.length = tys.length := by
  induction n generalizing tys rows ws with
  | zero => exact missingFrom_length (fun h => by cases h) h
  | succ n ih => exact missingFrom_length ih h

/-! ## Patterns that lowering accepts -/

section

open Lowering

mutual

/-- A pattern that is accepted against a resolved type suits that type. -/
theorem lowerPattern_typed {c : BodyContext} (hm : c.setting.module.Built)
    (hres : c.setting.module.FieldsResolved) :
    ∀ {p : Source.Pattern} {ty : Ty} {s s' : Scope} {g g' : Progress} {q : Lowered.Pattern},
      ty.isResolved = true → lowerPattern c p (some ty) s g = .ok (q, s') g' →
        ∃ Γ, q.Typed c.setting.module.types ty Γ
  | .wildcard, ty, s, s', g, g', q, hty, h => by
    rw [lowerPattern] at h
    cases h
    exact ⟨[], .wildcard⟩
  | .var v, ty, s, s', g, g', q, hty, h => by
    rw [lowerPattern] at h
    cases h
    exact ⟨_, .bind⟩
  | .ctor name fields, ty, s, s', g, g', q, hty, h => by
    obtain ⟨info, qs, hinfo, hadt, hlen, hqs, rfl⟩ := lowerPattern_ctor_eq_ok h
    obtain rfl := hadt ty (by simp [Ty.resolved?, hty])
    have hfields := hm.ctorFields?_of_ctor? hinfo
    obtain ⟨Γ, hqs⟩ := lowerPatterns_typed hm hres (hres.of_ctorFields? hfields) hlen.symm hqs
    exact ⟨Γ, .ctor hfields hqs⟩
  | .tuple fields, ty, s, s', g, g', q, hty, h => by
    obtain ⟨tys, qs, htuple, hqs, rfl⟩ := lowerPattern_tuple_eq_ok h
    obtain ⟨rfl, hlen⟩ := htuple ty (by simp [Ty.resolved?, hty])
    obtain ⟨Γ, hqs⟩ := lowerPatterns_typed hm hres (by simpa [Ty.isResolved] using hty) hlen.symm hqs
    exact ⟨Γ, .tuple hqs⟩

theorem lowerPatterns_typed {c : BodyContext} (hm : c.setting.module.Built)
    (hres : c.setting.module.FieldsResolved) :
    ∀ {ps : List Source.Pattern} {tys : List Ty} {s s' : Scope} {g g' : Progress}
      {qs : List Lowered.Pattern}, Ty.allResolved tys = true → ps.length = tys.length →
        lowerPatterns c ps tys s g = .ok (qs, s') g' →
          ∃ Γ, Pattern.AllTyped c.setting.module.types qs tys Γ
  | [], tys, s, s', g, g', qs, htys, hlen, h => by
    rw [lowerPatterns] at h
    cases h
    obtain rfl := List.length_eq_zero_iff.mp hlen.symm
    exact ⟨[], .nil⟩
  | p :: ps, [], s, s', g, g', qs, htys, hlen, h => nomatch hlen
  | p :: ps, ty :: tys, s, s', g, g', qs, htys, hlen, h => by
    obtain ⟨q, qs, s₁, g₁, h₁, h₂, rfl⟩ := lowerPatterns_cons_eq_ok h
    simp only [Ty.allResolved, Bool.and_eq_true] at htys
    obtain ⟨Γ, hq⟩ := lowerPattern_typed hm hres htys.1 h₁
    obtain ⟨Δ, hqs⟩ := lowerPatterns_typed hm hres htys.2 (by simpa using hlen) h₂
    exact ⟨Γ ++ Δ, .cons hq hqs⟩

end

end

/-! ## Matches whose clauses have been checked -/

/-- The pattern is one that lowering accepts in the module against values of the type. -/
def AcceptedAgainst (m : Module) (ty : Ty) (q : Lowered.Pattern) : Prop :=
  ∃ (c : Lowering.BodyContext) (p : Source.Pattern) (s s' : Lowering.Scope)
    (g g' : Lowering.Progress), c.setting.module = m ∧
      Lowering.lowerPattern c p (some ty) s g = .ok (q, s') g'

theorem AcceptedAgainst.typed {m : Module} (hm : m.Built) (hres : m.FieldsResolved) {ty : Ty}
    (hty : ty.isResolved = true) {q : Lowered.Pattern} (h : AcceptedAgainst m ty q) :
    ∃ Γ, q.Typed m.types ty Γ := by
  obtain ⟨c, p, s, s', g, g', rfl, h⟩ := h
  exact lowerPattern_typed hm hres hty h

theorem missingRow?_eq_none {patterns : List Lowered.Pattern} {ty : Ty}
    (h : missingPattern? types patterns ty = none) :
    missingRow? types (patterns.map fun p => [Skeleton.ofPattern p]) [ty] = none := by
  cases hrow : missingRow? types (patterns.map fun p => [Skeleton.ofPattern p]) [ty] with
  | none => rfl
  | some ws =>
    have hlen := missingWithin_length hrow
    match ws, hlen with
    | [w], _ => simp [missingPattern?, hrow] at h

/-- Patterns that the search finds nothing missing from take every value of their type. -/
theorem exists_matchPattern? {patterns : List Lowered.Pattern} {ty : Ty}
    (htyped : ∀ q ∈ patterns, ∃ Γ, q.Typed types ty Γ)
    (hnone : missingPattern? types patterns ty = none) {v : Value}
    (hv : v.conformsTo types ty = true) : ∃ q ∈ patterns, (matchPattern? q v).isSome = true := by
  have hrows : ∀ row ∈ patterns.map (fun p => [Skeleton.ofPattern p]),
      Row.Typed types row [ty] := by
    intro row hrow
    obtain ⟨q, hq, rfl⟩ := List.mem_map.mp hrow
    obtain ⟨Γ, hΓ⟩ := htyped q hq
    exact .cons (Skeleton.ofPattern_typed hΓ) .nil
  have hvs : Value.allConform types [v] [ty] = true := by simp [Value.allConform, hv]
  obtain ⟨row, hrow, hacc⟩ := missingWithin_sound _ hrows (Nat.lt_succ_self _)
    (missingRow?_eq_none hnone) hvs
  obtain ⟨q, hq, rfl⟩ := List.mem_map.mp hrow
  obtain ⟨Γ, hΓ⟩ := htyped q hq
  refine ⟨q, hq, Skeleton.isSome_matchPattern? hΓ hv ?_⟩
  simpa [Skeleton.acceptsAll] using hacc

open Run CompiledUnit in
/-- If some pattern takes the value, a clause runs. -/
theorem evalClauses_of_exists {u : CompiledUnit} {call : Call} {v : Value}
    {clauses : List (Lowered.Pattern × Node)}
    (h : ∃ q ∈ clauses.map Prod.fst, (matchPattern? q v).isSome = true) :
    ∃ q body entries, (q, body) ∈ clauses ∧ matchPattern? q v = some entries ∧
      ∀ frame, evalClauses u call v clauses frame = eval u call body (Frame.extend frame entries) := by
  induction clauses with
  | nil =>
    obtain ⟨q, hq, _⟩ := h
    cases hq
  | cons clause rest ih =>
    obtain ⟨p, body⟩ := clause
    cases hp : matchPattern? p v with
    | some entries =>
      refine ⟨p, body, entries, List.mem_cons_self, hp, fun frame => ?_⟩
      rw [evalClauses_cons, hp]
      rfl
    | none =>
      obtain ⟨q, hq, hsome⟩ := h
      rcases List.mem_cons.mp hq with rfl | hq
      · simp [hp] at hsome
      obtain ⟨q, body', entries, hmem, hentries, heval⟩ := ih ⟨q, hq, hsome⟩
      refine ⟨q, body', entries, List.mem_cons_of_mem _ hmem, hentries, fun frame => ?_⟩
      rw [evalClauses_cons, hp]
      exact heval frame

/-- **Coverage is sound.** If nothing is missing from patterns that lowering has accepted against a
resolved type, then every value of the type is taken by one of them, so a match with these patterns
goes on with the body of one of its clauses. -/
theorem covered_of_nothing_missing {m : Module} (hm : m.Built) (hres : m.FieldsResolved) {ty : Ty}
    (hty : ty.isResolved = true) {patterns : List Lowered.Pattern}
    (hacc : ∀ q ∈ patterns, AcceptedAgainst m ty q)
    (hnone : missingPattern? m.types patterns ty = none) {v : Value}
    (hv : v.conformsTo m.types ty = true) :
    (∃ q ∈ patterns, (matchPattern? q v).isSome = true) ∧
      ∀ (u : Run.CompiledUnit) (call : Run.Call) (clauses : List (Lowered.Pattern × Node)),
        clauses.map Prod.fst = patterns →
          ∃ q body entries, (q, body) ∈ clauses ∧ matchPattern? q v = some entries ∧
            ∀ frame, Run.CompiledUnit.evalClauses u call v clauses frame =
              Run.CompiledUnit.eval u call body (Run.Frame.extend frame entries) := by
  have hmatch := exists_matchPattern? (fun q hq => (hacc q hq).typed hm hres hty) hnone hv
  refine ⟨hmatch, fun u call clauses hclauses => ?_⟩
  subst hclauses
  exact evalClauses_of_exists hmatch

/-- Lists of truth values. -/
def boolList : TypeData := ⟨"List", [⟨"Nil", []⟩, ⟨"Cons", [.scalar .bool, .adt "List"]⟩]⟩

/-- The empty list, a list of one element, and a longer one whose first element gets a name. -/
def listPatterns : List Source.Pattern :=
  [.ctor "Nil" [], .ctor "Cons" [.wildcard, .ctor "Nil" []],
    .ctor "Cons" [.var ⟨0, "x", .infer⟩, .ctor "Cons" [.wildcard, .wildcard]]]

def listPatternsLowered : List Lowered.Pattern :=
  [.ctor 0 "Nil" [], .ctor 1 "Cons" [.wildcard, .ctor 0 "Nil" []],
    .ctor 1 "Cons" [.bind "x_0", .ctor 1 "Cons" [.wildcard, .wildcard]]]

theorem listPatterns_accepted :
    ∀ q ∈ listPatternsLowered, AcceptedAgainst { types := [boolList] } (.adt "List") q := by
  have haccepted : ∀ i : Fin 3, AcceptedAgainst { types := [boolList] } (.adt "List")
      (listPatternsLowered.get i) := by
    intro i
    refine ⟨⟨⟨{ types := [boolList] }, {}, {}⟩, "f", fun _ => pure ⟨0⟩⟩, listPatterns.get i, {}, ?_⟩
    match i with
    | 0 => exact ⟨_, {}, _, rfl, rfl⟩
    | 1 => exact ⟨_, {}, _, rfl, rfl⟩
    | 2 => exact ⟨_, {}, _, rfl, rfl⟩
  intro q hq
  obtain ⟨i, rfl⟩ := List.get_of_mem hq
  exact haccepted i

/-- The three patterns cover the lists of truth values, so one of them takes the list of two. -/
theorem listPatterns_cover :
    missingPattern? [boolList] listPatternsLowered (.adt "List") = none ∧
      ∃ q ∈ listPatternsLowered, (matchPattern? q
        (.adt 1 [.tensor (.scalarBool true),
          .adt 1 [.tensor (.scalarBool false), .adt 0 []]])).isSome = true := by
  have hnone : missingPattern? [boolList] listPatternsLowered (.adt "List") = none := by rfl
  refine ⟨hnone, (covered_of_nothing_missing (m := { types := [boolList] }) ?_ ?_ rfl
    listPatterns_accepted hnone rfl).1⟩
  · exact .addType .empty (rfl : Module.addType {} boolList = .ok _)
  · intro data hdata c hc
    cases List.mem_singleton.mp hdata
    rcases List.mem_cons.mp hc with rfl | hc
    · rfl
    · cases List.mem_singleton.mp hc
      rfl

end TensorIR.Matching
