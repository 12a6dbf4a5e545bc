import TensorIR.Proofs.Coverage

/-! Runs of the coverage search.

A split puts the fields of a constructor in the place of a column, so rows can get longer, and a data
type can be met again among its own fields. What gets less is the number of constructors in the rows,
and where a column is skipped, the number of columns.

`Searches` has the runs of the search that end, without a bound on the splits and whatever the rows are
like. Two operations of the search can fail: the witnesses of the fields are split off the witnesses of
a longer list, and the first column is taken off a row. Every search has exactly one run. It does not
fail, and it gives the answer of the search that is bounded by the number of constructors. -/

namespace TensorIR.Matching

open Source

/-! ## Runs -/

/-- An operation without a result: more witnesses are split off than there are, or the first column is
taken off a row that has none. -/
inductive SearchFault where
  | tooFewWitnesses
  | noColumn

/-- The row accepts anything in its first column. -/
def Row.startsAny (row : Row) : Bool := row.head?.any Skeleton.isAny

def Row.dropColumn : Row → Except SearchFault Row
  | [] => .error .noColumn
  | _ :: rest => .ok rest

/-- Puts the first `arity` witnesses under the constructor. -/
def CtorSet.gather (set : CtorSet) (tag arity : Nat) (ws : List Witness) :
    Except SearchFault (List Witness) :=
  if arity ≤ ws.length then .ok (set.witness tag (ws.take arity) :: ws.drop arity)
  else .error .tooFewWitnesses

/-- The search among the rows ends. The constructors of a column are tried one after the other, until
a search among the specialized rows finds something or fails. -/
inductive Searches (types : TypeTable) :
    List Row → List Ty → Except SearchFault (Option (List Witness)) → Prop
  | noRows {tys : List Ty} : Searches types [] tys (.ok (some (anyWitnesses tys.length)))
  | accepted {rows : List Row} {tys : List Ty} {row : Row} : row ∈ rows →
      row.all Skeleton.isAny = true → Searches types rows tys (.ok none)
  | noTypes {rows : List Row} : Undecided rows → Searches types rows [] (.ok none)
  | splitNone {rows : List Row} {ty : Ty} {rest : List Ty} {set : CtorSet} :
    Splits types rows ty set →
    (∀ t fs, set.fieldTypes[t]? = some fs →
      Searches types (rows.filterMap (Row.specialize? t fs.length)) (fs ++ rest) (.ok none)) →
      Searches types rows (ty :: rest) (.ok none)
  | splitSome {rows : List Row} {ty : Ty} {rest fields : List Ty} {set : CtorSet} {tag : Nat}
    {ws : List Witness} : Splits types rows ty set → set.fieldTypes[tag]? = some fields →
    (∀ t fs, t < tag → set.fieldTypes[t]? = some fs →
      Searches types (rows.filterMap (Row.specialize? t fs.length)) (fs ++ rest) (.ok none)) →
    Searches types (rows.filterMap (Row.specialize? tag fields.length)) (fields ++ rest)
      (.ok (some ws)) →
      Searches types rows (ty :: rest) ((set.gather tag fields.length ws).map some)
  | splitFault {rows : List Row} {ty : Ty} {rest fields : List Ty} {set : CtorSet} {tag : Nat}
    {fault : SearchFault} : Splits types rows ty set → set.fieldTypes[tag]? = some fields →
    (∀ t fs, t < tag → set.fieldTypes[t]? = some fs →
      Searches types (rows.filterMap (Row.specialize? t fs.length)) (fs ++ rest) (.ok none)) →
    Searches types (rows.filterMap (Row.specialize? tag fields.length)) (fields ++ rest)
      (.error fault) →
      Searches types rows (ty :: rest) (.error fault)
  | skip {rows rows' : List Row} {ty : Ty} {rest : List Ty}
    {found : Except SearchFault (Option (List Witness))} : Skips types rows ty →
    (rows.filter Row.startsAny).mapM Row.dropColumn = .ok rows' → Searches types rows' rest found →
      Searches types rows (ty :: rest)
        (found.map (Option.map (uncoveredHead (CtorSet.of? types ty) (headTags rows) :: ·)))
  | skipFault {rows : List Row} {ty : Ty} {rest : List Ty} {fault : SearchFault} :
    Skips types rows ty → (rows.filter Row.startsAny).mapM Row.dropColumn = .error fault →
      Searches types rows (ty :: rest) (.error fault)

variable {types : TypeTable} {rows : List Row} {ty : Ty} {rest tys : List Ty} {set : CtorSet}

/-! ## Operations that do not fail -/

/-- Rows that accept anything in their first column have one. -/
theorem mapM_dropColumn (rows : List Row) :
    (rows.filter Row.startsAny).mapM Row.dropColumn = .ok (rows.filterMap Row.default?) := by
  induction rows with
  | nil => rfl
  | cons row rows ih =>
    match row with
    | [] => exact ih
    | .any :: row =>
      rw [List.filter_cons_of_pos rfl, List.mapM_cons, ih]
      rfl
    | .ctor t ss :: row => exact ih

/-- As many witnesses as there are types can be split behind those of the fields. -/
theorem CtorSet.gather_eq {tag : Nat} {fields : List Ty} {ws : List Witness}
    (h : ws.length = (fields ++ rest).length) :
    set.gather tag fields.length ws =
      .ok (set.witness tag (ws.take fields.length) :: ws.drop fields.length) := by
  have hle : fields.length ≤ ws.length := by
    rw [h, List.length_append]
    exact Nat.le_add_right _ _
  rw [gather, if_pos hle]

/-! ## The bounded search -/

section

variable {n : Nat}

theorem Splits.totalCtorCount_le_pred (h : Splits types rows ty set) {tag : Nat}
    (htys : set.fieldTypes[tag]? = some tys) (hn : totalCtorCount rows ≤ n) :
    totalCtorCount (rows.filterMap (Row.specialize? tag tys.length)) ≤ n - 1 := by
  have hfewer := h.totalCtorCount_lt htys tys.length
  omega

theorem missingWithin_noRows : missingWithin types n [] tys = some (anyWitnesses tys.length) := by
  cases n <;> cases tys <;> rfl

theorem missingWithin_accepted {row : Row} (hrow : row ∈ rows) (hany : row.all Skeleton.isAny = true) :
    missingWithin types n rows tys = none := by
  cases n <;> exact missingFrom_accepted hrow hany

theorem missingWithin_noTypes (h : rows ≠ []) : missingWithin types n rows [] = none := by
  cases n <;> exact missingFrom_nil h

/-- A bound of zero is no bound for a column whose type has no constructors. -/
theorem Splits.missingWithin_eq (h : Splits types rows ty set) (hn : totalCtorCount rows ≤ n) :
    missingWithin types n rows (ty :: rest) =
      missingVariant (missingWithin types (n - 1)) set rows rest 0 set.fieldTypes := by
  cases n with
  | succ n => exact h.missingFrom_eq
  | zero =>
    have hnone : set.fieldTypes = [] := by
      cases hfields : set.fieldTypes with
      | nil => rfl
      | cons fields more =>
        have hfirst : set.fieldTypes[0]? = some fields := by rw [hfields]; rfl
        have hfewer := h.totalCtorCount_lt hfirst fields.length
        omega
    rw [missingWithin, h.missingFrom_eq, hnone]
    rfl

theorem Skips.missingWithin_eq (h : Skips types rows ty) :
    missingWithin types n rows (ty :: rest) =
      (missingWithin types n (rows.filterMap Row.default?) rest).map
        (uncoveredHead (CtorSet.of? types ty) (headTags rows) :: ·) := by
  cases n <;> exact h.missingFrom_eq

theorem missingVariant_of_forall_none {search : List Row → List Ty → Option (List Witness)}
    (h : ∀ t fs, set.fieldTypes[t]? = some fs →
      search (rows.filterMap (Row.specialize? t fs.length)) (fs ++ rest) = none) :
    missingVariant search set rows rest 0 set.fieldTypes = none := by
  rcases missingVariant_cases search set rows rest 0 set.fieldTypes with
    ⟨hnone, -⟩ | ⟨tag, fields, ws, hfields, hws, -, -⟩
  · exact hnone
  · rw [Nat.zero_add, h tag fields hfields] at hws
    cases hws

theorem missingVariant_of_first {search : List Row → List Ty → Option (List Witness)} {tag : Nat}
    {fields : List Ty} {ws : List Witness} (hfields : set.fieldTypes[tag]? = some fields)
    (hbefore : ∀ t fs, t < tag → set.fieldTypes[t]? = some fs →
      search (rows.filterMap (Row.specialize? t fs.length)) (fs ++ rest) = none)
    (hws : search (rows.filterMap (Row.specialize? tag fields.length)) (fields ++ rest) = some ws) :
    missingVariant search set rows rest 0 set.fieldTypes =
      some (set.witness tag (ws.take fields.length) :: ws.drop fields.length) := by
  rcases missingVariant_cases search set rows rest 0 set.fieldTypes with
    ⟨-, hall⟩ | ⟨tag', fields', ws', hfields', hws', hfound, hbefore'⟩
  · have hnone := hall tag fields hfields
    rw [Nat.zero_add, hws] at hnone
    cases hnone
  · simp only [Nat.zero_add] at hws' hfound hbefore'
    rcases Nat.lt_trichotomy tag tag' with hlt | rfl | hlt
    · rw [hbefore' tag fields hlt hfields] at hws
      cases hws
    · cases hfields.symm.trans hfields'
      cases hws.symm.trans hws'
      exact hfound
    · rw [hbefore tag' fields' hlt hfields'] at hws'
      cases hws'

end

/-! ## Every search has one run -/

/-- The search ends. A split leaves fewer constructors in the rows, and skipping a column leaves fewer
columns. -/
theorem searches_missingWithin {n : Nat} (rows : List Row) (tys : List Ty)
    (hn : totalCtorCount rows ≤ n) :
    Searches types rows tys (.ok (missingWithin types n rows tys)) := by
  rcases undecided_cases rows with rfl | ⟨row, hrow, hany⟩ | hopen
  · rw [missingWithin_noRows]
    exact .noRows
  · rw [missingWithin_accepted hrow hany]
    exact .accepted hrow hany
  · cases tys with
    | nil =>
      rw [missingWithin_noTypes hopen.ne_nil]
      exact .noTypes hopen
    | cons ty rest =>
      rcases hopen.splits_or_skips types ty with ⟨set, hsplit⟩ | hskip
      · -- the specialized rows have fewer constructors, so the bound is one less for them
        have hsub : ∀ {t fs}, set.fieldTypes[t]? = some fs →
            Searches types (rows.filterMap (Row.specialize? t fs.length)) (fs ++ rest)
              (.ok (missingWithin types (n - 1) (rows.filterMap (Row.specialize? t fs.length))
                (fs ++ rest))) := by
          intro t fs hfs
          have hfewer := hsplit.totalCtorCount_lt hfs fs.length
          exact searches_missingWithin _ _ (by omega)
        rw [hsplit.missingWithin_eq hn]
        rcases missingVariant_cases (missingWithin types (n - 1)) set rows rest 0 set.fieldTypes with
          ⟨hnone, hall⟩ | ⟨tag, fields, ws, hfields, hws, hfound, hbefore⟩
        · simp only [Nat.zero_add] at hall
          rw [hnone]
          exact .splitNone hsplit fun t fs hfs => hall t fs hfs ▸ hsub hfs
        · simp only [Nat.zero_add] at hws hfound hbefore
          have hrun := Searches.splitSome hsplit hfields
            (fun t fs ht hfs => hbefore t fs ht hfs ▸ hsub hfs) (hws ▸ hsub hfields)
          rw [CtorSet.gather_eq (missingWithin_length hws)] at hrun
          rw [hfound]
          exact hrun
      · -- the rows may have as many constructors as before, but there is one type less
        have hfewer := totalCtorCount_default? rows
        rw [hskip.missingWithin_eq]
        exact .skip hskip (mapM_dropColumn rows) (searches_missingWithin _ rest (by omega))
termination_by (totalCtorCount rows, tys.length)
decreasing_by
  · exact Prod.Lex.left _ _ hfewer
  · rcases Nat.lt_or_eq_of_le hfewer with hlt | heq
    · exact Prod.Lex.left _ _ hlt
    · rw [heq]
      exact Prod.Lex.right _ (Nat.lt_succ_self _)

/-- A run gives the answer of every search with enough splits, so there is no other one. -/
theorem Searches.eq_missingWithin {found : Except SearchFault (Option (List Witness))}
    (h : Searches types rows tys found) {n : Nat} (hn : totalCtorCount rows ≤ n) :
    found = .ok (missingWithin types n rows tys) := by
  induction h generalizing n with
  | noRows => rw [missingWithin_noRows]
  | accepted hrow hany => rw [missingWithin_accepted hrow hany]
  | noTypes hopen => rw [missingWithin_noTypes hopen.ne_nil]
  | @splitNone rows ty rest set hsplit _ ih =>
    have hnone := missingVariant_of_forall_none fun t fs hfs =>
      (Except.ok.inj (ih t fs hfs (hsplit.totalCtorCount_le_pred hfs hn))).symm
    rw [hsplit.missingWithin_eq hn, hnone]
  | @splitSome rows ty rest fields set tag ws hsplit hfields _ _ ihBefore ih =>
    have hws := (Except.ok.inj (ih (hsplit.totalCtorCount_le_pred hfields hn))).symm
    have hfound := missingVariant_of_first hfields (fun t fs ht hfs =>
      (Except.ok.inj (ihBefore t fs ht hfs (hsplit.totalCtorCount_le_pred hfs hn))).symm) hws
    rw [hsplit.missingWithin_eq hn, hfound, CtorSet.gather_eq (missingWithin_length hws)]
    rfl
  | @splitFault rows ty rest fields set tag fault hsplit hfields _ _ _ ih =>
    cases ih (Nat.le_refl _)
  | @skip rows rows' ty rest found hskip hrows _ ih =>
    rw [mapM_dropColumn] at hrows
    cases hrows
    rw [ih (Nat.le_trans (totalCtorCount_default? rows) hn), hskip.missingWithin_eq]
    rfl
  | @skipFault rows ty rest fault hskip hrows =>
    rw [mapM_dropColumn] at hrows
    cases hrows

/-- The search ends, whatever the data types, the rows and the types are. It has exactly one run, and this
does not fail. What it finds has one witness for each type. -/
theorem search_ends (types : TypeTable) (rows : List Row) (tys : List Ty) :
    Searches types rows tys (.ok (missingRow? types rows tys)) ∧
    (∀ found, Searches types rows tys found → found = .ok (missingRow? types rows tys)) ∧
    ∀ ws, missingRow? types rows tys = some ws → ws.length = tys.length := by
  refine ⟨searches_missingWithin rows tys (Nat.le_refl _), fun found h => ?_, fun ws hws => ?_⟩
  · exact h.eq_missingWithin (Nat.le_refl _)
  · exact missingWithin_length hws

/-- A constructor with too few parts and a row with a column too many. -/
example : missingRow? [boolList] [[.ctor 0 []], [.ctor 1 [.ctor 0 []], .any]] [.adt "List"] =
    some [.ctor "Cons" [.any, .any]] := rfl

end TensorIR.Matching
