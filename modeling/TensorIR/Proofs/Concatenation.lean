import TensorIR.Proofs.ElementwiseKernels

/-! Joining tensors along the first axis.

The buffers of the operands are appended. Since all of them have rows of one size, the rows of the
result are those of the operands, one operand after the other, and the result has as many elements as
its shape asks for. -/

namespace TensorIR

/-! ## Buffers -/

namespace Buffer

/-- All elements in row-major order. -/
def elements : Buffer → List Element
  | .float32 data => data.toList.map .float32
  | .float64 data => data.toList.map .float64
  | .int32 data => data.toList.map .int32
  | .int64 data => data.toList.map .int64
  | .bool data => data.toList.map .bool

variable {x y z : Buffer}

theorem getElem?_elements (x : Buffer) (k : Nat) : x.elements[k]? = x.get? k := by
  cases x <;> simp [elements, get?]

theorem length_elements (x : Buffer) : x.elements.length = x.size := by
  cases x <;> simp [elements, size]

theorem eq_of_map_toList {α : Type} {f : α → Element} (hf : ∀ u v, f u = f v → u = v)
    {a b : Array α} (h : a.toList.map f = b.toList.map f) : a = b :=
  Array.toList_inj.mp ((List.map_inj_right hf).mp h)

theorem eq_of_elements (hdtype : x.dtype = y.dtype) (h : x.elements = y.elements) : x = y := by
  cases x <;> cases y <;> cases hdtype
  all_goals exact congrArg _ (eq_of_map_toList (fun u v huv => by injection huv) h)

theorem append?_elements (h : x.append? y = some z) : z.elements = x.elements ++ y.elements := by
  cases x <;> cases y <;> cases h <;> simp [elements]

theorem exists_append? (h : y.dtype = x.dtype) : ∃ z, x.append? y = some z := by
  cases x <;> cases y <;> cases h <;> exact ⟨_, rfl⟩

end Buffer

namespace Tensor

/-! ## Rows -/

/-- The size of the first axis. -/
def rows (t : Tensor) : Nat := t.shape.dims.headD 0

def totalRows (ts : List Tensor) : Nat := ts.foldr (fun t n => t.rows + n) 0

/-- The tensor has a first axis, along which it has rows of shape `tail` with elements of type `d`. -/
structure HasRows (t : Tensor) (d : DType) (tail : List Nat) : Prop where
  dtype_eq : t.dtype = d
  dims_eq : t.shape.dims = t.rows :: tail

/-- The rows of `t` are those of the operands, one operand after the other. -/
structure IsJoin (tail : List Nat) (ts : List Tensor) (t : Tensor) : Prop where
  operands : ∀ u ∈ ts, u.HasRows t.dtype tail
  shape_eq : t.shape = ⟨totalRows ts :: tail⟩
  elements_eq : t.data.elements = ts.flatMap fun u => u.data.elements

variable {t u first : Tensor} {ts us : List Tensor} {d : DType} {tail : List Nat}
  {index lead : Nat} {data : Buffer}

theorem totalRows_cons (u : Tensor) (ts : List Tensor) :
    totalRows (u :: ts) = u.rows + totalRows ts := rfl

theorem totalRows_append (ts us : List Tensor) :
    totalRows (ts ++ us) = totalRows ts + totalRows us := by
  induction ts with
  | nil => exact (Nat.zero_add _).symm
  | cons u ts ih => rw [List.cons_append, totalRows_cons, totalRows_cons, ih, Nat.add_assoc]

theorem rows_of_dims {n : Nat} {dims : List Nat} (h : t.shape.dims = n :: dims) : t.rows = n := by
  rw [rows, h, List.headD_cons]

theorem HasRows.size_eq (h : t.HasRows d tail) : t.data.size = t.rows * tail.foldr (· * ·) 1 := by
  rw [t.size_eq, Shape.numel, h.dims_eq, List.foldr_cons]

theorem HasRows.tail_eq {e : DType} {tail' : List Nat} (h : t.HasRows d tail)
    (h' : t.HasRows e tail') : tail = tail' :=
  (List.cons.inj (h.dims_eq.symm.trans h'.dims_eq)).2

theorem IsJoin.dims_eq (h : IsJoin tail ts t) : t.shape.dims = totalRows ts :: tail := by
  rw [h.shape_eq]

theorem IsJoin.rows_eq (h : IsJoin tail ts t) : t.rows = totalRows ts := rows_of_dims h.dims_eq

theorem IsJoin.hasRows (h : IsJoin tail ts t) : t.HasRows t.dtype tail :=
  ⟨rfl, by rw [h.dims_eq, h.rows_eq]⟩

/-! ## The loop -/

/-- The answer to a buffer that does not fill its shape. -/
def miscount : KernelError := .invalid "result element count does not match its shape"

theorem incompatible_ne_miscount (index : Nat) (t first : Tensor) :
    incompatible index t first ≠ miscount := by
  intro h
  injection h with h
  -- The texts differ in their first character.
  have hhead := congrArg (fun s => s.toList.head?) h
  simp at hhead

/-- An operand is joined if it has rows as those that are collected, and refused otherwise. -/
theorem joinRows_cons (first u : Tensor) (tail : List Nat) (index lead : Nat) (data : Buffer)
    (vs : List Value) :
    (u.HasRows data.dtype tail ∧ ∃ data', data.append? u.data = some data' ∧
      joinRows first tail index lead data (.tensor u :: vs) =
        joinRows first tail (index + 1) (lead + u.rows) data' vs) ∨
    (¬u.HasRows data.dtype tail ∧ ∃ e, e ≠ miscount ∧
      joinRows first tail index lead data (.tensor u :: vs) = .error e) := by
  rw [joinRows]
  simp only [tensorAt, bind, Except.bind]
  split
  · next n dims hdims =>
    have hrows := rows_of_dims hdims
    split
    · next htail =>
      split
      · next data' hdata =>
        obtain ⟨hdtype, -⟩ := Buffer.append?_dtype hdata
        exact .inl ⟨⟨hdtype, by rw [hdims, hrows, htail]⟩, data', hdata, by rw [hrows]⟩
      · next hdata =>
        refine .inr ⟨fun h => ?_, _, (fun he => by cases he), rfl⟩
        obtain ⟨data', hdata'⟩ := Buffer.exists_append? h.dtype_eq
        cases hdata.symm.trans hdata'
    · next htail =>
      refine .inr ⟨fun h => htail ?_, _, incompatible_ne_miscount _ _ _, rfl⟩
      exact (List.cons.inj (hdims.symm.trans h.dims_eq)).2
  · next hdims =>
    refine .inr ⟨fun h => ?_, _, incompatible_ne_miscount _ _ _, rfl⟩
    cases hdims.symm.trans h.dims_eq

/-- What is joined to `lead` rows with the elements `data`, and when. -/
theorem joinRows_eq_ok_iff :
    joinRows first tail index lead data (us.map .tensor) = .ok t ↔
      (∀ u ∈ us, u.HasRows data.dtype tail) ∧ t.dtype = data.dtype ∧
      t.shape = ⟨(lead + totalRows us) :: tail⟩ ∧
      t.data.elements = data.elements ++ us.flatMap fun u => u.data.elements := by
  induction us generalizing index lead data with
  | nil =>
    rw [List.map_nil, joinRows, finish_eq_ok_iff]
    simp only [totalRows, List.foldr_nil, Nat.add_zero, List.flatMap_nil, List.append_nil,
      List.not_mem_nil, false_imp_iff, implies_true, true_and]
    constructor
    · rintro ⟨hshape, rfl⟩
      exact ⟨rfl, hshape, rfl⟩
    · rintro ⟨hdtype, hshape, helements⟩
      exact ⟨hshape, Buffer.eq_of_elements hdtype helements⟩
  | cons u us ih =>
    rw [List.map_cons, List.forall_mem_cons, List.flatMap_cons, totalRows_cons]
    rcases joinRows_cons first u tail index lead data (us.map .tensor) with
      ⟨hu, data', hdata, hstep⟩ | ⟨hu, e, -, hstep⟩
    · obtain ⟨-, hdtype⟩ := Buffer.append?_dtype hdata
      rw [hstep, ih, hdtype, Buffer.append?_elements hdata, and_iff_right hu, Nat.add_assoc,
        List.append_assoc]
    · rw [hstep]
      exact iff_of_false (fun h => by cases h) fun h => hu h.1.1

/-- Only an operand with other rows makes the loop fail. -/
theorem joinRows_answer (first : Tensor) (index : Nat) (us : List Tensor)
    (hsize : data.size = lead * tail.foldr (· * ·) 1) :
    (∃ t, joinRows first tail index lead data (us.map .tensor) = .ok t) ∨
    (¬∀ u ∈ us, u.HasRows data.dtype tail) ∧ ∃ e, e ≠ miscount ∧
      joinRows first tail index lead data (us.map .tensor) = .error e := by
  induction us generalizing index lead data with
  | nil => exact .inl ⟨⟨⟨lead :: tail⟩, data, hsize⟩, finish_eq_ok_iff.mpr ⟨rfl, rfl⟩⟩
  | cons u us ih =>
    rw [List.map_cons, List.forall_mem_cons]
    rcases joinRows_cons first u tail index lead data (us.map .tensor) with
      ⟨hu, data', hdata, hstep⟩ | ⟨hu, e, he, hstep⟩
    · obtain ⟨-, hdtype⟩ := Buffer.append?_dtype hdata
      have hsize' : data'.size = (lead + u.rows) * tail.foldr (· * ·) 1 := by
        rw [← Buffer.length_elements, Buffer.append?_elements hdata, List.length_append,
          Buffer.length_elements, Buffer.length_elements, hsize, hu.size_eq, Nat.add_mul]
      rw [hstep, and_iff_right hu, ← hdtype]
      exact ih _ hsize'
    · exact .inr ⟨fun h => hu h.1, e, he, hstep⟩

/-- A first operand with rows starts the loop, and one without rows is refused. -/
theorem concatenate_cons (first : Tensor) (vs : List Value) :
    (∃ tail, first.HasRows first.dtype tail ∧ concatenate (.tensor first :: vs) =
      joinRows first tail 1 first.rows first.data vs) ∨
    (∀ d tail, ¬first.HasRows d tail) ∧ ∃ e, e ≠ miscount ∧
      concatenate (.tensor first :: vs) = .error e := by
  have hfirst : tensorArg (.tensor first :: vs) 0 = .ok first := rfl
  rw [concatenate, hfirst]
  simp only [bind, Except.bind, List.tail_cons]
  split
  · next hdims =>
    refine .inr ⟨fun d tail h => ?_, _, ?_, rfl⟩
    · cases hdims.symm.trans h.dims_eq
    · exact (by decide : KernelError.invalid "cannot concatenate scalars" ≠ miscount)
  · next lead tail hdims =>
    have hrows := rows_of_dims hdims
    exact .inl ⟨tail, ⟨rfl, by rw [hdims, hrows]⟩, by rw [hrows]⟩

theorem concatenate_eq_ok_iff :
    concatenate (ts.map .tensor) = .ok t ↔ ts ≠ [] ∧ ∃ tail, IsJoin tail ts t := by
  cases ts with
  | nil => exact iff_of_false (fun h => by cases h) fun h => h.1 rfl
  | cons first us =>
    rw [List.map_cons]
    rcases concatenate_cons first (us.map .tensor) with ⟨tail, hfirst, hstep⟩ | ⟨hfirst, e, -, hstep⟩
    · rw [hstep, joinRows_eq_ok_iff]
      constructor
      · rintro ⟨hus, hdtype, hshape, helements⟩
        have hdtype : t.dtype = first.dtype := hdtype
        refine ⟨List.cons_ne_nil _ _, tail, List.forall_mem_cons.mpr ?_, hshape, helements⟩
        rw [hdtype]
        exact ⟨hfirst, hus⟩
      · rintro ⟨-, tail', h⟩
        obtain ⟨hfirst', hus⟩ := List.forall_mem_cons.mp h.operands
        obtain rfl := hfirst.tail_eq hfirst'
        rw [← hfirst'.dtype_eq] at hus
        exact ⟨hus, hfirst'.dtype_eq.symm, h.shape_eq, h.elements_eq⟩
    · rw [hstep]
      refine iff_of_false (fun h => by cases h) ?_
      rintro ⟨-, tail, h⟩
      exact hfirst _ _ (h.operands first List.mem_cons_self)

/-- Only operands with different rows, or none, make concatenation fail. -/
theorem concatenate_answer (ts : List Tensor) :
    (∃ t, concatenate (ts.map .tensor) = .ok t) ∨
    (¬(ts ≠ [] ∧ ∃ d tail, ∀ u ∈ ts, u.HasRows d tail)) ∧ ∃ e, e ≠ miscount ∧
      concatenate (ts.map .tensor) = .error e := by
  cases ts with
  | nil => exact .inr ⟨fun h => h.1 rfl, _, (fun he => by cases he), rfl⟩
  | cons first us =>
    rw [List.map_cons]
    rcases concatenate_cons first (us.map .tensor) with ⟨tail, hfirst, hstep⟩ | ⟨hfirst, herror⟩
    · rw [hstep]
      rcases joinRows_answer first 1 us hfirst.size_eq with hok | ⟨hus, herror⟩
      · exact .inl hok
      · refine .inr ⟨?_, herror⟩
        rintro ⟨-, d, tail', h⟩
        obtain ⟨hfirst', h⟩ := List.forall_mem_cons.mp h
        obtain rfl := hfirst.tail_eq hfirst'
        obtain rfl := hfirst'.dtype_eq
        exact hus h
    · refine .inr ⟨?_, herror⟩
      rintro ⟨-, d, tail, h⟩
      exact hfirst d tail (h first List.mem_cons_self)

/-! ## Rows of the result -/

/-- The number of rows before those of the operand at position `j`. -/
def rowOffset (ts : List Tensor) (j : Nat) : Nat := totalRows (ts.take j)

/-- Row `i` of the joined tensors is a row of `u`, the operand at position `j`. -/
structure HoldsRow (ts : List Tensor) (i j : Nat) (u : Tensor) : Prop where
  operand : ts[j]? = some u
  offset_le : rowOffset ts j ≤ i
  lt_offset : i < rowOffset ts j + u.rows

section

variable {v : Tensor} {i j : Nat}

theorem rowOffset_zero (ts : List Tensor) : rowOffset ts 0 = 0 := rfl

theorem rowOffset_succ (v : Tensor) (ts : List Tensor) (j : Nat) :
    rowOffset (v :: ts) (j + 1) = v.rows + rowOffset ts j := rfl

theorem holdsRow_zero : HoldsRow (v :: ts) i 0 u ↔ v = u ∧ i < v.rows := by
  constructor
  · rintro ⟨hv, -, hi⟩
    cases hv
    rw [rowOffset_zero, Nat.zero_add] at hi
    exact ⟨rfl, hi⟩
  · rintro ⟨rfl, hi⟩
    exact ⟨rfl, Nat.zero_le i, Nat.lt_of_lt_of_le hi (Nat.le_add_left _ _)⟩

theorem holdsRow_succ :
    HoldsRow (v :: ts) i (j + 1) u ↔ v.rows ≤ i ∧ HoldsRow ts (i - v.rows) j u := by
  constructor
  · rintro ⟨hu, hle, hlt⟩
    rw [rowOffset_succ] at hle hlt
    exact ⟨by omega, hu, by omega, by omega⟩
  · rintro ⟨hv, hu, hle, hlt⟩
    exact ⟨hu, by rw [rowOffset_succ]; omega, by rw [rowOffset_succ]; omega⟩

theorem exists_holdsRow_iff : (∃ j u, HoldsRow ts i j u) ↔ i < totalRows ts := by
  induction ts generalizing i with
  | nil =>
    refine iff_of_false ?_ (Nat.not_lt_zero i)
    rintro ⟨j, u, h⟩
    cases h.operand
  | cons v ts ih =>
    rw [totalRows_cons]
    constructor
    · rintro ⟨j, u, h⟩
      cases j with
      | zero => exact Nat.lt_of_lt_of_le (holdsRow_zero.mp h).2 (Nat.le_add_right _ _)
      | succ j =>
        have hlt := ih.mp ⟨j, u, (holdsRow_succ.mp h).2⟩
        omega
    · intro hi
      by_cases hv : i < v.rows
      · exact ⟨0, v, holdsRow_zero.mpr ⟨rfl, hv⟩⟩
      · obtain ⟨j, u, h⟩ := ih.mpr (show i - v.rows < totalRows ts by omega)
        exact ⟨j + 1, u, holdsRow_succ.mpr ⟨Nat.not_lt.mp hv, h⟩⟩

/-- The operand that a row comes from is unique. -/
theorem HoldsRow.unique {j' : Nat} {u' : Tensor} (h : HoldsRow ts i j u) (h' : HoldsRow ts i j' u') :
    j = j' := by
  induction ts generalizing i j j' with
  | nil => cases h.operand
  | cons v ts ih =>
    cases j with
    | zero =>
      cases j' with
      | zero => rfl
      | succ j' =>
        exact absurd (holdsRow_zero.mp h).2 (Nat.not_lt.mpr (holdsRow_succ.mp h').1)
    | succ j =>
      cases j' with
      | zero => exact absurd (holdsRow_zero.mp h').2 (Nat.not_lt.mpr (holdsRow_succ.mp h).1)
      | succ j' => rw [ih (holdsRow_succ.mp h).2 (holdsRow_succ.mp h').2]

/-- The elements of a row are found in the operand that it comes from. -/
theorem HoldsRow.getElem?_elements {w p : Nat} (h : HoldsRow ts i j u)
    (hsize : ∀ v ∈ ts, v.data.size = v.rows * w) (hp : p < w) :
    (ts.flatMap fun v => v.data.elements)[i * w + p]? =
      u.data.elements[(i - rowOffset ts j) * w + p]? := by
  induction ts generalizing i j with
  | nil => cases h.operand
  | cons v ts ih =>
    obtain ⟨hv, hsize⟩ := List.forall_mem_cons.mp hsize
    rw [List.flatMap_cons]
    cases j with
    | zero =>
      obtain ⟨rfl, hi⟩ := holdsRow_zero.mp h
      have hlt : i * w + p < v.data.elements.length := by
        rw [Buffer.length_elements, hv, Nat.mul_comm i, Nat.mul_comm v.rows, Nat.add_comm]
        exact Shape.add_mul_lt hp hi
      exact List.getElem?_append_left hlt
    | succ j =>
      obtain ⟨hle, h⟩ := holdsRow_succ.mp h
      have hmul : v.rows * w ≤ i * w := Nat.mul_le_mul_right w hle
      have hlen : v.data.elements.length ≤ i * w + p := by
        rw [Buffer.length_elements, hv]
        exact Nat.le_add_right_of_le hmul
      have hsub : i * w + p - v.data.elements.length = (i - v.rows) * w + p := by
        rw [Buffer.length_elements, hv, Nat.sub_mul]
        omega
      rw [List.getElem?_append_right hlen, hsub, ih h hsize, rowOffset_succ, Nat.sub_sub]

/-- The element at a row of a tensor and a multi-index of the row. -/
theorem at?_row {n : Nat} (hdims : t.shape.dims = n :: tail) (hi : i < n) (rest : List Nat) :
    t.at? (i :: rest) = ((Shape.mk tail).position? rest).bind fun p =>
      t.data.elements[i * tail.foldr (· * ·) 1 + p]? := by
  rw [at?, Shape.position?, hdims, Shape.positionOuter?, if_pos hi, Shape.position?]
  cases Shape.positionOuter? tail rest with
  | none => rfl
  | some p => exact (Buffer.getElem?_elements _ _).symm

theorem IsJoin.at?_row (h : IsJoin tail ts t) (hrow : HoldsRow ts i j u)
    (rest : List Nat) : t.at? (i :: rest) = u.at? ((i - rowOffset ts j) :: rest) := by
  have hu := h.operands u (List.mem_of_getElem? hrow.operand)
  have hi : i < totalRows ts := exists_holdsRow_iff.mp ⟨j, u, hrow⟩
  have hlast : i - rowOffset ts j < u.rows := by
    have := hrow.lt_offset
    have := hrow.offset_le
    omega
  rw [Tensor.at?_row h.dims_eq hi, Tensor.at?_row hu.dims_eq hlast]
  cases hp : (Shape.mk tail).position? rest with
  | none => rfl
  | some p =>
    rw [Option.bind_some, Option.bind_some, h.elements_eq]
    exact hrow.getElem?_elements (fun v hv => (h.operands v hv).size_eq) (Shape.position?_lt hp)

end

/-! ## Joins of joins -/

theorem exists_isJoin (hne : ts ≠ []) (h : ∀ u ∈ ts, u.HasRows d tail) :
    ∃ t, concatenate (ts.map .tensor) = .ok t ∧ t.dtype = d ∧ IsJoin tail ts t := by
  rcases concatenate_answer ts with ⟨t, ht⟩ | ⟨hnot, -⟩
  · obtain ⟨-, tail', hjoin⟩ := concatenate_eq_ok_iff.mp ht
    obtain ⟨u, hu⟩ := List.exists_mem_of_ne_nil ts hne
    obtain rfl := (h u hu).tail_eq (hjoin.operands u hu)
    exact ⟨t, ht, (hjoin.operands u hu).dtype_eq.symm.trans (h u hu).dtype_eq, hjoin⟩
  · exact absurd ⟨hne, d, tail, h⟩ hnot

theorem IsJoin.pair_iff {a b : Tensor} (ha : IsJoin tail ts a) (hb : IsJoin tail us b)
    (had : a.dtype = t.dtype) (hbd : b.dtype = t.dtype) :
    IsJoin tail [a, b] t ↔ IsJoin tail (ts ++ us) t := by
  have hrows : totalRows [a, b] = totalRows (ts ++ us) := by
    rw [totalRows_append, ← ha.rows_eq, ← hb.rows_eq]
    rfl
  have helements : ([a, b].flatMap fun u => u.data.elements) =
      (ts ++ us).flatMap fun u => u.data.elements := by
    rw [List.flatMap_append, ← ha.elements_eq, ← hb.elements_eq, List.flatMap_cons,
      List.flatMap_singleton]
  constructor
  · intro h
    refine ⟨List.forall_mem_append.mpr ⟨?_, ?_⟩, hrows ▸ h.shape_eq, helements ▸ h.elements_eq⟩
    · exact had ▸ ha.operands
    · exact hbd ▸ hb.operands
  · intro h
    refine ⟨List.forall_mem_cons.mpr ⟨?_, List.forall_mem_singleton.mpr ?_⟩, hrows ▸ h.shape_eq,
      helements ▸ h.elements_eq⟩
    · exact had ▸ ha.hasRows
    · exact hbd ▸ hb.hasRows

/-- Joining two joins joins all their operands. -/
theorem concatenate_append (hts : ts ≠ []) (hus : us ≠ []) :
    concatenate ((ts ++ us).map .tensor) = .ok t ↔ ∃ a b, concatenate (ts.map .tensor) = .ok a ∧
      concatenate (us.map .tensor) = .ok b ∧ concatenate ([a, b].map .tensor) = .ok t := by
  constructor
  · intro h
    obtain ⟨-, tail, h⟩ := concatenate_eq_ok_iff.mp h
    obtain ⟨hts', hus'⟩ := List.forall_mem_append.mp h.operands
    obtain ⟨a, hcall, had, ha⟩ := exists_isJoin hts hts'
    obtain ⟨b, hcall', hbd, hb⟩ := exists_isJoin hus hus'
    refine ⟨a, b, hcall, hcall', concatenate_eq_ok_iff.mpr ⟨List.cons_ne_nil _ _, tail, ?_⟩⟩
    exact (ha.pair_iff hb had hbd).mpr h
  · rintro ⟨a, b, ha, hb, h⟩
    obtain ⟨-, tail, h⟩ := concatenate_eq_ok_iff.mp h
    obtain ⟨har, hbr⟩ := List.forall_mem_cons.mp h.operands
    rw [List.forall_mem_singleton] at hbr
    obtain ⟨-, taila, ha⟩ := concatenate_eq_ok_iff.mp ha
    obtain ⟨-, tailb, hb⟩ := concatenate_eq_ok_iff.mp hb
    obtain rfl := har.tail_eq ha.hasRows
    obtain rfl := hbr.tail_eq hb.hasRows
    have hjoin := (ha.pair_iff hb har.dtype_eq hbr.dtype_eq).mp h
    exact concatenate_eq_ok_iff.mpr ⟨List.append_ne_nil_of_left_ne_nil hts us, _, hjoin⟩

end Tensor

/-- How a kernel answers tensors when it joins them along the first axis. -/
structure Kernel.JoinsRows (k : Kernel) (ts : List Tensor) : Prop where
  succeeds_iff : (∃ v, k.call (ts.map .tensor) = .ok v) ↔
    ts ≠ [] ∧ ∃ d tail, ∀ u ∈ ts, u.HasRows d tail
  computes : ∀ v, k.call (ts.map .tensor) = .ok v → ∃ t tail, v = .tensor t ∧
    (∀ u ∈ ts, u.HasRows t.dtype tail) ∧ t.shape = ⟨Tensor.totalRows ts :: tail⟩ ∧
    ∀ i < Tensor.totalRows ts, ∃ j u, Tensor.HoldsRow ts i j u ∧
      (∀ j' u', Tensor.HoldsRow ts i j' u' → j' = j) ∧
      ∀ rest, t.at? (i :: rest) = u.at? ((i - Tensor.rowOffset ts j) :: rest)
  /-- The result never has the wrong number of elements. -/
  fits : k.call (ts.map .tensor) ≠
    .error (.invalid "result element count does not match its shape")
  /-- Joining in two steps gives the same tensor, or none as well. -/
  appends : ∀ xs ys, ts = xs ++ ys → xs ≠ [] → ys ≠ [] → ∀ v,
    k.call (ts.map .tensor) = .ok v ↔ ∃ a b, k.call (xs.map .tensor) = .ok a ∧
      k.call (ys.map .tensor) = .ok b ∧ k.call [a, b] = .ok v

/-- Concatenation joins tensors along the first axis. It succeeds exactly on one or more tensors that
have a first axis, one element type and the same other axes. The result has all their rows, in the order
of the operands: row `i` is row `i` less the rows of the operands before it, in the one operand whose
rows it falls into. The count of its elements is never wrong, and joining two joins joins all their
operands. -/
theorem concatenation_joins_rows (ts : List Tensor) :
    ∃ k, KernelRegistry.builtin.get? "concatenate" = some k ∧ k.JoinsRows ts := by
  refine ⟨_, rfl, ?_, ?_, ?_, ?_⟩
  · simp only [Kernel.ofPacked_call_eq_ok]
    constructor
    · rintro ⟨_, t, ht, -⟩
      obtain ⟨hne, tail, hjoin⟩ := Tensor.concatenate_eq_ok_iff.mp ht
      exact ⟨hne, t.dtype, tail, hjoin.operands⟩
    · rintro ⟨hne, d, tail, h⟩
      obtain ⟨t, ht, -⟩ := Tensor.exists_isJoin hne h
      exact ⟨_, t, ht, rfl⟩
  · intro v hv
    obtain ⟨t, ht, rfl⟩ := Kernel.ofPacked_call_eq_ok.mp hv
    obtain ⟨-, tail, hjoin⟩ := Tensor.concatenate_eq_ok_iff.mp ht
    refine ⟨t, tail, rfl, hjoin.operands, hjoin.shape_eq, fun i hi => ?_⟩
    obtain ⟨j, u, hrow⟩ := Tensor.exists_holdsRow_iff.mpr hi
    exact ⟨j, u, hrow, fun j' u' hrow' => hrow'.unique hrow, hjoin.at?_row hrow⟩
  · intro h
    have hcall : (Kernel.ofPacked "concatenate" Tensor.concatenate).call (ts.map .tensor) =
        Value.tensor <$> Tensor.concatenate (ts.map .tensor) := rfl
    rcases Tensor.concatenate_answer ts with ⟨t, ht⟩ | ⟨-, e, he, herror⟩
    · rw [hcall, ht] at h
      cases h
    · rw [hcall, herror] at h
      cases h
      exact he rfl
  · rintro xs ys rfl hxs hys v
    simp only [Kernel.ofPacked_call_eq_ok, Tensor.concatenate_append hxs hys]
    constructor
    · rintro ⟨t, ⟨a, b, ha, hb, ht⟩, rfl⟩
      exact ⟨_, _, ⟨a, ha, rfl⟩, ⟨b, hb, rfl⟩, t, ht, rfl⟩
    · rintro ⟨_, _, ⟨a, ha, rfl⟩, ⟨b, hb, rfl⟩, t, ht, rfl⟩
      exact ⟨t, ⟨a, b, ha, hb, ht⟩, rfl⟩

end TensorIR
