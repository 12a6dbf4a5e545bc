import TensorIR.Proofs.Broadcasting
import TensorIR.Proofs.IntegerElements

/-! Division of integer tensors.

A division is refused as soon as one element of the result would be divided by zero. Every element of
the divisor is used for some element of the result, unless the result is empty, so that this happens
exactly if the divisor has a zero anywhere and the result has an element. Quotients drop the fraction,
and wrap around at the width of the element type. -/

namespace TensorIR

/-- The quotient of two integers of one width without its fraction, modulo the number of integers of
the width. -/
def Element.Quotient : (x y z : Element) → Prop
  | .int32 x, .int32 y, .int32 z => z.toInt = (x.toInt.tdiv y.toInt).bmod Int32.size
  | .int64 x, .int64 y, .int64 z => z.toInt = (x.toInt.tdiv y.toInt).bmod Int64.size
  | _, _, _ => False

/-- Some element of the tensor is the integer zero. -/
def Tensor.HasZero (t : Tensor) : Prop := ∃ index x, t.at? index = some x ∧ x.toInt? = some 0

/-- The elements of the second operand that are paired off are all of them, unless there are no
pairs. -/
theorem Shape.Alignment.exists_pairs_iff {α : Type} {a b out : Shape} {x y : Array α}
    (hout : a.broadcast? b = some out) (hx : x.size = a.numel) (hy : y.size = b.numel)
    {p : α → Prop} : (∃ pair ∈ (Alignment.of hout).pairs x y hx hy, p pair.2) ↔
      0 < out.numel ∧ ∃ v ∈ y, p v := by
  constructor
  · rintro ⟨pair, hpair, hp⟩
    obtain ⟨k, hk, hpair⟩ := List.getElem_of_mem hpair
    rw [length_pairs] at hk
    obtain ⟨u, v, hu, hv⟩ := exists_operands hout hx hy hk
    have hmeet := List.getElem?_eq_some_iff.mp (pairs_getElem? hout hx hy hk hu hv)
    cases hmeet.2.symm.trans hpair
    exact ⟨Nat.zero_lt_of_lt hk, v, Array.mem_of_getElem? hv, hp⟩
  · rintro ⟨hpos, v, hv, hp⟩
    obtain ⟨j, hj⟩ := Array.getElem?_of_mem hv
    have hjb : j < b.numel := hy ▸ (Array.getElem?_eq_some_iff.mp hj).1
    obtain ⟨k, hk, rfl⟩ := (stretches_of_broadcast? hout).2.exists_readIndex hpos hjb
    obtain ⟨u, -, hu, -⟩ := exists_operands hout hx hy hk
    exact ⟨_, List.mem_of_getElem? (pairs_getElem? hout hx hy hk hu hj), hp⟩

/-! ## Answers -/

/-- A computation that refuses some inputs, always for the same reason, refuses a list exactly if it
has such an input. -/
theorem mapM_of_refusals {α β ε : Type} {g : α → Except ε β} {f : α → β} {refused : α → Prop}
    [DecidablePred refused] {e : ε} (h : ∀ x, g x = if refused x then .error e else .ok (f x))
    (xs : List α) :
    ((∃ x ∈ xs, refused x) → xs.mapM g = .error e) ∧
    ((¬∃ x ∈ xs, refused x) → xs.mapM g = .ok (xs.map f)) := by
  induction xs with
  | nil => exact ⟨by simp, fun _ => rfl⟩
  | cons x xs ih =>
    rw [List.mapM_cons, h]
    by_cases hx : refused x
    · rw [if_pos hx]
      exact ⟨fun _ => rfl, fun hnone => absurd ⟨x, List.mem_cons_self, hx⟩ hnone⟩
    · rw [if_neg hx]
      simp only [List.mem_cons, exists_eq_or_imp, hx, false_or]
      constructor
      · intro hxs
        rw [ih.1 hxs]
        rfl
      · intro hxs
        rw [ih.2 hxs]
        rfl

theorem divide_int32 (u v : Int32) : NumericElement.arithmetic .divide u v =
    if v.toInt = 0 then .error (.invalid "integer division by zero") else .ok (u / v) := by
  simp only [← Int32.toInt_zero, Int32.toInt_inj]
  rfl

theorem divide_int64 (u v : Int64) : NumericElement.arithmetic .divide u v =
    if v.toInt = 0 then .error (.invalid "integer division by zero") else .ok (u / v) := by
  simp only [← Int64.toInt_zero, Int64.toInt_inj]
  rfl

namespace Tensor

variable {α : Type} [TensorElement α] [IntegerElement α] {a b : Tensor} {out : Shape} {x y : Array α}

theorem hasZero_iff (hb : b.data = TensorElement.buffer y) :
    b.HasZero ↔ ∃ v ∈ y, IntegerElement.toInt v = 0 := by
  constructor
  · rintro ⟨index, e, he, hzero⟩
    obtain ⟨v, hv, rfl⟩ := (exists_at?_iff hb).mp ⟨index, he⟩
    rw [IntegerElement.toInt?_element] at hzero
    exact ⟨v, hv, Option.some.inj hzero⟩
  · rintro ⟨v, hv, hzero⟩
    obtain ⟨index, hindex⟩ := (exists_at?_iff hb).mpr ⟨v, hv, rfl⟩
    exact ⟨index, _, hindex, by rw [IntegerElement.toInt?_element, hzero]⟩

/-- What division answers on buffers of one integer type. -/
theorem divide_buffers [NumericElement α] (hout : a.shape.broadcast? b.shape = some out)
    (ha : a.data = TensorElement.buffer x) (hb : b.data = TensorElement.buffer y)
    {hx : x.size = a.shape.numel} {hy : y.size = b.shape.numel} {f : α → α → α}
    (hdivide : ∀ u v : α, NumericElement.arithmetic .divide u v =
      if IntegerElement.toInt v = 0 then .error (.invalid "integer division by zero")
      else .ok (f u v))
    (hquotient : ∀ u v, Element.Quotient (TensorElement.element u) (TensorElement.element v)
      (TensorElement.element (f u v))) :
    (0 < out.numel ∧ b.HasZero →
      (TensorElement.buffer <$> Arithmetic.divide.applyAll
        ((Shape.Alignment.of hout).pairs x y hx hy) >>= finish out) =
          .error (.invalid "integer division by zero")) ∧
    (¬(0 < out.numel ∧ b.HasZero) → ∃ t,
      (TensorElement.buffer <$> Arithmetic.divide.applyAll
        ((Shape.Alignment.of hout).pairs x y hx hy) >>= finish out) = .ok t ∧
          t.dtype = a.dtype ∧ ShowsAll Element.Quotient a b t out) := by
  rw [hasZero_iff hb, ← Shape.Alignment.exists_pairs_iff hout hx hy]
  obtain ⟨hrefused, hcomputed⟩ := mapM_of_refusals
    (fun pair : α × α => hdivide pair.1 pair.2) ((Shape.Alignment.of hout).pairs x y hx hy)
  constructor
  · intro hzero
    rw [Arithmetic.applyAll, hrefused hzero]
    rfl
  · intro hzero
    obtain ⟨t, ht, hdtype, hshows⟩ := finish_pairs hout ha hb hx hy hquotient
    rw [Arithmetic.applyAll, hcomputed hzero]
    exact ⟨t, ht, hdtype.trans (dtype_of_data ha).symm, hshows⟩

/-- What division answers on tensors of one integer type. -/
theorem divide_integers (hint : a.dtype.isInt = true) (hsame : a.dtype = b.dtype)
    (hout : a.shape.broadcast? b.shape = some out) :
    (0 < out.numel ∧ b.HasZero →
      arithmetic .divide a b = .error (.invalid "integer division by zero")) ∧
    (¬(0 < out.numel ∧ b.HasZero) → ∃ t, arithmetic .divide a b = .ok t ∧ t.dtype = a.dtype ∧
      ShowsAll Element.Quotient a b t out) := by
  unfold arithmetic
  rw [align_of_broadcast? hout]
  obtain ⟨shape, data, hsize⟩ := a
  obtain ⟨shape', data', hsize'⟩ := b
  rcases DType.eq_of_isInt hint with hd | hd
  · obtain ⟨x, rfl⟩ := IntegerElement.exists_buffer (α := Int32) hd
    obtain ⟨y, rfl⟩ := IntegerElement.exists_buffer (α := Int32) (hsame.symm.trans hd)
    exact divide_buffers hout rfl rfl divide_int32 Int32.toInt_div
  · obtain ⟨x, rfl⟩ := IntegerElement.exists_buffer (α := Int64) hd
    obtain ⟨y, rfl⟩ := IntegerElement.exists_buffer (α := Int64) (hsame.symm.trans hd)
    exact divide_buffers hout rfl rfl divide_int64 Int64.toInt_div

end Tensor

/-- How a kernel answers two integer tensors that broadcast to `out` when it divides them. -/
structure Kernel.DividesIntegers (k : Kernel) (a b : Tensor) (out : Shape) : Prop where
  fails_iff : k.call [.tensor a, .tensor b] = .error (.invalid "integer division by zero") ↔
    0 < out.numel ∧ b.HasZero
  computes : ¬(0 < out.numel ∧ b.HasZero) →
    ∃ t, k.call [.tensor a, .tensor b] = .ok (.tensor t) ∧ t.dtype = a.dtype ∧
      Tensor.ShowsAll Element.Quotient a b t out
  /-- Every element of the result has a multi-index. -/
  covers : ∀ p < out.numel, ∃ index, out.position? index = some p
  /-- The axes of the operands face axes of the result. -/
  rank_le : a.shape.rank ≤ out.rank ∧ b.shape.rank ≤ out.rank
  /-- The places to read are found by walks that stay within the buffers. -/
  walked : a.Walked out ∧ b.Walked out
  /-- In machine words, with every number and every read checked, there is an answer exactly if the
  products of sizes fit, and it is the same. Nothing else can stop the division. -/
  in_words : ∀ answer, Tensor.arithmeticInWords? .divide a b = some answer ↔
    (out.WalkFits a.shape ∧ out.WalkFits b.shape) ∧
      k.call [.tensor a, .tensor b] = Value.tensor <$> answer

theorem map_tensor_inj {x y : Except KernelError Tensor} :
    Value.tensor <$> x = Value.tensor <$> y ↔ x = y := by
  refine ⟨fun h => ?_, congrArg _⟩
  cases x <;> cases y <;> cases h <;> rfl

theorem Kernel.DividesIntegers.divide {name : String} {a b : Tensor} {out : Shape}
    (hint : a.dtype.isInt = true) (hsame : a.dtype = b.dtype)
    (hout : a.shape.broadcast? b.shape = some out) :
    (Kernel.ofBinary name (Tensor.arithmetic .divide)).DividesIntegers a b out := by
  obtain ⟨hrefused, hcomputed⟩ := Tensor.divide_integers hint hsame hout
  have hcall : (Kernel.ofBinary name (Tensor.arithmetic .divide)).call [.tensor a, .tensor b] =
      Value.tensor <$> Tensor.arithmetic .divide a b := rfl
  have hcomputes : ¬(0 < out.numel ∧ b.HasZero) →
      ∃ t, (Kernel.ofBinary name (Tensor.arithmetic .divide)).call [.tensor a, .tensor b] =
        .ok (.tensor t) ∧ t.dtype = a.dtype ∧ Tensor.ShowsAll Element.Quotient a b t out := by
    intro hzero
    obtain ⟨t, ht, hdtype, hshows⟩ := hcomputed hzero
    exact ⟨t, by rw [hcall, ht]; rfl, hdtype, hshows⟩
  have hrank := Shape.broadcast?_rank hout
  refine {
    fails_iff := ⟨fun hfails => ?_, fun hzero => by rw [hcall, hrefused hzero]; rfl⟩
    computes := hcomputes
    covers := fun _ => Shape.exists_position?
    rank_le := by omega
    walked := Tensor.walked_of_broadcast? hout
    in_words := fun answer => ?_ }
  · by_contra hzero
    obtain ⟨t, ht, -⟩ := hcomputes hzero
    cases hfails.symm.trans ht
  · rw [Tensor.arithmeticInWords?_eq_some_iff hout, hcall, map_tensor_inj, eq_comm]

def noRows : Tensor := ⟨⟨[0, 1]⟩, .int32 #[], rfl⟩

end TensorIR
