import TensorIR.Proofs.IndexWalks
import TensorIR.Proofs.StampedTypes

/-! Elementwise kernels on two tensors.

Shapes that cannot be broadcast together are refused first, then element types that do not fit. All
other tensors have a result, of the broadcast shape, whose element at a multi-index is computed from
the elements of the operands at the restricted multi-indices. Integers are computed with exactly and
wrap around at the width of the element type. -/

namespace TensorIR

inductive Element where
  | float32 (x : Float32)
  | float64 (x : Float)
  | int32 (x : Int32)
  | int64 (x : Int64)
  | bool (x : Bool)

def Buffer.get? : Buffer → Nat → Option Element
  | .float32 data, k => data[k]?.map .float32
  | .float64 data, k => data[k]?.map .float64
  | .int32 data, k => data[k]?.map .int32
  | .int64 data, k => data[k]?.map .int64
  | .bool data, k => data[k]?.map .bool

/-- The element at a multi-index of the tensor. -/
def Tensor.at? (t : Tensor) (index : List Nat) : Option Element :=
  (t.shape.position? index).bind t.data.get?

/-! ## Operations on elements -/

def Arithmetic.kernelName : Arithmetic → String
  | .add => "add"
  | .subtract => "subtract"
  | .multiply => "multiply"
  | .divide => "divide"

def Comparison.kernelName : Comparison → String
  | .less => "less"
  | .lessEqual => "less_equal"
  | .greater => "greater"
  | .greaterEqual => "greater_equal"
  | .equal => "equal"
  | .notEqual => "not_equal"

def Arithmetic.over {α : Type} [Add α] [Sub α] [Mul α] [Div α] : Arithmetic → α → α → α
  | .add, x, y => x + y
  | .subtract, x, y => x - y
  | .multiply, x, y => x * y
  | .divide, x, y => x / y

def Comparison.over {α : Type} [LT α] [LE α] [BEq α] [DecidableLT α] [DecidableLE α] :
    Comparison → α → α → Bool
  | .less, x, y => x < y
  | .lessEqual, x, y => x ≤ y
  | .greater, x, y => x > y
  | .greaterEqual, x, y => x ≥ y
  | .equal, x, y => x == y
  | .notEqual, x, y => x != y

/-- The operation on elements of one number type. On integers it is exact, modulo the number of
integers of the type. -/
def Arithmetic.Yields (op : Arithmetic) : (x y z : Element) → Prop
  | .float32 x, .float32 y, .float32 z => z = op.over x y
  | .float64 x, .float64 y, .float64 z => z = op.over x y
  | .int32 x, .int32 y, .int32 z => z.toInt = (op.over x.toInt y.toInt).bmod Int32.size
  | .int64 x, .int64 y, .int64 z => z.toInt = (op.over x.toInt y.toInt).bmod Int64.size
  | _, _, _ => False

/-- The comparison of elements of one type, where `false` is below `true`. -/
def Comparison.Yields (op : Comparison) : (x y z : Element) → Prop
  | .float32 x, .float32 y, .bool z => z = op.over x y
  | .float64 x, .float64 y, .bool z => z = op.over x y
  | .int32 x, .int32 y, .bool z => z = op.over x.toInt y.toInt
  | .int64 x, .int64 y, .bool z => z = op.over x.toInt y.toInt
  | .bool x, .bool y, .bool z => z = op.over x.toNat y.toNat
  | _, _, _ => False

/-- The element types of buffers. -/
class TensorElement (α : Type) where
  dtype : DType
  buffer : Array α → Buffer
  element : α → Element
  dtype_buffer : ∀ data, (buffer data).dtype = dtype
  size_buffer : ∀ data, (buffer data).size = data.size
  get?_buffer : ∀ data k, (buffer data).get? k = data[k]?.map element

instance : TensorElement Float32 :=
  ⟨.float32, .float32, .float32, fun _ => rfl, fun _ => rfl, fun _ _ => rfl⟩

instance : TensorElement Float :=
  ⟨.float64, .float64, .float64, fun _ => rfl, fun _ => rfl, fun _ _ => rfl⟩

instance : TensorElement Int32 :=
  ⟨.int32, .int32, .int32, fun _ => rfl, fun _ => rfl, fun _ _ => rfl⟩

instance : TensorElement Int64 :=
  ⟨.int64, .int64, .int64, fun _ => rfl, fun _ => rfl, fun _ _ => rfl⟩

instance : TensorElement Bool := ⟨.bool, .bool, .bool, fun _ => rfl, fun _ => rfl, fun _ _ => rfl⟩

/-! ## Pairs of elements -/

namespace Shape

variable {α : Type} {a b out : Shape} {x y : Array α} {k : Nat}

theorem length_places (h : a.StretchesTo out) : (places h).length = out.numel := by
  rw [places, List.length_pmap, broadcastIndices_eq h, List.length_map, List.length_range]

theorem places_getElem? (h : a.StretchesTo out) (hk : k < out.numel) :
    (places h)[k]? = some ⟨out.readIndex a k, h.readIndex_lt hk⟩ := by
  have hindex : (out.broadcastIndices a)[k]? = some (out.readIndex a k) := by
    rw [broadcastIndices_eq h, List.getElem?_map, List.getElem?_range hk, Option.map_some]
  rw [places, List.getElem?_pmap, Option.pmap_eq_some_iff]
  exact ⟨_, _, hindex, rfl⟩

namespace Alignment

/-- At every place of the result an element of each operand is read. -/
theorem exists_operands (hout : a.broadcast? b = some out) (hx : x.size = a.numel)
    (hy : y.size = b.numel) (hk : k < out.numel) :
    ∃ u v, x[out.readIndex a k]? = some u ∧ y[out.readIndex b k]? = some v := by
  obtain ⟨ha, hb⟩ := stretches_of_broadcast? hout
  have hxk : out.readIndex a k < x.size := hx ▸ ha.readIndex_lt hk
  have hyk : out.readIndex b k < y.size := hy ▸ hb.readIndex_lt hk
  exact ⟨_, _, Array.getElem?_eq_getElem hxk, Array.getElem?_eq_getElem hyk⟩

variable (hout : a.broadcast? b = some out) (hx : x.size = a.numel) (hy : y.size = b.numel)

theorem length_pairs : ((of hout).pairs x y hx hy).length = out.numel := by
  rw [pairs, of, List.length_zipWith, length_places, length_places, Nat.min_self]

theorem pairs_getElem? (hk : k < out.numel) {u v : α} (hu : x[out.readIndex a k]? = some u)
    (hv : y[out.readIndex b k]? = some v) : ((of hout).pairs x y hx hy)[k]? = some (u, v) := by
  obtain ⟨_, rfl⟩ := Array.getElem?_eq_some_iff.mp hu
  obtain ⟨_, rfl⟩ := Array.getElem?_eq_some_iff.mp hv
  rw [pairs, of, List.getElem?_zipWith, places_getElem? _ hk, places_getElem? _ hk]
  rfl

end Alignment

end Shape

/-- The tensor has the shape `out` and shows at every multi-index what `yields` relates to the elements
of the operands at the restricted multi-indices. -/
def Tensor.ShowsAll (yields : (x y z : Element) → Prop) (a b t : Tensor) (out : Shape) : Prop :=
  t.shape = out ∧ ∀ index, (out.position? index).isSome → ∃ x y z,
    a.at? (a.shape.restrict index) = some x ∧ b.at? (b.shape.restrict index) = some y ∧
      t.at? index = some z ∧ yields x y z

namespace Tensor

variable {α β : Type} [TensorElement α] [TensorElement β] {a b t : Tensor} {out : Shape}
  {x y : Array α}

theorem at?_restrict (ha : a.shape.StretchesTo out) {index : List Nat} {k : Nat}
    (hk : out.position? index = some k) :
    a.at? (a.shape.restrict index) = a.data.get? (out.readIndex a.shape k) := by
  rw [at?, ha.position?_restrict hk, Option.bind_some]

theorem size_of_data (ha : a.data = TensorElement.buffer x) : x.size = a.shape.numel := by
  rw [← TensorElement.size_buffer, ← ha, a.size_eq]

theorem dtype_of_data (ha : a.data = TensorElement.buffer x) : a.dtype = TensorElement.dtype α := by
  rw [dtype, ha, TensorElement.dtype_buffer]

/-- The results of all pairs fill a tensor of the broadcast shape, and each one lies where its pair
was read for. -/
theorem finish_pairs (hout : a.shape.broadcast? b.shape = some out)
    (ha : a.data = TensorElement.buffer x) (hb : b.data = TensorElement.buffer y)
    (hx : x.size = a.shape.numel) (hy : y.size = b.shape.numel) {f : α → α → β}
    {yields : (x y z : Element) → Prop} (hyields : ∀ u v, yields (TensorElement.element u)
      (TensorElement.element v) (TensorElement.element (f u v))) :
    ∃ t, finish out (TensorElement.buffer
        (((Shape.Alignment.of hout).pairs x y hx hy).map fun pair => f pair.1 pair.2).toArray) =
          .ok t ∧
      t.dtype = TensorElement.dtype β ∧ ShowsAll yields a b t out := by
  obtain ⟨hsa, hsb⟩ := Shape.stretches_of_broadcast? hout
  have hsize : (TensorElement.buffer (((Shape.Alignment.of hout).pairs x y hx hy).map fun pair =>
      f pair.1 pair.2).toArray).size = out.numel := by
    rw [TensorElement.size_buffer, List.size_toArray, List.length_map,
      Shape.Alignment.length_pairs]
  refine ⟨⟨out, _, hsize⟩, ?_, TensorElement.dtype_buffer _, rfl, fun index hindex => ?_⟩
  · exact finish_eq_ok_iff.mpr ⟨rfl, rfl⟩
  · obtain ⟨k, hk⟩ := Option.isSome_iff_exists.mp hindex
    have hlt := Shape.position?_lt hk
    obtain ⟨u, v, hu, hv⟩ := Shape.Alignment.exists_operands hout hx hy hlt
    have hpair := Shape.Alignment.pairs_getElem? hout hx hy hlt hu hv
    refine ⟨_, _, _, ?_, ?_, ?_, hyields u v⟩
    · rw [at?_restrict hsa hk, ha, TensorElement.get?_buffer, hu, Option.map_some]
    · rw [at?_restrict hsb hk, hb, TensorElement.get?_buffer, hv, Option.map_some]
    · rw [at?, hk, Option.bind_some, TensorElement.get?_buffer, List.getElem?_toArray,
        List.getElem?_map, hpair, Option.map_some, Option.map_some]

end Tensor

/-! ## The answer of a kernel -/

/-- The answer of an operation that computes element by element, on elements of the types that it
`accepts`. -/
inductive Tensor.Answer (accepts : DType → Prop) (result : DType → DType)
    (yields : (x y z : Element) → Prop) (a b : Tensor) : Except KernelError Tensor → Prop
  | broadcast {lhs rhs : String} (hnone : a.shape.broadcast? b.shape = none) :
    Answer accepts result yields a b (.error (.broadcast lhs rhs))
  | dtype {out : Shape} {detail : String} (hout : a.shape.broadcast? b.shape = some out)
    (hmisfit : a.dtype ≠ b.dtype ∨ ¬ accepts a.dtype) :
    Answer accepts result yields a b (.error (.dtype detail))
  | computed {out : Shape} {t : Tensor} (hout : a.shape.broadcast? b.shape = some out)
    (hsame : a.dtype = b.dtype) (haccepts : accepts a.dtype) (hdtype : t.dtype = result a.dtype)
    (hshows : ShowsAll yields a b t out) : Answer accepts result yields a b (.ok t)

/-- How a kernel answers two tensors when it computes element by element. It knows the element types
`accepts`, has results of type `result`, and `yields` relates the elements of the operands to that of
the result. -/
structure Kernel.Elementwise (k : Kernel) (accepts : DType → Prop) (result : DType → DType)
    (yields : (x y z : Element) → Prop) (a b : Tensor) : Prop where
  broadcast_error : (∃ lhs rhs, k.call [.tensor a, .tensor b] = .error (.broadcast lhs rhs)) ↔
    a.shape.broadcast? b.shape = none
  dtype_error : ∀ out, a.shape.broadcast? b.shape = some out →
    ((∃ detail, k.call [.tensor a, .tensor b] = .error (.dtype detail)) ↔
      a.dtype ≠ b.dtype ∨ ¬ accepts a.dtype)
  computes : ∀ out, a.shape.broadcast? b.shape = some out → a.dtype = b.dtype → accepts a.dtype →
    ∃ t, k.call [.tensor a, .tensor b] = .ok (.tensor t) ∧ t.dtype = result a.dtype ∧
      Tensor.ShowsAll yields a b t out
  /-- Every element of the result has a multi-index. -/
  covers : ∀ out, a.shape.broadcast? b.shape = some out → ∀ k < out.numel,
    ∃ index, out.position? index = some k
  /-- The places to read are found by walks that stay within the buffers. -/
  walked : ∀ out, a.shape.broadcast? b.shape = some out → a.Walked out ∧ b.Walked out
  /-- The result never has the wrong number of elements. -/
  fits : ∀ detail, k.call [.tensor a, .tensor b] ≠ .error (.invalid detail)

theorem Kernel.Elementwise.ofBinary {f : Tensor → Tensor → Except KernelError Tensor} {name : String}
    {accepts : DType → Prop} {result : DType → DType} {yields : (x y z : Element) → Prop}
    {a b : Tensor} (h : Tensor.Answer accepts result yields a b (f a b)) :
    (Kernel.ofBinary name f).Elementwise accepts result yields a b := by
  have hcall : (Kernel.ofBinary name f).call [.tensor a, .tensor b] = Value.tensor <$> f a b := rfl
  generalize f a b = answer at h hcall
  cases h with
  | broadcast hnone =>
    exact {
      broadcast_error := ⟨fun _ => hnone, fun _ => ⟨_, _, hcall⟩⟩
      dtype_error := fun out hout => by cases hnone.symm.trans hout
      computes := fun out hout => by cases hnone.symm.trans hout
      covers := fun _ _ _ => Shape.exists_position?
      walked := fun _ => Tensor.walked_of_broadcast?
      fits := fun detail h => by cases hcall.symm.trans h }
  | @dtype out _ hout hmisfit =>
    refine {
      broadcast_error := ⟨?_, fun hnone => by cases hout.symm.trans hnone⟩
      dtype_error := fun out hout => ⟨fun _ => hmisfit, fun _ => ⟨_, hcall⟩⟩
      computes := fun out hout hsame haccepts => ?_
      covers := fun _ _ _ => Shape.exists_position?
      walked := fun _ => Tensor.walked_of_broadcast?
      fits := fun detail h => by cases hcall.symm.trans h }
    · rintro ⟨lhs, rhs, h⟩
      cases hcall.symm.trans h
    · exact hmisfit.elim (fun h => absurd hsame h) fun h => absurd haccepts h
  | @computed out t hout hsame haccepts hdtype hshows =>
    refine {
      broadcast_error := ⟨?_, fun hnone => by cases hout.symm.trans hnone⟩
      dtype_error := fun out' hout' => ⟨?_, fun hmisfit => ?_⟩
      computes := fun out' hout' _ _ => ⟨t, hcall, hdtype, ?_⟩
      covers := fun _ _ _ => Shape.exists_position?
      walked := fun _ => Tensor.walked_of_broadcast?
      fits := fun detail h => by cases hcall.symm.trans h }
    · rintro ⟨lhs, rhs, h⟩
      cases hcall.symm.trans h
    · rintro ⟨detail, h⟩
      cases hcall.symm.trans h
    · exact hmisfit.elim (fun h => absurd hsame h) fun h => absurd haccepts h
    · cases hout.symm.trans hout'
      exact hshows

/-! ## Arithmetic -/

namespace Arithmetic

variable {op : Arithmetic}

theorem applyAll_of_total {α : Type} [NumericElement α] {f : α → α → α}
    (h : ∀ x y, NumericElement.arithmetic op x y = .ok (f x y)) (pairs : List (α × α)) :
    op.applyAll pairs = .ok (pairs.map fun pair => f pair.1 pair.2).toArray := by
  have hall : (pairs.mapM fun pair => NumericElement.arithmetic op pair.1 pair.2) =
      .ok (pairs.map fun pair => f pair.1 pair.2) := by
    simp only [h]
    exact List.mapM_pure
  rw [applyAll, hall]
  rfl

/-- No operation but division refuses integers. -/
theorem arithmetic_int32 (hop : op ≠ .divide) (x y : Int32) :
    NumericElement.arithmetic op x y = .ok (op.over x y) := by
  cases op with
  | divide => exact absurd rfl hop
  | _ => rfl

theorem arithmetic_int64 (hop : op ≠ .divide) (x y : Int64) :
    NumericElement.arithmetic op x y = .ok (op.over x y) := by
  cases op with
  | divide => exact absurd rfl hop
  | _ => rfl

theorem toInt_over_int32 (hop : op ≠ .divide) (x y : Int32) :
    (op.over x y).toInt = (op.over x.toInt y.toInt).bmod Int32.size := by
  cases op with
  | add => exact Int32.toInt_add x y
  | subtract => exact Int32.toInt_sub x y
  | multiply => exact Int32.toInt_mul x y
  | divide => exact absurd rfl hop

theorem toInt_over_int64 (hop : op ≠ .divide) (x y : Int64) :
    (op.over x y).toInt = (op.over x.toInt y.toInt).bmod Int64.size := by
  cases op with
  | add => exact Int64.toInt_add x y
  | subtract => exact Int64.toInt_sub x y
  | multiply => exact Int64.toInt_mul x y
  | divide => exact absurd rfl hop

end Arithmetic

namespace Tensor

variable {α : Type} [TensorElement α] {a b : Tensor} {out : Shape} {x y : Array α}

theorem align_of_broadcast? (hout : a.shape.broadcast? b.shape = some out) :
    a.align b = .ok (.of hout) := by
  rw [align, Shape.align?_of_broadcast? hout]

theorem align_of_broadcast?_eq_none (hnone : a.shape.broadcast? b.shape = none) :
    a.align b = .error (.broadcast a.shape.text b.shape.text) := by
  rw [align, Shape.align?_eq_none hnone]

theorem dtype_ne_of_mixed (h32 : ∀ u v, a.data = .float32 u → b.data = .float32 v → False)
    (h64 : ∀ u v, a.data = .float64 u → b.data = .float64 v → False)
    (i32 : ∀ u v, a.data = .int32 u → b.data = .int32 v → False)
    (i64 : ∀ u v, a.data = .int64 u → b.data = .int64 v → False)
    (hbool : ∀ u v, a.data = .bool u → b.data = .bool v → False) : a.dtype ≠ b.dtype := by
  unfold dtype
  cases ha : a.data <;> cases hb : b.data <;> simp_all [Buffer.dtype]

theorem answer_of_applyAll [NumericElement α] {op : Arithmetic}
    (hout : a.shape.broadcast? b.shape = some out) (ha : a.data = TensorElement.buffer x)
    (hb : b.data = TensorElement.buffer y) {hx : x.size = a.shape.numel}
    {hy : y.size = b.shape.numel} (hα : TensorElement.dtype α ≠ .bool) {f : α → α → α}
    (htotal : ∀ u v, NumericElement.arithmetic op u v = .ok (f u v))
    (hyields : ∀ u v, op.Yields (TensorElement.element u) (TensorElement.element v)
      (TensorElement.element (f u v))) :
    Answer (· ≠ .bool) id op.Yields a b
      (TensorElement.buffer <$> op.applyAll ((Shape.Alignment.of hout).pairs x y hx hy) >>=
        finish out) := by
  obtain ⟨t, ht, hdtype, hshows⟩ := finish_pairs hout ha hb hx hy hyields
  have hanswer : (TensorElement.buffer <$>
      op.applyAll ((Shape.Alignment.of hout).pairs x y hx hy) >>= finish out) = .ok t := by
    rw [Arithmetic.applyAll_of_total htotal]
    exact ht
  have hdtypes : a.dtype = b.dtype := (dtype_of_data ha).trans (dtype_of_data hb).symm
  rw [hanswer]
  refine .computed hout hdtypes ?_ (hdtype.trans (dtype_of_data ha).symm) hshows
  rwa [dtype_of_data ha]

theorem arithmetic_answer {op : Arithmetic} (hop : op ≠ .divide) (a b : Tensor) :
    Answer (· ≠ .bool) id op.Yields a b (arithmetic op a b) := by
  unfold arithmetic
  cases hout : a.shape.broadcast? b.shape with
  | none =>
    rw [align_of_broadcast?_eq_none hout]
    exact .broadcast hout
  | some out =>
    rw [align_of_broadcast? hout]
    simp only [bind, Except.bind]
    split
    · next ha hb =>
      exact answer_of_applyAll hout ha hb (by decide) (fun _ _ => by cases op <;> rfl) fun _ _ => rfl
    · next ha hb =>
      exact answer_of_applyAll hout ha hb (by decide) (fun _ _ => by cases op <;> rfl) fun _ _ => rfl
    · next ha hb =>
      exact answer_of_applyAll hout ha hb (by decide) (Arithmetic.arithmetic_int32 hop)
        (Arithmetic.toInt_over_int32 hop)
    · next ha hb =>
      exact answer_of_applyAll hout ha hb (by decide) (Arithmetic.arithmetic_int64 hop)
        (Arithmetic.toInt_over_int64 hop)
    · next ha hb =>
      refine .dtype hout (.inr ?_)
      simp [dtype, ha, Buffer.dtype]
    · next h32 h64 i32 i64 hbool =>
      exact .dtype hout (.inl (dtype_ne_of_mixed h32 h64 i32 i64 hbool))

end Tensor

/-! ## Arithmetic in machine words -/

namespace Tensor

/-- The pairs of elements at the places, unless one of them lies outside of its buffer. -/
def pairsAt? {α : Type} (x y : Array α) (left right : List Nat) : Option (List (α × α)) :=
  (left.zip right).mapM fun place => do
    let u ← x[place.1]?
    let v ← y[place.2]?
    return (u, v)

/-- Arithmetic on the elements at the given places, with every read checked. -/
def arithmeticAt? (op : Arithmetic) (a b : Tensor) (out : Shape) (left right : List Nat) :
    Option (Except KernelError Tensor) := do
  match a.data, b.data with
  | .float32 x, .float32 y =>
    let pairs ← pairsAt? x y left right
    return Buffer.float32 <$> op.applyAll pairs >>= finish out
  | .float64 x, .float64 y =>
    let pairs ← pairsAt? x y left right
    return Buffer.float64 <$> op.applyAll pairs >>= finish out
  | .int32 x, .int32 y =>
    let pairs ← pairsAt? x y left right
    return Buffer.int32 <$> op.applyAll pairs >>= finish out
  | .int64 x, .int64 y =>
    let pairs ← pairsAt? x y left right
    return Buffer.int64 <$> op.applyAll pairs >>= finish out
  | .bool _, .bool _ => return .error (.dtype "arithmetic is not defined on bool")
  | _, _ => return .error (dtypeMismatch a b)

/-- Arithmetic as machines do it: there is no answer if a number does not fit in a machine word, or if a
place lies outside of its buffer. -/
def arithmeticInWords? (op : Arithmetic) (a b : Tensor) : Option (Except KernelError Tensor) :=
  match a.shape.broadcast? b.shape with
  | none => some (.error (.broadcast a.shape.text b.shape.text))
  | some out => do
    let left ← Counting.words.indices out a.shape
    let right ← Counting.words.indices out b.shape
    arithmeticAt? op a b out left right

theorem pairsAt?_map_val {α : Type} {a b : Shape} {x y : Array α} (hx : x.size = a.numel)
    (hy : y.size = b.numel) (out : Shape) (left : List (Fin a.numel)) (right : List (Fin b.numel)) :
    pairsAt? x y (left.map Fin.val) (right.map Fin.val) =
      some (Shape.Alignment.pairs ⟨out, left, right⟩ x y hx hy) := by
  induction left generalizing right with
  | nil => rfl
  | cons i left ih =>
    cases right with
    | nil => rfl
    | cons j right =>
      have hi : i.val < x.size := (i.cast hx.symm).isLt
      have hj : j.val < y.size := (j.cast hy.symm).isLt
      have hrest := ih right
      rw [pairsAt?] at hrest ⊢
      rw [List.map_cons, List.map_cons, List.zip_cons_cons, List.mapM_cons, hrest,
        Array.getElem?_eq_getElem hi, Array.getElem?_eq_getElem hj]
      rfl

theorem map_val_places {a out : Shape} (h : a.StretchesTo out) :
    (Shape.places h).map Fin.val = out.broadcastIndices a := by
  rw [Shape.places, List.map_pmap]
  exact List.pmap_eq_self.mpr fun _ _ => rfl

theorem pairsAt?_broadcastIndices {α : Type} {a b out : Shape} {x y : Array α}
    (hout : a.broadcast? b = some out) (hx : x.size = a.numel) (hy : y.size = b.numel) :
    pairsAt? x y (out.broadcastIndices a) (out.broadcastIndices b) =
      some ((Shape.Alignment.of hout).pairs x y hx hy) := by
  obtain ⟨ha, hb⟩ := Shape.stretches_of_broadcast? hout
  rw [← map_val_places ha, ← map_val_places hb]
  exact pairsAt?_map_val hx hy out _ _

/-- At the places of the walks no read leaves its buffer. -/
theorem arithmeticAt?_broadcastIndices {op : Arithmetic} {a b : Tensor} {out : Shape}
    (hout : a.shape.broadcast? b.shape = some out) :
    arithmeticAt? op a b out (out.broadcastIndices a.shape) (out.broadcastIndices b.shape) =
      some (arithmetic op a b) := by
  unfold arithmetic arithmeticAt?
  rw [align_of_broadcast? hout]
  obtain ⟨shape, data, hsize⟩ := a
  obtain ⟨shape', data', hsize'⟩ := b
  cases data <;> cases data' <;> try rfl
  -- what is left are two buffers of one number type
  all_goals
    dsimp only
    rw [pairsAt?_broadcastIndices hout hsize hsize']
    rfl

/-- In machine words arithmetic has an answer exactly if the products of sizes fit, and the answer is
the same. -/
theorem arithmeticInWords?_eq_some_iff {op : Arithmetic} {a b : Tensor} {out : Shape}
    (hout : a.shape.broadcast? b.shape = some out) {answer : Except KernelError Tensor} :
    arithmeticInWords? op a b = some answer ↔
      (out.WalkFits a.shape ∧ out.WalkFits b.shape) ∧ answer = arithmetic op a b := by
  obtain ⟨ha, hb⟩ := Shape.stretches_of_broadcast? hout
  simp only [arithmeticInWords?, hout, Option.bind_eq_bind, Option.bind_eq_some_iff,
    Shape.words_indices_eq_some_iff ha, Shape.words_indices_eq_some_iff hb]
  constructor
  · rintro ⟨left, ⟨hfits, rfl⟩, right, ⟨hfits', rfl⟩, h⟩
    rw [arithmeticAt?_broadcastIndices hout] at h
    exact ⟨⟨hfits, hfits'⟩, (Option.some.inj h).symm⟩
  · rintro ⟨⟨hfits, hfits'⟩, rfl⟩
    exact ⟨_, ⟨hfits, rfl⟩, _, ⟨hfits', rfl⟩, arithmeticAt?_broadcastIndices hout⟩

end Tensor

/-! ## Comparisons -/

namespace Comparison

variable (op : Comparison)

theorem apply_float32 (x y : Float32) : op.apply x y = op.over x y := by
  cases op <;> rfl

theorem apply_float64 (x y : Float) : op.apply x y = op.over x y := by
  cases op <;> rfl

theorem apply_int32 (x y : Int32) : op.apply x y = op.over x.toInt y.toInt := by
  cases op <;> simp [apply, Comparison.over, OrderedElement.lt, OrderedElement.le, OrderedElement.eq, bne,
    Int32.lt_iff_toInt_lt, Int32.le_iff_toInt_le, ← Int32.toInt_inj]

theorem apply_int64 (x y : Int64) : op.apply x y = op.over x.toInt y.toInt := by
  cases op <;> simp [apply, Comparison.over, OrderedElement.lt, OrderedElement.le, OrderedElement.eq, bne,
    Int64.lt_iff_toInt_lt, Int64.le_iff_toInt_le, ← Int64.toInt_inj]

theorem apply_bool (x y : Bool) : op.apply x y = op.over x.toNat y.toNat := by
  cases op <;> cases x <;> cases y <;> rfl

end Comparison

namespace Tensor

variable {α : Type} [TensorElement α] {a b : Tensor} {out : Shape} {x y : Array α}

theorem answer_of_compareAll [OrderedElement α] {op : Comparison}
    (hout : a.shape.broadcast? b.shape = some out) (ha : a.data = TensorElement.buffer x)
    (hb : b.data = TensorElement.buffer y) {hx : x.size = a.shape.numel}
    {hy : y.size = b.shape.numel}
    (hyields : ∀ u v : α, op.Yields (TensorElement.element u) (TensorElement.element v)
      (TensorElement.element (op.apply u v))) :
    Answer (fun _ => True) (fun _ => .bool) op.Yields a b
      (finish out (.bool (op.applyAll ((Shape.Alignment.of hout).pairs x y hx hy)))) := by
  obtain ⟨t, ht, hdtype, hshows⟩ := finish_pairs hout ha hb hx hy hyields
  have hanswer : finish out (.bool (op.applyAll ((Shape.Alignment.of hout).pairs x y hx hy))) =
      .ok t := ht
  rw [hanswer]
  exact .computed hout ((dtype_of_data ha).trans (dtype_of_data hb).symm) trivial hdtype hshows

theorem compare_answer (op : Comparison) (a b : Tensor) :
    Answer (fun _ => True) (fun _ => .bool) op.Yields a b (compare op a b) := by
  unfold compare
  cases hout : a.shape.broadcast? b.shape with
  | none =>
    rw [align_of_broadcast?_eq_none hout]
    exact .broadcast hout
  | some out =>
    rw [align_of_broadcast? hout]
    simp only [bind, Except.bind]
    split
    · next ha hb => exact answer_of_compareAll (α := Float32) hout ha hb op.apply_float32
    · next ha hb => exact answer_of_compareAll (α := Float) hout ha hb op.apply_float64
    · next ha hb => exact answer_of_compareAll (α := Int32) hout ha hb op.apply_int32
    · next ha hb => exact answer_of_compareAll (α := Int64) hout ha hb op.apply_int64
    · next ha hb => exact answer_of_compareAll (α := Bool) hout ha hb op.apply_bool
    · next h32 h64 i32 i64 hbool =>
      exact .dtype hout (.inl (dtype_ne_of_mixed h32 h64 i32 i64 hbool))

end Tensor

/-- The built-in kernels for addition, subtraction, multiplication and the six comparisons compute
element by element on all tensors that can be broadcast together and have one element type, which is
not `bool` for arithmetic, and refuse all others. -/
theorem binary_kernels_elementwise (a b : Tensor) :
    (∀ op : Arithmetic, op ≠ .divide → ∃ k, KernelRegistry.builtin.get? op.kernelName = some k ∧
      k.Elementwise (· ≠ .bool) id op.Yields a b) ∧
    ∀ op : Comparison, ∃ k, KernelRegistry.builtin.get? op.kernelName = some k ∧
      k.Elementwise (fun _ => True) (fun _ => .bool) op.Yields a b := by
  constructor
  · intro op hop
    have hk : KernelRegistry.builtin.get? op.kernelName =
        some (.ofBinary op.kernelName (Tensor.arithmetic op)) := by cases op <;> rfl
    exact ⟨_, hk, .ofBinary (Tensor.arithmetic_answer hop a b)⟩
  · intro op
    have hk : KernelRegistry.builtin.get? op.kernelName =
        some (.ofBinary op.kernelName (Tensor.compare op)) := by cases op <;> rfl
    exact ⟨_, hk, .ofBinary (Tensor.compare_answer op a b)⟩

end TensorIR
