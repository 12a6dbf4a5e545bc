import TensorIR.Proofs.ElementwiseKernels

/-! Tensors of integers.

A tensor of integers is determined by its element type, its shape and the integers at its
multi-indices. -/

namespace TensorIR

/-- The number of integers of an integer type. -/
def DType.modulus : DType → Nat
  | .int32 => Int32.size
  | .int64 => Int64.size
  | _ => 0

def Element.dtype : Element → DType
  | .float32 _ => .float32
  | .float64 _ => .float64
  | .int32 _ => .int32
  | .int64 _ => .int64
  | .bool _ => .bool

def Element.toInt? : Element → Option Int
  | .int32 x => some x.toInt
  | .int64 x => some x.toInt
  | _ => none

/-- The integer at a multi-index, and zero where the tensor has no integer. -/
def Tensor.intAt (t : Tensor) (index : List Nat) : Int := ((t.at? index).bind Element.toInt?).getD 0

/-- Elements that are integers of a fixed width. -/
class IntegerElement (α : Type) [TensorElement α] where
  toInt : α → Int
  toInt_injective : ∀ {u v : α}, toInt u = toInt v → u = v
  toInt_bmod : ∀ u : α, (toInt u).bmod (TensorElement.dtype α).modulus = toInt u
  toInt?_element : ∀ u : α, (TensorElement.element u).toInt? = some (toInt u)
  exists_buffer : ∀ {data : Buffer}, data.dtype = TensorElement.dtype α →
    ∃ x : Array α, data = TensorElement.buffer x

instance : IntegerElement Int32 where
  toInt := Int32.toInt
  toInt_injective := Int32.toInt_inj.mp
  toInt_bmod := Int32.toInt_bmod
  toInt?_element _ := rfl
  exists_buffer {data} h := by
    cases data with
    | int32 x => exact ⟨x, rfl⟩
    | _ => cases h

instance : IntegerElement Int64 where
  toInt := Int64.toInt
  toInt_injective := Int64.toInt_inj.mp
  toInt_bmod := Int64.toInt_bmod
  toInt?_element _ := rfl
  exists_buffer {data} h := by
    cases data with
    | int64 x => exact ⟨x, rfl⟩
    | _ => cases h

theorem DType.eq_of_isInt {d : DType} (h : d.isInt = true) : d = .int32 ∨ d = .int64 := by
  cases d with
  | int32 => exact .inl rfl
  | int64 => exact .inr rfl
  | _ => cases h

theorem Buffer.dtype_of_get? {data : Buffer} {k : Nat} {e : Element} (h : data.get? k = some e) :
    e.dtype = data.dtype := by
  cases data <;>
    · obtain ⟨u, -, rfl⟩ := Option.map_eq_some_iff.mp h
      rfl

namespace Tensor

variable {t : Tensor} {index : List Nat}

theorem dtype_of_at? {e : Element} (h : t.at? index = some e) : e.dtype = t.dtype := by
  obtain ⟨k, -, hk⟩ := Option.bind_eq_some_iff.mp h
  exact Buffer.dtype_of_get? hk

/-- The elements of an integer tensor are of a type of integers. -/
theorem exists_integers (hint : t.dtype.isInt = true) :
    ∃ (α : Type) (_ : TensorElement α) (_ : IntegerElement α) (x : Array α),
      t.data = TensorElement.buffer x := by
  rcases DType.eq_of_isInt hint with hd | hd
  · exact ⟨Int32, inferInstance, inferInstance, IntegerElement.exists_buffer hd⟩
  · exact ⟨Int64, inferInstance, inferInstance, IntegerElement.exists_buffer hd⟩

section

variable {α : Type} [TensorElement α] {x : Array α} {k : Nat}

theorem at?_of_data (ht : t.data = TensorElement.buffer x) (hk : t.shape.position? index = some k) :
    t.at? index = x[k]?.map TensorElement.element := by
  rw [at?, hk, Option.bind_some, ht, TensorElement.get?_buffer]

theorem exists_at?_iff (ht : t.data = TensorElement.buffer x) {e : Element} :
    (∃ index, t.at? index = some e) ↔ ∃ u ∈ x, TensorElement.element u = e := by
  constructor
  · rintro ⟨index, h⟩
    obtain ⟨k, hk, -⟩ := Option.bind_eq_some_iff.mp h
    rw [at?_of_data ht hk] at h
    obtain ⟨u, hu, hue⟩ := Option.map_eq_some_iff.mp h
    exact ⟨u, Array.mem_of_getElem? hu, hue⟩
  · rintro ⟨u, hu, rfl⟩
    obtain ⟨k, hk⟩ := Array.getElem?_of_mem hu
    have hlt : k < t.shape.numel := size_of_data ht ▸ (Array.getElem?_eq_some_iff.mp hk).1
    obtain ⟨index, hindex⟩ := Shape.exists_position? hlt
    exact ⟨index, by rw [at?_of_data ht hindex, hk, Option.map_some]⟩

theorem intAt_of_data [IntegerElement α] (ht : t.data = TensorElement.buffer x)
    (hk : t.shape.position? index = some k) {u : α} (hu : x[k]? = some u) :
    t.intAt index = IntegerElement.toInt u := by
  rw [intAt, at?_of_data ht hk, hu, Option.map_some, Option.bind_some,
    IntegerElement.toInt?_element, Option.getD_some]

end

theorem intAt_bmod (hint : t.dtype.isInt = true) (hindex : (t.shape.position? index).isSome) :
    (t.intAt index).bmod t.dtype.modulus = t.intAt index := by
  obtain ⟨α, _, _, x, ht⟩ := exists_integers hint
  obtain ⟨k, hk⟩ := Option.isSome_iff_exists.mp hindex
  have hlt : k < x.size := size_of_data ht ▸ Shape.position?_lt hk
  rw [intAt_of_data ht hk (Array.getElem?_eq_getElem hlt), dtype_of_data ht,
    IntegerElement.toInt_bmod]

theorem eq_of_intAt {s : Tensor} (hint : t.dtype.isInt = true) (hdtype : s.dtype = t.dtype)
    (hshape : s.shape = t.shape)
    (h : ∀ index, (t.shape.position? index).isSome → s.intAt index = t.intAt index) : s = t := by
  obtain ⟨α, _, _, x, ht⟩ := exists_integers hint
  obtain ⟨y, hs⟩ := IntegerElement.exists_buffer (hdtype.trans (dtype_of_data ht))
  have hsize : y.size = x.size := by rw [size_of_data hs, size_of_data ht, hshape]
  have hxy : y = x := by
    refine Array.ext hsize fun k hy hx => ?_
    obtain ⟨index, hindex⟩ := Shape.exists_position? (size_of_data ht ▸ hx)
    have heq := h index (Option.isSome_of_eq_some hindex)
    rw [intAt_of_data hs (hshape ▸ hindex) (Array.getElem?_eq_getElem hy),
      intAt_of_data ht hindex (Array.getElem?_eq_getElem hx)] at heq
    exact IntegerElement.toInt_injective heq
  have hdata : s.data = t.data := by rw [hs, ht, hxy]
  cases s
  cases t
  cases hshape
  cases hdata
  rfl

end Tensor

end TensorIR
