import TensorIR.Shape.Walk
import TensorIR.Tensor.Basic

/-! Walks over the operands of elementwise kernels.

The walk over an operand visits the places of the closed form and never leaves the buffer. When it
counts in machine words it finds the same places, unless one of the products that it forms is too
large: those of the trailing sizes of the operand, which are its strides, and those of the leading
sizes of the result. -/

namespace TensorIR

namespace Counting

/-- The number of machine words. -/
def wordSize : Nat := 18446744073709551616

/-- The number itself if it fits in a machine word. -/
def fitting (n : Nat) : Option Nat := if n < wordSize then some n else none

/-- Counting in machine words, which stops at a number that does not fit. -/
def words : Counting Option where
  add x y := fitting (x + y)
  mul x y := fitting (x * y)

theorem fitting_eq_some {n k : Nat} : fitting n = some k ↔ n < wordSize ∧ n = k := by
  unfold fitting
  split <;> simp [*]

theorem words_exactOn : words.ExactOn (· < wordSize) where
  mono h hy := Nat.lt_of_le_of_lt h hy
  add_eq h := fitting_eq_some.mpr ⟨h, rfl⟩
  mul_eq h := fitting_eq_some.mpr ⟨h, rfl⟩

theorem prefixes_fit_of_total {dims : List Nat} {acc n : Nat} (hacc : acc < wordSize)
    (h : words.total acc dims = some n) {xs : List Nat} (hxs : xs <+: dims) :
    acc * xs.foldr (· * ·) 1 < wordSize := by
  induction dims generalizing acc xs with
  | nil =>
    obtain rfl := List.prefix_nil.mp hxs
    rwa [List.foldr_nil, Nat.mul_one]
  | cons d ds ih =>
    obtain ⟨_, hmul, h⟩ := Option.bind_eq_some_iff.mp h
    obtain ⟨hlt, rfl⟩ := fitting_eq_some.mp hmul
    rcases List.prefix_cons_iff.mp hxs with rfl | ⟨ys, rfl, hys⟩
    · rwa [List.foldr_nil, Nat.mul_one]
    · rw [List.foldr_cons, ← Nat.mul_assoc]
      exact ih hlt h hys

theorem suffixes_fit_of_strideTable {dims : List Nat} {table : List Nat × Nat}
    (h : words.strideTable dims = some table) :
    table.2 = dims.foldr (· * ·) 1 ∧ ∀ xs, xs <:+ dims → xs.foldr (· * ·) 1 < wordSize := by
  induction dims generalizing table with
  | nil =>
    cases h
    refine ⟨rfl, fun xs hxs => ?_⟩
    obtain rfl := List.suffix_nil.mp hxs
    decide
  | cons d ds ih =>
    obtain ⟨below, hbelow, h⟩ := Option.bind_eq_some_iff.mp h
    obtain ⟨_, hmul, h⟩ := Option.bind_eq_some_iff.mp h
    obtain ⟨hlt, rfl⟩ := fitting_eq_some.mp hmul
    cases h
    obtain ⟨hproduct, hfits⟩ := ih hbelow
    rw [hproduct, Nat.mul_comm] at hlt
    refine ⟨by rw [hproduct, Nat.mul_comm, List.foldr_cons], fun xs hxs => ?_⟩
    rcases List.suffix_cons_iff.mp hxs with rfl | hxs
    · exact hlt
    · exact hfits xs hxs

end Counting

open Counting (wordSize)

namespace Shape

/-- The products that the walk forms fit in a machine word. -/
structure WalkFits (out source : Shape) : Prop where
  trailing : ∀ xs, xs <:+ source.dims → xs.foldr (· * ·) 1 < wordSize
  leading : ∀ xs, xs <+: out.dims → xs.foldr (· * ·) 1 < wordSize

/-- In machine words the walk finds the same places, or stops because a product does not fit. -/
theorem words_indices_eq_some_iff {out source : Shape} (h : source.StretchesTo out)
    {places : List Nat} : Counting.words.indices out source = some places ↔
      out.WalkFits source ∧ places = out.broadcastIndices source := by
  have hexact : out.WalkFits source →
      Counting.words.indices out source = some (out.broadcastIndices source) := by
    intro hfits
    rw [broadcastIndices_eq h]
    exact Counting.words_exactOn.indices_eq h hfits.trailing hfits.leading
  constructor
  · intro hplaces
    obtain ⟨table, htable, htotal⟩ := Option.bind_eq_some_iff.mp hplaces
    obtain ⟨count, htotal, -⟩ := Option.bind_eq_some_iff.mp htotal
    have hfits : out.WalkFits source := by
      refine ⟨(Counting.suffixes_fit_of_strideTable htable).2, fun xs hxs => ?_⟩
      have hxs := Counting.prefixes_fit_of_total (by decide) htotal hxs
      rwa [Nat.one_mul] at hxs
    exact ⟨hfits, Option.some.inj (hplaces.symm.trans (hexact hfits))⟩
  · rintro ⟨hfits, rfl⟩
    exact hexact hfits

-- The strides can overflow although there is no element.
example : Counting.words.indices ⟨[0, 4294967296, 4294967296]⟩ ⟨[0, 4294967296, 4294967296]⟩ =
    none := rfl

end Shape

/-- The walk over the buffer of a tensor that is stretched to `out`. -/
structure Tensor.Walked (t : Tensor) (out : Shape) : Prop where
  /-- The walk visits the places of the closed form. -/
  places_eq : out.broadcastIndices t.shape = (List.range out.numel).map (out.readIndex t.shape)
  /-- No position outside the buffer is read. -/
  inBounds : ∀ i ∈ out.broadcastIndices t.shape, i < t.data.size
  /-- Counting in machine words changes nothing unless a product of sizes does not fit. -/
  words_iff : ∀ places, Counting.words.indices out t.shape = some places ↔
    out.WalkFits t.shape ∧ places = out.broadcastIndices t.shape

theorem Tensor.walked {t : Tensor} {out : Shape} (h : t.shape.StretchesTo out) : t.Walked out where
  places_eq := Shape.broadcastIndices_eq h
  inBounds _ hi := t.size_eq ▸ h.lt_numel_of_mem hi
  words_iff _ := Shape.words_indices_eq_some_iff h

theorem Tensor.walked_of_broadcast? {a b : Tensor} {out : Shape}
    (h : a.shape.broadcast? b.shape = some out) : a.Walked out ∧ b.Walked out :=
  ⟨walked (Shape.stretches_of_broadcast? h).1, walked (Shape.stretches_of_broadcast? h).2⟩

end TensorIR
