import TensorIR.Shape.MultiIndex

/-! The walk over a stretched operand.

The places of `source` that are read for the elements of `out` are found by a walk. A counter runs
through the multi-indices of `out` in row-major order, its last coordinate fastest, and each place is
the sum of the coordinates times the strides of `source`. A stride is the number of elements below an
axis, and zero on an axis of size one.

The walk is the same for exact numbers and for machine words. It finds the places of
`Shape.readIndex` as long as the numbers it meets are counted exactly. -/

namespace TensorIR

/-- How numbers are added and multiplied. -/
structure Counting (m : Type → Type) where
  add : Nat → Nat → m Nat
  mul : Nat → Nat → m Nat

namespace Counting

/-- Counting without a bound. -/
def exact : Counting Id where
  add x y := x + y
  mul x y := x * y

section Walk

variable {m : Type → Type} [Monad m] (c : Counting m)

/-- The product of the sizes, outermost first. -/
def total (acc : Nat) : List Nat → m Nat
  | [] => pure acc
  | d :: ds => do
    let acc ← c.mul acc d
    total acc ds

/-- The strides of the axes and the number of elements, from the last axis on. -/
def strideTable : List Nat → m (List Nat × Nat)
  | [] => pure ([], 1)
  | d :: ds => do
    let below ← strideTable ds
    let count ← c.mul below.2 d
    return ((if d = 1 then 0 else below.2) :: below.1, count)

/-- The coordinates times the strides, added up. -/
def flat (acc : Nat) : (coordinates strides : List Nat) → m Nat
  | i :: is, s :: ss => do
    let step ← c.mul i s
    let acc ← c.add acc step
    flat acc is ss
  | _, _ => pure acc

/-- The next multi-index. The last coordinate is raised, and one that reaches the size of its axis goes
back to zero and carries into the axis before it. -/
def advance : (sizes coordinates : List Nat) → m (List Nat × Bool)
  | o :: os, i :: is => do
    let inner ← advance os is
    if inner.2 then
      let next ← c.add i 1
      if next < o then
        return (next :: inner.1, false)
      else
        return (0 :: inner.1, true)
    else
      return (i :: inner.1, false)
  | _, _ => pure ([], true)

/-- The places for the next `remaining` multi-indices. Only the axes from `offset` on are those of the
source. -/
def walk (sizes strides : List Nat) (offset : Nat) : (remaining : Nat) → List Nat → m (List Nat)
  | 0, _ => pure []
  | remaining + 1, coordinates => do
    let place ← c.flat 0 (coordinates.drop offset) strides
    let next ← c.advance sizes coordinates
    let places ← walk sizes strides offset remaining next.1
    return place :: places

/-- The places of `source` that are read for the elements of `out`, in row-major order. -/
def indices (out source : Shape) : m (List Nat) := do
  let table ← c.strideTable source.dims
  let count ← c.total 1 out.dims
  c.walk out.dims table.1 (out.rank - source.rank) count (List.replicate out.rank 0)

end Walk

end Counting

/-- The places of `source` that are read for the elements of `out`, in row-major order. -/
def Shape.broadcastIndices (out source : Shape) : List Nat := (Counting.exact.indices out source).run

namespace Counting

/-- Numbers that fit, with all those below them, are counted exactly. -/
structure ExactOn {m : Type → Type} [Monad m] (c : Counting m) (fits : Nat → Prop) : Prop where
  mono : ∀ {x y : Nat}, x ≤ y → fits y → fits x
  add_eq : ∀ {x y : Nat}, fits (x + y) → c.add x y = pure (x + y)
  mul_eq : ∀ {x y : Nat}, fits (x * y) → c.mul x y = pure (x * y)

theorem exact_exactOn : exact.ExactOn fun _ => True where
  mono _ _ := trivial
  add_eq _ := rfl
  mul_eq _ := rfl

/-- The strides of a shape in row-major order, zero on the axes of size one. -/
def strides : List Nat → List Nat
  | [] => []
  | d :: ds => (if d = 1 then 0 else ds.foldr (· * ·) 1) :: strides ds

namespace ExactOn

variable {m : Type → Type} [Monad m] [LawfulMonad m] {c : Counting m} {fits : Nat → Prop}

theorem total_eq (hc : c.ExactOn fits) {dims : List Nat} (acc : Nat)
    (hfits : ∀ xs, xs <+: dims → fits (acc * xs.foldr (· * ·) 1)) :
    c.total acc dims = pure (acc * dims.foldr (· * ·) 1) := by
  induction dims generalizing acc with
  | nil => rw [total, List.foldr_nil, Nat.mul_one]
  | cons d ds ih =>
    have hd := hfits [d] (by simp)
    rw [List.foldr_cons, List.foldr_nil, Nat.mul_one] at hd
    have hds : ∀ xs, xs <+: ds → fits (acc * d * xs.foldr (· * ·) 1) := by
      intro xs hxs
      rw [Nat.mul_assoc]
      exact hfits (d :: xs) ((List.prefix_cons_inj d).mpr hxs)
    rw [total, hc.mul_eq hd, pure_bind, ih _ hds, List.foldr_cons, Nat.mul_assoc]

theorem strideTable_eq (hc : c.ExactOn fits) {dims : List Nat}
    (hfits : ∀ xs, xs <:+ dims → fits (xs.foldr (· * ·) 1)) :
    c.strideTable dims = pure (strides dims, dims.foldr (· * ·) 1) := by
  induction dims with
  | nil => rfl
  | cons d ds ih =>
    have hds := ih fun xs hxs => hfits xs (hxs.trans (List.suffix_cons d ds))
    have hd := hfits (d :: ds) List.suffix_rfl
    rw [List.foldr_cons, Nat.mul_comm] at hd
    rw [strideTable, hds, pure_bind, hc.mul_eq hd, pure_bind, List.foldr_cons,
      Nat.mul_comm d, strides]

/-- The strides lead to the position of the restricted multi-index. -/
theorem flat_eq (hc : c.ExactOn fits) {source index : List Nat} (acc : Nat) {p : Nat}
    (hp : Shape.positionOuter? source (Shape.restrictInner source index) = some p)
    (hfits : fits (acc + p)) : c.flat acc index (strides source) = pure (acc + p) := by
  induction source generalizing index acc p with
  | nil =>
    cases hp
    cases index <;> rfl
  | cons d ds ih =>
    cases index with
    | nil => cases hp
    | cons i is =>
      rw [Shape.restrictInner_cons, Shape.positionOuter?_cons_eq_some] at hp
      obtain ⟨-, q, hq, rfl⟩ := hp
      have hstep : i * (if d = 1 then 0 else ds.foldr (· * ·) 1) =
          (if d = 1 then 0 else i) * ds.foldr (· * ·) 1 := by
        split <;> simp
      rw [← hstep, ← Nat.add_assoc] at hfits ⊢
      rw [strides, flat, hc.mul_eq (hc.mono (by omega) hfits), pure_bind,
        hc.add_eq (hc.mono (by omega) hfits), pure_bind, ih _ hq hfits]

/-- The counter goes on to the next position, and from the last one back to the first. -/
theorem advance_eq (hc : c.ExactOn fits) {sizes coordinates : List Nat} {k : Nat}
    (hk : Shape.positionOuter? sizes coordinates = some k)
    (hfits : fits (sizes.foldr (· * ·) 1)) :
    ∃ next, c.advance sizes coordinates = pure (next, decide (k + 1 = sizes.foldr (· * ·) 1)) ∧
      Shape.positionOuter? sizes next = some ((k + 1) % sizes.foldr (· * ·) 1) := by
  induction sizes generalizing coordinates k with
  | nil =>
    cases coordinates with
    | nil =>
      cases hk
      exact ⟨[], rfl, rfl⟩
    | cons i is => cases hk
  | cons o os ih =>
    cases coordinates with
    | nil => cases hk
    | cons i is =>
      obtain ⟨hi, p, hp, rfl⟩ := Shape.positionOuter?_cons_eq_some.mp hk
      rw [List.foldr_cons] at hfits ⊢
      have hpos := Shape.positionOuter?_lt hp
      generalize hn : os.foldr (· * ·) 1 = n at hpos hfits ⊢
      have hle : (i + 1) * n ≤ o * n := Nat.mul_le_mul_right n hi
      have hsucc : (i + 1) * n = i * n + n := Nat.succ_mul i n
      have hbelow : fits n := hc.mono (Nat.le_trans (by omega) hle) hfits
      obtain ⟨next, hnext, hposition⟩ := ih hp (hn.symm ▸ hbelow)
      rw [hn] at hnext hposition
      have hwrap : ∀ {j q : Nat}, j < o → Shape.positionOuter? os next = some q →
          Shape.positionOuter? (o :: os) (j :: next) = some (j * n + q) := fun hj hq =>
        Shape.positionOuter?_cons_eq_some.mpr ⟨hj, _, hq, by rw [hn]⟩
      rw [advance, hnext, pure_bind]
      by_cases hlast : p + 1 = n
      · -- The axes below are through, and this one is raised.
        have hraised : fits (i + 1) :=
          hc.mono (Nat.le_trans (Nat.le_mul_of_pos_right _ (by omega)) hle) hfits
        rw [hlast, Nat.mod_self] at hposition
        simp only [hlast, decide_true, if_true, hc.add_eq hraised, pure_bind]
        by_cases hend : i + 1 < o
        · have hlt : (i + 1) * n < o * n := Nat.mul_lt_mul_of_pos_right hend (by omega)
          rw [if_pos hend, decide_eq_false (by omega), Nat.mod_eq_of_lt (by omega)]
          exact ⟨_, rfl, by rw [hwrap hend hposition]; congr 1; omega⟩
        · obtain rfl : o = i + 1 := by omega
          have hk : i * n + p + 1 = (i + 1) * n := by omega
          rw [if_neg hend, decide_eq_true hk, hk, Nat.mod_self]
          exact ⟨_, rfl, by rw [hwrap (Nat.succ_pos i) hposition]; congr 1; omega⟩
      · have hlt : p + 1 < n := by omega
        rw [Nat.mod_eq_of_lt hlt] at hposition
        simp only [hlast, decide_false, Bool.false_eq_true, if_false]
        rw [decide_eq_false (by omega), Nat.mod_eq_of_lt (by omega)]
        exact ⟨_, rfl, by rw [hwrap hi hposition]; congr 1⟩

/-- From position `k` on, the walk meets the positions in order. -/
theorem walk_eq (hc : c.ExactOn fits) {out source : Shape} (hstretch : source.StretchesTo out)
    (hsource : fits source.numel) (hout : fits out.numel) {remaining k : Nat}
    {coordinates : List Nat} (hk : remaining ≠ 0 → out.position? coordinates = some k)
    (hall : k + remaining = out.numel) :
    c.walk out.dims (strides source.dims) (out.rank - source.rank) remaining coordinates =
      pure ((List.range' k remaining).map (out.readIndex source)) := by
  induction remaining generalizing k coordinates with
  | zero => rfl
  | succ remaining ih =>
    have hk := hk (Nat.succ_ne_zero remaining)
    have hplace := hstretch.position?_restrict hk
    rw [Shape.restrict, Shape.length_of_position? hk] at hplace
    have hlt := Shape.position?_lt hplace
    have hflat := hc.flat_eq 0 hplace
      (hc.mono (by rw [Nat.zero_add]; exact Nat.le_of_lt hlt) hsource)
    obtain ⟨next, hnext, hposition⟩ := hc.advance_eq hk hout
    have hwalk : c.walk out.dims (strides source.dims) (out.rank - source.rank) remaining next =
        pure ((List.range' (k + 1) remaining).map (out.readIndex source)) := by
      refine ih (fun hne => ?_) (by omega)
      rw [Shape.position?, hposition, ← Shape.numel, Nat.mod_eq_of_lt (by omega)]
    rw [walk, hflat, pure_bind, hnext, pure_bind, hwalk, pure_bind, Nat.zero_add,
      List.range'_succ, List.map_cons]

/-- The walk finds the places of the closed form. -/
theorem indices_eq (hc : c.ExactOn fits) {out source : Shape} (hstretch : source.StretchesTo out)
    (hsource : ∀ xs, xs <:+ source.dims → fits (xs.foldr (· * ·) 1))
    (hout : ∀ xs, xs <+: out.dims → fits (xs.foldr (· * ·) 1)) :
    c.indices out source = pure ((List.range out.numel).map (out.readIndex source)) := by
  have htotal : c.total 1 out.dims = pure (1 * out.numel) :=
    hc.total_eq 1 fun xs hxs => (Nat.one_mul _).symm ▸ hout xs hxs
  rw [Nat.one_mul] at htotal
  rw [indices, hc.strideTable_eq hsource, pure_bind, htotal, pure_bind, List.range_eq_range']
  refine hc.walk_eq hstretch (hsource _ List.suffix_rfl) (hout _ List.prefix_rfl) (fun hne => ?_)
    (Nat.zero_add _)
  exact Shape.position?_replicate_zero (Nat.pos_of_ne_zero hne)

end ExactOn

end Counting

namespace Shape

variable {out source : Shape}

theorem broadcastIndices_eq (h : source.StretchesTo out) :
    out.broadcastIndices source = (List.range out.numel).map (out.readIndex source) :=
  Counting.exact_exactOn.indices_eq h (fun _ _ => trivial) fun _ _ => trivial

theorem StretchesTo.lt_numel_of_mem (h : source.StretchesTo out) {i : Nat}
    (hi : i ∈ out.broadcastIndices source) : i < source.numel := by
  rw [broadcastIndices_eq h] at hi
  obtain ⟨k, hk, rfl⟩ := List.mem_map.mp hi
  exact h.readIndex_lt (List.mem_range.mp hk)

end Shape

end TensorIR
