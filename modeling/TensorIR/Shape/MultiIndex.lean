import TensorIR.Shape.Stretching

/-! Multi-indices of tensors.

An element of a tensor is named by one coordinate for each axis, and lies at a row-major position of
the buffer. A tensor that is stretched to a larger shape shows at a multi-index the element at the
restricted one, which drops the leading coordinates and is zero on axes of size one. Reading through
`Shape.readIndex` finds this element, and never leaves the buffer. -/

namespace TensorIR.Shape

/-- `position?` on the sizes of the axes, outermost first. -/
def positionOuter? : (dims index : List Nat) → Option Nat
  | [], [] => some 0
  | d :: ds, i :: is =>
    if i < d then (positionOuter? ds is).map (i * ds.foldr (· * ·) 1 + ·) else none
  | _, _ => none

theorem positionOuter?_cons_eq_some {d i k : Nat} {ds is : List Nat} :
    positionOuter? (d :: ds) (i :: is) = some k ↔
      i < d ∧ ∃ p, positionOuter? ds is = some p ∧ i * ds.foldr (· * ·) 1 + p = k := by
  rw [positionOuter?]
  split <;> simp [*]

/-- The row-major position of a multi-index, unless it is none of the shape: it has one coordinate for
each axis, outermost first, and each is below the size of its axis. -/
def position? (s : Shape) (index : List Nat) : Option Nat := positionOuter? s.dims index

/-- The multi-index in `s` of the element that `s` shows at a multi-index of a shape it is stretched
to. -/
def restrict (s : Shape) (index : List Nat) : List Nat :=
  List.zipWith (fun d i => if d = 1 then 0 else i) s.dims (index.drop (index.length - s.rank))

/-- `readIndex` on axes listed innermost first. -/
def readIndexInner : List Nat → List Nat → Nat → Nat
  | o :: os, s :: ss, k => (if s = 1 then 0 else k % o) + s * readIndexInner os ss (k / o)
  | _, _, _ => 0

/-- The row-major position in `source` of the element that a tensor of shape `out` shows at its
row-major position `k`, when `source` is stretched to `out`. -/
def readIndex (out source : Shape) (k : Nat) : Nat :=
  readIndexInner out.dims.reverse source.dims.reverse k

/-! ## Axes listed innermost first -/

section

variable {i d p n : Nat}

/-- A coordinate on an axis of size `d` and one of `n` positions on the axes outside it make a position. -/
theorem add_mul_lt (hi : i < d) (hp : p < n) : i + d * p < d * n :=
  calc i + d * p < d + d * p := Nat.add_lt_add_right hi _
    _ = d * (p + 1) := by rw [Nat.mul_add, Nat.mul_one, Nat.add_comm]
    _ ≤ d * n := Nat.mul_le_mul_left d hp

theorem add_mul_mod (hi : i < d) : (i + d * p) % d = i := by
  rw [Nat.add_mul_mod_self_left, Nat.mod_eq_of_lt hi]

theorem add_mul_div (hi : i < d) : (i + d * p) / d = p := by
  rw [Nat.add_mul_div_left i p (Nat.zero_lt_of_lt hi), Nat.div_eq_of_lt hi, Nat.zero_add]

end

/-- `position?` on axes listed innermost first. -/
def positionInner? : (dims index : List Nat) → Option Nat
  | [], [] => some 0
  | d :: ds, i :: is => if i < d then (positionInner? ds is).map (i + d * ·) else none
  | _, _ => none

theorem positionInner?_cons_eq_some {d i k : Nat} {ds is : List Nat} :
    positionInner? (d :: ds) (i :: is) = some k ↔
      i < d ∧ ∃ p, positionInner? ds is = some p ∧ i + d * p = k := by
  rw [positionInner?]
  split <;> simp [*]

/-- Induction over the axes of a multi-index that has a position. -/
@[elab_as_elim]
theorem positionInner?_induct {motive : List Nat → List Nat → Nat → Prop} (nil : motive [] [] 0)
    (cons : ∀ {d i p : Nat} {ds is : List Nat}, i < d → positionInner? ds is = some p →
      motive ds is p → motive (d :: ds) (i :: is) (i + d * p))
    {ds is : List Nat} {k : Nat} (h : positionInner? ds is = some k) : motive ds is k := by
  induction ds generalizing is k with
  | nil =>
    cases is with
    | nil =>
      cases h
      exact nil
    | cons i is => cases h
  | cons d ds ih =>
    cases is with
    | nil => cases h
    | cons i is =>
      obtain ⟨hi, p, hp, rfl⟩ := positionInner?_cons_eq_some.mp h
      exact cons hi hp (ih hp)

theorem length_of_positionInner? {ds is : List Nat} {k : Nat}
    (h : positionInner? ds is = some k) : is.length = ds.length :=
  positionInner?_induct rfl (fun _ _ ih => congrArg Nat.succ ih) h

theorem positionInner?_of_length_ne {ds is : List Nat} (h : is.length ≠ ds.length) :
    positionInner? ds is = none :=
  Option.eq_none_iff_forall_ne_some.mpr fun _ hk => h (length_of_positionInner? hk)

/-- An outermost axis adds its coordinate times the number of elements below it. -/
theorem positionInner?_append (d i : Nat) (ds is : List Nat) :
    positionInner? (ds ++ [d]) (is ++ [i]) =
      if i < d then (positionInner? ds is).map (i * ds.foldr (· * ·) 1 + ·) else none := by
  induction ds generalizing is with
  | nil =>
    cases is with
    | nil => simp [positionInner?]
    | cons j is => simp [positionInner?_of_length_ne]
  | cons e ds ih =>
    cases is with
    | nil => simp [positionInner?_of_length_ne]
    | cons j is =>
      rw [List.cons_append, List.cons_append, positionInner?, ih, positionInner?]
      by_cases hj : j < e <;> by_cases hi : i < d <;> simp only [hj, hi, if_true, if_false,
        Option.map_map, Option.map_none]
      congr 1
      funext p
      simp only [Function.comp_apply, List.foldr_cons]
      rw [Nat.mul_add, Nat.mul_left_comm]
      omega

theorem foldr_mul_reverse (dims : List Nat) :
    dims.reverse.foldr (· * ·) 1 = dims.foldr (· * ·) 1 :=
  (List.reverse_perm dims).foldr_eq' (fun x _ y _ z => Nat.mul_left_comm y x z) 1

/-- The position does not depend on the order in which the axes are listed. -/
theorem positionOuter?_eq (dims index : List Nat) :
    positionOuter? dims index = positionInner? dims.reverse index.reverse := by
  induction dims generalizing index with
  | nil =>
    cases index with
    | nil => rfl
    | cons i is => simp [positionOuter?, positionInner?_of_length_ne]
  | cons d ds ih =>
    cases index with
    | nil => simp [positionOuter?, positionInner?_of_length_ne]
    | cons i is =>
      rw [List.reverse_cons, List.reverse_cons, positionInner?_append, positionOuter?, ih,
        foldr_mul_reverse]

/-- `restrict` on axes listed innermost first. -/
def restrictInner (source index : List Nat) : List Nat :=
  List.zipWith (fun d i => if d = 1 then 0 else i) source index

theorem restrictInner_cons (d i : Nat) (ds is : List Nat) :
    restrictInner (d :: ds) (i :: is) = (if d = 1 then 0 else i) :: restrictInner ds is := rfl

/-- Stretching in two steps shows the same elements as stretching at once. -/
theorem restrictInner_restrictInner {source mid index : List Nat}
    (hstretch : StretchesInner source mid) (hlength : mid.length ≤ index.length) :
    restrictInner source (restrictInner mid index) = restrictInner source index := by
  induction hstretch using StretchesInner.induct generalizing index with
  | nil mid => rfl
  | cons hs hstretch ih =>
    cases index with
    | nil => exact absurd hlength (by simp)
    | cons i index =>
      rw [restrictInner_cons, restrictInner_cons, restrictInner_cons,
        ih (Nat.le_of_succ_le_succ hlength)]
      congr 1
      split
      · rfl
      · rw [if_neg (by omega)]

theorem restrictInner_self {ds is : List Nat} {k : Nat} (h : positionInner? ds is = some k) :
    restrictInner ds is = is := by
  refine positionInner?_induct rfl (fun hi _ ih => ?_) h
  rw [restrictInner_cons, ih]
  congr 1
  split <;> omega

/-- Reading through `readIndexInner` finds the element at the restricted multi-index. -/
theorem positionInner?_restrict {out source index : List Nat} {k : Nat}
    (hstretch : StretchesInner source out) (hk : positionInner? out index = some k) :
    positionInner? source (restrictInner source index) = some (readIndexInner out source k) := by
  induction hstretch using StretchesInner.induct generalizing index k with
  | nil out => cases out <;> rfl
  | cons hs hstretch ih =>
    cases index with
    | nil => cases hk
    | cons i index =>
      obtain ⟨hi, p, hp, rfl⟩ := positionInner?_cons_eq_some.mp hk
      rw [restrictInner_cons, positionInner?_cons_eq_some, readIndexInner, add_mul_mod hi,
        add_mul_div hi]
      refine ⟨?_, _, ih hp, rfl⟩
      split <;> omega

theorem readIndexInner_lt {out source : List Nat} {k : Nat} (hstretch : StretchesInner source out)
    (hk : k < out.foldr (· * ·) 1) :
    readIndexInner out source k < source.foldr (· * ·) 1 := by
  induction hstretch using StretchesInner.induct generalizing k with
  | nil out => cases out <;> exact Nat.one_pos
  | @cons s o source out hs hstretch ih =>
    rw [List.foldr_cons] at hk
    have ho : 0 < o := Nat.pos_of_ne_zero (by rintro rfl; simp at hk)
    have hrest := ih (Nat.div_lt_of_lt_mul hk)
    rw [readIndexInner, List.foldr_cons]
    have hlast : (if s = 1 then 0 else k % o) < s := by
      have := Nat.mod_lt k ho
      split <;> omega
    exact add_mul_lt hlast hrest

/-- Every place of the source is read, unless there is nothing to read for. -/
theorem exists_readIndexInner {out source : List Nat} {j : Nat}
    (hstretch : StretchesInner source out) (hout : 0 < out.foldr (· * ·) 1)
    (hj : j < source.foldr (· * ·) 1) :
    ∃ k < out.foldr (· * ·) 1, readIndexInner out source k = j := by
  induction hstretch using StretchesInner.induct generalizing j with
  | nil out =>
    obtain rfl : j = 0 := Nat.lt_one_iff.mp hj
    exact ⟨0, hout, by cases out <;> rfl⟩
  | @cons s o source out hs hstretch ih =>
    rw [List.foldr_cons] at hout hj
    have ho : 0 < o := Nat.pos_of_mul_pos_right hout
    have hs0 : 0 < s := Nat.pos_of_ne_zero (by rintro rfl; simp at hj)
    obtain ⟨p, hp, hread⟩ := ih (Nat.pos_of_mul_pos_left hout) (Nat.div_lt_of_lt_mul hj)
    -- A stretched axis is read at its only coordinate, for any coordinate of the result.
    have hi : j % s < o := by
      have := Nat.mod_lt j hs0
      omega
    have hlast : (if s = 1 then 0 else j % s) = j % s := by
      split
      · next h => rw [h, Nat.mod_one]
      · rfl
    refine ⟨j % s + o * p, add_mul_lt hi hp, ?_⟩
    rw [readIndexInner, add_mul_mod hi, add_mul_div hi, hread, hlast, Nat.mod_add_div]

theorem positionInner?_lt {ds is : List Nat} {k : Nat} (h : positionInner? ds is = some k) :
    k < ds.foldr (· * ·) 1 :=
  positionInner?_induct Nat.one_pos (fun hi _ ih => add_mul_lt hi ih) h

theorem exists_positionInner? {ds : List Nat} {k : Nat} (h : k < ds.foldr (· * ·) 1) :
    ∃ is, positionInner? ds is = some k := by
  induction ds generalizing k with
  | nil =>
    obtain rfl : k = 0 := Nat.lt_one_iff.mp h
    exact ⟨[], rfl⟩
  | cons d ds ih =>
    rw [List.foldr_cons] at h
    have hd : 0 < d := Nat.pos_of_ne_zero (by rintro rfl; simp at h)
    obtain ⟨is, his⟩ := ih (Nat.div_lt_of_lt_mul h)
    exact ⟨k % d :: is, positionInner?_cons_eq_some.mpr
      ⟨Nat.mod_lt k hd, k / d, his, Nat.mod_add_div k d⟩⟩

theorem positionOuter?_lt {ds is : List Nat} {k : Nat} (h : positionOuter? ds is = some k) :
    k < ds.foldr (· * ·) 1 := by
  rw [positionOuter?_eq] at h
  rw [← foldr_mul_reverse]
  exact positionInner?_lt h

/-! ## Shapes -/

variable {s source out : Shape} {index : List Nat} {k : Nat}

theorem position?_lt (h : s.position? index = some k) : k < s.numel := positionOuter?_lt h

/-- A tensor with an element has one at the multi-index of zeros, which comes first. -/
theorem position?_replicate_zero (h : 0 < s.numel) :
    s.position? (List.replicate s.rank 0) = some 0 := by
  obtain ⟨dims⟩ := s
  unfold position? rank
  unfold numel at h
  induction dims with
  | nil => rfl
  | cons d ds ih =>
    rw [List.foldr_cons] at h
    exact positionOuter?_cons_eq_some.mpr
      ⟨Nat.pos_of_mul_pos_right h, 0, ih (Nat.pos_of_mul_pos_left h), by rw [Nat.zero_mul]⟩

/-- Every place of the buffer is the position of a multi-index. -/
theorem exists_position? (h : k < s.numel) : ∃ index, s.position? index = some k := by
  rw [numel, ← foldr_mul_reverse] at h
  obtain ⟨index, hindex⟩ := exists_positionInner? h
  exact ⟨index.reverse, by rw [position?, positionOuter?_eq, List.reverse_reverse, hindex]⟩

theorem reverse_restrict (h : source.rank ≤ index.length) :
    (source.restrict index).reverse = restrictInner source.dims.reverse index.reverse := by
  unfold rank at h
  have hmin : min source.dims.reverse.length index.reverse.length = source.dims.length := by
    rw [List.length_reverse, List.length_reverse]
    omega
  have hall : source.dims.reverse.take source.dims.length = source.dims.reverse :=
    List.take_of_length_le (by simp)
  have htake : restrictInner source.dims.reverse index.reverse =
      restrictInner source.dims.reverse (index.reverse.take source.dims.length) := by
    rw [restrictInner, List.zipWith_eq_zipWith_take_min, hmin, hall, restrictInner]
  rw [restrict, rank, List.reverse_zipWith (by rw [List.length_drop]; omega), List.reverse_drop,
    Nat.sub_sub_self h, htake, restrictInner]

theorem length_restrict (h : source.rank ≤ index.length) :
    (source.restrict index).length = source.rank := by
  unfold rank at h ⊢
  rw [restrict, List.length_zipWith, List.length_drop, rank]
  omega

theorem length_of_position? (h : s.position? index = some k) : index.length = s.rank := by
  rw [position?, positionOuter?_eq] at h
  simpa [rank] using length_of_positionInner? h

theorem restrict_self (h : s.position? index = some k) : s.restrict index = index := by
  have hrank : s.rank ≤ index.length := Nat.le_of_eq (length_of_position? h).symm
  rw [position?, positionOuter?_eq] at h
  rw [← List.reverse_inj, reverse_restrict hrank, restrictInner_self h]

namespace StretchesTo

theorem rank_le (h : source.StretchesTo out) : source.rank ≤ out.rank := by
  simpa [rank] using h.length_le

theorem readIndex_lt (h : source.StretchesTo out) (hk : k < out.numel) :
    out.readIndex source k < source.numel := by
  rw [numel, ← foldr_mul_reverse] at hk ⊢
  exact readIndexInner_lt h hk

theorem exists_readIndex {j : Nat} (h : source.StretchesTo out) (hout : 0 < out.numel)
    (hj : j < source.numel) : ∃ k < out.numel, out.readIndex source k = j := by
  rw [numel, ← foldr_mul_reverse] at hout hj ⊢
  exact exists_readIndexInner h hout hj

/-- The element that is read for a position of `out` lies at the restricted multi-index. -/
theorem position?_restrict (h : source.StretchesTo out) (hk : out.position? index = some k) :
    source.position? (source.restrict index) = some (out.readIndex source k) := by
  have hrank : source.rank ≤ index.length := length_of_position? hk ▸ h.rank_le
  rw [position?, positionOuter?_eq] at hk ⊢
  rw [reverse_restrict hrank]
  exact positionInner?_restrict h hk

/-- A tensor that is stretched in two steps shows what it shows when it is stretched at once. -/
theorem restrict_restrict {mid : Shape} (h : source.StretchesTo mid) (hmid : mid.rank ≤ index.length) :
    source.restrict (mid.restrict index) = source.restrict index := by
  have hmid' : source.rank ≤ (mid.restrict index).length := length_restrict hmid ▸ h.rank_le
  rw [← List.reverse_inj, reverse_restrict hmid', reverse_restrict hmid,
    reverse_restrict (Nat.le_trans h.rank_le hmid)]
  exact restrictInner_restrictInner h (by simpa [rank] using hmid)

end StretchesTo

end TensorIR.Shape
