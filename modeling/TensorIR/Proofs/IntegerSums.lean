import TensorIR.Proofs.Broadcasting
import TensorIR.Proofs.IntegerElements

/-! Sums of integer tensors.

A sum is built up from the left, and each tensor is stretched through all the shapes in between. What
comes out is described without an order: the sum has the element type of its operands, the least shape
that all of them stretch to, and at each multi-index the sum of what the operands show there, modulo
the number of integers of the type. Only one tensor fits this description. -/

namespace TensorIR

theorem Arithmetic.Yields.toInt?_add {x y z : Element} (h : Arithmetic.add.Yields x y z)
    (hz : z.dtype.isInt = true) : ∃ m n, x.toInt? = some m ∧ y.toInt? = some n ∧
      z.toInt? = some ((m + n).bmod z.dtype.modulus) := by
  cases z with
  | int32 z =>
    cases x with
    | int32 x =>
      cases y with
      | int32 y => exact ⟨_, _, rfl, rfl, congrArg some h⟩
      | _ => cases h
    | _ => cases y <;> cases h
  | int64 z =>
    cases x with
    | int64 x =>
      cases y with
      | int64 y => exact ⟨_, _, rfl, rfl, congrArg some h⟩
      | _ => cases h
    | _ => cases y <;> cases h
  | _ => cases hz

namespace Tensor

variable {a b s t u : Tensor} {ts us : List Tensor} {out : Shape} {index : List Nat}

theorem ShowsAll.intAt_add (h : ShowsAll Arithmetic.add.Yields a b t out)
    (hint : t.dtype.isInt = true) (hindex : (out.position? index).isSome) :
    t.intAt index =
      (a.intAt (a.shape.restrict index) + b.intAt (b.shape.restrict index)).bmod
        t.dtype.modulus := by
  obtain ⟨x, y, z, hx, hy, hz, hyields⟩ := h.2 index hindex
  rw [← dtype_of_at? hz] at hint ⊢
  obtain ⟨m, n, hm, hn, hmn⟩ := hyields.toInt?_add hint
  rw [intAt, intAt, intAt, hx, hy, hz, Option.bind_some, Option.bind_some, Option.bind_some, hm, hn,
    hmn, Option.getD_some, Option.getD_some, Option.getD_some]

/-- What an addition that succeeds has computed. -/
theorem add_eq_ok (h : arithmetic .add a b = .ok t) :
    ∃ out, a.shape.broadcast? b.shape = some out ∧ a.dtype = b.dtype ∧ t.dtype = a.dtype ∧
      ShowsAll Arithmetic.add.Yields a b t out := by
  have hanswer := arithmetic_answer (by decide : Arithmetic.add ≠ .divide) a b
  rw [h] at hanswer
  cases hanswer with
  | computed hout hsame _ hdtype hshows => exact ⟨_, hout, hsame, hdtype, hshows⟩

theorem exists_add_eq_ok (hout : a.shape.broadcast? b.shape = some out) (hsame : a.dtype = b.dtype)
    (hbool : a.dtype ≠ .bool) :
    ∃ t, arithmetic .add a b = .ok t ∧ t.dtype = a.dtype ∧ t.shape = out := by
  have hanswer := arithmetic_answer (by decide : Arithmetic.add ≠ .divide) a b
  generalize arithmetic .add a b = answer at hanswer
  cases hanswer with
  | broadcast hnone => cases hout.symm.trans hnone
  | dtype _ hmisfit =>
    rcases hmisfit with hne | haccepts
    · exact absurd hsame hne
    · exact absurd hbool haccepts
  | computed hout' _ _ hdtype hshows =>
    cases hout.symm.trans hout'
    exact ⟨_, rfl, hdtype, hshows.1⟩

/-- The sum of what the tensors show at a multi-index of a shape that they stretch to. -/
def totalAt (ts : List Tensor) (index : List Nat) : Int :=
  ts.foldr (fun u total => u.intAt (u.shape.restrict index) + total) 0

theorem totalAt_cons (u : Tensor) (ts : List Tensor) (index : List Nat) :
    totalAt (u :: ts) index = u.intAt (u.shape.restrict index) + totalAt ts index := rfl

theorem totalAt_perm (h : ts.Perm us) (index : List Nat) : totalAt ts index = totalAt us index := by
  refine h.foldr_eq' (fun v _ w _ total => ?_) 0
  exact Int.add_left_comm _ _ _

/-- Tensors that stretch to a shape in between show the same there. -/
theorem totalAt_restrict {mid : Shape} (h : ∀ u ∈ ts, u.shape.StretchesTo mid)
    (hmid : mid.rank ≤ index.length) : totalAt ts (mid.restrict index) = totalAt ts index := by
  induction ts with
  | nil => rfl
  | cons u ts ih =>
    obtain ⟨hu, hts⟩ := List.forall_mem_cons.mp h
    rw [totalAt_cons, totalAt_cons, hu.restrict_restrict hmid, ih hts]

/-- The sum of integer tensors, described without an order of its operands. -/
structure IsSum (ts : List Tensor) (t : Tensor) : Prop where
  dtype_eq : ∀ u ∈ ts, u.dtype = t.dtype
  /-- The shape is the least one that all operands stretch to. -/
  stretchesTo_iff : ∀ out, t.shape.StretchesTo out ↔ ∀ u ∈ ts, u.shape.StretchesTo out
  intAt_eq : ∀ index, (t.shape.position? index).isSome →
    t.intAt index = (totalAt ts index).bmod t.dtype.modulus

namespace IsSum

theorem perm (h : IsSum ts t) (hperm : ts.Perm us) : IsSum us t where
  dtype_eq u hu := h.dtype_eq u (hperm.mem_iff.mpr hu)
  stretchesTo_iff out := by
    simp only [← hperm.mem_iff]
    exact h.stretchesTo_iff out
  intAt_eq index hindex := by
    rw [← totalAt_perm hperm index, h.intAt_eq index hindex]

theorem single (hint : t.dtype.isInt = true) : IsSum [t] t where
  dtype_eq u hu := by rw [List.mem_singleton.mp hu]
  stretchesTo_iff out := by rw [List.forall_mem_singleton]
  intAt_eq index hindex := by
    obtain ⟨k, hk⟩ := Option.isSome_iff_exists.mp hindex
    rw [totalAt, List.foldr_cons, List.foldr_nil, Int.add_zero, Shape.restrict_self hk,
      intAt_bmod hint hindex]

/-- One more tensor is added to a sum. -/
theorem add (h : IsSum ts s) (hint : s.dtype.isInt = true) (ht : arithmetic .add s u = .ok t) :
    IsSum (u :: ts) t := by
  obtain ⟨_, hout, hsame, hdtype, hshows⟩ := add_eq_ok ht
  obtain ⟨rfl, -⟩ := id hshows
  constructor
  · refine List.forall_mem_cons.mpr ⟨hsame.symm.trans hdtype.symm, fun v hv => ?_⟩
    rw [h.dtype_eq v hv, hdtype]
  · intro bound
    rw [List.forall_mem_cons, ← h.stretchesTo_iff, Shape.stretchesTo_iff_of_broadcast? hout, and_comm]
  · intro index hindex
    obtain ⟨k, hk⟩ := Option.isSome_iff_exists.mp hindex
    obtain ⟨hsout, -⟩ := Shape.stretches_of_broadcast? hout
    have hrank : s.shape.rank ≤ index.length := Shape.length_of_position? hk ▸ hsout.rank_le
    have hinner : (s.shape.position? (s.shape.restrict index)).isSome :=
      Option.isSome_of_eq_some (hsout.position?_restrict hk)
    -- The tensors of `ts` are stretched to the sum so far, and from there to the new one.
    rw [hshows.intAt_add (hdtype ▸ hint) hindex, h.intAt_eq _ hinner, hdtype, Int.bmod_add_bmod,
      totalAt_restrict ((h.stretchesTo_iff _).mp (.refl _)) hrank, totalAt_cons, Int.add_comm]

theorem unique (hs : IsSum ts s) (ht : IsSum ts t) (hne : ts ≠ []) (hint : t.dtype.isInt = true) :
    s = t := by
  obtain ⟨u, hu⟩ := List.exists_mem_of_ne_nil ts hne
  have hdtype : s.dtype = t.dtype := (hs.dtype_eq u hu).symm.trans (ht.dtype_eq u hu)
  have hst : s.shape.StretchesTo t.shape :=
    (hs.stretchesTo_iff _).mpr ((ht.stretchesTo_iff _).mp (.refl _))
  have hts : t.shape.StretchesTo s.shape :=
    (ht.stretchesTo_iff _).mpr ((hs.stretchesTo_iff _).mp (.refl _))
  have hshape := hst.antisymm hts
  refine eq_of_intAt hint hdtype hshape fun index hindex => ?_
  rw [ht.intAt_eq index hindex, hs.intAt_eq index (hshape ▸ hindex), hdtype]

end IsSum

/-! ## Sums that are computed -/

/-- Tensors of one number type are added up if there is a shape that all of them stretch to. -/
theorem addRemaining_succeeds {sum : Tensor} (index : Nat) (hbool : sum.dtype ≠ .bool)
    (hdtype : ∀ u ∈ ts, u.dtype = sum.dtype) (hsum : sum.shape.StretchesTo out)
    (hts : ∀ u ∈ ts, u.shape.StretchesTo out) :
    ∃ t, addRemaining index sum (ts.map .tensor) = .ok t := by
  induction ts generalizing sum index with
  | nil => exact ⟨sum, rfl⟩
  | cons u ts ih =>
    obtain ⟨hu, hts⟩ := List.forall_mem_cons.mp hts
    obtain ⟨hdu, hdtype⟩ := List.forall_mem_cons.mp hdtype
    obtain ⟨mid, hmid, hmout⟩ := Shape.broadcast?_le_iff.mpr ⟨hsum, hu⟩
    obtain ⟨next, hnext, hdnext, rfl⟩ := exists_add_eq_ok hmid hdu.symm hbool
    rw [← hdnext] at hbool hdtype
    obtain ⟨t, ht⟩ := ih (index + 1) hbool hdtype hmout hts
    exact ⟨t, except_bind_eq_ok.mpr ⟨u, rfl, except_bind_eq_ok.mpr ⟨next, hnext, ht⟩⟩⟩

/-- What is added to a sum is the sum of all the tensors. -/
theorem addRemaining_isSum {sum : Tensor} {index : Nat} (h : IsSum ts sum)
    (hint : sum.dtype.isInt = true) (ht : addRemaining index sum (us.map .tensor) = .ok t) :
    IsSum (us.reverse ++ ts) t := by
  induction us generalizing sum index ts with
  | nil =>
    cases ht
    exact h
  | cons u us ih =>
    obtain ⟨_, hu, ht⟩ := except_bind_eq_ok.mp ht
    cases hu
    obtain ⟨next, hnext, ht⟩ := except_bind_eq_ok.mp ht
    obtain ⟨_, -, -, hdnext, -⟩ := add_eq_ok hnext
    -- Each tensor goes to the front of those that are summed up already.
    rw [List.reverse_cons, List.append_assoc]
    exact ih (h.add hint hnext) (hdnext ▸ hint) ht

theorem addN_isSum (hint : ∀ u ∈ ts, u.dtype.isInt = true) (h : addN (ts.map .tensor) = .ok t) :
    IsSum ts t := by
  obtain ⟨first, hfirst, h⟩ := except_bind_eq_ok.mp h
  obtain ⟨rest, rfl⟩ := exists_cons_of_tensorArg_zero hfirst
  have hfirst := hint first List.mem_cons_self
  have hperm : (rest.reverse ++ [first]).Perm (first :: rest) := by
    rw [← List.reverse_cons]
    exact List.reverse_perm _
  exact (addRemaining_isSum (.single hfirst) hfirst h).perm hperm

/-- The kernel computes what the description asks for, whenever there is such a tensor. -/
theorem addN_eq_ok_iff (hne : ts ≠ []) (hint : ∀ u ∈ ts, u.dtype.isInt = true) :
    addN (ts.map .tensor) = .ok t ↔ IsSum ts t := by
  refine ⟨addN_isSum hint, fun h => ?_⟩
  cases ts with
  | nil => exact absurd rfl hne
  | cons u us =>
    obtain ⟨hdu, hdtype⟩ := List.forall_mem_cons.mp h.dtype_eq
    obtain ⟨hsu, hus⟩ := List.forall_mem_cons.mp ((h.stretchesTo_iff _).mp (.refl _))
    have hu := hint u List.mem_cons_self
    have hbool : u.dtype ≠ .bool := by
      intro hbool
      rw [hbool] at hu
      cases hu
    rw [← hdu] at hdtype
    obtain ⟨t', ht'⟩ := addRemaining_succeeds 1 hbool hdtype hsu hus
    have hadd : addN ((u :: us).map .tensor) = .ok t' := ht'
    rw [hadd, (addN_isSum hint hadd).unique h hne (hdu ▸ hu)]

end Tensor

/-- A sum of integer tensors does not depend on the order of its operands: one order has a sum exactly
if the other has, and it is the same tensor. -/
theorem sum_order_irrelevant {ts us : List Tensor} (hint : ∀ t ∈ ts, t.dtype.isInt = true)
    (hperm : ts.Perm us) :
    ∃ k, KernelRegistry.builtin.get? "add_n" = some k ∧
      ∀ v, k.call (ts.map .tensor) = .ok v ↔ k.call (us.map .tensor) = .ok v := by
  refine ⟨_, rfl, fun v => ?_⟩
  have hsum : ∀ t, Tensor.addN (ts.map .tensor) = .ok t ↔ Tensor.addN (us.map .tensor) = .ok t := by
    intro t
    by_cases hne : ts = []
    · subst hne
      rw [hperm.nil_eq]
    · have hint' : ∀ u ∈ us, u.dtype.isInt = true := fun u hu => hint u (hperm.mem_iff.mpr hu)
      have hne' : us ≠ [] := fun h => hne (h ▸ hperm).eq_nil
      rw [Tensor.addN_eq_ok_iff hne hint, Tensor.addN_eq_ok_iff hne' hint']
      exact ⟨fun h => h.perm hperm, fun h => h.perm hperm.symm⟩
  rw [Kernel.ofPacked_call_eq_ok, Kernel.ofPacked_call_eq_ok]
  simp only [hsum]

/-- A column, a row and the largest integer have the same sum in another order, which wraps around. -/
theorem column_row_scalar_sum :
    ∃ k t, KernelRegistry.builtin.get? "add_n" = some k ∧
      k.call [.tensor columnTensor, .tensor rowTensor, .tensor (.scalarInt32 Int32.maxValue)] =
        .ok (.tensor t) ∧
      k.call [.tensor (.scalarInt32 Int32.maxValue), .tensor columnTensor, .tensor rowTensor] =
        .ok (.tensor t) ∧
      t.at? [1, 2] = some (.int32 (Int32.minValue + 9)) := by
  have hint : ∀ t ∈ [columnTensor, rowTensor, .scalarInt32 Int32.maxValue], t.dtype.isInt = true := by
    simp [columnTensor, rowTensor, Tensor.scalarInt32, Tensor.dtype, Buffer.dtype, DType.isInt]
  have hperm : ([columnTensor, rowTensor] ++ [Tensor.scalarInt32 Int32.maxValue]).Perm
      ([Tensor.scalarInt32 Int32.maxValue] ++ [columnTensor, rowTensor]) := List.perm_append_comm
  obtain ⟨k, hk, hcall⟩ := sum_order_irrelevant hint hperm
  cases hk
  exact ⟨_, _, rfl, rfl, (hcall _).mp rfl, rfl⟩

end TensorIR
