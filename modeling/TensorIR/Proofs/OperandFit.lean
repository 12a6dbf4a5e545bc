import Mathlib.Data.List.Induction
import TensorIR.Lowering.Unit
import TensorIR.Proofs.Broadcasting
import TensorIR.Proofs.StampedTypes
import TensorIR.Run.Invocation

/-! Operands that do not fit together.

Tensor types fit an elementwise kernel if they have one element type and their shapes stretch to a
common one, and concatenation if they differ in their first axis only. A builder leaves the type of
the call open where they do not, and lowering stops there.

The type of a sum of many operands is an exception. An open type stands for "not known yet" where it
meets the next operand, and the sum starts again with that operand. So the type of the sum says only
that the operands after the last misfit fit. -/

namespace TensorIR

open Source Lowering Run

namespace Ty

def IsTensor (t : Ty) : Prop := ∃ d s, t = .tensor d s

/-- The type of a tensor with elements of type `d` whose shape stretches to `out`. -/
def FitsInto (t : Ty) (d : DType) (out : Shape) : Prop := ∃ s, t = .tensor d s ∧ s.StretchesTo out

/-- Tensors of these types can be combined element by element: they have one element type, and their
shapes stretch to a common one. -/
def Broadcastable (ts : List Ty) : Prop := ∃ d out, ∀ t ∈ ts, t.FitsInto d out

/-- Tensors of these types can be joined along the first axis: they have one element type, and the same
other axes. -/
def Stackable (ts : List Ty) : Prop := ∃ d tail, ∀ t ∈ ts, ∃ n, t = .tensor d ⟨n :: tail⟩

/-- Tensors of these types are fit operands of the named kernel, which takes two or more. -/
def FitFor (name : String) (ts : List Ty) : Prop :=
  if name = "concatenate" then Stackable ts else Broadcastable ts

/-- The sum of the first operands has an open type, and the operands after them fit. -/
def SumRestarts (ts : List Ty) : Prop :=
  ∃ front back, ts = front ++ back ∧ front ≠ [] ∧ back ≠ [] ∧ sumType front = .infer ∧
    Broadcastable back

variable {t a b : Ty} {d : DType} {out : Shape}

theorem fitsInto_tensor {e : DType} {s : Shape} :
    (Ty.tensor e s).FitsInto d out ↔ e = d ∧ s.StretchesTo out := by
  constructor
  · rintro ⟨_, h, hs⟩
    cases h
    exact ⟨rfl, hs⟩
  · rintro ⟨rfl, hs⟩
    exact ⟨s, rfl, hs⟩

theorem FitsInto.isTensor (h : t.FitsInto d out) : t.IsTensor :=
  let ⟨s, hs, _⟩ := h
  ⟨d, s, hs⟩

theorem IsTensor.fits (h : t.IsTensor) : ∃ d out, t.FitsInto d out := by
  obtain ⟨d, s, rfl⟩ := h
  exact ⟨d, s, s, rfl, .refl s⟩

theorem not_isTensor_infer : ¬IsTensor .infer := by
  rintro ⟨d, s, h⟩
  cases h

theorem not_fitsInto_infer : ¬FitsInto .infer d out := fun h => not_isTensor_infer h.isTensor

/-- What two tensor types combine to fits wherever both do, and they combine if there is such a
place. -/
theorem elementwiseType_fitsInto (ha : a.IsTensor) (hb : b.IsTensor) :
    (elementwiseType none a b).FitsInto d out ↔ a.FitsInto d out ∧ b.FitsInto d out := by
  obtain ⟨e, s, rfl⟩ := ha
  obtain ⟨f, t, rfl⟩ := hb
  rw [fitsInto_tensor, fitsInto_tensor]
  by_cases hef : e = f
  · subst hef
    rw [← and_and_left, ← Shape.broadcast?_le_iff]
    cases hs : s.broadcast? t with
    | some u => simp [elementwiseType, hs, fitsInto_tensor]
    | none => simp [elementwiseType, hs, not_fitsInto_infer]
  · rw [elementwiseType, if_neg hef]
    refine iff_of_false not_fitsInto_infer ?_
    rintro ⟨⟨rfl, -⟩, rfl, -⟩
    exact hef rfl

/-- An open type, or that of a tensor. -/
def OpenOrTensor (t : Ty) : Prop := t = .infer ∨ t.IsTensor

theorem OpenOrTensor.isResolved_iff (h : t.OpenOrTensor) :
    t.isResolved = true ↔ ∃ d out, t.FitsInto d out := by
  rcases h with rfl | h
  · refine iff_of_false Bool.false_ne_true ?_
    rintro ⟨d, out, hfit⟩
    exact not_fitsInto_infer hfit
  · refine iff_of_true ?_ h.fits
    obtain ⟨d, s, rfl⟩ := h
    rfl

theorem elementwiseType_openOrTensor (o : Option DType) (a b : Ty) :
    (elementwiseType o a b).OpenOrTensor := by
  unfold elementwiseType
  split
  · split
    · split
      · exact .inr ⟨_, _, rfl⟩
      · exact .inl rfl
    · exact .inl rfl
  · exact .inr ⟨_, _, rfl⟩
  · exact .inr ⟨_, _, rfl⟩
  · exact .inl rfl

/-- The element type asked for does not matter. -/
theorem elementwiseType_isResolved (o : Option DType) (a b : Ty) :
    (elementwiseType o a b).isResolved = (elementwiseType none a b).isResolved := by
  unfold elementwiseType
  split
  · split
    · split <;> rfl
    · rfl
  all_goals rfl

theorem elementwiseType_isResolved_iff (o : Option DType) (ha : a.IsTensor) (hb : b.IsTensor) :
    (elementwiseType o a b).isResolved = true ↔ Broadcastable [a, b] := by
  rw [elementwiseType_isResolved, (elementwiseType_openOrTensor none a b).isResolved_iff]
  simp only [elementwiseType_fitsInto ha hb, Broadcastable, List.forall_mem_cons, List.not_mem_nil,
    false_imp_iff, implies_true, and_true]

/-! ## Concatenation -/

theorem joinTypes_openOrTensor (lead : Nat) (tail : List Nat) (ts : List Ty) :
    (joinTypes d lead tail ts).OpenOrTensor := by
  fun_induction joinTypes d lead tail ts with
  | case1 => exact .inr ⟨_, _, rfl⟩
  | case2 _ _ _ _ _ _ ih => exact ih
  | case3 | case4 => exact .inl rfl

theorem joinTypes_isResolved_iff (lead : Nat) (tail : List Nat) (ts : List Ty) :
    (joinTypes d lead tail ts).isResolved = true ↔ ∀ t ∈ ts, ∃ n, t = .tensor d ⟨n :: tail⟩ := by
  fun_induction joinTypes d lead tail ts with
  | case1 => simp [isResolved]
  | case2 lead e n dims rest h ih =>
    obtain ⟨rfl, rfl⟩ := h
    simp [ih]
  | case3 lead e n dims rest h =>
    refine iff_of_false Bool.false_ne_true fun hall => h ?_
    obtain ⟨m, hm⟩ := hall _ List.mem_cons_self
    cases hm
    exact ⟨rfl, rfl⟩
  | case4 ts lead hnil hcons =>
    refine iff_of_false Bool.false_ne_true fun hall => ?_
    cases ts with
    | nil => exact hnil rfl
    | cons t ts =>
      obtain ⟨n, rfl⟩ := hall t List.mem_cons_self
      exact hcons _ _ _ _ rfl

theorem concatenateType_openOrTensor (ts : List Ty) : (concatenateType ts).OpenOrTensor := by
  unfold concatenateType
  split
  · exact joinTypes_openOrTensor _ _ _
  · exact .inl rfl

theorem concatenateType_isResolved_iff {ts : List Ty} (hts : ts ≠ []) :
    (concatenateType ts).isResolved = true ↔ Stackable ts := by
  unfold concatenateType
  split
  · next d n dims rest =>
    rw [joinTypes_isResolved_iff]
    constructor
    · exact fun h => ⟨d, dims, List.forall_mem_cons.mpr ⟨⟨n, rfl⟩, h⟩⟩
    · rintro ⟨e, tail, h⟩
      obtain ⟨⟨m, hm⟩, h⟩ := List.forall_mem_cons.mp h
      cases hm
      exact h
  · next hcons =>
    refine iff_of_false Bool.false_ne_true ?_
    rintro ⟨d, tail, h⟩
    cases ts with
    | nil => exact hts rfl
    | cons t ts =>
      obtain ⟨n, rfl⟩ := h t List.mem_cons_self
      exact hcons _ _ _ _ rfl

/-! ## Sums -/

theorem elementwiseType_infer (ht : t.IsTensor) : elementwiseType none .infer t = t := by
  obtain ⟨d, s, rfl⟩ := ht
  rfl

theorem sumType_append (front : List Ty) {back : List Ty} (hback : ∀ t ∈ back, t.IsTensor) :
    sumType (front ++ back) = back.foldl (elementwiseType none) (sumType front) := by
  cases front with
  | cons a rest => exact List.foldl_append
  | nil =>
    cases back with
    | nil => rfl
    | cons t rest =>
      rw [List.foldl_cons, sumType, elementwiseType_infer (hback t List.mem_cons_self)]
      rfl

/-- After a misfit, the sum starts again with the next operand. -/
theorem sumType_restart {front back : List Ty} (hfront : sumType front = .infer)
    (hback : ∀ t ∈ back, t.IsTensor) : sumType (front ++ back) = sumType back := by
  rw [sumType_append front hback, hfront]
  exact (sumType_append [] hback).symm

theorem foldl_elementwiseType_openOrTensor (ts : List Ty) (ha : a.OpenOrTensor) :
    (ts.foldl (elementwiseType none) a).OpenOrTensor := by
  induction ts generalizing a with
  | nil => exact ha
  | cons t ts ih => exact ih (elementwiseType_openOrTensor none a t)

theorem sumType_openOrTensor {ts : List Ty} (hts : ∀ t ∈ ts, t.IsTensor) :
    (sumType ts).OpenOrTensor := by
  rw [← List.nil_append ts, sumType_append [] hts]
  exact foldl_elementwiseType_openOrTensor ts (.inl rfl)

theorem foldl_elementwiseType_fitsInto {ts : List Ty} (ha : a.FitsInto d out)
    (hts : ∀ t ∈ ts, t.FitsInto d out) : (ts.foldl (elementwiseType none) a).FitsInto d out := by
  induction ts generalizing a with
  | nil => exact ha
  | cons t ts ih =>
    obtain ⟨ht, hts⟩ := List.forall_mem_cons.mp hts
    exact ih ((elementwiseType_fitsInto ha.isTensor ht.isTensor).mpr ⟨ha, ht⟩) hts

theorem Broadcastable.sumType_isResolved {ts : List Ty} (h : Broadcastable ts) (hts : ts ≠ []) :
    (sumType ts).isResolved = true := by
  obtain ⟨d, out, hfit⟩ := h
  have hopen := sumType_openOrTensor fun t ht => (hfit t ht).isTensor
  refine hopen.isResolved_iff.mpr ⟨d, out, ?_⟩
  cases ts with
  | nil => exact (hts rfl).elim
  | cons t ts =>
    obtain ⟨ht, hts⟩ := List.forall_mem_cons.mp hfit
    exact foldl_elementwiseType_fitsInto ht hts

/-- A sum that has a type has that of the operands from some place on, where it has started or
started again. -/
theorem exists_sumType_fitsInto_iff {ts : List Ty} (hts : ∀ t ∈ ts, t.IsTensor)
    (h : (sumType ts).IsTensor) :
    ∃ front back, ts = front ++ back ∧ back ≠ [] ∧ sumType front = .infer ∧
      ∀ d out, (sumType ts).FitsInto d out ↔ ∀ t ∈ back, t.FitsInto d out := by
  -- From the back: the last operand joins the run that is under way, or starts a new one.
  induction ts using List.reverseRecOn with
  | nil => exact (not_isTensor_infer h).elim
  | append_singleton init t ih =>
    obtain ⟨hinit, ht⟩ := List.forall_mem_append.mp hts
    have hstep : sumType (init ++ [t]) = elementwiseType none (sumType init) t :=
      sumType_append init ht
    rw [List.forall_mem_singleton] at ht
    rw [hstep]
    rcases sumType_openOrTensor hinit with hopen | hsum
    · refine ⟨init, [t], rfl, List.cons_ne_nil _ _, hopen, fun d out => ?_⟩
      rw [hopen, elementwiseType_infer ht, List.forall_mem_singleton]
    · obtain ⟨front, back, rfl, hback, hfront, hiff⟩ := ih hinit hsum
      refine ⟨front, back ++ [t], List.append_assoc _ _ _, by simp, hfront, fun d out => ?_⟩
      rw [elementwiseType_fitsInto hsum ht, hiff, List.forall_mem_append, List.forall_mem_singleton]

theorem sumType_isResolved_iff {ts : List Ty} (htensor : ∀ t ∈ ts, t.IsTensor) (hts : ts ≠ []) :
    (sumType ts).isResolved = true ↔ Broadcastable ts ∨ SumRestarts ts := by
  constructor
  · intro h
    obtain ⟨d, out, hfit⟩ := (sumType_openOrTensor htensor).isResolved_iff.mp h
    obtain ⟨front, back, rfl, hback, hfront, hiff⟩ :=
      exists_sumType_fitsInto_iff htensor hfit.isTensor
    have hfits : Broadcastable back := ⟨d, out, (hiff d out).mp hfit⟩
    by_cases hnil : front = []
    · subst hnil
      exact .inl hfits
    · exact .inr ⟨front, back, rfl, hnil, hback, hfront, hfits⟩
  · rintro (h | ⟨front, back, rfl, -, hback, hfront, h⟩)
    · exact h.sumType_isResolved hts
    · rw [sumType_restart hfront (List.forall_mem_append.mp htensor).2]
      exact h.sumType_isResolved hback

/-- One tensor is no misfit, so that two operands are not enough for a sum to start again. -/
theorem SumRestarts.three_le {ts : List Ty} (h : SumRestarts ts) (hts : ∀ t ∈ ts, t.IsTensor) :
    3 ≤ ts.length := by
  obtain ⟨front, back, rfl, hfront, hback, hopen, -⟩ := h
  have hlen := List.length_pos_of_ne_nil hback
  rw [List.length_append]
  match front, hfront, hopen with
  | [a], _, hopen =>
    have ha : a.IsTensor := hts a (by simp)
    rw [show a = .infer from hopen] at ha
    exact (not_isTensor_infer ha).elim
  | a :: b :: rest, _, _ =>
    simp only [List.length_cons]
    omega

end Ty

namespace Tensor

theorem isTensor_ty (t : Tensor) : t.ty.IsTensor := ⟨_, _, rfl⟩

/-- A sum that the kernel computes has operands that fit. -/
theorem addRemaining_fits {index : Nat} {sum t : Tensor} {ts : List Tensor}
    (h : addRemaining index sum (ts.map .tensor) = .ok t) {d : DType} {out : Shape}
    (ht : t.ty.FitsInto d out) :
    sum.ty.FitsInto d out ∧ ∀ u ∈ ts, u.ty.FitsInto d out := by
  induction ts generalizing index sum with
  | nil =>
    cases h
    exact ⟨ht, by simp⟩
  | cons u ts ih =>
    obtain ⟨_, hu, h⟩ := except_bind_eq_ok.mp h
    cases hu
    obtain ⟨next, hnext, h⟩ := except_bind_eq_ok.mp h
    obtain ⟨hfits, hrest⟩ := ih h
    rw [← arithmetic_ty hnext, Ty.elementwiseType_fitsInto sum.isTensor_ty u.isTensor_ty] at hfits
    exact ⟨hfits.1, List.forall_mem_cons.mpr ⟨hfits.2, hrest⟩⟩

theorem broadcastable_of_addN {t : Tensor} {ts : List Tensor}
    (h : addN (ts.map .tensor) = .ok t) : Ty.Broadcastable (ts.map ty) := by
  obtain ⟨first, hfirst, h⟩ := except_bind_eq_ok.mp h
  obtain ⟨rest, rfl⟩ := exists_cons_of_tensorArg_zero hfirst
  obtain ⟨d, out, ht⟩ := t.isTensor_ty.fits
  obtain ⟨hfits, hrest⟩ := addRemaining_fits h ht
  refine ⟨d, out, ?_⟩
  simp only [List.map_cons, List.forall_mem_cons, List.forall_mem_map]
  exact ⟨hfits, hrest⟩

end Tensor

/-! ## Calls -/

/-- The call of the named kernel has a resolved type exactly if `fit` holds. Otherwise its type is
open, and lowering stops at the call. -/
structure Source.Expr.StampedWhen (call : Expr) (name : String) (fit : Prop) : Prop where
  isResolved_iff : call.ty.isResolved = true ↔ fit
  rejected : ¬fit → call.ty = .infer ∧ ∀ (c : BodyContext) (s : Scope) (g : Progress),
    (c.setting.kernels.get? name).isSome = true →
      lowerExpr c call s g = .error (.unresolvedType c.func "kernel call output") g

theorem Lowering.BodyContext.kernelArity_open {c : BodyContext} {name : String} {args : List Expr}
    {ty : Ty} (hk : (c.setting.kernels.get? name).isSome = true) (hty : ty.isResolved = false)
    (s : Scope) (g : Progress) :
    c.kernelArity name args ty s g = .error (.unresolvedType c.func "kernel call output") g := by
  obtain ⟨k, hk⟩ := Option.isSome_iff_exists.mp hk
  unfold kernelArity
  simp only [hk, hty, Bool.not_false, if_true]
  rfl

theorem Lowering.lowerExpr_open_call {c : BodyContext} {name : String} {args : List Expr} {ty : Ty}
    (hk : (c.setting.kernels.get? name).isSome = true) (hty : ty.isResolved = false) (s : Scope)
    (g : Progress) :
    lowerExpr c (.call (.op name) args ty) s g =
      .error (.unresolvedType c.func "kernel call output") g := by
  rw [lowerExpr, bind_apply, BodyContext.kernelArity_open hk hty]

theorem Source.Expr.stampedWhen_of {name : String} {args : List Expr} {ty : Ty} {fit : Prop}
    (hopen : ty.OpenOrTensor) (h : ty.isResolved = true ↔ fit) :
    (Expr.call (.op name) args ty).StampedWhen name fit := by
  refine ⟨h, fun hfit => ?_⟩
  have hty : ty.isResolved = false := by
    rw [← Bool.not_eq_true, h]
    exact hfit
  refine ⟨?_, fun c s g hk => lowerExpr_open_call hk hty s g⟩
  rcases hopen with rfl | ⟨d, s, rfl⟩
  · rfl
  · cases hty

section

variable {name : String} {tys : List Ty}

theorem elementwise_stampedWhen (o : Option DType) {a b : Expr} (hname : name ≠ "concatenate")
    (htys : ∀ t ∈ [a.ty, b.ty], t.IsTensor) :
    (Expr.call (.op name) [a, b] (elementwiseType o a.ty b.ty)).StampedWhen name
      (Ty.FitFor name [a.ty, b.ty] ∨ name = "add_n" ∧ Ty.SumRestarts [a.ty, b.ty]) := by
  refine Expr.stampedWhen_of (Ty.elementwiseType_openOrTensor o a.ty b.ty) ?_
  rw [Ty.elementwiseType_isResolved_iff o (htys _ (by simp)) (htys _ (by simp)), Ty.FitFor,
    if_neg hname]
  refine ⟨.inl, fun h => h.resolve_right ?_⟩
  rintro ⟨-, hrestarts⟩
  exact absurd (hrestarts.three_le htys) (by simp)

theorem Source.Expr.Built.stampedWhen {operands : List Expr} {call : Expr} {k : Kernel}
    (h : Built name operands call) (hk : KernelRegistry.builtin.get? name = some k)
    (hoperands : operands.map Expr.ty = k.operandTypes tys) (htys : ∀ t ∈ tys, t.IsTensor)
    (hlen : 2 ≤ tys.length) :
    call.StampedWhen name (Ty.FitFor name tys ∨ name = "add_n" ∧ Ty.SumRestarts tys) := by
  have hne : tys ≠ [] := List.ne_nil_of_length_pos (by omega)
  cases h with
  | unary hname x =>
    obtain ⟨f, hf, -⟩ := KernelRegistry.builtin_unary hname
    cases hk.symm.trans hf
    cases hoperands
    exact absurd hlen (by simp)
  | arithmetic hname a b =>
    obtain ⟨op, hop⟩ := KernelRegistry.builtin_arithmetic hname
    cases hk.symm.trans hop
    cases hoperands
    refine elementwise_stampedWhen none ?_ htys
    rintro rfl
    exact absurd hname (by decide)
  | comparison hname a b =>
    obtain ⟨op, hop⟩ := KernelRegistry.builtin_comparison hname
    cases hk.symm.trans hop
    cases hoperands
    refine elementwise_stampedWhen (some .bool) ?_ htys
    rintro rfl
    exact absurd hname (by decide)
  | concatenate x =>
    cases hk
    rw [Expr.concatenate_eq (List.cons.inj hoperands).1]
    refine Expr.stampedWhen_of (Ty.concatenateType_openOrTensor tys) ?_
    rw [Ty.concatenateType_isResolved_iff hne]
    simp [Ty.FitFor]
  | addN x =>
    cases hk
    rw [Expr.addN_eq (List.cons.inj hoperands).1]
    refine Expr.stampedWhen_of (Ty.sumType_openOrTensor htys) ?_
    rw [Ty.sumType_isResolved_iff htys hne]
    simp [Ty.FitFor]

/-- Operands that cannot be combined are turned down before a run, except for some sums. Let a call be
built from two operands of tensor types, or from a tuple of two or more fields of tensor types. The
type on it is resolved exactly if these types fit the kernel; if not, it is open and lowering stops at
the call. The exception is a sum that has started again after a misfit, which takes three operands:
there the operands after the misfit decide. The kernel itself returns nothing for operands that do not
fit. -/
theorem misfits_left_open {operands : List Expr} {call : Expr} {k : Kernel}
    (hcall : Expr.kernelCall? name operands = some call)
    (hk : KernelRegistry.builtin.get? name = some k)
    (hoperands : operands.map Expr.ty = k.operandTypes tys) (htys : ∀ t ∈ tys, t.IsTensor)
    (hlen : 2 ≤ tys.length) :
    call.StampedWhen name (Ty.FitFor name tys ∨ name = "add_n" ∧ Ty.SumRestarts tys) ∧
    (Ty.SumRestarts tys → 3 ≤ tys.length) ∧
    ∀ (ts : List Tensor) (v : Value), ts.map Tensor.ty = tys → k.call (ts.map .tensor) = .ok v →
      Ty.FitFor name tys := by
  have hstamped := (Expr.built_of_kernelCall? hcall).stampedWhen hk hoperands htys hlen
  refine ⟨hstamped, fun h => h.three_le htys, fun ts v hts hv => ?_⟩
  obtain ⟨k', hk', hreturns⟩ := KernelRegistry.builtin_returns hcall
  cases hk.symm.trans hk'
  obtain ⟨t, rfl, ht⟩ := hreturns tys hoperands hts hv
  have hresolved : call.ty.isResolved = true := by
    rw [← ht]
    rfl
  rcases hstamped.isResolved_iff.mp hresolved with hfit | ⟨rfl, -⟩
  · exact hfit
  · cases hk
    cases hts
    obtain ⟨r, hr, -⟩ := except_map_eq_ok hv
    exact Tensor.broadcastable_of_addN hr

end

def vectorVar (id : Nat) (name : String) (size : Nat) : Var := ⟨id, name, .tensor .float32 ⟨[size]⟩⟩

/-- `(x, y)`, vectors of two and of three elements. -/
def unequalPair : Expr := .tupleOf [.var (vectorVar 0 "x" 2), .var (vectorVar 1 "y" 3)]

theorem not_broadcastable_two_three :
    ¬Ty.Broadcastable [.tensor .float32 ⟨[2]⟩, .tensor .float32 ⟨[3]⟩] := by
  rw [← Ty.elementwiseType_isResolved_iff none ⟨_, _, rfl⟩ ⟨_, _, rfl⟩]
  decide

/-- Vectors of unequal size can be joined, but not added up, by `add` or by `add_n`. -/
theorem unequalPair_stamped :
    (Expr.concatenate unequalPair).ty.isResolved = true ∧
    (Expr.arithmetic "add" (.var (vectorVar 0 "x" 2)) (.var (vectorVar 1 "y" 3))).ty = .infer ∧
    ∀ (c : BodyContext) (s : Scope) (g : Progress), c.setting.kernels = .builtin →
      lowerExpr c (Expr.addN unequalPair) s g =
        .error (.unresolvedType c.func "kernel call output") g := by
  have hpair : ∀ t ∈ [Ty.tensor .float32 ⟨[2]⟩, .tensor .float32 ⟨[3]⟩], t.IsTensor := by
    simp [Ty.IsTensor]
  have hadd : Expr.kernelCall? "add" [.var (vectorVar 0 "x" 2), .var (vectorVar 1 "y" 3)] =
      some (.arithmetic "add" (.var (vectorVar 0 "x" 2)) (.var (vectorVar 1 "y" 3))) := rfl
  have hconcat : Expr.kernelCall? "concatenate" [unequalPair] = some (.concatenate unequalPair) := rfl
  have hsum : Expr.kernelCall? "add_n" [unequalPair] = some (.addN unequalPair) := rfl
  obtain ⟨hadd, -⟩ := misfits_left_open hadd rfl rfl hpair (by decide)
  obtain ⟨hconcat, -⟩ := misfits_left_open hconcat rfl rfl hpair (by decide)
  obtain ⟨hsum, hrestart, -⟩ := misfits_left_open hsum rfl rfl hpair (by decide)
  refine ⟨?_, (hadd.rejected ?_).1, fun c s g hc => ?_⟩
  · exact hconcat.isResolved_iff.mpr (.inl ⟨.float32, [], by simp [Expr.ty, vectorVar]⟩)
  · rintro (h | h)
    · exact not_broadcastable_two_three h
    · exact absurd h.1 (by decide)
  · refine (hsum.rejected ?_).2 c s g (by rw [hc]; rfl)
    rintro (h | h)
    · exact not_broadcastable_two_three h
    · exact absurd (hrestart h.2) (by decide)

/-- `fn (x, y, z) { add_n((x, y, z)) }` on vectors of two, three and five elements. -/
def sumOfUnequal : Source.Function where
  params := [vectorVar 0 "x" 2, vectorVar 1 "y" 3, vectorVar 2 "z" 5]
  body := .addN (.tupleOf [.var (vectorVar 0 "x" 2), .var (vectorVar 1 "y" 3),
    .var (vectorVar 2 "z" 5)])
  ret := .tensor .float32 ⟨[5]⟩

def emptySetting : Setting := ⟨⟨[], []⟩, .builtin, {}⟩

def unequalVectors : List Value :=
  [.tensor (.vectorFloat32 #[1, 1]), .tensor (.vectorFloat32 #[1, 1, 1]),
    .tensor (.vectorFloat32 #[1, 1, 1, 1, 1])]

/-- The kernel that refuses its arguments when the compiled sum is run, and why. -/
def sumRefusal : Option (String × KernelError) :=
  match emptySetting.compile sumOfUnequal {} with
  | .ok (entry, p) _ =>
    match CompiledUnit.run ⟨p, .builtin, [], {}⟩ entry unequalVectors {} with
    | .error (.kernel name e) _ => some (name, e)
    | _ => none
  | .error .. => none

/-- A sum forgets a misfit: vectors of two, three and five elements do not broadcast together, but the
type on their sum is that of the third one. The sum is compiled, and fails when it is run. -/
theorem sum_forgets_misfit :
    ¬Ty.Broadcastable (sumOfUnequal.params.map Var.ty) ∧
    sumOfUnequal.body.ty = .tensor .float32 ⟨[5]⟩ ∧
    ∃ entry p g M, emptySetting.compile sumOfUnequal {} = .ok (entry, p) g ∧
      CompiledUnit.run ⟨p, .builtin, [], {}⟩ entry unequalVectors {} =
        .error (.kernel "add_n" (.broadcast "[2]" "[3]")) M := by
  refine ⟨?_, rfl, ?_⟩
  · rintro ⟨d, out, h⟩
    exact not_broadcastable_two_three ⟨d, out, fun t ht => h t (List.mem_append_left [_] ht)⟩
  · have hrefusal : sumRefusal = some ("add_n", .broadcast "[2]" "[3]") := by decide +kernel
    unfold sumRefusal at hrefusal
    split at hrefusal
    · next entry p g hcompile =>
      split at hrefusal
      · next name e M hrun =>
        cases hrefusal
        exact ⟨_, _, _, _, hcompile, hrun⟩
      · cases hrefusal
    · cases hrefusal

end TensorIR
