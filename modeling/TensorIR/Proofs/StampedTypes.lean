import TensorIR.Proofs.KernelData
import TensorIR.Run.Evaluator
import TensorIR.Source.Annotation

/-! The types stamped on kernel calls.

A builder computes the type of a call from the types of its operands, and the kernel computes the
shape and the element type of its result from the operands themselves. They agree: whenever a
built-in kernel returns a tensor, it is of the type on the call, and the check of kernel results lets
it pass. -/

namespace TensorIR

open Source Run

theorem Source.elementwiseType_eq {d : DType} {s t out : Shape} (o : Option DType)
    (h : s.broadcast? t = some out) :
    elementwiseType o (.tensor d s) (.tensor d t) = .tensor (o.getD d) out := by
  simp only [elementwiseType, h, if_true]

namespace Source.Expr

/-- The calls that builders make of the given operands. -/
inductive Built : String → List Expr → Expr → Prop
  | unary {name : String} (h : name ∈ unaryNames) (x : Expr) : Built name [x] (unary name x)
  | arithmetic {name : String} (h : name ∈ arithmeticNames) (a b : Expr) :
    Built name [a, b] (arithmetic name a b)
  | comparison {name : String} (h : name ∈ comparisonNames) (a b : Expr) :
    Built name [a, b] (comparison name a b)
  | concatenate (x : Expr) : Built "concatenate" [x] (concatenate x)
  | addN (x : Expr) : Built "add_n" [x] (addN x)

theorem built_of_kernelCall? {name : String} {operands : List Expr} {call : Expr}
    (h : kernelCall? name operands = some call) : Built name operands call := by
  unfold kernelCall? at h
  split at h
  · split at h
    · next hname =>
      cases h
      exact .unary (List.contains_iff_mem.mp hname) _
    · split at h
      · next hname =>
        cases hname
        cases h
        exact .concatenate _
      · split at h
        · next hname =>
          cases hname
          cases h
          exact .addN _
        · cases h
  · split at h
    · next hname =>
      cases h
      exact .arithmetic (List.contains_iff_mem.mp hname) _ _
    · split at h
      · next hname =>
        cases h
        exact .comparison (List.contains_iff_mem.mp hname) _ _
      · cases h
  · cases h

theorem concatenate_eq {x : Expr} {tys : List Ty} (h : x.ty = .tuple tys) :
    concatenate x = .call (.op "concatenate") [x] (concatenateType tys) := by
  rw [concatenate, h]

theorem addN_eq {x : Expr} {tys : List Ty} (h : x.ty = .tuple tys) :
    addN x = .call (.op "add_n") [x] (sumType tys) := by
  rw [addN, h]

end Source.Expr

theorem Buffer.append?_dtype {x y z : Buffer} (h : x.append? y = some z) :
    y.dtype = x.dtype ∧ z.dtype = x.dtype := by
  cases x <;> cases y <;> cases h <;> exact ⟨rfl, rfl⟩

namespace Tensor

variable {a b t : Tensor}

theorem finish_eq_ok_iff {shape : Shape} {data : Buffer} :
    finish shape data = .ok t ↔ t.shape = shape ∧ t.data = data := by
  unfold finish ofParts?
  constructor
  · intro h
    split at h
    · next u hu =>
      split at hu
      · cases hu
        cases h
        exact ⟨rfl, rfl⟩
      · cases hu
    · cases h
  · rintro ⟨rfl, rfl⟩
    rw [dif_pos t.size_eq]

theorem finish_ty {shape : Shape} {data : Buffer} (h : finish shape data = .ok t) :
    t.ty = .tensor data.dtype shape := by
  obtain ⟨rfl, rfl⟩ := finish_eq_ok_iff.mp h
  rfl

theorem align_eq_ok {p : Shape.Alignment a.shape b.shape} (h : a.align b = .ok p) :
    a.shape.broadcast? b.shape = some p.out := by
  unfold align at h
  split at h
  · next p hp =>
    cases h
    exact Shape.broadcast?_of_align? hp
  · cases h

theorem arithmetic_ty {op : Arithmetic} (h : arithmetic op a b = .ok t) :
    elementwiseType none a.ty b.ty = t.ty := by
  obtain ⟨p, hp, h⟩ := except_bind_eq_ok.mp h
  have hstamp := fun d => elementwiseType_eq (d := d) none (align_eq_ok hp)
  unfold ty dtype
  -- Both buffers have the element type of the result, or the kernel refuses them.
  split at h
  case h_5 | h_6 => cases h
  all_goals
    next ha hb =>
    obtain ⟨data, hdata, h⟩ := except_bind_eq_ok.mp h
    obtain ⟨_, -, rfl⟩ := except_map_eq_ok hdata
    rw [ha, hb]
    exact (hstamp _).trans (finish_ty h).symm

theorem compare_ty {op : Comparison} (h : compare op a b = .ok t) :
    elementwiseType (some .bool) a.ty b.ty = t.ty := by
  obtain ⟨p, hp, h⟩ := except_bind_eq_ok.mp h
  have hstamp := fun d => elementwiseType_eq (d := d) (some .bool) (align_eq_ok hp)
  unfold ty dtype
  split at h
  case h_6 => cases h
  all_goals
    next ha hb =>
    rw [ha, hb]
    exact (hstamp _).trans (finish_ty h).symm

theorem mapFloat_ty {name : String} {f : FloatFunction} (h : mapFloat name f a = .ok t) :
    a.ty = t.ty := by
  unfold mapFloat at h
  unfold ty dtype
  split at h
  case h_3 => cases h
  all_goals
    next ha =>
    rw [ha]
    exact (finish_ty h).symm

theorem mapNumeric_ty {name : String} {f : {α : Type} → [NumericElement α] → α → α}
    (h : mapNumeric name f a = .ok t) : a.ty = t.ty := by
  unfold mapNumeric at h
  unfold ty dtype
  split at h
  case h_5 => cases h
  all_goals
    next ha =>
    rw [ha]
    exact (finish_ty h).symm

theorem ty_eq_of_dims {dims : List Nat} (h : t.shape.dims = dims) : t.ty = .tensor t.dtype ⟨dims⟩ := by
  rw [← h]
  rfl

/-- What is joined so far has the element type of its buffer. -/
theorem joinRows_ty {first : Tensor} {tail : List Nat} {index lead : Nat} {data : Buffer}
    {ts : List Tensor} (h : joinRows first tail index lead data (ts.map .tensor) = .ok t) :
    joinTypes data.dtype lead tail (ts.map ty) = t.ty := by
  induction ts generalizing index lead data with
  | nil => exact (finish_ty h).symm
  | cons u ts ih =>
    obtain ⟨_, hu, h⟩ := except_bind_eq_ok.mp h
    cases hu
    split at h
    · next n dims hdims =>
      split at h
      · next htail =>
        split at h
        · next data' hdata =>
          obtain ⟨hdtype, hdtype'⟩ := Buffer.append?_dtype hdata
          rw [← ih h, hdtype']
          rw [List.map_cons, ty_eq_of_dims hdims, joinTypes, if_pos ⟨hdtype, htail⟩]
        · cases h
      · cases h
    · cases h

theorem exists_cons_of_tensorArg_zero {ts : List Tensor} (h : tensorArg (ts.map .tensor) 0 = .ok t) :
    ∃ rest, ts = t :: rest := by
  have hhead := tensorArg_eq_ok h
  cases ts with
  | nil => cases hhead
  | cons u rest =>
    cases hhead
    exact ⟨rest, rfl⟩

theorem concatenate_ty {ts : List Tensor} (h : concatenate (ts.map .tensor) = .ok t) :
    concatenateType (ts.map ty) = t.ty := by
  obtain ⟨first, hfirst, h⟩ := except_bind_eq_ok.mp h
  obtain ⟨rest, rfl⟩ := exists_cons_of_tensorArg_zero hfirst
  split at h
  · cases h
  · next hdims =>
    rw [List.map_cons, ty_eq_of_dims hdims]
    exact joinRows_ty h

theorem addRemaining_ty {index : Nat} {sum : Tensor} {ts : List Tensor}
    (h : addRemaining index sum (ts.map .tensor) = .ok t) :
    (ts.map ty).foldl (elementwiseType none) sum.ty = t.ty := by
  induction ts generalizing index sum with
  | nil =>
    cases h
    rfl
  | cons u ts ih =>
    obtain ⟨_, hu, h⟩ := except_bind_eq_ok.mp h
    cases hu
    obtain ⟨next, hnext, h⟩ := except_bind_eq_ok.mp h
    rw [List.map_cons, List.foldl_cons, arithmetic_ty hnext]
    exact ih h

theorem addN_ty {ts : List Tensor} (h : addN (ts.map .tensor) = .ok t) :
    sumType (ts.map ty) = t.ty := by
  obtain ⟨first, hfirst, h⟩ := except_bind_eq_ok.mp h
  obtain ⟨rest, rfl⟩ := exists_cons_of_tensorArg_zero hfirst
  exact addRemaining_ty h

end Tensor

namespace Kernel

/-- On tensors of the given types, the kernel returns nothing but tensors of type `ty`. -/
def Returns (k : Kernel) (tys : List Ty) (ty : Ty) : Prop :=
  ∀ ⦃ts : List Tensor⦄ ⦃v⦄, ts.map Tensor.ty = tys → k.call (ts.map .tensor) = .ok v →
    ∃ t, v = .tensor t ∧ t.ty = ty

/-- The types of the operands of a call in which the kernel gets tensors of the given types. -/
def operandTypes (k : Kernel) (tys : List Ty) : List Ty :=
  match k.arity with
  | .fixed _ => tys
  | .packed => [.tuple tys]

variable {name : String}

theorem ofUnary_returns {f : Tensor → Except KernelError Tensor}
    (hf : ∀ ⦃a t⦄, f a = .ok t → a.ty = t.ty) (a : Ty) : (ofUnary name f).Returns [a] a := by
  intro ts v hts h
  obtain ⟨t, rfl, rfl⟩ := List.map_eq_singleton_iff.mp hts
  obtain ⟨r, hr, rfl⟩ := except_map_eq_ok (call_fixed_eq_ok rfl h).2
  exact ⟨r, rfl, (hf hr).symm⟩

theorem ofBinary_returns {f : Tensor → Tensor → Except KernelError Tensor} {stamp : Ty → Ty → Ty}
    (hf : ∀ ⦃a b t⦄, f a b = .ok t → stamp a.ty b.ty = t.ty) (a b : Ty) :
    (ofBinary name f).Returns [a, b] (stamp a b) := by
  intro ts v hts h
  obtain ⟨s, ss, rfl, rfl, hss⟩ := List.map_eq_cons_iff.mp hts
  obtain ⟨t, rfl, rfl⟩ := List.map_eq_singleton_iff.mp hss
  obtain ⟨r, hr, rfl⟩ := except_map_eq_ok (call_fixed_eq_ok rfl h).2
  exact ⟨r, rfl, (hf hr).symm⟩

theorem ofPacked_returns {f : List Value → Except KernelError Tensor} {stamp : List Ty → Ty}
    (hf : ∀ ⦃ts : List Tensor⦄ ⦃t⦄, f (ts.map .tensor) = .ok t → stamp (ts.map Tensor.ty) = t.ty)
    (tys : List Ty) : (ofPacked name f).Returns tys (stamp tys) := by
  rintro ts v rfl h
  obtain ⟨r, hr, rfl⟩ := except_map_eq_ok h
  exact ⟨r, rfl, (hf hr).symm⟩

end Kernel

namespace KernelRegistry

variable {name : String}

theorem builtin_arithmetic (h : name ∈ arithmeticNames) :
    ∃ op, builtin.get? name = some (.ofBinary name (Tensor.arithmetic op)) := by
  simp only [arithmeticNames, List.mem_cons, List.not_mem_nil, or_false] at h
  rcases h with rfl | rfl | rfl | rfl
  all_goals exact ⟨_, rfl⟩

theorem builtin_comparison (h : name ∈ comparisonNames) :
    ∃ op, builtin.get? name = some (.ofBinary name (Tensor.compare op)) := by
  simp only [comparisonNames, List.mem_cons, List.not_mem_nil, or_false] at h
  rcases h with rfl | rfl | rfl | rfl | rfl | rfl
  all_goals exact ⟨_, rfl⟩

theorem builtin_unary (h : name ∈ unaryNames) :
    ∃ f, builtin.get? name = some (.ofUnary name f) ∧ ∀ ⦃a t⦄, f a = .ok t → a.ty = t.ty := by
  simp only [unaryNames, List.mem_cons, List.not_mem_nil, or_false] at h
  rcases h with rfl | rfl | rfl | rfl | rfl | rfl | rfl
  case inr.inr.inr.inr.inr.inl | inr.inr.inr.inr.inr.inr =>
    exact ⟨_, rfl, fun _ _ => Tensor.mapNumeric_ty⟩
  all_goals exact ⟨_, rfl, fun _ _ => Tensor.mapFloat_ty⟩

/-- Every builder has a built-in kernel, which returns what the builder stamps. -/
theorem builtin_returns {operands : List Expr} {call : Expr}
    (h : Expr.kernelCall? name operands = some call) :
    ∃ k, builtin.get? name = some k ∧
      ∀ tys, operands.map Expr.ty = k.operandTypes tys → k.Returns tys call.ty := by
  cases Expr.built_of_kernelCall? h with
  | unary hname x =>
    obtain ⟨f, hk, hf⟩ := builtin_unary hname
    refine ⟨_, hk, fun tys htys => ?_⟩
    cases htys
    exact Kernel.ofUnary_returns hf _
  | arithmetic hname a b =>
    obtain ⟨op, hk⟩ := builtin_arithmetic hname
    refine ⟨_, hk, fun tys htys => ?_⟩
    cases htys
    exact Kernel.ofBinary_returns (fun _ _ _ => Tensor.arithmetic_ty) _ _
  | comparison hname a b =>
    obtain ⟨op, hk⟩ := builtin_comparison hname
    refine ⟨_, hk, fun tys htys => ?_⟩
    cases htys
    exact Kernel.ofBinary_returns (fun _ _ _ => Tensor.compare_ty) _ _
  | concatenate x =>
    refine ⟨_, rfl, fun tys htys => ?_⟩
    rw [Expr.concatenate_eq (List.cons.inj htys).1]
    exact Kernel.ofPacked_returns (fun _ _ => Tensor.concatenate_ty) _
  | addN x =>
    refine ⟨_, rfl, fun tys htys => ?_⟩
    rw [Expr.addN_eq (List.cons.inj htys).1]
    exact Kernel.ofPacked_returns (fun _ _ => Tensor.addN_ty) _

end KernelRegistry

theorem Tensor.conformsTo_ty (types : TypeTable) (t : Tensor) :
    (Value.tensor t).conformsTo types t.ty = true := by
  simp [Value.conformsTo, Tensor.ty]

/-- A kernel call whose result is of the declared type passes the check. -/
theorem Run.CompiledUnit.callKernel_of_conforms (u : CompiledUnit) {k : Kernel} {name : String}
    {arity : Nat} {ty : Ty} {tupled : Bool} {args args' : List Value} {v : Value} {M : Machine}
    (hargs : kernelArgs name arity tupled args M = .ok args' M) (hv : k.call args' = .ok v)
    (hty : v.conformsTo u.types ty = true) :
    ∃ M', u.callKernel k name arity ty tupled args M = .ok v M' := by
  obtain ⟨_, harity, hbody⟩ := except_bind_eq_ok.mp hv
  rw [callKernel, shared_bind_of_ok hargs, shared_bind_of_ok (x := record _) rfl]
  simp only [harity, hbody, hty, Bool.not_true, Bool.and_false, Bool.false_eq_true, if_false]
  exact ⟨_, rfl⟩

/-- The type stamped on a kernel call is that of its result: every builder has a built-in kernel, and
if the operands are written with the types of some tensors and the kernel returns a value for these,
it is a tensor of exactly the type that is written on the call. So the call returns this value in every
unit, with the check of kernel results or without. -/
theorem stamped_type_is_result_type {name : String} {operands : List Expr} {call : Expr}
    (hcall : Expr.kernelCall? name operands = some call) :
    ∃ k, KernelRegistry.builtin.get? name = some k ∧
      ∀ (ts : List Tensor) (v : Value), operands.map Expr.ty = k.operandTypes (ts.map Tensor.ty) →
        k.call (ts.map .tensor) = .ok v →
        (∃ t, v = .tensor t ∧ t.ty = call.ty) ∧
        ∀ (u : CompiledUnit) (arity : Nat) (tupled : Bool) (args : List Value) (M : Machine),
          CompiledUnit.kernelArgs name arity tupled args M = .ok (ts.map .tensor) M →
          ∃ M', u.callKernel k name arity call.ty tupled args M = .ok v M' := by
  obtain ⟨k, hk, hreturns⟩ := KernelRegistry.builtin_returns hcall
  refine ⟨k, hk, fun ts v htys hv => ?_⟩
  obtain ⟨t, rfl, ht⟩ := hreturns _ htys rfl hv
  refine ⟨⟨t, rfl, ht⟩, fun u arity tupled args M hargs => ?_⟩
  refine u.callKernel_of_conforms hargs hv ?_
  rw [← ht]
  exact t.conformsTo_ty u.types

def columnTensor : Tensor := ⟨⟨[2, 1]⟩, .int32 #[1, 4], rfl⟩

def rowTensor : Tensor := ⟨⟨[3]⟩, .int32 #[2, 4, 6], rfl⟩

/-- Comparing a column with a row gives a matrix of truth values, as stamped. -/
theorem comparison_of_column_and_row :
    ∃ k v, KernelRegistry.builtin.get? "less" = some k ∧
      k.call [.tensor columnTensor, .tensor rowTensor] = .ok v ∧
      (∃ t, v = .tensor t ∧ t.ty = .tensor .bool ⟨[2, 3]⟩) ∧
      ∀ (u : CompiledUnit) (M : Machine), ∃ M',
        u.callKernel k "less" 2 (.tensor .bool ⟨[2, 3]⟩) false
          [.tensor columnTensor, .tensor rowTensor] M = .ok v M' := by
  have hcall : Expr.kernelCall? "less" [.const columnTensor, .const rowTensor] =
      some (.comparison "less" (.const columnTensor) (.const rowTensor)) := rfl
  obtain ⟨k, hk, hstamped⟩ := stamped_type_is_result_type hcall
  cases hk
  obtain ⟨ht, hcheck⟩ := hstamped [columnTensor, rowTensor] _ rfl rfl
  exact ⟨_, _, rfl, rfl, ht, fun u M => hcheck u 2 false _ M rfl⟩

end TensorIR
