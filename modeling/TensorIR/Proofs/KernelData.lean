import Mathlib.Data.List.Basic
import TensorIR.Kernel.Builtin
import TensorIR.Proofs.DataValues
import TensorIR.Proofs.Steps

/-! Built-in kernels work on data: one that succeeds has had no function among its inputs, and its
result is none. -/

namespace TensorIR

/-- A call that succeeds has data for inputs and result. -/
def Kernel.FirstOrder (k : Kernel) : Prop :=
  ∀ ⦃args v⦄, k.call args = .ok v → Value.allData args = true ∧ v.isData = true

theorem tensorAt_eq_ok {index : Nat} {v : Value} {t : Tensor} (h : tensorAt index v = .ok t) :
    v = .tensor t := by
  cases v with
  | tensor t' =>
    injection h with h
    rw [h]
  | _ => cases h

theorem tensorArg_eq_ok {args : List Value} {index : Nat} {t : Tensor}
    (h : tensorArg args index = .ok t) : args[index]? = some (.tensor t) := by
  unfold tensorArg at h
  split at h
  · next v hv => rw [hv, tensorAt_eq_ok h]
  · cases h

theorem Value.allData_of_tensorArg_zero {args : List Value} {t : Tensor}
    (h : tensorArg args 0 = .ok t) (htail : allData args.tail = true) : allData args = true := by
  cases args with
  | nil => rfl
  | cons v vs =>
    obtain rfl := Option.some.inj (tensorArg_eq_ok h)
    exact htail

theorem except_map_eq_ok {ε α β : Type} {x : Except ε α} {f : α → β} {b : β}
    (h : f <$> x = .ok b) : ∃ a, x = .ok a ∧ b = f a := by
  cases x with
  | error e => cases h
  | ok a =>
    injection h with h
    exact ⟨a, rfl, h.symm⟩

namespace Tensor

theorem joinRows_allData {first : Tensor} {tail : List Nat} {index lead : Nat} {data : Buffer}
    {vs : List Value} {t : Tensor} (h : joinRows first tail index lead data vs = .ok t) :
    Value.allData vs = true := by
  induction vs generalizing index lead data with
  | nil => rfl
  | cons v vs ih =>
    obtain ⟨u, hu, hrest⟩ := except_bind_eq_ok.mp h
    obtain rfl := tensorAt_eq_ok hu
    rw [Value.allData, Value.isData, Bool.true_and]
    split at hrest
    · split at hrest
      · split at hrest
        · exact ih hrest
        · cases hrest
      · cases hrest
    · cases hrest

theorem addRemaining_allData {index : Nat} {sum : Tensor} {vs : List Value} {t : Tensor}
    (h : addRemaining index sum vs = .ok t) : Value.allData vs = true := by
  induction vs generalizing index sum with
  | nil => rfl
  | cons v vs ih =>
    obtain ⟨u, hu, hrest⟩ := except_bind_eq_ok.mp h
    obtain ⟨s, -, hrest⟩ := except_bind_eq_ok.mp hrest
    obtain rfl := tensorAt_eq_ok hu
    exact ih hrest

theorem concatenate_allData {args : List Value} {t : Tensor} (h : concatenate args = .ok t) :
    Value.allData args = true := by
  obtain ⟨first, hfirst, h⟩ := except_bind_eq_ok.mp h
  split at h
  · cases h
  · exact Value.allData_of_tensorArg_zero hfirst (joinRows_allData h)

theorem addN_allData {args : List Value} {t : Tensor} (h : addN args = .ok t) :
    Value.allData args = true := by
  obtain ⟨first, hfirst, h⟩ := except_bind_eq_ok.mp h
  exact Value.allData_of_tensorArg_zero hfirst (addRemaining_allData h)

end Tensor

namespace Kernel

variable {name : String}

theorem call_fixed_eq_ok {k : Kernel} {n : Nat} {args : List Value} {v : Value}
    (hk : k.arity = .fixed n) (h : k.call args = .ok v) : args.length = n ∧ k.body args = .ok v := by
  obtain ⟨_, harity, h⟩ := except_bind_eq_ok.mp h
  rw [checkArity, hk] at harity
  simp only at harity
  split at harity
  · exact ⟨‹_›, h⟩
  · cases harity

theorem ofPacked_call_eq_ok {f : List Value → Except KernelError Tensor} {args : List Value}
    {v : Value} : (ofPacked name f).call args = .ok v ↔ ∃ t, f args = .ok t ∧ v = .tensor t := by
  have hcall : (ofPacked name f).call args = Value.tensor <$> f args := rfl
  rw [hcall]
  constructor
  · exact except_map_eq_ok
  · rintro ⟨t, ht, rfl⟩
    rw [ht]
    rfl

theorem ofUnary_firstOrder (f : Tensor → Except KernelError Tensor) :
    (ofUnary name f).FirstOrder := by
  intro args v h
  obtain ⟨hlen, h⟩ := call_fixed_eq_ok rfl h
  obtain ⟨t, ht, h⟩ := except_bind_eq_ok.mp h
  obtain ⟨r, -, rfl⟩ := except_map_eq_ok h
  obtain ⟨a, rfl⟩ := List.length_eq_one_iff.mp hlen
  exact ⟨Value.allData_of_tensorArg_zero ht rfl, rfl⟩

theorem ofBinary_firstOrder (f : Tensor → Tensor → Except KernelError Tensor) :
    (ofBinary name f).FirstOrder := by
  intro args v h
  obtain ⟨hlen, h⟩ := call_fixed_eq_ok rfl h
  obtain ⟨t, ht, h⟩ := except_bind_eq_ok.mp h
  obtain ⟨t', ht', h⟩ := except_bind_eq_ok.mp h
  obtain ⟨r, -, rfl⟩ := except_map_eq_ok h
  obtain ⟨a, b, rfl⟩ := List.length_eq_two.mp hlen
  obtain rfl := Option.some.inj (tensorArg_eq_ok ht')
  exact ⟨Value.allData_of_tensorArg_zero ht rfl, rfl⟩

theorem ofPacked_firstOrder {f : List Value → Except KernelError Tensor}
    (hf : ∀ ⦃args t⦄, f args = .ok t → Value.allData args = true) : (ofPacked name f).FirstOrder := by
  intro args v h
  obtain ⟨t, ht, rfl⟩ := ofPacked_call_eq_ok.mp h
  exact ⟨hf ht, rfl⟩

theorem builtins_firstOrder : ∀ k ∈ builtins, k.FirstOrder := by
  simp only [builtins, List.forall_mem_cons, List.not_mem_nil, false_imp_iff, implies_true, and_true,
    ofFloat, ofUnary_firstOrder, ofBinary_firstOrder, true_and]
  exact ⟨ofPacked_firstOrder fun _ _ => Tensor.concatenate_allData,
    ofPacked_firstOrder fun _ _ => Tensor.addN_allData⟩

end Kernel

/-- Every kernel of the registry works on data. -/
def KernelRegistry.FirstOrder (r : KernelRegistry) : Prop :=
  ∀ ⦃name k⦄, r.get? name = some k → k.FirstOrder

theorem KernelRegistry.builtin_firstOrder : builtin.FirstOrder :=
  fun _ _ h => Kernel.builtins_firstOrder _ (List.mem_of_find?_eq_some h)

end TensorIR
