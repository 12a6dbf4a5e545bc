import TensorIR.Proofs.KernelData
import TensorIR.Proofs.SourceEvaluation

/-! What kernels do to source values.

A kernel is a function of run-time values, and the source has other function values than a run. A
kernel that does not look into functions does the same to values that differ only in them, so it has a
meaning for source values too. Kernels that work on data have one, and so have those that pass an
argument on. -/

namespace TensorIR

open Source

def Value.isFunction : Value → Bool
  | .global _ | .closure .. => true
  | _ => false

def Source.Val.isFunction : Val → Bool
  | .global _ | .closure .. => true
  | _ => false

mutual

/-- The values have the same data, and in the same places functions that belong together. -/
inductive Alike (R : Value → Val → Prop) : Value → Val → Prop
  | tensor {t : Tensor} : Alike R (.tensor t) (.tensor t)
  | tuple {us : List Value} {ws : List Val} : AllAlike R us ws → Alike R (.tuple us) (.tuple ws)
  | adt {tag : Nat} {us : List Value} {ws : List Val} :
    AllAlike R us ws → Alike R (.adt tag us) (.adt tag ws)
  | function {u : Value} {w : Val} :
    u.isFunction = true → w.isFunction = true → R u w → Alike R u w

inductive AllAlike (R : Value → Val → Prop) : List Value → List Val → Prop
  | nil : AllAlike R [] []
  | cons {u : Value} {w : Val} {us : List Value} {ws : List Val} :
    Alike R u w → AllAlike R us ws → AllAlike R (u :: us) (w :: ws)

end

section

variable {R : Value → Val → Prop}

mutual

/-- A value without functions is like its own data only, and one with functions like no data. -/
theorem Alike.toValue? : ∀ {u : Value} {w : Val}, Alike R u w →
    w.toValue? = if u.isData then some u else none
  | _, _, .tensor => rfl
  | .tuple us, .tuple ws, .tuple h => by
    rw [Val.toValue?, h.toValues?, Value.isData]
    split <;> rfl
  | .adt tag us, .adt _ ws, .adt h => by
    rw [Val.toValue?, h.toValues?, Value.isData]
    split <;> rfl
  | u, w, .function hu hw _ => by
    cases u with
    | global | closure =>
      cases w with
      | global | closure => rfl
      | _ => cases hw
    | _ => cases hu

theorem AllAlike.toValues? : ∀ {us : List Value} {ws : List Val}, AllAlike R us ws →
    Val.toValues? ws = if Value.allData us then some us else none
  | _, _, .nil => rfl
  | u :: us, w :: ws, .cons h hs => by
    rw [Val.toValues?, h.toValue?, hs.toValues?, Value.allData]
    cases u.isData <;> cases Value.allData us <;> rfl

end

mutual

theorem exists_alike : ∀ (u : Value), u.isData = true → ∃ w, Val.ofValue? u = some w ∧ Alike R u w
  | .tensor t, _ => ⟨.tensor t, rfl, .tensor⟩
  | .tuple us, h => by
    obtain ⟨ws, hws, halike⟩ := exists_allAlike us h
    exact ⟨.tuple ws, by rw [Val.ofValue?, hws]; rfl, .tuple halike⟩
  | .adt tag us, h => by
    obtain ⟨ws, hws, halike⟩ := exists_allAlike us h
    exact ⟨.adt tag ws, by rw [Val.ofValue?, hws]; rfl, .adt halike⟩

theorem exists_allAlike : ∀ (us : List Value), Value.allData us = true →
    ∃ ws, Val.ofValues? us = some ws ∧ AllAlike R us ws
  | [], _ => ⟨[], rfl, .nil⟩
  | u :: us, h => by
    rw [Value.allData, Bool.and_eq_true] at h
    obtain ⟨w, hw, halike⟩ := exists_alike u h.1
    obtain ⟨ws, hws, halikes⟩ := exists_allAlike us h.2
    exact ⟨w :: ws, by rw [Val.ofValues?, hw, hws]; rfl, .cons halike halikes⟩

end

theorem AllAlike.getElem? : ∀ {us : List Value} {ws : List Val}, AllAlike R us ws → ∀ i : Nat,
    Option.Rel (Alike R) us[i]? ws[i]?
  | _, _, .nil, _ => .none
  | _, _, .cons h _, 0 => .some h
  | _, _, .cons _ hs, i + 1 => hs.getElem? i

end

/-- The results of a kernel and of what it means: values that are alike, or failures. -/
inductive SameResult (R : Value → Val → Prop) :
    Except KernelError Value → Except KernelError Val → Prop
  | ok {u : Value} {w : Val} : Alike R u w → SameResult R (.ok u) (.ok w)
  | error {e e' : KernelError} : SameResult R (.error e) (.error e')

/-- The kernel neither looks into functions, whatever they are, nor makes any, and it means this for
source values. -/
def Kernel.Means (k : Kernel) (meaning : List Val → Except KernelError Val) : Prop :=
  ∀ (R : Value → Val → Prop) ⦃us ws⦄, AllAlike R us ws → k.checkArity us = .ok () →
    SameResult R (k.body us) (meaning ws)

/-- Every kernel of the registry has its meaning. -/
def KernelRegistry.Means (r : KernelRegistry) (meaning : KernelMeaning) : Prop :=
  ∀ ⦃name k⦄, r.get? name = some k → k.Means (meaning k)

namespace Kernel

theorem FirstOrder.means {k : Kernel} (h : k.FirstOrder) : k.Means (KernelMeaning.onData k) := by
  intro R us ws halike hcheck
  simp only [KernelMeaning.onData, halike.toValues?]
  cases hbody : k.body us with
  | error e =>
    cases Value.allData us with
    | false => exact .error
    | true =>
      simp only [if_pos, Option.map_some, hbody]
      exact .error
  | ok v =>
    have hcall : k.call us = .ok v := by
      rw [Kernel.call, hcheck]
      exact hbody
    obtain ⟨hdata, hv⟩ := h hcall
    obtain ⟨w, hw, hvw⟩ := exists_alike (R := R) v hv
    simp only [hdata, if_pos, Option.map_some, hbody, hw]
    exact .ok hvw

variable {name : String} {arity : KernelArity}

theorem pick_means (index : Nat) : (pick name arity index).Means fun ws =>
    match ws[index]? with
    | some w => .ok w
    | none => .error (.arity (index + 1) ws.length) := by
  intro R us ws halike _
  have hget := halike.getElem? index
  simp only [pick]
  generalize us[index]? = u, ws[index]? = w at hget
  cases hget with
  | none => exact .error
  | some h => exact .ok h

end Kernel

theorem KernelRegistry.builtin_means : builtin.Means .onData :=
  fun _ _ h => (builtin_firstOrder h).means

end TensorIR
