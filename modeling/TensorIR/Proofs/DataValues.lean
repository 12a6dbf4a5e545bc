import TensorIR.Value.Conformance

/-! Values without functions in them, and the types that allow no others. -/

namespace TensorIR

open Source

namespace Value

mutual

/-- The value holds no function. -/
def isData : Value → Bool
  | .tensor _ => true
  | .tuple fields | .adt _ fields => allData fields
  | .global _ | .closure .. => false

def allData : List Value → Bool
  | [] => true
  | v :: vs => v.isData && allData vs

end

end Value

/-- The second type is a part of the first one, possibly inside the fields of data types. -/
inductive Ty.Contains (types : TypeTable) : Ty → Ty → Prop
  | refl {ty : Ty} : Ty.Contains types ty ty
  | field {tys : List Ty} {ty part : Ty} :
    ty ∈ tys → Ty.Contains types ty part → Ty.Contains types (.tuple tys) part
  | variant {name : String} {tag : Nat} {tys : List Ty} {ty part : Ty} :
    types.ctorFields? name tag = some tys → ty ∈ tys → Ty.Contains types ty part →
      Ty.Contains types (.adt name) part

/-- No function type is a part of the type. -/
def Ty.FunctionFree (types : TypeTable) (ty : Ty) : Prop :=
  ∀ params ret, ¬ Ty.Contains types ty (.func params ret)

namespace Value

variable {types : TypeTable}

mutual

theorem isData_of_conformsTo : ∀ {v : Value} {ty : Ty}, v.conformsTo types ty = true →
    ty.FunctionFree types → v.isData = true
  | .tensor _, _, _, _ => rfl
  | .tuple fields, .tuple tys, h, hfree => by
    rw [conformsTo] at h
    rw [isData]
    exact allData_of_allConform h fun ty hty params ret hc => hfree params ret (.field hty hc)
  | .adt tag fields, .adt name, h, hfree => by
    rw [conformsTo] at h
    cases htys : types.ctorFields? name tag with
    | none => simp [htys] at h
    | some tys =>
      rw [htys] at h
      rw [isData]
      exact allData_of_allConform h fun ty hty params ret hc =>
        hfree params ret (.variant htys hty hc)
  | .global _, .func params ret, _, hfree => (hfree params ret .refl).elim
  | .closure .., .func params ret, _, hfree => (hfree params ret .refl).elim

theorem allData_of_allConform : ∀ {vs : List Value} {tys : List Ty},
    allConform types vs tys = true → (∀ ty ∈ tys, ty.FunctionFree types) → allData vs = true
  | [], _, _, _ => rfl
  | v :: vs, ty :: tys, h, hfree => by
    rw [allConform, Bool.and_eq_true] at h
    rw [allData, Bool.and_eq_true]
    exact ⟨isData_of_conformsTo h.1 (hfree ty List.mem_cons_self),
      allData_of_allConform h.2 fun t ht => hfree t (List.mem_cons_of_mem _ ht)⟩

end

end Value

end TensorIR
