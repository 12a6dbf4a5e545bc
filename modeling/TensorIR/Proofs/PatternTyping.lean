import TensorIR.Matching.Binding
import TensorIR.Value.Conformance

/-! Patterns that suit a type, and what they do to values of that type.

A pattern suits a type when its constructors are constructors of the data type, with as many parts as
these have fields, and each part suits the type of its field. -/

namespace TensorIR

open Source Lowered Matching

/-- Names with their types. -/
abbrev Context := List (String × Ty)

namespace Lowered.Pattern

mutual

/-- The pattern suits values of the type, and its names have the types of the context. -/
inductive Typed (types : TypeTable) : Pattern → Ty → Context → Prop
  | wildcard {ty : Ty} : Typed types .wildcard ty []
  | bind {name : String} {ty : Ty} : Typed types (.bind name) ty [(name, ty)]
  | ctor {adt name : String} {tag : Nat} {tys : List Ty} {ps : List Pattern} {Γ : Context} :
    types.ctorFields? adt tag = some tys → AllTyped types ps tys Γ →
      Typed types (.ctor tag name ps) (.adt adt) Γ
  | tuple {tys : List Ty} {ps : List Pattern} {Γ : Context} :
    AllTyped types ps tys Γ → Typed types (.tuple ps) (.tuple tys) Γ

/-- As many patterns as types, each of which suits its type. -/
inductive AllTyped (types : TypeTable) : List Pattern → List Ty → Context → Prop
  | nil : AllTyped types [] [] []
  | cons {p : Pattern} {ty : Ty} {ps : List Pattern} {tys : List Ty} {Γ Δ : Context} :
    Typed types p ty Γ → AllTyped types ps tys Δ → AllTyped types (p :: ps) (ty :: tys) (Γ ++ Δ)

end

end Lowered.Pattern

namespace Value

theorem allConform_length {types : TypeTable} {vs : List Value} {tys : List Ty}
    (h : allConform types vs tys = true) : vs.length = tys.length := by
  induction vs generalizing tys with
  | nil =>
    cases tys with
    | nil => rfl
    | cons => simp [allConform] at h
  | cons v vs ih =>
    cases tys with
    | nil => simp [allConform] at h
    | cons ty tys =>
      simp only [allConform, Bool.and_eq_true] at h
      simp [ih h.2]

theorem allConform_cons {types : TypeTable} {vs : List Value} {ty : Ty} {tys : List Ty}
    (h : allConform types vs (ty :: tys) = true) :
    ∃ v vs', vs = v :: vs' ∧ v.conformsTo types ty = true ∧ allConform types vs' tys = true := by
  cases vs with
  | nil => simp [allConform] at h
  | cons v vs =>
    simp only [allConform, Bool.and_eq_true] at h
    exact ⟨v, vs, rfl, h⟩

theorem allConform_append {types : TypeTable} {us vs : List Value} {ss ts : List Ty}
    (hu : allConform types us ss = true) (hv : allConform types vs ts = true) :
    allConform types (us ++ vs) (ss ++ ts) = true := by
  induction ss generalizing us with
  | nil =>
    cases us with
    | nil => exact hv
    | cons => simp [allConform] at hu
  | cons s ss ih =>
    obtain ⟨u, us, rfl, hu, hus⟩ := allConform_cons hu
    simp only [List.cons_append, allConform, Bool.and_eq_true]
    exact ⟨hu, ih hus⟩

end Value

end TensorIR
