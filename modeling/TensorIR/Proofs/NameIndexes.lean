import TensorIR.NameMap

/-! Maps that index lists by name.

A list whose elements have names is indexed by a map from names to places. An element with a new name
can be put at the end if its name is entered with the new place. A search through the list ends at
the place that the map leads to, since there is no other one. -/

namespace TensorIR

variable {α β : Type}

theorem getElem?_concat_eq_some {xs : List α} {x y : α} {i : Nat} :
    (xs ++ [x])[i]? = some y ↔ xs[i]? = some y ∨ i = xs.length ∧ x = y := by
  rcases Nat.lt_trichotomy i xs.length with hlt | rfl | hgt
  · simp [List.getElem?_append_left hlt, Nat.ne_of_lt hlt]
  · simp
  · have hlength : (xs ++ [x]).length ≤ i := by
      rw [List.length_append, List.length_singleton]
      exact hgt
    simp [List.getElem?_eq_none hlength, List.getElem?_eq_none (Nat.le_of_lt hgt), Nat.ne_of_gt hgt]

/-- A search through a list ends at the only place where it can. -/
theorem findSome?_of_place {f : α → Option β} {xs : List α} {place : Option Nat}
    (h : ∀ i, place = some i ↔ ∃ x, xs[i]? = some x ∧ (f x).isSome) :
    place = none ∧ xs.findSome? f = none ∨
      ∃ i x b, place = some i ∧ xs[i]? = some x ∧ f x = some b ∧ xs.findSome? f = some b := by
  cases hfind : xs.findSome? f with
  | none =>
    refine .inl ⟨Option.eq_none_iff_forall_ne_some.mpr fun i hi => ?_, rfl⟩
    obtain ⟨x, hx, hsome⟩ := (h i).mp hi
    rw [List.findSome?_eq_none_iff.mp hfind x (List.mem_of_getElem? hx)] at hsome
    cases hsome
  | some b =>
    obtain ⟨x, hmem, hb⟩ := List.exists_of_findSome?_eq_some hfind
    obtain ⟨i, hi⟩ := List.mem_iff_getElem?.mp hmem
    exact .inr ⟨i, x, b, (h i).mpr ⟨x, hi, Option.isSome_of_eq_some hb⟩, hi, hb, rfl⟩

/-- The map leads a name to exactly its places in the list. -/
def NameMap.Indexes (index : NameMap β) (place : β → Nat) (names : List String) : Prop :=
  ∀ name b, index.get? name = some b ↔ names[place b]? = some name

/-- A new name is entered with the place after the last one. -/
theorem NameMap.Indexes.concat {index : NameMap β} {place : β → Nat} {names : List String}
    (H : index.Indexes place names) {name : String} {b : β} (hnew : index.get? name = none)
    (hb : place b = names.length) (hplace : ∀ b', place b' = place b → b' = b) :
    (index.insert name b).Indexes place (names ++ [name]) := by
  intro name' b'
  rw [NameMap.get?_insert, getElem?_concat_eq_some]
  by_cases hname : name' = name
  · rw [if_pos hname, Option.some.injEq, hname]
    constructor
    · rintro rfl
      exact .inr ⟨hb, rfl⟩
    · rintro (hold | ⟨hlast, -⟩)
      · cases hnew.symm.trans ((H name b').mpr hold)
      · exact (hplace b' (hlast.trans hb.symm)).symm
  · rw [if_neg hname, H]
    exact (or_iff_left fun h => hname h.2.symm).symm

end TensorIR
