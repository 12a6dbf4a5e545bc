import Mathlib.Data.List.Nodup
import TensorIR.Proofs.Steps

/-! Lookup in frames. -/

namespace TensorIR.Run.Frame

variable {frame : Frame} {entries : List (String × Value)} {x : String} {v : Value}

theorem lookup_cons_self : List.lookup x ((x, v) :: frame) = some v := by
  simp

theorem lookup_cons_of_ne {y : String} (h : x ≠ y) :
    List.lookup x ((y, v) :: frame) = frame.lookup x := by
  rw [List.lookup_cons, beq_false_of_ne h]

theorem lookup_append_of_notMem (h : x ∉ entries.map Prod.fst) :
    List.lookup x (entries ++ frame) = frame.lookup x := by
  induction entries with
  | nil => rfl
  | cons e entries ih =>
    obtain ⟨y, w⟩ := e
    simp only [List.map_cons, List.mem_cons, not_or] at h
    rw [List.cons_append, lookup_cons_of_ne h.1]
    exact ih h.2

theorem lookup_append_of_mem (hnd : (entries.map Prod.fst).Nodup) (h : (x, v) ∈ entries) :
    List.lookup x (entries ++ frame) = some v := by
  induction entries with
  | nil => cases h
  | cons e entries ih =>
    obtain ⟨y, w⟩ := e
    rw [List.map_cons, List.nodup_cons] at hnd
    rcases List.mem_cons.mp h with heq | hmem
    · cases heq
      exact lookup_cons_self
    · have hne : x ≠ y := by
        rintro rfl
        exact hnd.1 (List.mem_map.mpr ⟨(x, v), hmem, rfl⟩)
      rw [List.cons_append, lookup_cons_of_ne hne]
      exact ih hnd.2 hmem

/-- Entries that are added leave other names alone. -/
theorem lookup_extend_of_notMem (h : x ∉ entries.map Prod.fst) :
    (frame.extend entries).lookup x = frame.lookup x :=
  lookup_append_of_notMem (by simpa [List.map_reverse] using h)

/-- Entries with different names that are added are found. -/
theorem lookup_extend_of_mem (hnd : (entries.map Prod.fst).Nodup) (h : (x, v) ∈ entries) :
    (frame.extend entries).lookup x = some v :=
  lookup_append_of_mem (by simpa [List.map_reverse, List.nodup_reverse] using hnd) (by simpa using h)

/-- The last of the added entries with a name is found. -/
theorem exists_lookup_extend (h : x ∈ entries.map Prod.fst) :
    ∃ v, (x, v) ∈ entries ∧ (frame.extend entries).lookup x = some v := by
  cases hx : entries.reverse.lookup x with
  | none =>
    obtain ⟨e, he, rfl⟩ := List.mem_map.mp h
    simpa using List.lookup_eq_none_iff.mp hx e (List.mem_reverse.mpr he)
  | some v =>
    obtain ⟨before, after, heq, -⟩ := List.lookup_eq_some_iff.mp hx
    refine ⟨v, List.mem_reverse.mp (heq ▸ by simp), ?_⟩
    rw [extend, List.lookup_append, hx]
    rfl

end TensorIR.Run.Frame

namespace TensorIR.Run

variable {F : Frame} {x : String}

theorem lookup_of_eq_some {v : Value} (h : F.lookup x = some v) (M : Machine) :
    Run.lookup x F M = .ok (v, F) M := by
  rw [Run.lookup, get_bind_apply, h]
  rfl

theorem lookup_of_eq_none (h : F.lookup x = none) (M : Machine) :
    Run.lookup x F M = .error (.unboundVariable x) M := by
  rw [Run.lookup, get_bind_apply, h]
  rfl

end TensorIR.Run
