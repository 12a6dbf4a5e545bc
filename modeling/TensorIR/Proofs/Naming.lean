import TensorIR.Lowering.State

/-! Names for variables.

Lowering numbers its names, and the number of a name can be read off it, so names with different
numbers differ whatever their hints are. A naming says which name each variable stands for. -/

namespace TensorIR.Lowering

open Source

/-! ## Numbered names -/

theorem eq_of_append_cons_eq {α : Type} {a : α} {xs xs' ys ys' : List α} (hy : a ∉ ys)
    (hy' : a ∉ ys') (h : xs ++ a :: ys = xs' ++ a :: ys') : ys = ys' := by
  rcases List.append_eq_append_iff.mp h with ⟨zs, -, hz⟩ | ⟨zs, -, hz⟩
  · cases zs with
    | nil => exact List.tail_eq_of_cons_eq hz
    | cons z zs =>
      have hmem : a ∈ ys := (List.cons_eq_cons.mp hz).2 ▸ by simp
      exact absurd hmem hy
  · cases zs with
    | nil => exact (List.tail_eq_of_cons_eq hz).symm
    | cons z zs =>
      have hmem : a ∈ ys' := (List.cons_eq_cons.mp hz).2 ▸ by simp
      exact absurd hmem hy'

theorem underscore_notMem_toDigits (n : Nat) : '_' ∉ Nat.toDigits 10 n := by
  intro hmem
  have hdigit : '_'.isDigit = true := Nat.isDigit_of_mem_toDigits (by decide) (by decide) hmem
  exact absurd hdigit (by decide)

theorem numberedName_inj {hint hint' : String} {i j : Nat}
    (h : numberedName hint i = numberedName hint' j) : i = j := by
  have hlist := congrArg String.toList h
  simp only [numberedName, String.toList_append, List.append_assoc,
    Nat.toString_eq_ofList_toDigits, String.toList_ofList] at hlist
  have hdigits : Nat.toDigits 10 i = Nat.toDigits 10 j :=
    eq_of_append_cons_eq (underscore_notMem_toDigits i) (underscore_notMem_toDigits j) hlist
  calc
    i = Nat.ofDigitChars 10 (Nat.toDigits 10 i) 0 := Nat.ofDigitChars_ten_toDigits.symm
    _ = Nat.ofDigitChars 10 (Nat.toDigits 10 j) 0 := by rw [hdigits]
    _ = j := Nat.ofDigitChars_ten_toDigits

/-- The name has a number from `i` on and below `j`. -/
def Numbered (i j : Nat) (x : String) : Prop := ∃ hint n, i ≤ n ∧ n < j ∧ x = numberedName hint n

theorem Numbered.mono {i j i' j' : Nat} {x : String} (h : Numbered i j x) (hi : i' ≤ i)
    (hj : j ≤ j') : Numbered i' j' x := by
  obtain ⟨hint, n, hin, hnj, rfl⟩ := h
  exact ⟨hint, n, Nat.le_trans hi hin, Nat.lt_of_lt_of_le hnj hj, rfl⟩

theorem Numbered.not_of_le {i j i' j' : Nat} {x : String} (h : Numbered i j x) (hle : j ≤ i') :
    ¬ Numbered i' j' x := by
  obtain ⟨hint, n, hin, hnj, rfl⟩ := h
  rintro ⟨hint', n', hin', hnj', heq⟩
  have := numberedName_inj heq
  omega

/-! ## Namings -/

/-- The name that each variable stands for. -/
abbrev Naming := Nat → Option String

namespace Naming

def empty : Naming := fun _ => none

def bind (σ : Naming) (id : Nat) (x : String) : Naming := fun y => if y = id then some x else σ y

/-- Names the variables one after the other, with numbers from `k` on. -/
def bindVars (σ : Naming) : List Var → (k : Nat) → Naming
  | [], _ => σ
  | v :: vs, k => (σ.bind v.id (numberedName v.name k)).bindVars vs (k + 1)

/-- All names have numbers below `k`. -/
def Below (σ : Naming) (k : Nat) : Prop := ∀ y x, σ y = some x → Numbered 0 k x

variable {σ : Naming} {k : Nat}

theorem bind_self (id : Nat) (x : String) : σ.bind id x id = some x := by
  simp [bind]

theorem bind_of_ne {id y : Nat} (h : y ≠ id) (x : String) : σ.bind id x y = σ y := by
  simp [bind, h]

theorem bind_bind (id : Nat) (x : String) : (σ.bind id x).bind id x = σ.bind id x := by
  funext y
  by_cases hy : y = id <;> simp [bind, hy]

theorem bindVars_of_notMem {vs : List Var} {y : Nat} (h : y ∉ vs.map Var.id) :
    σ.bindVars vs k y = σ y := by
  induction vs generalizing σ k with
  | nil => rfl
  | cons v vs ih =>
    rw [List.map_cons, List.mem_cons, not_or] at h
    rw [bindVars, ih h.2, bind_of_ne h.1]

/-- A variable of the list gets one of the new names, whatever it stood for before. -/
theorem bindVars_of_mem {vs : List Var} {y : Nat} (h : y ∈ vs.map Var.id) :
    ∃ x, Numbered k (k + vs.length) x ∧ ∀ σ : Naming, σ.bindVars vs k y = some x := by
  induction vs generalizing k with
  | nil => cases h
  | cons v vs ih =>
    by_cases hmem : y ∈ vs.map Var.id
    · obtain ⟨x, hx, heq⟩ := ih (k := k + 1) hmem
      refine ⟨x, hx.mono (by omega) (by simp; omega), fun σ => heq _⟩
    · have hy : y = v.id := (List.mem_cons.mp h).resolve_right hmem
      refine ⟨numberedName v.name k, ⟨v.name, k, Nat.le_refl k, by simp, rfl⟩, fun σ => ?_⟩
      rw [bindVars, bindVars_of_notMem hmem, hy, bind_self]

theorem bindVars_append (vs ws : List Var) :
    σ.bindVars (vs ++ ws) k = (σ.bindVars vs k).bindVars ws (k + vs.length) := by
  induction vs generalizing σ k with
  | nil => rfl
  | cons v vs ih =>
    rw [List.cons_append, bindVars, ih, bindVars, List.length_cons, Nat.add_assoc, Nat.add_comm 1]

theorem Below.mono {k' : Nat} (h : σ.Below k) (hle : k ≤ k') : σ.Below k' :=
  fun y x hx => (h y x hx).mono (Nat.le_refl 0) hle

theorem Below.bind (h : σ.Below k) (id : Nat) (hint : String) :
    (σ.bind id (numberedName hint k)).Below (k + 1) := by
  intro y x hx
  by_cases hy : y = id
  · rw [hy, bind_self] at hx
    cases hx
    exact ⟨hint, k, Nat.zero_le k, Nat.lt_succ_self k, rfl⟩
  · rw [bind_of_ne hy] at hx
    exact (h y x hx).mono (Nat.le_refl 0) (Nat.le_succ k)

theorem Below.bindVars (h : σ.Below k) (vs : List Var) :
    (σ.bindVars vs k).Below (k + vs.length) := by
  induction vs generalizing σ k with
  | nil => exact h
  | cons v vs ih =>
    have hvs := ih (h.bind v.id v.name)
    rwa [Nat.add_assoc, Nat.add_comm 1] at hvs

theorem below_empty (k : Nat) : empty.Below k := nofun

end Naming

/-- The names of the variables, with numbers from `k` on. -/
def numberedNames : List Var → (k : Nat) → List String
  | [], _ => []
  | v :: vs, k => numberedName v.name k :: numberedNames vs (k + 1)

theorem length_numberedNames (vs : List Var) (k : Nat) : (numberedNames vs k).length = vs.length := by
  induction vs generalizing k with
  | nil => rfl
  | cons v vs ih => rw [numberedNames, List.length_cons, ih, List.length_cons]

/-- What the environment makes of a variable. -/
def Env.naming (env : Env) : Naming := fun id => (env.lookup id).map Binding.name

theorem Env.naming_cons (env : Env) (id : Nat) (b : Binding) :
    Env.naming ((id, b) :: env) = env.naming.bind id b.name := by
  funext y
  by_cases hy : y = id
  · simp [Env.naming, Naming.bind, hy]
  · simp [Env.naming, Naming.bind, hy, List.lookup_cons, beq_false_of_ne hy]

end TensorIR.Lowering
