import TensorIR.Value.Basic

/-! What a pattern binds when it meets a value.

A pattern is compared with a value from left to right, and its names are noted as they are met. Where
the comparison fails, what has been noted by then is of no use. `matchPattern?` is what is noted by a
comparison that succeeds. -/

namespace TensorIR.Matching

mutual

/-- Compares a pattern with a value, and adds what it binds to `out`. -/
def bindPattern :
    Lowered.Pattern → Value → (out : List (String × Value)) → Bool × List (String × Value)
  | .wildcard, _, out => (true, out)
  | .bind name, v, out => (true, out ++ [(name, v)])
  | .ctor tag _ ps, .adt t vs, out =>
    if tag = t ∧ ps.length = vs.length then bindPatterns ps vs out else (false, out)
  | .tuple ps, .tuple vs, out =>
    if ps.length = vs.length then bindPatterns ps vs out else (false, out)
  | _, _, out => (false, out)

def bindPatterns :
    List Lowered.Pattern → List Value → (out : List (String × Value)) → Bool × List (String × Value)
  | p :: ps, v :: vs, out =>
    let bound := bindPattern p v out
    if bound.1 then bindPatterns ps vs bound.2 else bound
  | _, _, out => (true, out)

end

mutual

/-- The values that a pattern gives to its names, in order, if it accepts the value. -/
def matchPattern? : Lowered.Pattern → Value → Option (List (String × Value))
  | .wildcard, _ => some []
  | .bind name, v => some [(name, v)]
  | .ctor tag _ ps, .adt t vs => if tag = t then matchPatterns? ps vs else none
  | .tuple ps, .tuple vs => matchPatterns? ps vs
  | _, _ => none

def matchPatterns? : List Lowered.Pattern → List Value → Option (List (String × Value))
  | [], [] => some []
  | p :: ps, v :: vs => do
    let xs ← matchPattern? p v
    let ys ← matchPatterns? ps vs
    return xs ++ ys
  | _, _ => none

end

/-- The outcome of a comparison that started from `out`: nothing that was there is lost, and one that
succeeds has added the entries in order. -/
inductive Noted (out : List (String × Value)) :
    Option (List (String × Value)) → Bool × List (String × Value) → Prop
  | accepted (entries : List (String × Value)) : Noted out (some entries) (true, out ++ entries)
  | failed (partly : List (String × Value)) : Noted out none (false, out ++ partly)

theorem Noted.nothing (out : List (String × Value)) : Noted out (some []) (true, out) := by
  simpa using (Noted.accepted [] : Noted out _ _)

theorem Noted.refused (out : List (String × Value)) : Noted out none (false, out) := by
  simpa using (Noted.failed [] : Noted out _ _)

theorem matchPatterns?_of_length_ne {ps : List Lowered.Pattern} {vs : List Value}
    (h : ps.length ≠ vs.length) : matchPatterns? ps vs = none := by
  induction ps generalizing vs with
  | nil =>
    cases vs with
    | nil => exact absurd rfl h
    | cons v vs => rfl
  | cons p ps ih =>
    cases vs with
    | nil => rfl
    | cons v vs =>
      rw [matchPatterns?, ih fun hlength => h (congrArg Nat.succ hlength)]
      cases matchPattern? p v <;> rfl

mutual

theorem bindPattern_noted : ∀ (p : Lowered.Pattern) (v : Value) (out : List (String × Value)),
    Noted out (matchPattern? p v) (bindPattern p v out)
  | .wildcard, _, out => .nothing out
  | .bind _, _, _ => .accepted _
  | .ctor tag _ ps, .adt t vs, out => by
    rw [matchPattern?, bindPattern]
    by_cases htag : tag = t
    · rw [if_pos htag]
      by_cases hlength : ps.length = vs.length
      · rw [if_pos ⟨htag, hlength⟩]
        exact bindPatterns_noted ps vs out hlength
      · rw [if_neg fun h => hlength h.2, matchPatterns?_of_length_ne hlength]
        exact .refused out
    · rw [if_neg htag, if_neg fun h => htag h.1]
      exact .refused out
  | .tuple ps, .tuple vs, out => by
    rw [matchPattern?, bindPattern]
    by_cases hlength : ps.length = vs.length
    · rw [if_pos hlength]
      exact bindPatterns_noted ps vs out hlength
    · rw [if_neg hlength, matchPatterns?_of_length_ne hlength]
      exact .refused out
  | .ctor _ _ _, .tensor _, out | .ctor _ _ _, .tuple _, out | .ctor _ _ _, .closure _ _, out
  | .ctor _ _ _, .global _, out | .tuple _, .tensor _, out | .tuple _, .adt _ _, out
  | .tuple _, .closure _ _, out | .tuple _, .global _, out => .refused out

theorem bindPatterns_noted : ∀ (ps : List Lowered.Pattern) (vs : List Value)
    (out : List (String × Value)), ps.length = vs.length →
    Noted out (matchPatterns? ps vs) (bindPatterns ps vs out)
  | [], [], out, _ => .nothing out
  | p :: ps, v :: vs, out, hlength => by
    rw [matchPatterns?, bindPatterns]
    have hp := bindPattern_noted p v out
    generalize matchPattern? p v = first, bindPattern p v out = bound at hp ⊢
    cases hp with
    | failed partly => exact .failed partly
    | accepted xs =>
      have hps := bindPatterns_noted ps vs (out ++ xs) (Nat.succ.inj hlength)
      simp only [if_true]
      generalize matchPatterns? ps vs = others, bindPatterns ps vs (out ++ xs) = bound at hps ⊢
      cases hps with
      | failed partly =>
        rw [List.append_assoc]
        exact .failed _
      | accepted ys =>
        rw [List.append_assoc]
        exact .accepted (xs ++ ys)

end

end TensorIR.Matching
