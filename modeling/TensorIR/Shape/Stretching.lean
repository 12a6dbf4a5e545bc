import TensorIR.Shape

/-! Stretching of shapes.

A shape stretches to another when every axis, counted from the last, has size one or the size of the
axis that it faces. Two shapes broadcast together exactly if some shape bounds both, and what they
broadcast to stretches to all such shapes. -/

namespace TensorIR.Shape

/-- `StretchesTo` on axes listed innermost first. -/
def StretchesInner (xs out : List Nat) : Prop :=
  ∀ (i x : Nat), xs[i]? = some x → ∃ d, out[i]? = some d ∧ (x = 1 ∨ x = d)

/-- Every axis of `s`, counted from the last, has size one or faces an axis of its own size. -/
def StretchesTo (s out : Shape) : Prop := StretchesInner s.dims.reverse out.dims.reverse

theorem stretchesInner_nil (out : List Nat) : StretchesInner [] out := by
  intro i x h
  simp at h

theorem stretchesInner_cons_nil {x : Nat} {xs : List Nat} : ¬StretchesInner (x :: xs) [] := by
  intro h
  obtain ⟨d, hd, -⟩ := h 0 x rfl
  simp at hd

theorem stretchesInner_cons {x d : Nat} {xs out : List Nat} :
    StretchesInner (x :: xs) (d :: out) ↔ (x = 1 ∨ x = d) ∧ StretchesInner xs out := by
  constructor
  · intro h
    refine ⟨?_, fun i y hy => ?_⟩
    · obtain ⟨e, he, hx⟩ := h 0 x rfl
      cases he
      exact hx
    · exact h (i + 1) y (by simpa using hy)
  · rintro ⟨hx, h⟩ i y hy
    cases i with
    | zero =>
      cases hy
      exact ⟨d, rfl, hx⟩
    | succ i => simpa using h i y (by simpa using hy)

/-- Induction over the axes of a shape that is stretched. -/
@[elab_as_elim]
theorem StretchesInner.induct {motive : (xs out : List Nat) → StretchesInner xs out → Prop}
    (nil : ∀ out, motive [] out (stretchesInner_nil out))
    (cons : ∀ {x d : Nat} {xs out : List Nat} (hx : x = 1 ∨ x = d) (h : StretchesInner xs out),
      motive xs out h → motive (x :: xs) (d :: out) (stretchesInner_cons.mpr ⟨hx, h⟩))
    {xs out : List Nat} (h : StretchesInner xs out) : motive xs out h := by
  induction xs generalizing out with
  | nil => exact nil out
  | cons x xs ih =>
    cases out with
    | nil => exact absurd h stretchesInner_cons_nil
    | cons d out =>
      obtain ⟨hx, h⟩ := stretchesInner_cons.mp h
      exact cons hx h (ih h)

theorem StretchesInner.length_le {xs out : List Nat} (h : StretchesInner xs out) :
    xs.length ≤ out.length := by
  induction h using StretchesInner.induct with
  | nil out => exact Nat.zero_le _
  | cons hx h ih => exact Nat.succ_le_succ ih

/-- A size bounds the common size of two axes exactly if it bounds both, and otherwise there is no
common size. -/
theorem joinDim_le_iff {x y e : Nat} :
    (∃ d, joinDim x y = some d ∧ (d = 1 ∨ d = e)) ↔ (x = 1 ∨ x = e) ∧ (y = 1 ∨ y = e) := by
  unfold joinDim
  split
  · next h => simp [h]
  · split
    · next h => simp [h]
    · split
      · next h => simp [h]
      · constructor
        · rintro ⟨d, hd, -⟩
          cases hd
        · omega

theorem broadcastInner_cons_eq_some {x y : Nat} {xs ys zs : List Nat} :
    broadcastInner (x :: xs) (y :: ys) = some zs ↔
      ∃ d ds, joinDim x y = some d ∧ broadcastInner xs ys = some ds ∧ d :: ds = zs := by
  simp only [broadcastInner, Option.bind_eq_bind, Option.bind_eq_some_iff, Option.pure_def,
    Option.some.injEq, exists_and_left]

theorem broadcastInner_le_iff {xs ys out : List Nat} :
    (∃ zs, broadcastInner xs ys = some zs ∧ StretchesInner zs out) ↔
      StretchesInner xs out ∧ StretchesInner ys out := by
  induction xs, ys using broadcastInner.induct generalizing out with
  | case1 ys => simp [broadcastInner, stretchesInner_nil]
  | case2 xs hxs => simp [broadcastInner, stretchesInner_nil]
  | case3 x xs y ys ih =>
    simp only [broadcastInner_cons_eq_some]
    cases out with
    | nil =>
      constructor
      · rintro ⟨_, ⟨d, ds, -, -, rfl⟩, h⟩
        exact (stretchesInner_cons_nil h).elim
      · exact fun h => (stretchesInner_cons_nil h.1).elim
    | cons e out =>
      rw [stretchesInner_cons, stretchesInner_cons, and_and_and_comm, ← joinDim_le_iff, ← ih]
      constructor
      · rintro ⟨_, ⟨d, ds, hd, hds, rfl⟩, h⟩
        obtain ⟨hde, h⟩ := stretchesInner_cons.mp h
        exact ⟨⟨d, hd, hde⟩, ds, hds, h⟩
      · rintro ⟨⟨d, hd, hde⟩, ds, hds, h⟩
        exact ⟨_, ⟨d, ds, hd, hds, rfl⟩, stretchesInner_cons.mpr ⟨hde, h⟩⟩

theorem StretchesTo.refl (s : Shape) : s.StretchesTo s :=
  fun _ x hx => ⟨x, hx, .inr rfl⟩

/-- The shapes that two shapes stretch to are those that their broadcast shape stretches to, and
there are none if they cannot be broadcast together. -/
theorem broadcast?_le_iff {a b out : Shape} :
    (∃ s, a.broadcast? b = some s ∧ s.StretchesTo out) ↔ a.StretchesTo out ∧ b.StretchesTo out := by
  unfold StretchesTo
  rw [← broadcastInner_le_iff]
  constructor
  · rintro ⟨s, hs, hout⟩
    obtain ⟨zs, hzs, rfl⟩ := Option.map_eq_some_iff.mp hs
    exact ⟨zs, hzs, by simpa using hout⟩
  · rintro ⟨zs, hzs, hout⟩
    exact ⟨⟨zs.reverse⟩, by simp [broadcast?, hzs], by simpa using hout⟩

theorem stretchesTo_iff_of_broadcast? {a b s out : Shape} (h : a.broadcast? b = some s) :
    s.StretchesTo out ↔ a.StretchesTo out ∧ b.StretchesTo out := by
  rw [← broadcast?_le_iff, h]
  simp only [Option.some.injEq, exists_eq_left']

theorem stretches_of_broadcast? {a b out : Shape} (h : a.broadcast? b = some out) :
    a.StretchesTo out ∧ b.StretchesTo out :=
  (stretchesTo_iff_of_broadcast? h).mp (.refl out)

end TensorIR.Shape
