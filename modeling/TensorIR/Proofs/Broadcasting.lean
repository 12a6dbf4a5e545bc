import TensorIR.Shape.Stretching

/-! Broadcasting as a least upper bound.

Shapes are ordered by stretching. What two shapes broadcast to is the least shape that bounds both, so
the laws of broadcasting follow from the fact that a shape is determined by what it stretches to. -/

namespace TensorIR.Shape

theorem StretchesInner.antisymm {xs ys : List Nat} (h : StretchesInner xs ys)
    (h' : StretchesInner ys xs) : xs = ys := by
  refine List.ext_getElem? fun i => ?_
  cases hx : xs[i]? with
  | none =>
    cases hy : ys[i]? with
    | none => rfl
    | some y =>
      obtain ⟨d, hd, -⟩ := h' i y hy
      cases hx.symm.trans hd
  | some x =>
    obtain ⟨y, hy, hxy⟩ := h i x hx
    obtain ⟨d, hd, hyd⟩ := h' i y hy
    cases hx.symm.trans hd
    rw [hy, Option.some.injEq]
    omega

theorem StretchesTo.antisymm {s t : Shape} (h : s.StretchesTo t) (h' : t.StretchesTo s) : s = t := by
  cases s
  cases t
  rw [mk.injEq]
  exact List.reverse_inj.mp (StretchesInner.antisymm h h')

/-- A shape that may be missing is determined by the shapes it stretches to. -/
theorem eq_of_same_bounds {x y : Option Shape}
    (h : ∀ out, (∃ s, x = some s ∧ s.StretchesTo out) ↔ ∃ s, y = some s ∧ s.StretchesTo out) :
    x = y := by
  cases x with
  | none =>
    cases y with
    | none => rfl
    | some t =>
      obtain ⟨s, hs, -⟩ := (h t).mpr ⟨t, rfl, .refl t⟩
      cases hs
  | some s =>
    obtain ⟨t, rfl, hts⟩ := (h s).mp ⟨s, rfl, .refl s⟩
    obtain ⟨s', hs', hst⟩ := (h t).mpr ⟨t, rfl, .refl t⟩
    cases hs'
    rw [hst.antisymm hts]

theorem broadcast?_comm (a b : Shape) : a.broadcast? b = b.broadcast? a := by
  refine eq_of_same_bounds fun out => ?_
  rw [broadcast?_le_iff, broadcast?_le_iff, and_comm]

/-- Broadcasting in two steps reaches the shapes that bound all three operands. -/
theorem broadcast?_bind_le_iff {a b c out : Shape} :
    (∃ s, (a.broadcast? b).bind (·.broadcast? c) = some s ∧ s.StretchesTo out) ↔
      (a.StretchesTo out ∧ b.StretchesTo out) ∧ c.StretchesTo out := by
  rw [← broadcast?_le_iff]
  constructor
  · rintro ⟨s, hs, hout⟩
    obtain ⟨u, hu, hs⟩ := Option.bind_eq_some_iff.mp hs
    obtain ⟨huo, hco⟩ := broadcast?_le_iff.mp ⟨s, hs, hout⟩
    exact ⟨⟨u, hu, huo⟩, hco⟩
  · rintro ⟨⟨u, hu, huo⟩, hco⟩
    obtain ⟨s, hs, hout⟩ := broadcast?_le_iff.mpr ⟨huo, hco⟩
    exact ⟨s, Option.bind_eq_some_iff.mpr ⟨u, hu, hs⟩, hout⟩

theorem broadcast?_assoc (a b c : Shape) :
    (a.broadcast? b).bind (·.broadcast? c) = (b.broadcast? c).bind (a.broadcast? ·) := by
  simp only [broadcast?_comm a]
  refine eq_of_same_bounds fun out => ?_
  rw [broadcast?_bind_le_iff, broadcast?_bind_le_iff]
  exact and_right_comm

theorem broadcastInner_length {xs ys zs : List Nat} (h : broadcastInner xs ys = some zs) :
    zs.length = max xs.length ys.length := by
  induction xs, ys using broadcastInner.induct generalizing zs with
  | case1 ys =>
    cases h
    simp
  | case2 xs hxs =>
    rw [broadcastInner.eq_2 xs hxs] at h
    cases h
    simp
  | case3 x xs y ys ih =>
    obtain ⟨d, ds, -, hds, rfl⟩ := broadcastInner_cons_eq_some.mp h
    simp only [List.length_cons, ih hds]
    omega

theorem broadcast?_rank {a b s : Shape} (h : a.broadcast? b = some s) :
    s.rank = max a.rank b.rank := by
  obtain ⟨zs, hzs, rfl⟩ := Option.map_eq_some_iff.mp h
  simpa [rank] using broadcastInner_length hzs

/-- Broadcasting the two together gives the first. -/
def Absorbs (x y : Shape) : Prop := x.broadcast? y = some x

theorem absorbs_iff {x y : Shape} : x.Absorbs y ↔ y.StretchesTo x := by
  constructor
  · intro h
    exact ((stretchesTo_iff_of_broadcast? h).mp (.refl x)).2
  · intro h
    obtain ⟨s, hs, hsx⟩ := broadcast?_le_iff.mpr ⟨.refl x, h⟩
    obtain ⟨hxs, -⟩ := (stretchesTo_iff_of_broadcast? hs).mp (.refl s)
    rw [Absorbs, hs, hsx.antisymm hxs]

/-- Broadcasting is a partial least upper bound. It is commutative, associative and idempotent, also
in where it fails, and has the shape of scalars as its identity. The result has the rank of the operand
with more axes. It exists exactly if some shape absorbs both operands, and every such shape absorbs the
result. -/
theorem broadcast_least_upper_bound (a b c : Shape) :
    a.broadcast? b = b.broadcast? a ∧
    (a.broadcast? b).bind (·.broadcast? c) = (b.broadcast? c).bind (a.broadcast? ·) ∧
    a.broadcast? a = some a ∧
    scalar.broadcast? a = some a ∧ a.broadcast? scalar = some a ∧
    (∀ s, a.broadcast? b = some s → s.rank = max a.rank b.rank) ∧
    ((∃ s, a.broadcast? b = some s) ↔ ∃ x : Shape, x.Absorbs a ∧ x.Absorbs b) ∧
    ∀ s, a.broadcast? b = some s → s.Absorbs a ∧ s.Absorbs b ∧
      ∀ x : Shape, x.Absorbs a → x.Absorbs b → x.Absorbs s := by
  have hscalar : a.Absorbs scalar := absorbs_iff.mpr (stretchesInner_nil _)
  refine ⟨broadcast?_comm a b, broadcast?_assoc a b c, absorbs_iff.mpr (.refl a),
    (broadcast?_comm scalar a).trans hscalar, hscalar, fun s => broadcast?_rank, ?_, ?_⟩
  · simp only [absorbs_iff]
    constructor
    · rintro ⟨s, hs⟩
      exact ⟨s, (stretchesTo_iff_of_broadcast? hs).mp (.refl s)⟩
    · rintro ⟨x, hx⟩
      obtain ⟨s, hs, -⟩ := broadcast?_le_iff.mpr hx
      exact ⟨s, hs⟩
  · intro s hs
    simp only [absorbs_iff]
    obtain ⟨has, hbs⟩ := (stretchesTo_iff_of_broadcast? hs).mp (.refl s)
    exact ⟨has, hbs, fun x hax hbx => (stretchesTo_iff_of_broadcast? hs).mpr ⟨hax, hbx⟩⟩

end TensorIR.Shape
