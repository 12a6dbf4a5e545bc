import TensorIR.Proofs.Coverage
import TensorIR.Proofs.FreeOccurrences
import TensorIR.Proofs.GuardedRuns
import TensorIR.Proofs.LoweringTranslates

/-! Positions in patterns and values.

A path leads from a pattern or a value into its parts, then into the parts of these, and so on. Lowering
keeps the positions: where a source pattern has a variable, the lowered one has its name, and matching
gives the name the part of the value at the same position. -/

namespace TensorIR

open Source Lowered Lowering Matching

/-! ## Paths -/

/-- What the path leads to, through parts of parts. -/
def follow {α : Type} (parts : α → List α) : (path : List Nat) → α → Option α
  | [], a => some a
  | i :: path, a => (parts a)[i]?.bind (follow parts path)

/-- The path leads to `b` through one of the items. Its first step counts them from `k` on. -/
def LeadsFrom {α : Type} (parts : α → List α) (k : Nat) (items : List α) (path : List Nat) (b : α) :
    Prop :=
  ∃ i a rest, items[i]? = some a ∧ path = (k + i) :: rest ∧ follow parts rest a = some b

section

variable {α : Type} {parts : α → List α} {k : Nat} {a b : α} {items : List α} {path : List Nat}

theorem leadsFrom_cons :
    LeadsFrom parts k (a :: items) path b ↔
      (∃ rest, path = k :: rest ∧ follow parts rest a = some b) ∨
        LeadsFrom parts (k + 1) items path b := by
  have hshift : ∀ i, k + 1 + i = k + (i + 1) := fun i => by omega
  constructor
  · rintro ⟨i, a', rest, ha', rfl, hb⟩
    cases i with
    | zero =>
      cases ha'
      exact .inl ⟨rest, rfl, hb⟩
    | succ i => exact .inr ⟨i, a', rest, ha', by rw [hshift], hb⟩
  · rintro (⟨rest, rfl, hb⟩ | ⟨i, a', rest, ha', rfl, hb⟩)
    · exact ⟨0, a, rest, rfl, rfl, hb⟩
    · exact ⟨i + 1, a', rest, ha', by rw [hshift], hb⟩

theorem LeadsFrom.follow_eq (h : LeadsFrom parts 0 (parts a) path b) :
    follow parts path a = some b := by
  obtain ⟨i, a', rest, ha', rfl, hb⟩ := h
  rw [Nat.zero_add, follow, ha']
  exact hb

/-- A path to anything but the start leads through a part. -/
theorem leadsFrom_zero (hne : a ≠ b) :
    LeadsFrom parts 0 (parts a) path b ↔ follow parts path a = some b := by
  refine ⟨LeadsFrom.follow_eq, fun hb => ?_⟩
  cases path with
  | nil => exact absurd (Option.some.inj hb) hne
  | cons i rest =>
    obtain ⟨a', ha', hb⟩ := Option.bind_eq_some_iff.mp hb
    exact ⟨i, a', rest, ha', by rw [Nat.zero_add], hb⟩

end

def Source.Pattern.parts : Source.Pattern → List Source.Pattern
  | .wildcard | .var _ => []
  | .ctor _ fields | .tuple fields => fields

def Lowered.Pattern.parts : Lowered.Pattern → List Lowered.Pattern
  | .wildcard | .bind _ => []
  | .ctor _ _ fields | .tuple fields => fields

/-- The fields of tuples and variants. Tensors and functions have no parts. -/
def Value.parts : Value → List Value
  | .tuple fields | .adt _ fields => fields
  | .tensor _ | .global _ | .closure .. => []

def Source.Pattern.at? (p : Source.Pattern) (path : List Nat) : Option Source.Pattern :=
  follow Source.Pattern.parts path p

def Lowered.Pattern.at? (q : Lowered.Pattern) (path : List Nat) : Option Lowered.Pattern :=
  follow Lowered.Pattern.parts path q

def Value.at? (v : Value) (path : List Nat) : Option Value := follow Value.parts path v

/-! ## The variables of a pattern -/

namespace Source.Pattern

mutual

/-- The variables of a pattern with their positions, left to right. -/
def spots : Pattern → List (List Nat × Var)
  | .wildcard => []
  | .var x => [([], x)]
  | .ctor _ fields | .tuple fields => spotsFrom 0 fields

def spotsFrom : (k : Nat) → List Pattern → List (List Nat × Var)
  | _, [] => []
  | k, p :: ps => p.spots.map (fun spot => (k :: spot.1, spot.2)) ++ spotsFrom (k + 1) ps

end

mutual

theorem map_snd_spots : ∀ p : Pattern, p.spots.map Prod.snd = p.boundVars
  | .wildcard | .var _ => rfl
  | .ctor _ fields | .tuple fields => map_snd_spotsFrom 0 fields

theorem map_snd_spotsFrom : ∀ (k : Nat) (ps : List Pattern),
    (spotsFrom k ps).map Prod.snd = boundVarsList ps
  | _, [] => rfl
  | k, p :: ps => by
    rw [spotsFrom, boundVarsList, List.map_append, List.map_map, ← map_snd_spots p,
      ← map_snd_spotsFrom (k + 1) ps]
    rfl

end

mutual

/-- The positions are those of all variables in the pattern. -/
theorem mem_spots : ∀ {p : Pattern} {path : List Nat} {x : Var},
    (path, x) ∈ p.spots ↔ p.at? path = some (.var x)
  | .wildcard, path, x => by
    cases path <;> simp [spots, at?, follow, parts]
  | .var y, path, x => by
    cases path <;> simp [spots, at?, follow, parts, eq_comm]
  | .ctor name fields, path, x => by
    have hne : Pattern.ctor name fields ≠ .var x := by simp
    rw [spots, mem_spotsFrom]
    exact leadsFrom_zero hne
  | .tuple fields, path, x => by
    have hne : Pattern.tuple fields ≠ .var x := by simp
    rw [spots, mem_spotsFrom]
    exact leadsFrom_zero hne

theorem mem_spotsFrom : ∀ {k : Nat} {ps : List Pattern} {path : List Nat} {x : Var},
    (path, x) ∈ spotsFrom k ps ↔ LeadsFrom parts k ps path (.var x)
  | k, [], path, x => by simp [spotsFrom, LeadsFrom]
  | k, p :: ps, path, x => by
    have hfirst : (path, x) ∈ p.spots.map (fun spot => (k :: spot.1, spot.2)) ↔
        ∃ rest, path = k :: rest ∧ follow parts rest p = some (.var x) := by
      rw [List.mem_map]
      constructor
      · rintro ⟨⟨rest, y⟩, hspot, heq⟩
        cases heq
        exact ⟨rest, rfl, mem_spots.mp hspot⟩
      · rintro ⟨rest, rfl, hx⟩
        exact ⟨(rest, x), mem_spots.mpr hx, rfl⟩
    rw [spotsFrom, List.mem_append, hfirst, mem_spotsFrom, leadsFrom_cons]

end

mutual

theorem sorted_spots : ∀ p : Pattern,
    p.spots.Pairwise fun spot spot' => Expr.Before spot.1 spot'.1
  | .wildcard => .nil
  | .var _ => List.pairwise_singleton _ _
  | .ctor _ fields | .tuple fields => sorted_spotsFrom 0 fields

theorem sorted_spotsFrom : ∀ (k : Nat) (ps : List Pattern),
    (spotsFrom k ps).Pairwise fun spot spot' => Expr.Before spot.1 spot'.1
  | _, [] => .nil
  | k, p :: ps => by
    rw [spotsFrom, List.pairwise_append]
    refine ⟨List.pairwise_map.mpr ((sorted_spots p).imp .cons), sorted_spotsFrom (k + 1) ps, ?_⟩
    rintro ⟨path, x⟩ hspot ⟨path', x'⟩ hspot'
    obtain ⟨spot, -, heq⟩ := List.mem_map.mp hspot
    cases heq
    obtain ⟨i, -, rest, -, rfl, -⟩ := mem_spotsFrom.mp hspot'
    exact .rel (by omega)

end

/-- The spots are the variables of the pattern in order, each with its position. -/
structure Places (p : Pattern) (spots : List (List Nat × Var)) : Prop where
  vars : spots.map Prod.snd = p.boundVars
  sorted : spots.Pairwise fun spot spot' => Expr.Before spot.1 spot'.1
  mem_iff : ∀ path x, (path, x) ∈ spots ↔ p.at? path = some (.var x)

theorem places_spots (p : Pattern) : p.Places p.spots :=
  ⟨p.map_snd_spots, p.sorted_spots, fun _ _ => mem_spots⟩

/-! ## Matching -/

mutual

/-- The pattern matches the value. The name of a constructor stands for the tag and the number of fields
that the constructor has in the module. -/
inductive Matches (m : Module) : Pattern → Value → Prop
  | wildcard {v : Value} : Matches m .wildcard v
  | var {x : Var} {v : Value} : Matches m (.var x) v
  | ctor {name : String} {info : CtorInfo} {ps : List Pattern} {vs : List Value} :
    m.ctor? name = some info → info.fields.length = vs.length → MatchesAll m ps vs →
      Matches m (.ctor name ps) (.adt info.tag vs)
  | tuple {ps : List Pattern} {vs : List Value} :
    MatchesAll m ps vs → Matches m (.tuple ps) (.tuple vs)

/-- As many patterns as values, each of which matches its value. -/
inductive MatchesAll (m : Module) : List Pattern → List Value → Prop
  | nil : MatchesAll m [] []
  | cons {p : Pattern} {v : Value} {ps : List Pattern} {vs : List Value} :
    Matches m p v → MatchesAll m ps vs → MatchesAll m (p :: ps) (v :: vs)

end

mutual

/-- Every constructor in the pattern has as many parts as it has fields in the module. -/
def Counted (m : Module) : Pattern → Prop
  | .wildcard | .var _ => True
  | .ctor name fields =>
    (∀ info, m.ctor? name = some info → info.fields.length = fields.length) ∧ AllCounted m fields
  | .tuple fields => AllCounted m fields

def AllCounted (m : Module) : List Pattern → Prop
  | [] => True
  | p :: ps => p.Counted m ∧ AllCounted m ps

end

section

variable {m : Module} {name : String} {info : CtorInfo} {tag : Nat} {p : Pattern} {v : Value}
  {ps : List Pattern} {vs : List Value}

theorem matches_ctor_iff (hinfo : m.ctor? name = some info) :
    Matches m (.ctor name ps) (.adt tag vs) ↔
      info.tag = tag ∧ info.fields.length = vs.length ∧ MatchesAll m ps vs := by
  constructor
  · intro h
    cases h with
    | ctor hinfo' hlen h =>
      cases hinfo.symm.trans hinfo'
      exact ⟨rfl, hlen, h⟩
  · rintro ⟨rfl, hlen, h⟩
    exact .ctor hinfo hlen h

theorem matches_tuple_iff : Matches m (.tuple ps) (.tuple vs) ↔ MatchesAll m ps vs := by
  refine ⟨fun h => ?_, .tuple⟩
  cases h with
  | tuple h => exact h

theorem matchesAll_cons_iff :
    MatchesAll m (p :: ps) (v :: vs) ↔ Matches m p v ∧ MatchesAll m ps vs := by
  constructor
  · intro h
    cases h with
    | cons h hs => exact ⟨h, hs⟩
  · rintro ⟨h, hs⟩
    exact .cons h hs

theorem MatchesAll.length_eq (h : MatchesAll m ps vs) : ps.length = vs.length := by
  induction ps generalizing vs with
  | nil =>
    cases h
    rfl
  | cons p ps ih =>
    cases h with
    | cons _ h => rw [List.length_cons, List.length_cons, ih h]

end

end Source.Pattern

namespace Lowering

variable {m : Module} {c : BodyContext}

mutual

theorem lowerPattern_counted : ∀ {p : Source.Pattern} {ty : Option Ty} {q : Lowered.Pattern}
    {s s' : Scope} {g g' : Progress}, lowerPattern c p ty s g = .ok (q, s') g' →
      p.Counted c.setting.module
  | .wildcard, _, _, _, _, _, _, _ => trivial
  | .var _, _, _, _, _, _, _, _ => trivial
  | .ctor name ps, _, _, _, _, _, _, h => by
    obtain ⟨info, qs, hinfo, -, hlen, hfields, -⟩ := lowerPattern_ctor_eq_ok h
    refine ⟨fun info' hinfo' => ?_, lowerPatterns_counted hfields⟩
    cases hinfo.symm.trans hinfo'
    exact hlen
  | .tuple ps, _, _, _, _, _, _, h => by
    obtain ⟨tys, qs, -, hfields, -⟩ := lowerPattern_tuple_eq_ok h
    exact lowerPatterns_counted hfields

theorem lowerPatterns_counted : ∀ {ps : List Source.Pattern} {tys : List Ty}
    {qs : List Lowered.Pattern} {s s' : Scope} {g g' : Progress},
    lowerPatterns c ps tys s g = .ok (qs, s') g' → Source.Pattern.AllCounted c.setting.module ps
  | [], _, _, _, _, _, _, _ => trivial
  | p :: ps, _, _, _, _, _, _, h => by
    obtain ⟨q, qs, s₁, g₁, h₁, h₂, -⟩ := lowerPatterns_cons_eq_ok h
    exact ⟨lowerPattern_counted h₁, lowerPatterns_counted h₂⟩

end

mutual

/-- The lowered pattern accepts the values that the source pattern matches. -/
theorem LowersPattern.matches_iff : ∀ {k : Nat} {p : Source.Pattern} {q : Lowered.Pattern},
    LowersPattern m k p q → p.Counted m → ∀ (v : Value),
      (matchPattern? q v).isSome = true ↔ p.Matches m v
  | _, _, _, .wildcard, _, _ => ⟨fun _ => .wildcard, fun _ => rfl⟩
  | _, _, _, .var, _, _ => ⟨fun _ => .var, fun _ => rfl⟩
  | _, _, _, .ctor hinfo h, hcount, v => by
    cases v with
    | adt tag vs =>
      rw [Source.Pattern.matches_ctor_iff hinfo, ← h.matches_iff hcount.2, matchPattern?]
      split
      · next htag =>
        refine ⟨fun hsome => ⟨htag, ?_, hsome⟩, fun h => h.2.2⟩
        exact (hcount.1 _ hinfo).trans ((h.matches_iff hcount.2 vs).mp hsome).length_eq
      · next htag => exact iff_of_false (by intro h; cases h) fun h => htag h.1
    | _ => exact iff_of_false (by intro h; cases h) (by intro h; cases h)
  | _, _, _, .tuple h, hcount, v => by
    cases v with
    | tuple vs =>
      rw [matchPattern?, h.matches_iff hcount, Source.Pattern.matches_tuple_iff]
    | _ => exact iff_of_false (by intro h; cases h) (by intro h; cases h)

theorem LowersPatterns.matches_iff : ∀ {k : Nat} {ps : List Source.Pattern}
    {qs : List Lowered.Pattern}, LowersPatterns m k ps qs → Source.Pattern.AllCounted m ps →
      ∀ (vs : List Value), (matchPatterns? qs vs).isSome = true ↔ Source.Pattern.MatchesAll m ps vs
  | _, _, _, .nil, _, vs => by
    cases vs with
    | nil => exact ⟨fun _ => .nil, fun _ => rfl⟩
    | cons => exact iff_of_false (by intro h; cases h) (by intro h; cases h)
  | _, _, _, .cons h hs, hcount, vs => by
    cases vs with
    | nil => exact iff_of_false (by intro h; cases h) (by intro h; cases h)
    | cons v vs =>
      rw [Source.Pattern.matchesAll_cons_iff, ← h.matches_iff hcount.1, ← hs.matches_iff hcount.2,
        matchPatterns?]
      cases matchPattern? _ v <;> cases matchPatterns? _ vs <;> simp

end

/-- The name stands at the position of the variable in the lowered pattern, and it gets the part of the
value at this position. -/
def BoundAt (q : Lowered.Pattern) (v : Value) (spot : List Nat × Var) (entry : String × Value) : Prop :=
  q.at? spot.1 = some (.bind entry.1) ∧ v.at? spot.1 = some entry.2

/-- The same for patterns and values that stand side by side. -/
def BoundFrom (k : Nat) (qs : List Lowered.Pattern) (vs : List Value) (spot : List Nat × Var)
    (entry : String × Value) : Prop :=
  LeadsFrom Lowered.Pattern.parts k qs spot.1 (.bind entry.1) ∧
    LeadsFrom Value.parts k vs spot.1 entry.2

mutual

theorem LowersPattern.boundAt : ∀ {k : Nat} {p : Source.Pattern} {q : Lowered.Pattern},
    LowersPattern m k p q → ∀ {v : Value} {entries : List (String × Value)},
      matchPattern? q v = some entries → List.Forall₂ (BoundAt q v) p.spots entries
  | _, _, _, .wildcard, _, _, hmatch => by
    cases hmatch
    exact .nil
  | _, _, _, .var, _, _, hmatch => by
    cases hmatch
    exact .cons ⟨rfl, rfl⟩ .nil
  | _, _, _, .ctor hinfo h, v, _, hmatch => by
    cases v with
    | adt tag vs =>
      rw [matchPattern?] at hmatch
      split at hmatch
      · exact (h.boundFrom hmatch 0).imp fun _ _ hbound =>
          ⟨LeadsFrom.follow_eq hbound.1, LeadsFrom.follow_eq hbound.2⟩
      · cases hmatch
    | _ => cases hmatch
  | _, _, _, .tuple h, v, _, hmatch => by
    cases v with
    | tuple vs =>
      exact (h.boundFrom hmatch 0).imp fun _ _ hbound =>
        ⟨LeadsFrom.follow_eq hbound.1, LeadsFrom.follow_eq hbound.2⟩
    | _ => cases hmatch

theorem LowersPatterns.boundFrom : ∀ {k : Nat} {ps : List Source.Pattern}
    {qs : List Lowered.Pattern}, LowersPatterns m k ps qs →
      ∀ {vs : List Value} {entries : List (String × Value)}, matchPatterns? qs vs = some entries →
        ∀ j, List.Forall₂ (BoundFrom j qs vs) (Source.Pattern.spotsFrom j ps) entries
  | _, _, _, .nil, vs, _, hmatch, j => by
    cases vs with
    | nil =>
      cases hmatch
      exact .nil
    | cons => cases hmatch
  | _, _, _, .cons h hs, vs, _, hmatch, j => by
    cases vs with
    | nil => cases hmatch
    | cons v vs =>
      simp only [matchPatterns?, Option.bind_eq_bind, Option.bind_eq_some_iff, Option.pure_def,
        Option.some.injEq] at hmatch
      obtain ⟨xs, hxs, ys, hys, rfl⟩ := hmatch
      rw [Source.Pattern.spotsFrom]
      refine List.rel_append ?_ ((hs.boundFrom hys (j + 1)).imp fun _ _ hbound => ?_)
      · rw [List.forall₂_map_left_iff]
        refine (h.boundAt hxs).imp fun spot entry hbound => ?_
        exact ⟨leadsFrom_cons.mpr (.inl ⟨spot.1, rfl, hbound.1⟩),
          leadsFrom_cons.mpr (.inl ⟨spot.1, rfl, hbound.2⟩)⟩
      · exact ⟨leadsFrom_cons.mpr (.inr hbound.1), leadsFrom_cons.mpr (.inr hbound.2)⟩

end

/-! ## Clauses -/

open Run in
/-- Clauses whose patterns do not accept the value leave the frame as it is. -/
theorem evalClauses_append_of_failing {u : CompiledUnit} {call : Call} {v : Value}
    {earlier : List (Lowered.Pattern × Node)}
    (h : ∀ clause ∈ earlier, matchPattern? clause.1 v = none)
    (rest : List (Lowered.Pattern × Node)) (frame : Frame) :
    u.evalClauses call v (earlier ++ rest) frame = u.evalClauses call v rest frame := by
  induction earlier with
  | nil => rfl
  | cons clause earlier ih =>
    obtain ⟨q, body⟩ := clause
    obtain ⟨hq, hearlier⟩ := List.forall_mem_cons.mp h
    rw [List.cons_append, CompiledUnit.evalClauses_cons, hq]
    exact ih hearlier

open Run in
/-- Lowering commutes with matching. A lowered pattern accepts exactly the values that the source pattern
matches. Its entries have its names, in order, and give them the parts of the value at the positions of
the variables. The frame gets the entries of the first clause that accepts the value, and nothing from
the clauses before it. -/
theorem lowering_commutes_with_matching {p : Source.Pattern} {ty : Option Ty} {q : Lowered.Pattern}
    {s s' : Scope} {g g' : Progress} (h : lowerPattern c p ty s g = .ok (q, s') g') (v : Value) :
    ((matchPattern? q v).isSome = true ↔ p.Matches c.setting.module v) ∧
    p.Places p.spots ∧
    (∀ entries, matchPattern? q v = some entries →
      entries.map Prod.fst = q.boundNames ∧ List.Forall₂ (BoundAt q v) p.spots entries) ∧
    ∀ (u : CompiledUnit) (call : Call) (earlier later : List (Lowered.Pattern × Node)) (body : Node)
      (frame : Frame), (∀ clause ∈ earlier, matchPattern? clause.1 v = none) →
        (¬ p.Matches c.setting.module v →
          u.evalClauses call v (earlier ++ (q, body) :: later) frame =
            u.evalClauses call v later frame) ∧
        ∀ entries, matchPattern? q v = some entries →
          u.evalClauses call v (earlier ++ (q, body) :: later) frame =
            u.eval call body (frame.extend entries) := by
  have hlowers := (lowerPattern_eq_ok h).1
  have hmatches := hlowers.matches_iff (lowerPattern_counted h) v
  refine ⟨hmatches, p.places_spots, fun entries hentries => ?_, ?_⟩
  · exact ⟨matchPattern?_names hentries, hlowers.boundAt hentries⟩
  · intro u call earlier later body frame hearlier
    constructor
    · intro hfails
      have hq : matchPattern? q v = none := by
        rw [← Option.not_isSome_iff_eq_none, hmatches]
        exact hfails
      have hall : ∀ clause ∈ earlier ++ [(q, body)], matchPattern? clause.1 v = none :=
        List.forall_mem_append.mpr ⟨hearlier, List.forall_mem_singleton.mpr hq⟩
      rw [← List.singleton_append, ← List.append_assoc]
      exact evalClauses_append_of_failing hall later frame
    · intro entries hentries
      rw [evalClauses_append_of_failing hearlier, CompiledUnit.evalClauses_cons, hentries]
      rfl

/-- A list of at least two elements and another value. The first element, the list from the third element
on and the other value get names. -/
def nestedPattern : Source.Pattern :=
  .tuple [.ctor "Cons" [.var ⟨0, "x", .infer⟩, .ctor "Cons" [.wildcard, .var ⟨1, "xs", .infer⟩]],
    .var ⟨2, "y", .infer⟩]

def nestedLowered : Lowered.Pattern :=
  .tuple [.ctor 1 "Cons" [.bind "x_0", .ctor 1 "Cons" [.wildcard, .bind "xs_1"]], .bind "y_2"]

def nestedValue : Value :=
  .tuple [.adt 1 [.tensor (.scalarBool true), .adt 1 [.tensor (.scalarBool false), .adt 0 []]],
    .tuple []]

theorem nestedPattern_matched :
    (∃ s', lowerPattern ⟨⟨{ types := [boolList] }, {}, {}⟩, "f", fun _ => pure ⟨0⟩⟩ nestedPattern none
      {} {} = .ok (nestedLowered, s') {}) ∧
    matchPattern? nestedLowered nestedValue =
      some [("x_0", .tensor (.scalarBool true)), ("xs_1", .adt 0 []), ("y_2", .tuple [])] ∧
    nestedPattern.Matches { types := [boolList] } nestedValue ∧
    List.Forall₂ (BoundAt nestedLowered nestedValue)
      [([0, 0], ⟨0, "x", .infer⟩), ([0, 1, 1], ⟨1, "xs", .infer⟩), ([1], ⟨2, "y", .infer⟩)]
      [("x_0", .tensor (.scalarBool true)), ("xs_1", .adt 0 []), ("y_2", .tuple [])] := by
  have hlowered : ∃ s', lowerPattern ⟨⟨{ types := [boolList] }, {}, {}⟩, "f", fun _ => pure ⟨0⟩⟩
      nestedPattern none {} {} = .ok (nestedLowered, s') {} := ⟨_, rfl⟩
  obtain ⟨s', h⟩ := hlowered
  obtain ⟨hiff, -, hbound, -⟩ := lowering_commutes_with_matching h nestedValue
  exact ⟨⟨s', h⟩, rfl, hiff.mp rfl, (hbound _ rfl).2⟩

end Lowering

end TensorIR
