import Mathlib.Data.List.Induction
import TensorIR.Proofs.FreeVariables

/-! Free occurrences of variables, and the order in which they are met.

An occurrence of a variable stands at a path, which counts the parts of expressions that lead to it,
and it is free if no expression on the way binds the variable in the part that is entered. Paths are
ordered as they are met when the parts are read one after the other. `Expr.freeVars` lists each
variable that has a free occurrence once, in the order of the first ones. -/

namespace TensorIR.Source

namespace Expr

/-- The parts of an expression in the order in which they are read, each with the variables that the
expression binds in it. The variable of a `let` is bound in its value and its body, the parameters of
a function in its body, and the variables of a pattern in the body of its clause. -/
def parts : Expr → List (List Nat × Expr)
  | .var _ | .const _ | .global _ | .op _ => []
  | .letIn v value body => [([v.id], value), ([v.id], body)]
  | .func params body _ => [(params.map Var.id, body)]
  | .call callee args _ => ([], callee) :: args.map ([], ·)
  | .ite cond onTrue onFalse _ => [([], cond), ([], onTrue), ([], onFalse)]
  | .tuple fields _ | .construct _ fields _ => fields.map ([], ·)
  | .matchOn data clauses _ =>
    ([], data) :: clauses.map fun clause => (clause.1.boundVars.map Var.id, clause.2)

/-- The path leads from the expression to the other one, through the scopes of the variables. -/
inductive LeadsTo : Expr → (path scopes : List Nat) → Expr → Prop
  | here {e : Expr} : e.LeadsTo [] [] e
  | inside {e part e' : Expr} {i : Nat} {bound path scopes : List Nat} :
    e.parts[i]? = some (bound, part) → part.LeadsTo path scopes e' →
      e.LeadsTo (i :: path) (bound ++ scopes) e'

/-- The variable occurs at the path, outside the scope of every binder of it. -/
def FreeAt (e : Expr) (path : List Nat) (v : Var) : Prop :=
  ∃ scopes, e.LeadsTo path scopes (.var v) ∧ v.id ∉ scopes

/-- What stands at the first path is read before what stands at the second one. -/
def Before (path path' : List Nat) : Prop := List.Lex (· < ·) path path'

/-- The variable is free at the path and at no earlier one. -/
def FirstFreeAt (e : Expr) (path : List Nat) (v : Var) : Prop :=
  e.FreeAt path v ∧ ∀ path' v', e.FreeAt path' v' → v'.id = v.id → path = path' ∨ Before path path'

/-! ## Parts -/

theorem sizeOf_lt_of_mem_parts {e part : Expr} {bound : List Nat} (h : (bound, part) ∈ e.parts) :
    sizeOf part < sizeOf e := by
  have hlist : ∀ {es : List Expr}, (bound, part) ∈ es.map ([], ·) → sizeOf part < sizeOf es := by
    intro es hmem
    obtain ⟨e, he, heq⟩ := List.mem_map.mp hmem
    cases heq
    exact List.sizeOf_lt_of_mem he
  cases e with
  | var | const | global | op => cases h
  | letIn v value body =>
    rw [Expr.letIn.sizeOf_spec]
    simp only [parts, List.mem_cons, List.not_mem_nil, or_false, Prod.mk.injEq] at h
    rcases h with ⟨-, rfl⟩ | ⟨-, rfl⟩ <;> omega
  | func params body ret =>
    rw [Expr.func.sizeOf_spec]
    cases List.mem_singleton.mp h
    omega
  | call callee args ty =>
    rw [Expr.call.sizeOf_spec]
    rcases List.mem_cons.mp h with h | h
    · cases h
      omega
    · have := hlist h
      omega
  | ite cond onTrue onFalse ty =>
    rw [Expr.ite.sizeOf_spec]
    simp only [parts, List.mem_cons, List.not_mem_nil, or_false, Prod.mk.injEq] at h
    rcases h with ⟨-, rfl⟩ | ⟨-, rfl⟩ | ⟨-, rfl⟩ <;> omega
  | tuple fields ty =>
    rw [Expr.tuple.sizeOf_spec]
    have := hlist h
    omega
  | construct ctor fields ty =>
    rw [Expr.construct.sizeOf_spec]
    have := hlist h
    omega
  | matchOn data clauses ty =>
    rw [Expr.matchOn.sizeOf_spec]
    rcases List.mem_cons.mp h with h | h
    · cases h
      omega
    · obtain ⟨⟨p, e⟩, hclause, heq⟩ := List.mem_map.mp h
      obtain rfl : e = part := congrArg Prod.snd heq
      have hsize := List.sizeOf_lt_of_mem hclause
      rw [Prod.mk.sizeOf_spec] at hsize
      omega

/-- Induction over expressions from their parts. -/
theorem parts_induction {P : Expr → Prop} (h : ∀ e, (∀ part ∈ e.parts, P part.2) → P e) (e : Expr) :
    P e :=
  h e fun part _ => parts_induction h part.2
termination_by sizeOf e
decreasing_by exact sizeOf_lt_of_mem_parts ‹_›

/-! ## Paths -/

theorem freeAt_var {v w : Var} {path : List Nat} :
    (Expr.var v).FreeAt path w ↔ path = [] ∧ w = v := by
  constructor
  · rintro ⟨scopes, hleads, -⟩
    cases hleads with
    | here => exact ⟨rfl, rfl⟩
    | inside hpart => cases hpart
  · rintro ⟨rfl, rfl⟩
    exact ⟨[], .here, List.not_mem_nil⟩

/-- What is free in an expression is free in one of its parts, and not bound in it. -/
theorem freeAt_iff {e : Expr} (hvar : ∀ v, e ≠ .var v) {path : List Nat} {v : Var} :
    e.FreeAt path v ↔ ∃ (i : Nat) (bound : List Nat) (part : Expr) (rest : List Nat),
      e.parts[i]? = some (bound, part) ∧ path = i :: rest ∧ part.FreeAt rest v ∧ v.id ∉ bound := by
  constructor
  · rintro ⟨scopes, hleads, hv⟩
    cases hleads with
    | here => exact absurd rfl (hvar v)
    | inside hpart hleads =>
      rw [List.mem_append, not_or] at hv
      exact ⟨_, _, _, _, hpart, rfl, ⟨_, hleads, hv.2⟩, hv.1⟩
  · rintro ⟨i, bound, part, rest, hpart, rfl, ⟨scopes, hleads, hv⟩, hbound⟩
    exact ⟨bound ++ scopes, .inside hpart hleads, by simp [hv, hbound]⟩

/-! ## Reading the parts one after the other -/

/-- The variables of the parts are collected one part after the other, those that are bound in a part
being left out there. -/
def collectParts (bound : List Nat) (found : List Var) (ps : List (List Nat × Expr)) : List Var :=
  ps.foldl (fun found part => part.2.collectFree (part.1 ++ bound) found) found

theorem collectFreeList_eq (bound : List Nat) (found : List Var) (es : List Expr) :
    collectFreeList bound found es = collectParts bound found (es.map ([], ·)) := by
  induction es generalizing found with
  | nil => rfl
  | cons e es ih => exact ih _

theorem collectFreeClauses_eq (bound : List Nat) (found : List Var)
    (clauses : List (Pattern × Expr)) :
    collectFreeClauses bound found clauses = collectParts bound found
      (clauses.map fun clause => (clause.1.boundVars.map Var.id, clause.2)) := by
  induction clauses generalizing found with
  | nil => rfl
  | cons clause clauses ih => exact ih _

theorem collectFree_eq {e : Expr} (hvar : ∀ v, e ≠ .var v) (bound : List Nat) (found : List Var) :
    e.collectFree bound found = collectParts bound found e.parts := by
  cases e with
  | var v => exact absurd rfl (hvar v)
  | const | global | op | letIn | func | ite => rfl
  | call callee args ty => exact collectFreeList_eq bound _ args
  | tuple fields ty | construct ctor fields ty => exact collectFreeList_eq bound found fields
  | matchOn data clauses ty => exact collectFreeClauses_eq bound _ clauses

/-- The spots are all free occurrences of variables in the order in which they are read, and the
variables are collected from them one after the other. -/
structure Reads (FreeAt : List Nat → Var → Prop) (collect : List Nat → List Var → List Var)
    (spots : List (List Nat × Var)) : Prop where
  sorted : spots.Pairwise fun spot spot' => Before spot.1 spot'.1
  mem_iff : ∀ path v, (path, v) ∈ spots ↔ FreeAt path v
  collect_eq : ∀ bound found,
    collect bound found = spots.foldl (fun found spot => noteFree bound found spot.2) found

theorem foldl_noteFree_append (bound bound' : List Nat) (spots : List (List Nat × Var))
    (found : List Var) :
    spots.foldl (fun found spot => noteFree (bound ++ bound') found spot.2) found =
      (spots.filter fun spot => !bound.contains spot.2.id).foldl
        (fun found spot => noteFree bound' found spot.2) found := by
  rw [List.foldl_filter]
  congr 1
  funext found spot
  by_cases h : spot.2.id ∈ bound <;> simp [noteFree, h]

/-- What is free in some of the parts, counted from `k` on. -/
def FreeInParts (k : Nat) (ps : List (List Nat × Expr)) (path : List Nat) (v : Var) : Prop :=
  ∃ (i : Nat) (bound : List Nat) (part : Expr) (rest : List Nat),
    ps[i]? = some (bound, part) ∧ path = (k + i) :: rest ∧ part.FreeAt rest v ∧ v.id ∉ bound

theorem freeInParts_cons {k : Nat} {bound : List Nat} {part : Expr} {ps : List (List Nat × Expr)}
    {path : List Nat} {v : Var} :
    FreeInParts k ((bound, part) :: ps) path v ↔
      (∃ rest, path = k :: rest ∧ part.FreeAt rest v ∧ v.id ∉ bound) ∨
        FreeInParts (k + 1) ps path v := by
  constructor
  · rintro ⟨i, bound', part', rest, hpart, rfl, hfree, hv⟩
    cases i with
    | zero =>
      cases hpart
      exact .inl ⟨rest, rfl, hfree, hv⟩
    | succ i => exact .inr ⟨i, bound', part', rest, hpart, by rw [Nat.add_right_comm]; rfl, hfree, hv⟩
  · rintro (⟨rest, rfl, hfree, hv⟩ | ⟨i, bound', part', rest, hpart, rfl, hfree, hv⟩)
    · exact ⟨0, bound, part, rest, rfl, rfl, hfree, hv⟩
    · exact ⟨i + 1, bound', part', rest, hpart, by rw [Nat.add_right_comm]; rfl, hfree, hv⟩

/-- The spots of the parts, each behind the number of its part, are those of all parts together. -/
theorem exists_reads_parts {ps : List (List Nat × Expr)}
    (h : ∀ part ∈ ps, ∃ spots, Reads part.2.FreeAt part.2.collectFree spots) (k : Nat) :
    ∃ spots, Reads (FreeInParts k ps) (fun bound found => collectParts bound found ps) spots := by
  induction ps generalizing k with
  | nil =>
    refine ⟨[], .nil, fun path v => ?_, fun _ _ => rfl⟩
    simp [FreeInParts]
  | cons part ps ih =>
    obtain ⟨bound, part⟩ := part
    rw [List.forall_mem_cons] at h
    obtain ⟨spots₁, h₁⟩ := h.1
    obtain ⟨spots₂, h₂⟩ := ih h.2 (k + 1)
    let inside := (spots₁.filter fun spot => !bound.contains spot.2.id).map
      fun spot => (k :: spot.1, spot.2)
    have hinside : ∀ path v, (path, v) ∈ inside ↔
        ∃ rest, path = k :: rest ∧ part.FreeAt rest v ∧ v.id ∉ bound := by
      intro path v
      simp only [inside, List.mem_map, List.mem_filter, Bool.not_eq_true', List.contains_eq_mem,
        decide_eq_false_iff_not, Prod.mk.injEq, Prod.exists, h₁.mem_iff]
      constructor
      · rintro ⟨rest, v, ⟨hfree, hv⟩, rfl, rfl⟩
        exact ⟨rest, rfl, hfree, hv⟩
      · rintro ⟨rest, rfl, hfree, hv⟩
        exact ⟨rest, v, ⟨hfree, hv⟩, rfl, rfl⟩
    refine ⟨inside ++ spots₂, ?_, fun path v => ?_, fun bound' found => ?_⟩
    · rw [List.pairwise_append]
      refine ⟨?_, h₂.sorted, ?_⟩
      · exact List.pairwise_map.mpr ((h₁.sorted.filter _).imp .cons)
      · rintro ⟨path, v⟩ hspot ⟨path', v'⟩ hspot'
        obtain ⟨rest, rfl, -⟩ := (hinside path v).mp hspot
        obtain ⟨i, -, -, rest', -, rfl, -⟩ := (h₂.mem_iff path' v').mp hspot'
        exact .rel (by omega)
    · rw [List.mem_append, hinside, h₂.mem_iff, freeInParts_cons]
    · rw [List.foldl_append, List.foldl_map, ← foldl_noteFree_append, ← h₁.collect_eq, ← h₂.collect_eq]
      rfl

theorem exists_reads (e : Expr) : ∃ spots, Reads e.FreeAt e.collectFree spots := by
  induction e using parts_induction with
  | h e ih =>
    by_cases hvar : ∃ v, e = .var v
    · obtain ⟨v, rfl⟩ := hvar
      refine ⟨[([], v)], List.pairwise_singleton _ _, fun path w => ?_, fun _ _ => rfl⟩
      rw [freeAt_var, List.mem_singleton, Prod.mk.injEq]
    · have hvar : ∀ v, e ≠ .var v := fun v heq => hvar ⟨v, heq⟩
      obtain ⟨spots, hspots⟩ := exists_reads_parts ih 0
      refine ⟨spots, hspots.sorted, fun path v => ?_, fun bound found => ?_⟩
      · rw [hspots.mem_iff, freeAt_iff hvar]
        simp only [FreeInParts, Nat.zero_add]
      · rw [collectFree_eq hvar]
        exact hspots.collect_eq bound found

/-! ## First occurrences -/

/-- The spots whose variable has not come before. -/
structure FirstSpots (spots firsts : List (List Nat × Var)) : Prop where
  sorted : firsts.Pairwise fun spot spot' => Before spot.1 spot'.1
  complete : ∀ spot ∈ spots, ∃ first ∈ firsts, first.2.id = spot.2.id
  first : ∀ spot ∈ firsts, spot ∈ spots ∧
    ∀ spot' ∈ spots, spot'.2.id = spot.2.id → spot.1 = spot'.1 ∨ Before spot.1 spot'.1

namespace FirstSpots

variable {spots firsts : List (List Nat × Var)} {spot : List Nat × Var}

/-- A spot at the end changes nothing for a variable that has come before. -/
theorem snoc_old (h : FirstSpots spots firsts) (hlast : ∀ spot' ∈ spots, Before spot'.1 spot.1)
    (hold : ∃ first ∈ firsts, first.2.id = spot.2.id) : FirstSpots (spots ++ [spot]) firsts := by
  refine ⟨h.sorted, List.forall_mem_append.mpr ⟨h.complete, List.forall_mem_singleton.mpr hold⟩, ?_⟩
  intro first hfirst
  obtain ⟨hmem, hearliest⟩ := h.first first hfirst
  refine ⟨List.mem_append_left _ hmem, List.forall_mem_append.mpr ⟨hearliest, ?_⟩⟩
  exact List.forall_mem_singleton.mpr fun _ => .inr (hlast first hmem)

/-- A spot at the end is the first one of a variable that has not come before. -/
theorem snoc_new (h : FirstSpots spots firsts) (hlast : ∀ spot' ∈ spots, Before spot'.1 spot.1)
    (hnew : ¬ ∃ first ∈ firsts, first.2.id = spot.2.id) :
    FirstSpots (spots ++ [spot]) (firsts ++ [spot]) := by
  have hbefore : ∀ first ∈ firsts, Before first.1 spot.1 :=
    fun first hfirst => hlast first (h.first first hfirst).1
  refine ⟨?_, List.forall_mem_append.mpr ⟨fun spot' hspot' => ?_, ?_⟩,
    List.forall_mem_append.mpr ⟨fun first hfirst => ?_, ?_⟩⟩
  · rw [List.pairwise_append]
    refine ⟨h.sorted, List.pairwise_singleton _ _, fun first hfirst => ?_⟩
    exact List.forall_mem_singleton.mpr (hbefore first hfirst)
  · obtain ⟨first, hfirst, hid⟩ := h.complete spot' hspot'
    exact ⟨first, List.mem_append_left _ hfirst, hid⟩
  · have hspot := List.mem_append_right firsts (List.mem_singleton_self spot)
    exact List.forall_mem_singleton.mpr ⟨spot, hspot, rfl⟩
  · obtain ⟨hmem, hearliest⟩ := h.first first hfirst
    refine ⟨List.mem_append_left _ hmem, List.forall_mem_append.mpr ⟨hearliest, ?_⟩⟩
    exact List.forall_mem_singleton.mpr fun _ => .inr (hlast first hmem)
  · refine List.forall_mem_singleton.mpr ⟨List.mem_append_right _ (List.mem_singleton_self spot), ?_⟩
    refine List.forall_mem_append.mpr ⟨fun spot' hspot' hid => ?_, List.forall_mem_singleton.mpr ?_⟩
    · obtain ⟨first, hfirst, hid'⟩ := h.complete spot' hspot'
      exact absurd ⟨first, hfirst, hid'.trans hid⟩ hnew
    · exact fun _ => .inl rfl

end FirstSpots

/-- The variables that are collected from the spots are those of the first ones. -/
theorem exists_firstSpots {spots : List (List Nat × Var)}
    (h : spots.Pairwise fun spot spot' => Before spot.1 spot'.1) :
    ∃ firsts, FirstSpots spots firsts ∧
      firsts.map Prod.snd = spots.foldl (fun found spot => noteFree [] found spot.2) [] := by
  induction spots using List.reverseRecOn with
  | nil => exact ⟨[], ⟨.nil, List.forall_mem_nil _, List.forall_mem_nil _⟩, rfl⟩
  | append_singleton spots spot ih =>
    rw [List.pairwise_append] at h
    obtain ⟨firsts, hfirsts, hmap⟩ := ih h.1
    have hlast : ∀ spot' ∈ spots, Before spot'.1 spot.1 :=
      fun spot' hspot' => h.2.2 spot' hspot' spot (List.mem_singleton_self spot)
    have hany : (firsts.map Prod.snd).any (·.id == spot.2.id) = true ↔
        ∃ first ∈ firsts, first.2.id = spot.2.id := by
      simp only [List.any_map, List.any_eq_true, Function.comp_apply, beq_iff_eq]
    rw [List.foldl_append, ← hmap, List.foldl_cons, List.foldl_nil, noteFree, List.contains_nil,
      Bool.false_or]
    by_cases hold : ∃ first ∈ firsts, first.2.id = spot.2.id
    · rw [if_pos (hany.mpr hold)]
      exact ⟨firsts, hfirsts.snoc_old hlast hold, rfl⟩
    · rw [if_neg (mt hany.mp hold)]
      exact ⟨firsts ++ [spot], hfirsts.snoc_new hlast hold, List.map_append⟩

end Expr

/-- The free variables of an expression are those that occur in it outside the scope of every binder
of them. Each is listed once, in the order of the first free occurrences. The free variables of a
function are those of the literal. -/
theorem freeVars_exact (e : Expr) (f : Function) :
    (e.freeVars.map Var.id).Nodup ∧
    (∀ y, y ∈ e.freeVars.map Var.id ↔ ∃ path v, e.FreeAt path v ∧ v.id = y) ∧
    (∃ firsts : List (List Nat × Var), firsts.map Prod.snd = e.freeVars ∧
      (∀ spot ∈ firsts, e.FirstFreeAt spot.1 spot.2) ∧
      firsts.Pairwise fun spot spot' => Expr.Before spot.1 spot'.1) ∧
    f.freeVars = f.toExpr.freeVars := by
  obtain ⟨spots, hspots⟩ := e.exists_reads
  obtain ⟨firsts, hfirsts, hmap⟩ := Expr.exists_firstSpots hspots.sorted
  rw [← hspots.collect_eq, ← e.freeVars_eq] at hmap
  have hfree : ∀ spot ∈ firsts, e.FirstFreeAt spot.1 spot.2 := by
    intro spot hspot
    obtain ⟨hmem, hearliest⟩ := hfirsts.first spot hspot
    refine ⟨(hspots.mem_iff _ _).mp hmem, fun path' v' hfree hid => ?_⟩
    exact hearliest (path', v') ((hspots.mem_iff path' v').mpr hfree) hid
  refine ⟨?_, fun y => ?_, ⟨firsts, hmap, hfree, hfirsts.sorted⟩, ?_⟩
  · rw [e.freeVars_eq]
    exact nodup_collectFree e List.nodup_nil
  · rw [← hmap, List.map_map]
    constructor
    · intro hy
      obtain ⟨spot, hspot, rfl⟩ := List.mem_map.mp hy
      exact ⟨spot.1, spot.2, (hfree spot hspot).1, rfl⟩
    · rintro ⟨path, v, hv, rfl⟩
      obtain ⟨first, hfirst, hid⟩ := hfirsts.complete (path, v) ((hspots.mem_iff path v).mpr hv)
      exact List.mem_map.mpr ⟨first, hfirst, hid⟩
  · rw [f.freeVars_eq, Expr.freeVars_eq, Function.toExpr, Expr.collectFree, List.append_nil]

/-- The occurrences of `x` in the first field are bound, also the one in the value, and the one in the
second field is free. -/
example :
    let x : Var := ⟨0, "x", .infer⟩
    let y : Var := ⟨1, "y", .infer⟩
    (Expr.tuple [.letIn x (.var x) (.var y), .var x, .var y] .infer).freeVars = [y, x] := by
  decide

end TensorIR.Source
