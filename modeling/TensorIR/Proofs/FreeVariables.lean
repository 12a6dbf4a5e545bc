import TensorIR.Proofs.Expressions
import TensorIR.Source.Scope

/-! Occurrences of variables that an expression leaves to its surroundings.

The search for free variables works on a shared stack. Every construct leaves the stack as it finds it,
so the search finds what `Expr.collectFree` collects, which takes the bound variables as an argument.

`Expr.occurs` follows lexical scope: the variable of a `let` is visible in the body, and in its own
value only if that is a function literal. `Expr.freeVars` takes it to be bound in every value
(`Expr.free`), so it may leave out a variable that the expression also binds, but no other one. -/

namespace TensorIR.Source

/-- Adds a variable at the end unless it is bound or already listed. -/
def noteFree (bound : List Nat) (found : List Var) (v : Var) : List Var :=
  if bound.contains v.id || found.any (·.id == v.id) then found else found ++ [v]

mutual

/-- Extends `found` by the variables of the expression that are not in `bound`. -/
def Expr.collectFree (bound : List Nat) (found : List Var) : Expr → List Var
  | .var v => noteFree bound found v
  | .const _ | .global _ | .op _ => found
  | .letIn v value body =>
    body.collectFree (v.id :: bound) (value.collectFree (v.id :: bound) found)
  | .func params body _ => body.collectFree (params.map Var.id ++ bound) found
  | .call callee args _ => Expr.collectFreeList bound (callee.collectFree bound found) args
  | .ite cond onTrue onFalse _ =>
    onFalse.collectFree bound (onTrue.collectFree bound (cond.collectFree bound found))
  | .tuple fields _ | .construct _ fields _ => Expr.collectFreeList bound found fields
  | .matchOn data clauses _ => Expr.collectFreeClauses bound (data.collectFree bound found) clauses

def Expr.collectFreeList (bound : List Nat) (found : List Var) : List Expr → List Var
  | [] => found
  | e :: es => Expr.collectFreeList bound (e.collectFree bound found) es

def Expr.collectFreeClauses (bound : List Nat) (found : List Var) :
    List (Pattern × Expr) → List Var
  | [] => found
  | (p, e) :: rest =>
    Expr.collectFreeClauses bound (e.collectFree (p.boundVars.map Var.id ++ bound) found) rest

end

/-! ## The search -/

/-- The variables of `bound` are on the stack, and the variables that have been seen are those that have
been found. -/
structure FreeSearch.Stands (s : FreeSearch) (bound : List Nat) : Prop where
  bound_iff : ∀ y, y ∈ s.bound ↔ y ∈ bound
  seen_iff : ∀ y, y ∈ s.seen ↔ y ∈ s.found.map Var.id

/-- A search leaves the stack as it was, and finds what `collect` adds. -/
def Searches (search : StateM FreeSearch Unit) (collect : List Nat → List Var → List Var) : Prop :=
  ∀ (s : FreeSearch) (bound : List Nat), s.Stands bound →
    (search.run s).2.bound = s.bound ∧ (search.run s).2.Stands bound ∧
      (search.run s).2.found = collect bound s.found

namespace Searches

variable {search search' : StateM FreeSearch Unit} {collect collect' : List Nat → List Var → List Var}

theorem skip : Searches (pure ()) fun _ found => found :=
  fun _ _ hs => ⟨rfl, hs, rfl⟩

theorem seq (h : Searches search collect) (h' : Searches search' collect') :
    Searches (do search; search') fun bound found => collect' bound (collect bound found) := by
  intro s bound hs
  obtain ⟨hbound, hstands, hfound⟩ := h s bound hs
  obtain ⟨hbound', hstands', hfound'⟩ := h' _ bound hstands
  exact ⟨hbound'.trans hbound, hstands', hfound'.trans (by rw [hfound])⟩

theorem meet (v : Var) : Searches (modify (·.meet v)) fun bound found => noteFree bound found v := by
  intro s bound hs
  have hold : (s.bound.contains v.id || s.seen.contains v.id) =
      (bound.contains v.id || s.found.any (·.id == v.id)) := by
    have hbound := hs.bound_iff v.id
    have hseen := hs.seen_iff v.id
    rw [Bool.eq_iff_iff]
    simp only [Bool.or_eq_true, List.contains_iff_mem, List.any_eq_true, beq_iff_eq, hbound, hseen,
      List.mem_map]
  change (s.meet v).bound = s.bound ∧ (s.meet v).Stands bound ∧
    (s.meet v).found = noteFree bound s.found v
  rw [FreeSearch.meet, noteFree, hold]
  split
  · exact ⟨rfl, hs, rfl⟩
  · refine ⟨rfl, ⟨hs.bound_iff, fun y => ?_⟩, rfl⟩
    simp [hs.seen_iff, or_comm]

/-- Variables that are bound on the way are off the stack in the end. -/
theorem extended (h : Searches search collect) (ids : List Nat) :
    Searches (do
      let mark := (← get).bound.length
      modify (·.extend ids)
      search
      modify (·.truncate mark)) fun bound found => collect (ids ++ bound) found := by
  intro s bound hs
  have hinside : (s.extend ids).Stands (ids ++ bound) :=
    ⟨fun y => by simp [FreeSearch.extend, hs.bound_iff, or_comm], hs.seen_iff⟩
  obtain ⟨hbound, hstands, hfound⟩ := h _ _ hinside
  have hback : ((search.run (s.extend ids)).2.truncate s.bound.length).bound = s.bound := by
    rw [FreeSearch.truncate, hbound, FreeSearch.extend, List.take_left]
  exact ⟨hback, ⟨fun y => hback ▸ hs.bound_iff y, hstands.seen_iff⟩, hfound⟩

theorem pushed (h : Searches search collect) (id : Nat) :
    Searches (do
      modify (·.push id)
      search
      modify (·.pop)) fun bound found => collect (id :: bound) found := by
  intro s bound hs
  have hinside : (s.push id).Stands (id :: bound) :=
    ⟨fun y => by simp [FreeSearch.push, hs.bound_iff, or_comm], hs.seen_iff⟩
  obtain ⟨hbound, hstands, hfound⟩ := h _ _ hinside
  have hback : (search.run (s.push id)).2.pop.bound = s.bound := by
    rw [FreeSearch.pop, hbound, FreeSearch.push, List.dropLast_concat]
  exact ⟨hback, ⟨fun y => hback ▸ hs.bound_iff y, hstands.seen_iff⟩, hfound⟩

end Searches

mutual

theorem Expr.search_searches : ∀ e : Expr, Searches e.search fun bound found => e.collectFree bound found
  | .var v => .meet v
  | .const _ | .global _ | .op _ => .skip
  | .letIn v value body => (value.search_searches.seq body.search_searches).pushed v.id
  | .func _ body _ => body.search_searches.extended _
  | .call callee args _ => callee.search_searches.seq (Expr.searchAll_searches args)
  | .ite cond onTrue onFalse _ =>
    cond.search_searches.seq (onTrue.search_searches.seq onFalse.search_searches)
  | .tuple fields _ | .construct _ fields _ => Expr.searchAll_searches fields
  | .matchOn data clauses _ => data.search_searches.seq (Expr.searchClauses_searches clauses)

theorem Expr.searchAll_searches : ∀ es : List Expr,
    Searches (Expr.searchAll es) fun bound found => Expr.collectFreeList bound found es
  | [] => .skip
  | e :: es => e.search_searches.seq (Expr.searchAll_searches es)

theorem Expr.searchClauses_searches : ∀ clauses : List (Pattern × Expr),
    Searches (Expr.searchClauses clauses) fun bound found =>
      Expr.collectFreeClauses bound found clauses
  | [] => .skip
  | (_, e) :: rest => (e.search_searches.extended _).seq (Expr.searchClauses_searches rest)

end

theorem Expr.freeVars_eq (e : Expr) : e.freeVars = e.collectFree [] [] :=
  (e.search_searches {} [] ⟨fun _ => .rfl, fun _ => .rfl⟩).2.2

theorem Function.freeVars_eq (f : Function) :
    f.freeVars = f.body.collectFree (f.params.map Var.id) [] :=
  (f.body.search_searches { bound := f.params.map Var.id } _ ⟨fun _ => .rfl, fun _ => .rfl⟩).2.2

/-! ## Occurrences -/

mutual

/-- The variable occurs in the expression without a binder around it. -/
def Expr.occurs (y : Nat) : Expr → Bool
  | .var v => v.id == y
  | .const _ | .global _ | .op _ => false
  | .letIn v value body =>
    (value.occurs y && !(value.isFunction && v.id == y)) || (v.id != y && body.occurs y)
  | .func params body _ => !(params.map Var.id).contains y && body.occurs y
  | .call callee args _ => callee.occurs y || Expr.listOccurs y args
  | .ite cond onTrue onFalse _ => cond.occurs y || (onTrue.occurs y || onFalse.occurs y)
  | .tuple fields _ | .construct _ fields _ => Expr.listOccurs y fields
  | .matchOn data clauses _ => data.occurs y || Expr.clausesOccur y clauses

def Expr.listOccurs (y : Nat) : List Expr → Bool
  | [] => false
  | e :: es => e.occurs y || Expr.listOccurs y es

def Expr.clausesOccur (y : Nat) : List (Pattern × Expr) → Bool
  | [] => false
  | (p, e) :: rest =>
    (!(p.boundVars.map Var.id).contains y && e.occurs y) || Expr.clausesOccur y rest

end

mutual

/-- The variable is free in the expression, where the variable of a `let` counts as bound in every
value. -/
def Expr.free (y : Nat) : Expr → Bool
  | .var v => v.id == y
  | .const _ | .global _ | .op _ => false
  | .letIn v value body => v.id != y && (value.free y || body.free y)
  | .func params body _ => !(params.map Var.id).contains y && body.free y
  | .call callee args _ => callee.free y || Expr.listFree y args
  | .ite cond onTrue onFalse _ => cond.free y || (onTrue.free y || onFalse.free y)
  | .tuple fields _ | .construct _ fields _ => Expr.listFree y fields
  | .matchOn data clauses _ => data.free y || Expr.clausesFree y clauses

def Expr.listFree (y : Nat) : List Expr → Bool
  | [] => false
  | e :: es => e.free y || Expr.listFree y es

def Expr.clausesFree (y : Nat) : List (Pattern × Expr) → Bool
  | [] => false
  | (p, e) :: rest =>
    (!(p.boundVars.map Var.id).contains y && e.free y) || Expr.clausesFree y rest

end

variable {y : Nat}

/-! ## What is collected -/

theorem mem_noteFree {bound : List Nat} {found : List Var} {v : Var} :
    y ∈ (noteFree bound found v).map Var.id ↔ y ∈ found.map Var.id ∨ y ∉ bound ∧ v.id = y := by
  rw [noteFree]
  split
  · next hold =>
    simp only [Bool.or_eq_true, List.contains_iff_mem, List.any_eq_true, beq_iff_eq] at hold
    refine ⟨.inl, ?_⟩
    rintro (h | ⟨hy, rfl⟩)
    · exact h
    · obtain ⟨w, hw, heq⟩ := hold.resolve_left hy
      exact List.mem_map.mpr ⟨w, hw, heq⟩
  · next hnew =>
    simp only [Bool.or_eq_true, List.contains_iff_mem, not_or] at hnew
    rw [List.map_append, List.mem_append, List.map_singleton, List.mem_singleton, eq_comm (a := y)]
    refine or_congr_right ⟨fun h => ⟨h ▸ hnew.1, h⟩, And.right⟩

mutual

theorem mem_collectFree : ∀ (e : Expr) {bound : List Nat} {found : List Var},
    y ∈ (e.collectFree bound found).map Var.id ↔
      y ∈ found.map Var.id ∨ y ∉ bound ∧ e.free y = true
  | .var v, _, _ => by simp only [Expr.collectFree, Expr.free, mem_noteFree, beq_iff_eq]
  | .const _, _, _ | .global _, _, _ | .op _, _, _ => by simp [Expr.collectFree, Expr.free]
  | .letIn v value body, _, _ => by
    simp only [Expr.collectFree, Expr.free, mem_collectFree value, mem_collectFree body,
      List.mem_cons, Bool.and_eq_true, Bool.or_eq_true, bne_iff_ne]
    grind
  | .func params body _, _, _ => by
    simp only [Expr.collectFree, Expr.free, mem_collectFree body, List.mem_append,
      Bool.and_eq_true, Bool.not_eq_true', List.contains_eq_mem, decide_eq_false_iff_not]
    grind
  | .call callee args _, _, _ => by
    simp only [Expr.collectFree, Expr.free, mem_collectFree callee, mem_collectFreeList args,
      Bool.or_eq_true]
    grind
  | .ite cond onTrue onFalse _, _, _ => by
    simp only [Expr.collectFree, Expr.free, mem_collectFree cond, mem_collectFree onTrue,
      mem_collectFree onFalse, Bool.or_eq_true]
    grind
  | .tuple fields _, _, _ | .construct _ fields _, _, _ => by
    simp only [Expr.collectFree, Expr.free, mem_collectFreeList fields]
  | .matchOn data clauses _, _, _ => by
    simp only [Expr.collectFree, Expr.free, mem_collectFree data, mem_collectFreeClauses clauses,
      Bool.or_eq_true]
    grind

theorem mem_collectFreeList : ∀ (es : List Expr) {bound : List Nat} {found : List Var},
    y ∈ (Expr.collectFreeList bound found es).map Var.id ↔
      y ∈ found.map Var.id ∨ y ∉ bound ∧ Expr.listFree y es = true
  | [], _, _ => by simp [Expr.collectFreeList, Expr.listFree]
  | e :: es, _, _ => by
    simp only [Expr.collectFreeList, Expr.listFree, mem_collectFree e, mem_collectFreeList es,
      Bool.or_eq_true]
    grind

theorem mem_collectFreeClauses : ∀ (clauses : List (Pattern × Expr)) {bound : List Nat}
    {found : List Var}, y ∈ (Expr.collectFreeClauses bound found clauses).map Var.id ↔
      y ∈ found.map Var.id ∨ y ∉ bound ∧ Expr.clausesFree y clauses = true
  | [], _, _ => by simp [Expr.collectFreeClauses, Expr.clausesFree]
  | (p, e) :: rest, _, _ => by
    simp only [Expr.collectFreeClauses, Expr.clausesFree, mem_collectFree e,
      mem_collectFreeClauses rest, List.mem_append, Bool.or_eq_true, Bool.and_eq_true,
      Bool.not_eq_true', List.contains_eq_mem, decide_eq_false_iff_not]
    grind

end

theorem nodup_noteFree {bound : List Nat} {found : List Var} {v : Var}
    (h : (found.map Var.id).Nodup) : ((noteFree bound found v).map Var.id).Nodup := by
  rw [noteFree]
  split
  · exact h
  · next hnew =>
    simp only [Bool.or_eq_true, List.any_eq_true, beq_iff_eq, not_or] at hnew
    have hv : ∀ y ∈ found.map Var.id, y ≠ v.id := by simpa using hnew.2
    rw [List.map_append, List.nodup_append]
    refine ⟨h, by simp, fun y hy z hz => ?_⟩
    cases List.mem_singleton.mp hz
    exact hv y hy

mutual

/-- Each variable is listed once. -/
theorem nodup_collectFree : ∀ (e : Expr) {bound : List Nat} {found : List Var},
    (found.map Var.id).Nodup → ((e.collectFree bound found).map Var.id).Nodup
  | .var _, _, _, h => nodup_noteFree h
  | .const _, _, _, h | .global _, _, _, h | .op _, _, _, h => h
  | .letIn _ value body, _, _, h => nodup_collectFree body (nodup_collectFree value h)
  | .func _ body _, _, _, h => nodup_collectFree body h
  | .call callee args _, _, _, h => nodup_collectFreeList args (nodup_collectFree callee h)
  | .ite cond onTrue onFalse _, _, _, h =>
    nodup_collectFree onFalse (nodup_collectFree onTrue (nodup_collectFree cond h))
  | .tuple fields _, _, _, h | .construct _ fields _, _, _, h => nodup_collectFreeList fields h
  | .matchOn data clauses _, _, _, h => nodup_collectFreeClauses clauses (nodup_collectFree data h)

theorem nodup_collectFreeList : ∀ (es : List Expr) {bound : List Nat} {found : List Var},
    (found.map Var.id).Nodup → ((Expr.collectFreeList bound found es).map Var.id).Nodup
  | [], _, _, h => h
  | e :: es, _, _, h => nodup_collectFreeList es (nodup_collectFree e h)

theorem nodup_collectFreeClauses : ∀ (clauses : List (Pattern × Expr)) {bound : List Nat}
    {found : List Var}, (found.map Var.id).Nodup →
      ((Expr.collectFreeClauses bound found clauses).map Var.id).Nodup
  | [], _, _, h => h
  | (_, e) :: rest, _, _, h => nodup_collectFreeClauses rest (nodup_collectFree e h)

end

/-! ## Free variables and occurrences -/

mutual

theorem occurs_of_free : ∀ (e : Expr), e.free y = true → e.occurs y = true
  | .var _, h => h
  | .letIn v value body, h => by
    simp only [Expr.free, Bool.and_eq_true, Bool.or_eq_true, bne_iff_ne] at h
    have hne : (v.id == y) = false := beq_false_of_ne h.1
    rcases h.2 with h' | h'
    · simp [Expr.occurs, occurs_of_free value h', hne]
    · simp [Expr.occurs, occurs_of_free body h', h.1]
  | .func params body _, h => by
    simp only [Expr.free, Expr.occurs, Bool.and_eq_true] at h ⊢
    exact ⟨h.1, occurs_of_free body h.2⟩
  | .call callee args _, h => by
    simp only [Expr.free, Expr.occurs, Bool.or_eq_true] at h ⊢
    exact h.imp (occurs_of_free callee) (occurs_of_listFree args)
  | .ite cond onTrue onFalse _, h => by
    simp only [Expr.free, Expr.occurs, Bool.or_eq_true] at h ⊢
    exact h.imp (occurs_of_free cond) (Or.imp (occurs_of_free onTrue) (occurs_of_free onFalse))
  | .tuple fields _, h | .construct _ fields _, h => occurs_of_listFree fields h
  | .matchOn data clauses _, h => by
    simp only [Expr.free, Expr.occurs, Bool.or_eq_true] at h ⊢
    exact h.imp (occurs_of_free data) (occurs_of_clausesFree clauses)

theorem occurs_of_listFree : ∀ (es : List Expr),
    Expr.listFree y es = true → Expr.listOccurs y es = true
  | e :: es, h => by
    simp only [Expr.listFree, Expr.listOccurs, Bool.or_eq_true] at h ⊢
    exact h.imp (occurs_of_free e) (occurs_of_listFree es)

theorem occurs_of_clausesFree : ∀ (clauses : List (Pattern × Expr)),
    Expr.clausesFree y clauses = true → Expr.clausesOccur y clauses = true
  | (p, e) :: rest, h => by
    simp only [Expr.clausesFree, Expr.clausesOccur, Bool.or_eq_true, Bool.and_eq_true] at h ⊢
    exact h.imp (And.imp_right (occurs_of_free e)) (occurs_of_clausesFree rest)

end

mutual

/-- An occurrence of a variable that the expression does not bind itself is free. -/
theorem free_of_occurs : ∀ (e : Expr), y ∉ e.binders → e.occurs y = true → e.free y = true
  | .var _, _, h => h
  | .letIn v value body, hy, h => by
    simp only [Expr.binders, List.mem_cons, List.mem_append, not_or] at hy
    simp only [Expr.occurs, Expr.free, Bool.or_eq_true, Bool.and_eq_true, bne_iff_ne] at h ⊢
    refine ⟨Ne.symm hy.1, h.imp (fun h => free_of_occurs value hy.2.1 h.1)
      fun h => free_of_occurs body hy.2.2 h.2⟩
  | .func params body _, hy, h => by
    simp only [Expr.binders, List.mem_append, not_or] at hy
    simp only [Expr.occurs, Expr.free, Bool.and_eq_true] at h ⊢
    exact ⟨h.1, free_of_occurs body hy.2 h.2⟩
  | .call callee args _, hy, h => by
    simp only [Expr.binders, List.mem_append, not_or] at hy
    simp only [Expr.occurs, Expr.free, Bool.or_eq_true] at h ⊢
    exact h.imp (free_of_occurs callee hy.1) (free_of_listOccurs args hy.2)
  | .ite cond onTrue onFalse _, hy, h => by
    simp only [Expr.binders, List.mem_append, not_or] at hy
    simp only [Expr.occurs, Expr.free, Bool.or_eq_true] at h ⊢
    exact h.imp (free_of_occurs cond hy.1)
      (Or.imp (free_of_occurs onTrue hy.2.1) (free_of_occurs onFalse hy.2.2))
  | .tuple fields _, hy, h | .construct _ fields _, hy, h => free_of_listOccurs fields hy h
  | .matchOn data clauses _, hy, h => by
    simp only [Expr.binders, List.mem_append, not_or] at hy
    simp only [Expr.occurs, Expr.free, Bool.or_eq_true] at h ⊢
    exact h.imp (free_of_occurs data hy.1) (free_of_clausesOccur clauses hy.2)

theorem free_of_listOccurs : ∀ (es : List Expr), y ∉ Expr.listBinders es →
    Expr.listOccurs y es = true → Expr.listFree y es = true
  | e :: es, hy, h => by
    simp only [Expr.listBinders, List.mem_append, not_or] at hy
    simp only [Expr.listOccurs, Expr.listFree, Bool.or_eq_true] at h ⊢
    exact h.imp (free_of_occurs e hy.1) (free_of_listOccurs es hy.2)

theorem free_of_clausesOccur : ∀ (clauses : List (Pattern × Expr)),
    y ∉ Expr.clauseBinders clauses → Expr.clausesOccur y clauses = true →
      Expr.clausesFree y clauses = true
  | (p, e) :: rest, hy, h => by
    simp only [Expr.clauseBinders, List.mem_append, not_or] at hy
    simp only [Expr.clausesOccur, Expr.clausesFree, Bool.or_eq_true, Bool.and_eq_true] at h ⊢
    exact h.imp (And.imp_right (free_of_occurs e hy.2.1)) (free_of_clausesOccur rest hy.2.2)

end

end TensorIR.Source
