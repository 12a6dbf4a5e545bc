import TensorIR.Proofs.NodeTyping
import TensorIR.Proofs.ScopeLeaks
import TensorIR.Proofs.ScopedCode

/-! The names that lowering introduces.

Names are handed out in the order of the binders of a definition, one for each binder, so those of
the lowered function are the numbered names of its binders in some order. A variable only ever stands
for a name that one of its own binders has been given; what a function captures are therefore names
from outside of it, each of another variable. -/

namespace TensorIR

open Source Lowered Lowering

/-! ## Binders of expressions -/

namespace Source

mutual

/-- All variables that are bound inside an expression, as its binders have them, in the order in which
they get their names. -/
@[simp] def Expr.boundVars : Expr → List Var
  | .var _ | .const _ | .global _ | .op _ => []
  | .letIn v value body => v :: (value.boundVars ++ body.boundVars)
  | .func params body _ => params ++ body.boundVars
  | .call callee args _ => callee.boundVars ++ Expr.listBoundVars args
  | .ite cond onTrue onFalse _ => cond.boundVars ++ (onTrue.boundVars ++ onFalse.boundVars)
  | .tuple fields _ | .construct _ fields _ => Expr.listBoundVars fields
  | .matchOn data clauses _ => data.boundVars ++ Expr.clauseBoundVars clauses

@[simp] def Expr.listBoundVars : List Expr → List Var
  | [] => []
  | e :: es => e.boundVars ++ Expr.listBoundVars es

@[simp] def Expr.clauseBoundVars : List (Pattern × Expr) → List Var
  | [] => []
  | (p, e) :: rest => p.boundVars ++ (e.boundVars ++ Expr.clauseBoundVars rest)

end

mutual

theorem Expr.length_boundVars : ∀ e : Expr, e.boundVars.length = e.binders.length
  | .var _ | .const _ | .global _ | .op _ => rfl
  | .letIn _ value body => by simp [length_boundVars value, length_boundVars body]
  | .func _ body _ => by simp [length_boundVars body]
  | .call callee args _ => by simp [length_boundVars callee, length_listBoundVars args]
  | .ite cond onTrue onFalse _ => by
    simp [length_boundVars cond, length_boundVars onTrue, length_boundVars onFalse]
  | .tuple fields _ | .construct _ fields _ => by simp [length_listBoundVars fields]
  | .matchOn data clauses _ => by simp [length_boundVars data, length_clauseBoundVars clauses]

theorem Expr.length_listBoundVars :
    ∀ es : List Expr, (Expr.listBoundVars es).length = (Expr.listBinders es).length
  | [] => rfl
  | e :: es => by simp [length_boundVars e, length_listBoundVars es]

theorem Expr.length_clauseBoundVars : ∀ clauses : List (Pattern × Expr),
    (Expr.clauseBoundVars clauses).length = (Expr.clauseBinders clauses).length
  | [] => rfl
  | (_, e) :: rest => by simp [length_boundVars e, length_clauseBoundVars rest]

end

end Source

/-! ## Binders of code -/

namespace Lowered

/-- The names of all binders of a function, at any depth. -/
def Function.binders (f : Function) : List String := f.params.map Param.name ++ f.body.binders

namespace Node

theorem bindingBinders_append (bs bs' : List (String × Node)) :
    bindingBinders (bs ++ bs') = bindingBinders bs ++ bindingBinders bs' := by
  induction bs with
  | nil => rfl
  | cons b bs ih =>
    obtain ⟨x, n⟩ := b
    rw [List.cons_append, bindingBinders, bindingBinders, ih, List.append_assoc]

theorem binders_wrapDecl {bs : List (String × Node)} {n a : Node} (h : wrapDecl bs n = .ok a) :
    a.binders = bindingBinders bs ++ n.binders := by
  rcases wrapDecl_eq_ok h with ⟨rfl, rfl⟩ | rfl
  · rfl
  · rfl

/-- The names of bindings are binders. -/
theorem names_sublist_bindingBinders (bs : List (String × Node)) :
    (bs.map Prod.fst).Sublist (bindingBinders bs) := by
  induction bs with
  | nil => exact .slnil
  | cons b bs ih =>
    obtain ⟨x, n⟩ := b
    have hhead := List.singleton_sublist.mpr (mem_bindingBinders_head (x := x) n)
    exact hhead.append ih

/-- What a function captures are names from the list, each once, and none of its own. -/
def CapturesApart (names : List String) : Node → Prop
  | .func name params captures body _ => (captures.map Param.name).Nodup ∧
    ∀ c ∈ captures, c.name ∈ names ∧ c.name ∉ name.toList ++ params.map Param.name ++ body.binders
  | _ => True

end Node

/-- The names of all binders differ, and captures share theirs with binders outside the function that
captures them. -/
structure Function.BindsApart (f : Function) : Prop where
  own : f.name = none ∧ f.captures = []
  nodup : f.binders.Nodup
  captures : f.body.Everywhere (fun _ => Node.CapturesApart f.binders) f.scope

end Lowered

namespace Lowering

/-! ## One name for each binder -/

theorem numberedNames_nodup (vs : List Var) (k : Nat) : (numberedNames vs k).Nodup := by
  induction vs generalizing k with
  | nil => exact .nil
  | cons v vs ih =>
    refine List.nodup_cons.mpr ⟨fun hmem => ?_, ih (k + 1)⟩
    have hfirst : Numbered k (k + 1) (numberedName v.name k) :=
      ⟨v.name, k, Nat.le_refl k, Nat.lt_succ_self k, rfl⟩
    exact hfirst.not_of_le (Nat.le_refl _) (numbered_of_mem hmem)

theorem mem_numberedNames {vs : List Var} {i : Nat} {v : Var} (h : vs[i]? = some v) (k : Nat) :
    numberedName v.name (k + i) ∈ numberedNames vs k := by
  induction vs generalizing i k with
  | nil => cases h
  | cons w vs ih =>
    cases i with
    | zero =>
      cases h
      exact List.mem_cons_self
    | succ i =>
      have hrest := ih h (k + 1)
      rw [Nat.add_assoc, Nat.add_comm 1] at hrest
      exact List.mem_cons_of_mem _ hrest

section

variable {L : Linkage} {mode : Scoping}

section

variable {σ : Naming} {k : Nat} {own : Option (Nat × String)} {params : List Var} {body : Expr}
  {bs : List (String × Node)} {n : Node} {f : Lowered.Function}

theorem LowersFunction.ownName?_eq (h : LowersFunction σ k own params body bs n f) :
    f.toNode.ownName? = own.map Prod.snd := h.name_eq

theorem LowersFunction.binders_eq (h : LowersFunction σ k own params body bs n f) :
    f.toNode.binders = (own.map Prod.snd).toList ++
      (numberedNames params k ++ (Node.bindingBinders bs ++ n.binders)) := by
  rw [Function.toNode, Node.binders, h.name_eq, h.param_names, Node.binders_wrapDecl h.body_eq,
    List.append_assoc]

end

/-- Only bindings hold functions that can call themselves. -/
theorem ownName?_cases : Lowers.Cases L mode (fun _ _ _ _ n => n.ownName? = none)
    (fun _ _ _ _ _ => True) (fun _ _ _ _ => True) where
  var _ _ := rfl
  const _ := rfl
  letFunction _ _ _ _ _ _ _ _ ih := ih
  letValue _ _ _ _ _ _ _ ih := ih
  func _ _ _ hfunction _ := hfunction.ownName?_eq
  global _ _ := rfl
  callKernel _ _ _ _ _ _ := rfl
  callGlobal _ _ _ _ _ := rfl
  call _ _ _ _ _ _ _ := rfl
  ite _ _ _ _ _ _ _ _ _ _ _ := rfl
  tuple _ _ _ := rfl
  matchOn _ _ _ _ _ _ := rfl
  construct _ _ _ _ _ := rfl
  nil := trivial
  cons _ _ _ _ _ _ := trivial
  nilClause := trivial
  consClause _ _ _ _ _ _ _ _ _ := trivial

theorem perm_interleave {α : Type} (as bs cs ds : List α) :
    (as ++ bs ++ (cs ++ ds)).Perm (as ++ cs ++ (bs ++ ds)) := by
  have hmiddle := (List.perm_append_comm_assoc bs cs ds).append_left as
  simpa only [List.append_assoc] using hmiddle

/-- The binders of what an expression is lowered to have the names of its own binders. -/
theorem binders_cases : Lowers.Cases L mode
    (fun _ k e bs n => (Node.bindingBinders bs ++ n.binders).Perm (numberedNames e.boundVars k))
    (fun _ k es bs ns => (Node.bindingBinders bs ++ Node.listBinders ns).Perm
      (numberedNames (Expr.listBoundVars es) k))
    (fun _ k clauses cs => (Node.clauseBinders cs).Perm
      (numberedNames (Expr.clauseBoundVars clauses) k)) where
  var _ _ := .nil
  const _ := .nil
  letFunction v params fbody body _ hfunction _ ihf ih := by
    rw [Node.bindingBinders, hfunction.ownName?_eq, Option.map_some, if_pos rfl,
      hfunction.binders_eq]
    simp only [Expr.boundVars, numberedNames, numberedNames_append, Option.map_some,
      Option.toList_some, List.cons_append, List.append_assoc]
    refine List.Perm.cons _ (List.Perm.append_left (numberedNames params _) ?_)
    have hrest := ihf.append ih
    rw [← Nat.add_assoc, ← Expr.length_boundVars] at hrest
    simpa only [List.append_assoc, List.length_append, Nat.add_assoc] using hrest
  letValue v value body _ hv _ ihv ih := by
    have hown := ownName?_cases.expr hv
    rw [Node.bindingBinders_append, Node.bindingBinders, if_neg (by simp [hown])]
    simp only [Expr.boundVars, numberedNames, numberedNames_append, List.cons_append,
      List.append_assoc]
    refine List.perm_middle.trans (.cons _ ?_)
    have hrest := ihv.append ih
    rw [← Expr.length_boundVars] at hrest
    simpa only [List.append_assoc] using hrest
  func params body _ hfunction ih := by
    rw [hfunction.binders_eq]
    simp only [Expr.boundVars, numberedNames_append]
    exact ih.append_left _
  global _ _ := .nil
  callKernel _ _ _ _ _ ihs := ihs
  callGlobal _ _ _ _ ihs := ihs
  call callee args _ _ _ ih ihs := by
    have hboth := ih.append ihs
    rw [← Expr.length_boundVars, ← numberedNames_append] at hboth
    rw [Node.bindingBinders_append, Node.binders]
    exact (perm_interleave ..).trans hboth
  ite cond onTrue onFalse _ _ hwrapTrue _ hwrapFalse ihc iht ihf := by
    have hall := ihc.append (iht.append ihf)
    rw [Node.binders, Node.binders_wrapDecl hwrapTrue, Node.binders_wrapDecl hwrapFalse]
    simp only [Expr.boundVars, numberedNames_append, Expr.length_boundVars]
    simpa only [List.append_assoc] using hall
  tuple _ _ ihs := ihs
  matchOn data clauses _ _ ih ihs := by
    have hboth := ih.append ihs
    rw [← Expr.length_boundVars, ← numberedNames_append, List.append_assoc] at hboth
    exact hboth
  construct _ _ _ _ ihs := ihs
  nil := .nil
  cons e es _ _ ih ihs := by
    have hboth := ih.append ihs
    rw [← Expr.length_boundVars, ← numberedNames_append] at hboth
    rw [Node.bindingBinders_append, Node.listBinders]
    exact (perm_interleave ..).trans hboth
  nilClause := .nil
  consClause p e rest hp _ hwrap _ ih ihs := by
    have hboth := ih.append ihs
    rw [← Expr.length_boundVars, ← numberedNames_append] at hboth
    rw [Node.clauseBinders, hp.boundNames_eq, Node.binders_wrapDecl hwrap, List.append_assoc,
      Expr.clauseBoundVars, numberedNames_append]
    exact hboth.append_left _

end

/-! ## Names and their variables -/

/-- The list of all binders goes on with the given ones from place `k` on. -/
def InOrder (vs : List Var) (k : Nat) (ws : List Var) : Prop := ws <+: vs.drop k

/-- Whatever a variable stands for is the name of one of its own binders, which are among the first
`k` of the list. -/
def Naming.Given (vs : List Var) (k : Nat) (σ : Naming) : Prop :=
  ∀ ⦃y x⦄, σ y = some x → ∃ i v, i < k ∧ vs[i]? = some v ∧ v.id = y ∧ x = numberedName v.name i

section

variable {vs ws ws' : List Var} {k : Nat} {σ : Naming}

theorem inOrder_self (vs : List Var) : InOrder vs 0 vs := List.prefix_rfl

theorem InOrder.left (h : InOrder vs k (ws ++ ws')) : InOrder vs k ws :=
  (List.prefix_append ws ws').trans h

theorem InOrder.right (h : InOrder vs k (ws ++ ws')) : InOrder vs (k + ws.length) ws' := by
  obtain ⟨rest, hrest⟩ := h
  rw [InOrder, ← List.drop_drop, ← hrest, List.append_assoc, List.drop_left]
  exact List.prefix_append ws' rest

theorem InOrder.later {e : Expr} (h : InOrder vs k (e.boundVars ++ ws)) :
    InOrder vs (k + e.binders.length) ws := by
  rw [← Expr.length_boundVars]
  exact h.right

theorem InOrder.head {v : Var} (h : InOrder vs k (v :: ws)) : vs[k]? = some v := by
  obtain ⟨rest, hrest⟩ := h
  have hhead : (vs.drop k)[0]? = vs[k]? := by rw [List.getElem?_drop, Nat.add_zero]
  rw [← hhead, ← hrest]
  rfl

theorem InOrder.tail {v : Var} (h : InOrder vs k (v :: ws)) : InOrder vs (k + 1) ws := by
  have hsplit : InOrder vs k ([v] ++ ws) := h
  exact hsplit.right

namespace Naming.Given

theorem empty (vs : List Var) (k : Nat) : Naming.empty.Given vs k := by
  intro y x h
  cases h

theorem mono {k' : Nat} (h : σ.Given vs k) (hle : k ≤ k') : σ.Given vs k' := by
  intro y x hx
  obtain ⟨i, v, hi, hv⟩ := h hx
  exact ⟨i, v, Nat.lt_of_lt_of_le hi hle, hv⟩

/-- A variable may be bound to the name of its binder at any later point. -/
theorem bind (h : σ.Given vs k) {i : Nat} {v : Var} (hi : i < k) (hv : vs[i]? = some v) :
    (σ.bind v.id (numberedName v.name i)).Given vs k := by
  intro y x hx
  by_cases hy : y = v.id
  · rw [hy, Naming.bind_self] at hx
    cases hx
    exact ⟨i, v, hi, hv, hy.symm, rfl⟩
  · rw [Naming.bind_of_ne hy] at hx
    exact h hx

theorem bindVars (h : σ.Given vs k) (hws : InOrder vs k ws) :
    (σ.bindVars ws k).Given vs (k + ws.length) := by
  induction ws generalizing σ k with
  | nil => exact h
  | cons v ws ih =>
    have hrest := ih ((h.mono (Nat.le_succ k)).bind (Nat.lt_succ_self k) hws.head) hws.tail
    exact hrest.mono (by rw [List.length_cons]; omega)

theorem below (h : σ.Given vs k) : σ.Below k := by
  intro y x hx
  obtain ⟨i, v, hi, -, -, rfl⟩ := h hx
  exact ⟨v.name, i, Nat.zero_le i, hi, rfl⟩

/-- Different variables stand for different names. -/
theorem inj (h : σ.Given vs k) {y y' : Nat} {x : String} (hx : σ y = some x)
    (hx' : σ y' = some x) : y = y' := by
  obtain ⟨i, v, -, hv, rfl, rfl⟩ := h hx
  obtain ⟨i', v', -, hv', rfl, heq⟩ := h hx'
  cases numberedName_inj heq
  cases hv.symm.trans hv'
  rfl

theorem mem_names (h : σ.Given vs k) {y : Nat} {x : String} (hx : σ y = some x) :
    x ∈ numberedNames vs 0 := by
  obtain ⟨i, v, -, hv, -, rfl⟩ := h hx
  have hname := mem_numberedNames hv 0
  rwa [Nat.zero_add] at hname

mutual

/-- What an expression leaves in the environment are names of its own binders. -/
theorem after : ∀ (e : Expr) {k : Nat} {σ : Naming}, σ.Given vs k → InOrder vs k e.boundVars →
    (e.namingAfter k σ).Given vs (k + e.binders.length)
  | .var _, _, _, h, _ | .const _, _, _, h, _ | .global _, _, _, h, _ | .op _, _, _, h, _ => h
  | .func .., _, _, h, _ => h.mono (Nat.le_add_right _ _)
  | .letIn v value body, k, _, h, hin => by
    have hvalue := after value (h.mono (Nat.le_succ k)) hin.tail.left
    have hbody := after body (hvalue.bind (by omega) hin.head) hin.tail.later
    exact hbody.mono (by simp; omega)
  | .call callee args _, _, _, h, hin => by
    have hcallee := after callee h hin.left
    have hargs := afterAll args hcallee hin.later
    exact hargs.mono (by simp; omega)
  | .ite cond onTrue onFalse _, _, _, h, hin => by
    have hcond := after cond h hin.left
    have hrest := hin.later
    have htrue := after onTrue hcond hrest.left
    have hfalse := after onFalse htrue hrest.later
    exact hfalse.mono (by simp; omega)
  | .tuple fields _, _, _, h, hin => afterAll fields h hin
  | .construct _ fields _, _, _, h, hin => afterAll fields h hin
  | .matchOn data clauses _, _, _, h, hin => (after data h hin.left).mono (by simp)

theorem afterAll : ∀ (es : List Expr) {k : Nat} {σ : Naming}, σ.Given vs k →
    InOrder vs k (Expr.listBoundVars es) →
      (Expr.namingAfterAll es k σ).Given vs (k + (Expr.listBinders es).length)
  | [], _, _, h, _ => h
  | e :: es, _, _, h, hin => by
    have he := after e h hin.left
    have hes := afterAll es he hin.later
    exact hes.mono (by simp; omega)

end

end Naming.Given

end

/-! ## Captures -/

section

variable {L : Linkage} {mode : Scoping} {vs : List Var} {names : List String}

/-- All functions inside the node capture names from the list, apart from their own. -/
abbrev KeepsApart (names : List String) (n : Node) : Prop :=
  n.Everywhere (fun _ => Node.CapturesApart names) []

theorem KeepsApart.wrapDecl {bs : List (String × Node)} {n a : Node}
    (hbs : ∀ b ∈ bs, KeepsApart names b.2) (hn : KeepsApart names n)
    (h : Node.wrapDecl bs n = .ok a) : KeepsApart names a :=
  Node.Everywhere.wrapDecl trivial (Node.bindingsEverywhere_of_forall hbs []) (hn.inScope _) h

section

variable {σ τ : Naming} {k : Nat} {own : Option (Nat × String)} {params : List Var} {body : Expr}
  {bs : List (String × Node)} {n : Node} {f : Lowered.Function}

/-- The captures of a function literal have been named before anything inside it. -/
theorem LowersFunction.capturesApart (h : LowersFunction σ k own params body bs n f)
    (hbody : Lowers L mode τ (k + params.length) body bs n) (hσ : σ.Given vs k) :
    Node.CapturesApart (numberedNames vs 0) f.toNode := by
  have hnodup := h.names_nodup
  rw [List.map_append, ← List.append_assoc, List.nodup_append] at hnodup
  obtain ⟨-, hcaptures, hapart⟩ := hnodup
  refine ⟨hcaptures, fun p hp => ?_⟩
  obtain ⟨v, -, hv⟩ := h.mem_captures.mp (List.mem_map_of_mem hp)
  refine ⟨hσ.mem_names hv, fun hmem => ?_⟩
  rcases List.mem_append.mp hmem with hmem | hmem
  · exact hapart _ hmem _ (List.mem_map_of_mem hp) rfl
  · rw [Node.binders_wrapDecl h.body_eq, (binders_cases.expr hbody).mem_iff] at hmem
    exact (hσ.below _ _ hv).not_of_le (Nat.le_add_right k params.length) (numbered_of_mem hmem)

theorem LowersFunction.keepsApart (h : LowersFunction σ k own params body bs n f)
    (hbody : Lowers L mode τ (k + params.length) body bs n) (hσ : σ.Given vs k)
    (hbs : ∀ b ∈ bs, KeepsApart (numberedNames vs 0) b.2)
    (hn : KeepsApart (numberedNames vs 0) n) : KeepsApart (numberedNames vs 0) f.toNode :=
  ⟨h.capturesApart hbody hσ, (KeepsApart.wrapDecl hbs hn h.body_eq).inScope _⟩

end

/-- Functions inside an expression capture names that have been given to variables, if variables only
stand for such names. -/
theorem keepsApart_cases : Lowers.Cases L .threaded
    (fun σ k e bs n => σ.Given vs k → InOrder vs k e.boundVars →
      (∀ b ∈ bs, KeepsApart (numberedNames vs 0) b.2) ∧ KeepsApart (numberedNames vs 0) n)
    (fun σ k es bs ns => σ.Given vs k → InOrder vs k (Expr.listBoundVars es) →
      (∀ b ∈ bs, KeepsApart (numberedNames vs 0) b.2) ∧
        Node.AllEverywhere (fun _ => Node.CapturesApart (numberedNames vs 0)) [] ns)
    (fun σ k clauses cs => σ.Given vs k → InOrder vs k (Expr.clauseBoundVars clauses) →
      ∀ clause ∈ cs, KeepsApart (numberedNames vs 0) clause.2) where
  var _ _ := fun _ _ => ⟨List.forall_mem_nil _, trivial⟩
  const _ := fun _ _ => ⟨List.forall_mem_nil _, trivial⟩
  letFunction v params fbody body hf hfunction _ ihf ih := by
    intro hσ hin
    have hσ' := (hσ.mono (Nat.le_succ _)).bind (Nat.lt_succ_self _) hin.head
    have hparams := hin.tail.left.left
    have hlater := hin.tail.right
    rw [Expr.boundVars, List.length_append, Expr.length_boundVars] at hlater
    obtain ⟨hbsf, hnf⟩ := ihf (hσ'.bindVars hparams) hin.tail.left.right
    obtain ⟨hbs, hn⟩ := ih (hσ'.mono (Nat.le_add_right _ _)) hlater
    exact ⟨List.forall_mem_cons.mpr ⟨hfunction.keepsApart hf hσ' hbsf hnf, hbs⟩, hn⟩
  letValue v value body _ _ _ ihv ih := by
    intro hσ hin
    have hσ' := (hσ.mono (Nat.le_succ _)).after value hin.tail.left
    obtain ⟨hbsv, hnv⟩ := ihv (hσ.mono (Nat.le_succ _)) hin.tail.left
    obtain ⟨hbs, hn⟩ := ih (hσ'.bind (by omega) hin.head) hin.tail.later
    exact ⟨List.forall_mem_append.mpr ⟨hbsv, List.forall_mem_cons.mpr ⟨hnv, hbs⟩⟩, hn⟩
  func params body hbody hfunction ih := by
    intro hσ hin
    obtain ⟨hbs, hn⟩ := ih (hσ.bindVars hin.left) hin.right
    exact ⟨List.forall_mem_nil _, hfunction.keepsApart hbody hσ hbs hn⟩
  global _ _ := fun _ _ => ⟨List.forall_mem_nil _, trivial⟩
  callKernel name args _ _ _ ihs := by
    intro hσ hin
    obtain ⟨hbs, hns⟩ := ihs hσ hin
    exact ⟨hbs, trivial, hns⟩
  callGlobal name args _ _ ihs := by
    intro hσ hin
    obtain ⟨hbs, hns⟩ := ihs hσ hin
    exact ⟨hbs, trivial, hns⟩
  call callee args _ _ _ ih ihs := by
    intro hσ hin
    obtain ⟨hbs₁, hn⟩ := ih hσ hin.left
    obtain ⟨hbs₂, hns⟩ := ihs (hσ.after callee hin.left) hin.later
    exact ⟨List.forall_mem_append.mpr ⟨hbs₁, hbs₂⟩, trivial, hn, hns⟩
  ite cond onTrue onFalse _ _ hwrapTrue _ hwrapFalse ihc iht ihf := by
    intro hσ hin
    have hrest := hin.later
    have hσ' := hσ.after cond hin.left
    obtain ⟨hbs, hn⟩ := ihc hσ hin.left
    obtain ⟨hbsTrue, hnTrue⟩ := iht hσ' hrest.left
    obtain ⟨hbsFalse, hnFalse⟩ := ihf (hσ'.after onTrue hrest.left) hrest.later
    exact ⟨hbs, trivial, hn, KeepsApart.wrapDecl hbsTrue hnTrue hwrapTrue,
      KeepsApart.wrapDecl hbsFalse hnFalse hwrapFalse⟩
  tuple fields _ ihs := by
    intro hσ hin
    obtain ⟨hbs, hns⟩ := ihs hσ hin
    exact ⟨hbs, trivial, hns⟩
  matchOn data clauses _ _ ih ihs := by
    intro hσ hin
    obtain ⟨hbs, hn⟩ := ih hσ hin.left
    have hcs := ihs (hσ.after data hin.left) hin.later
    exact ⟨hbs, trivial, hn, Node.clausesEverywhere_of_forall hcs []⟩
  construct name fields _ _ ihs := by
    intro hσ hin
    obtain ⟨hbs, hns⟩ := ihs hσ hin
    exact ⟨hbs, trivial, hns⟩
  nil := fun _ _ => ⟨List.forall_mem_nil _, trivial⟩
  cons e es _ _ ih ihs := by
    intro hσ hin
    obtain ⟨hbs₁, hn⟩ := ih hσ hin.left
    obtain ⟨hbs₂, hns⟩ := ihs (hσ.after e hin.left) hin.later
    exact ⟨List.forall_mem_append.mpr ⟨hbs₁, hbs₂⟩, hn, hns⟩
  nilClause := fun _ _ => List.forall_mem_nil _
  consClause p e rest _ _ hwrap _ ih ihs := by
    intro hσ hin
    obtain ⟨hbs, hn⟩ := ih (hσ.bindVars hin.left) hin.right.left
    have hcs := ihs (hσ.mono (by omega)) hin.right.later
    exact List.forall_mem_cons.mpr ⟨KeepsApart.wrapDecl hbs hn hwrap, hcs⟩

/-- The names of a lowered definition are those of its binders, and captures keep apart. -/
theorem LowersDefinition.bindsApart {f : Source.Function} {f' : Lowered.Function}
    (h : LowersDefinition L .threaded f f') : f'.BindsApart := by
  obtain ⟨bs, n, hbody, hwrap⟩ := h.body_eq
  have hin := inOrder_self (f.params ++ f.body.boundVars)
  have hbinders : f'.binders.Perm (numberedNames (f.params ++ f.body.boundVars) 0) := by
    rw [Function.binders, h.param_names, Node.binders_wrapDecl hwrap, numberedNames_append,
      Nat.zero_add]
    exact (binders_cases.expr hbody).append_left _
  have hgiven := (Naming.Given.empty (f.params ++ f.body.boundVars) 0).bindVars hin.left
  have hlater := hin.right
  rw [Nat.zero_add] at hgiven hlater
  obtain ⟨hbs, hn⟩ := keepsApart_cases.expr hbody hgiven hlater
  refine ⟨⟨h.name_eq, h.captures_eq⟩, hbinders.nodup_iff.mpr (numberedNames_nodup _ 0), ?_⟩
  have hall := (KeepsApart.wrapDecl hbs hn hwrap).inScope f'.scope
  refine Node.Everywhere.mono ?_ (List.Subset.refl _) hall
  intro scope scope' n _ hn
  cases n with
  | func =>
    refine ⟨hn.1, fun c hc => ?_⟩
    obtain ⟨hmem, hapart⟩ := hn.2 c hc
    exact ⟨hbinders.mem_iff.mpr hmem, hapart⟩
  | _ => exact trivial

end

end Lowering

end TensorIR
