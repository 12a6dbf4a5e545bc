import TensorIR.Proofs.EveryNode
import TensorIR.Proofs.Representation

/-! What is lowered in lexical scope is well scoped, and its functions capture exactly what they read.

Three facts about the translation of an expression lead to this. Its bindings have names with the
numbers of its binders. What occurs in the expression is read by its bindings or its node. And
bindings and node only read what is in scope, if the scope has the names of all that occurs. -/

namespace TensorIR

open Source Lowered Lowering

namespace Lowered

/-! ## Names that code reads -/

mutual

/-- Evaluating the node, or calling a function that it builds, reads the name from outside of it. -/
def Node.reads (x : String) : Node → Bool
  | .var y => y == x
  | .literal _ | .global _ => false
  | .decl bindings body =>
    Node.bindingsRead x bindings || (!(bindings.map Prod.fst).contains x && body.reads x)
  | .packed _ _ args _ _ | .invoke _ args => Node.listReads x args
  | .apply callee args => callee.reads x || Node.listReads x args
  | .func name params _ body _ =>
    !(params.map Param.name).contains x && name != some x && body.reads x
  | .ite cond onTrue onFalse _ => cond.reads x || (onTrue.reads x || onFalse.reads x)
  | .tuple fields _ | .ctor _ _ fields _ => Node.listReads x fields
  | .matchOn data clauses _ => data.reads x || Node.clausesRead x clauses

def Node.listReads (x : String) : List Node → Bool
  | [] => false
  | n :: ns => n.reads x || Node.listReads x ns

def Node.bindingsRead (x : String) : List (String × Node) → Bool
  | [] => false
  | (y, n) :: rest => n.reads x || (y != x && Node.bindingsRead x rest)

def Node.clausesRead (x : String) : List (Pattern × Node) → Bool
  | [] => false
  | (p, n) :: rest => (!p.boundNames.contains x && n.reads x) || Node.clausesRead x rest

end

/-- A variable is in scope. A function captures what is in scope, each name once, and it captures
exactly what its body reads apart from its parameters and itself. -/
def Node.ScopedHere (scope : List String) : Node → Prop
  | .var x => x ∈ scope
  | .func name params captures body _ =>
    (∀ c ∈ captures, c.name ∈ scope) ∧ (captures.map Param.name).Nodup ∧
      ∀ x, x ∈ captures.map Param.name ↔
        x ∉ params.map Param.name ∧ name ≠ some x ∧ body.reads x = true
  | _ => True

/-- All names that the function reads are in scope where they are read, and the functions inside it
capture exactly what they read. -/
def Function.WellScoped (f : Function) : Prop := f.body.Everywhere Node.ScopedHere f.scope

namespace Node

theorem scopedHere_widens : Widens ScopedHere ScopedHere := by
  intro scope scope' n hsub h
  cases n with
  | var x => exact hsub h
  | func => exact ⟨fun c hc => hsub (h.1 c hc), h.2⟩
  | _ => exact trivial

variable {x : String}

mutual

/-- Well scoped code reads only what is in scope. -/
theorem mem_of_reads : ∀ {n : Node} {scope : List String}, n.Everywhere ScopedHere scope →
    n.reads x = true → x ∈ scope
  | .var y, _, h, hx => by
    obtain rfl : y = x := by simpa [reads] using hx
    exact h
  | .decl bindings body, _, ⟨_, hbindings, hbody⟩, hx => by
    rw [reads, Bool.or_eq_true, Bool.and_eq_true] at hx
    rcases hx with hx | ⟨hnot, hx⟩
    · exact mem_of_bindingsRead hbindings hx
    · have hmem := mem_of_reads hbody hx
      rw [List.mem_append, List.mem_reverse] at hmem
      exact hmem.resolve_left (by simpa using hnot)
  | .packed .., _, ⟨_, hargs⟩, hx => mem_of_listReads hargs hx
  | .invoke _ _, _, ⟨_, hargs⟩, hx => mem_of_listReads hargs hx
  | .apply _ _, _, ⟨_, hcallee, hargs⟩, hx => by
    rw [reads, Bool.or_eq_true] at hx
    exact hx.elim (mem_of_reads hcallee) (mem_of_listReads hargs)
  | .func name params captures body ret, _, ⟨h, _⟩, hx => by
    simp only [reads, Bool.and_eq_true, bne_iff_ne, Bool.not_eq_true', List.contains_eq_mem,
      decide_eq_false_iff_not] at hx
    obtain ⟨c, hc, rfl⟩ := List.mem_map.mp ((h.2.2 x).mpr ⟨hx.1.1, hx.1.2, hx.2⟩)
    exact h.1 c hc
  | .ite .., _, ⟨_, hcond, htrue, hfalse⟩, hx => by
    rw [reads, Bool.or_eq_true, Bool.or_eq_true] at hx
    rcases hx with hx | hx | hx
    · exact mem_of_reads hcond hx
    · exact mem_of_reads htrue hx
    · exact mem_of_reads hfalse hx
  | .tuple _ _, _, ⟨_, hfields⟩, hx => mem_of_listReads hfields hx
  | .matchOn .., _, ⟨_, hdata, hclauses⟩, hx => by
    rw [reads, Bool.or_eq_true] at hx
    exact hx.elim (mem_of_reads hdata) (mem_of_clausesRead hclauses)
  | .ctor .., _, ⟨_, hfields⟩, hx => mem_of_listReads hfields hx

theorem mem_of_listReads : ∀ {ns : List Node} {scope : List String},
    Node.AllEverywhere ScopedHere scope ns → Node.listReads x ns = true → x ∈ scope
  | _ :: _, _, ⟨hn, hns⟩, hx => by
    rw [listReads, Bool.or_eq_true] at hx
    exact hx.elim (mem_of_reads hn) (mem_of_listReads hns)

theorem mem_of_bindingsRead : ∀ {bs : List (String × Node)} {scope : List String},
    Node.BindingsEverywhere ScopedHere scope bs → Node.bindingsRead x bs = true → x ∈ scope
  | (y, _) :: _, _, ⟨hn, hbs⟩, hx => by
    rw [bindingsRead, Bool.or_eq_true, Bool.and_eq_true, bne_iff_ne] at hx
    rcases hx with hx | ⟨hne, hx⟩
    · exact mem_of_reads hn hx
    · exact (List.mem_cons.mp (mem_of_bindingsRead hbs hx)).resolve_left (Ne.symm hne)

theorem mem_of_clausesRead : ∀ {cs : List (Pattern × Node)} {scope : List String},
    Node.ClausesEverywhere ScopedHere scope cs → Node.clausesRead x cs = true → x ∈ scope
  | (p, _) :: _, _, ⟨hn, hcs⟩, hx => by
    rw [clausesRead, Bool.or_eq_true, Bool.and_eq_true] at hx
    rcases hx with ⟨hnot, hx⟩ | hx
    · exact (List.mem_append.mp (mem_of_reads hn hx)).resolve_left (by simpa using hnot)
    · exact mem_of_clausesRead hcs hx

end

/-- A binding reads the name, or what comes after the bindings does. -/
def ReadBy (x : String) (bs : List (String × Node)) (after : Bool) : Prop :=
  (∃ b ∈ bs, b.2.reads x = true) ∨ after = true

section

variable {bs bs' : List (String × Node)} {after after' : Bool}

theorem ReadBy.mono (h : ReadBy x bs after) (hsub : bs ⊆ bs')
    (himp : after = true → after' = true) : ReadBy x bs' after' :=
  h.imp (fun ⟨b, hb, hread⟩ => ⟨b, hsub hb, hread⟩) himp

theorem ReadBy.append_left (h : ReadBy x bs after) : ReadBy x (bs ++ bs') (after || after') :=
  h.mono (List.subset_append_left _ _) fun h => by rw [h, Bool.true_or]

theorem ReadBy.append_right (h : ReadBy x bs' after') : ReadBy x (bs ++ bs') (after || after') :=
  h.mono (List.subset_append_right _ _) fun h => by rw [h, Bool.or_true]

theorem bindingsRead_of_mem (hnew : x ∉ bs.map Prod.fst) {b : String × Node} (hb : b ∈ bs)
    (hread : b.2.reads x = true) : bindingsRead x bs = true := by
  induction bs with
  | nil => cases hb
  | cons c bs ih =>
    rw [List.map_cons, List.mem_cons, not_or] at hnew
    rw [bindingsRead, Bool.or_eq_true, Bool.and_eq_true, bne_iff_ne]
    rcases List.mem_cons.mp hb with rfl | hb
    · exact .inl hread
    · exact .inr ⟨Ne.symm hnew.1, ih hnew.2 hb⟩

theorem reads_wrapDecl {n a : Node} (h : wrapDecl bs n = .ok a) (hnew : x ∉ bs.map Prod.fst)
    (hx : ReadBy x bs (n.reads x)) : a.reads x = true := by
  rcases wrapDecl_eq_ok h with ⟨rfl, rfl⟩ | rfl
  · exact hx.resolve_left fun ⟨b, hb, _⟩ => nomatch hb
  · rw [reads, Bool.or_eq_true, Bool.and_eq_true]
    rcases hx with ⟨b, hb, hread⟩ | hx
    · exact .inl (bindingsRead_of_mem hnew hb hread)
    · exact .inr ⟨by simpa using hnew, hx⟩

end

end Node

end Lowered

namespace Lowering

/-! ## Names with numbers -/

theorem numberedNames_append (vs ws : List Var) (k : Nat) :
    numberedNames (vs ++ ws) k = numberedNames vs k ++ numberedNames ws (k + vs.length) := by
  induction vs generalizing k with
  | nil => rfl
  | cons v vs ih =>
    rw [List.cons_append, numberedNames, ih, numberedNames, List.cons_append, List.length_cons,
      Nat.add_assoc, Nat.add_comm 1]

theorem numbered_of_mem {vs : List Var} {k : Nat} {x : String} (h : x ∈ numberedNames vs k) :
    Numbered k (k + vs.length) x := by
  induction vs generalizing k with
  | nil => cases h
  | cons v vs ih =>
    rcases List.mem_cons.mp h with rfl | h
    · exact ⟨v.name, k, Nat.le_refl k, by simp, rfl⟩
    · exact (ih h).mono (Nat.le_succ k) (by simp; omega)

/-- The variables of the list get the names of the list. -/
theorem Naming.bindVars_mem_names {vs : List Var} {k : Nat} {y : Nat} (h : y ∈ vs.map Var.id)
    (σ : Naming) : ∃ x ∈ numberedNames vs k, σ.bindVars vs k y = some x := by
  induction vs generalizing k σ with
  | nil => cases h
  | cons v vs ih =>
    rw [Naming.bindVars, numberedNames]
    by_cases hmem : y ∈ vs.map Var.id
    · obtain ⟨x, hx, heq⟩ := ih hmem _
      exact ⟨x, List.mem_cons_of_mem _ hx, heq⟩
    · have hy : y = v.id := (List.mem_cons.mp h).resolve_right hmem
      refine ⟨_, List.mem_cons_self, ?_⟩
      rw [Naming.bindVars_of_notMem hmem, hy, Naming.bind_self]

mutual

theorem LowersPattern.boundNames_eq {m : Module} :
    ∀ {k : Nat} {p : Source.Pattern} {q : Lowered.Pattern}, LowersPattern m k p q →
      q.boundNames = numberedNames p.boundVars k
  | _, _, _, .wildcard => rfl
  | _, _, _, .var => rfl
  | _, _, _, .ctor _ h => LowersPatterns.boundNames_eq h
  | _, _, _, .tuple h => LowersPatterns.boundNames_eq h

theorem LowersPatterns.boundNames_eq {m : Module} :
    ∀ {k : Nat} {ps : List Source.Pattern} {qs : List Lowered.Pattern}, LowersPatterns m k ps qs →
      Lowered.Pattern.boundNamesList qs = numberedNames (Source.Pattern.boundVarsList ps) k
  | _, _, _, .nil => rfl
  | _, _, _, .cons h hs => by
    rw [Lowered.Pattern.boundNamesList, Source.Pattern.boundVarsList, numberedNames_append,
      LowersPattern.boundNames_eq h, LowersPatterns.boundNames_eq hs]

end

variable {L : Linkage} {mode : Scoping}

/-- The bindings of an expression have names with the numbers of its binders. -/
theorem numbered_cases : Lowers.Cases L mode
    (fun _ k e bs _ => ∀ x ∈ bs.map Prod.fst, Numbered k (k + e.binders.length) x)
    (fun _ k es bs _ => ∀ x ∈ bs.map Prod.fst, Numbered k (k + (Expr.listBinders es).length) x)
    (fun _ _ _ _ => True) where
  var _ _ := nofun
  const _ := nofun
  letFunction v params fbody body _ _ _ _ ih := by
    intro x hx
    simp only [Expr.binders, List.length_cons, List.length_append, List.length_map]
    rcases List.mem_cons.mp hx with rfl | hx
    · exact ⟨v.name, _, Nat.le_refl _, by omega, rfl⟩
    · exact (ih x hx).mono (by omega) (by omega)
  letValue v value body _ _ _ ihv ih := by
    intro x hx
    simp only [Expr.binders, List.length_cons, List.length_append]
    rw [List.map_append, List.mem_append, List.map_cons, List.mem_cons] at hx
    rcases hx with hx | rfl | hx
    · exact (ihv x hx).mono (by omega) (by omega)
    · exact ⟨v.name, _, Nat.le_refl _, by omega, rfl⟩
    · exact (ih x hx).mono (by omega) (by omega)
  func _ _ _ _ _ := nofun
  global _ _ := nofun
  callKernel _ _ _ _ _ ihs := ihs
  callGlobal _ _ _ _ ihs := ihs
  call callee args _ _ _ ih ihs := by
    intro x hx
    simp only [Expr.binders, List.length_append]
    rw [List.map_append, List.mem_append] at hx
    rcases hx with hx | hx
    · exact (ih x hx).mono (by omega) (by omega)
    · exact (ihs x hx).mono (by omega) (by omega)
  ite cond onTrue onFalse _ _ _ _ _ ihc _ _ := by
    intro x hx
    simp only [Expr.binders, List.length_append]
    exact (ihc x hx).mono (by omega) (by omega)
  tuple _ _ ihs := ihs
  matchOn data clauses _ _ ih _ := by
    intro x hx
    simp only [Expr.binders, List.length_append]
    exact (ih x hx).mono (by omega) (by omega)
  construct _ _ _ _ ihs := ihs
  nil := nofun
  cons e es _ _ ih ihs := by
    intro x hx
    simp only [Expr.listBinders, List.length_append]
    rw [List.map_append, List.mem_append] at hx
    rcases hx with hx | hx
    · exact (ih x hx).mono (by omega) (by omega)
    · exact (ihs x hx).mono (by omega) (by omega)
  nilClause := trivial
  consClause _ _ _ _ _ _ _ _ _ := trivial

/-! ## What occurs is read -/

/-- A name from before an expression is none of its bindings. -/
theorem Lowers.new_names {σ : Naming} {k : Nat} {e : Expr} {bs : List (String × Node)} {n : Node}
    (h : Lowers L mode σ k e bs n) {x : String} (hx : Numbered 0 k x) : x ∉ bs.map Prod.fst :=
  fun hmem => hx.not_of_le (Nat.le_refl k) (numbered_cases.expr h x hmem)

theorem LowersFunction.reads {σ τ : Naming} {k : Nat} {own : Option (Nat × String)}
    {params : List Var} {body : Expr} {bs : List (String × Node)} {n : Node} {f : Lowered.Function}
    (h : LowersFunction σ k own params body bs n f)
    (hbody : Lowers L mode τ (k + params.length) body bs n) {x : String} (hx : Numbered 0 k x)
    (hown : f.name ≠ some x) (hread : Node.ReadBy x bs (n.reads x)) :
    f.toNode.reads x = true := by
  have hnew := hbody.new_names (hx.mono (Nat.le_refl 0) (Nat.le_add_right k params.length))
  have hparams : x ∉ f.params.map Param.name := by
    rw [h.param_names]
    exact fun hmem => hx.not_of_le (Nat.le_refl k) (numbered_of_mem hmem)
  simp only [Function.toNode, Node.reads, Node.reads_wrapDecl h.body_eq hnew hread, Bool.and_true,
    Bool.and_eq_true, bne_iff_ne, Bool.not_eq_true', List.contains_eq_mem, decide_eq_false_iff_not]
  exact ⟨hparams, hown⟩

/-- The name of a variable that occurs in an expression is read by its bindings or its node. -/
theorem reads_cases : Lowers.Cases L .lexical
    (fun σ k e bs n => σ.Below k → ∀ ⦃y x⦄, e.occurs y = true → σ y = some x →
      Node.ReadBy x bs (n.reads x))
    (fun σ k es bs ns => σ.Below k → ∀ ⦃y x⦄, Expr.listOccurs y es = true → σ y = some x →
      Node.ReadBy x bs (Node.listReads x ns))
    (fun σ k clauses cs => σ.Below k → ∀ ⦃y x⦄, Expr.clausesOccur y clauses = true → σ y = some x →
      Node.clausesRead x cs = true) where
  var v hv := by
    intro _ y x hy hx
    obtain rfl : v.id = y := by simpa [Expr.occurs] using hy
    obtain rfl : _ = x := Option.some.inj (hv.symm.trans hx)
    exact .inr (by simp [Node.reads])
  const _ := fun _ _ _ hy => nomatch hy
  letFunction v params fbody body hf hfunction hbody ihf ih := by
    intro hσ y x hy hx
    have hσ' := hσ.bind v.id v.name
    have hnum := hσ y x hx
    simp only [Expr.occurs, Expr.isFunction, Bool.true_and, Bool.or_eq_true, Bool.and_eq_true,
      Bool.not_eq_true', beq_eq_false_iff_ne, bne_iff_ne, List.contains_eq_mem,
      decide_eq_false_iff_not] at hy
    rcases hy with ⟨⟨hparams, hocc⟩, hne⟩ | ⟨hne, hocc⟩
    · have hread := ihf (hσ'.bindVars params) hocc
        (by rwa [Naming.bindVars_of_notMem hparams, Naming.bind_of_ne (Ne.symm hne)])
      refine .inl ⟨_, List.mem_cons_self,
        hfunction.reads hf (hnum.mono (Nat.le_refl 0) (Nat.le_succ _)) ?_ hread⟩
      rw [hfunction.name_eq]
      intro hown
      obtain rfl := Option.some.inj hown
      exact hnum.not_of_le (Nat.le_refl _) ⟨v.name, _, Nat.le_refl _, Nat.lt_succ_self _, rfl⟩
    · exact (ih (hσ'.mono (by omega)) hocc (by rwa [Naming.bind_of_ne (Ne.symm hne)])).mono
        (List.subset_cons_self _ _) fun h => h
  letValue v value body hvalue _ _ ihv ih := by
    intro hσ y x hy hx
    simp only [Expr.occurs, hvalue, Bool.false_and, Bool.not_false, Bool.and_true, Bool.or_eq_true,
      Bool.and_eq_true, bne_iff_ne] at hy
    rcases hy with hocc | ⟨hne, hocc⟩
    · rcases ihv (hσ.mono (Nat.le_succ _)) hocc hx with ⟨b, hb, hread⟩ | hread
      · exact .inl ⟨b, List.mem_append_left _ hb, hread⟩
      · exact .inl ⟨_, List.mem_append_right _ List.mem_cons_self, hread⟩
    · have hread := ih ((hσ.bind v.id v.name).mono (by omega)) hocc
        (by rw [Naming.bind_of_ne (Ne.symm hne)]; exact hx)
      exact hread.mono (List.subset_append_of_subset_right _ (List.subset_cons_self _ _)) fun h => h
  func params body hbody hfunction ih := by
    intro hσ y x hy hx
    simp only [Expr.occurs, Bool.and_eq_true, Bool.not_eq_true', List.contains_eq_mem,
      decide_eq_false_iff_not] at hy
    have hread := ih (hσ.bindVars params) hy.2 (by rwa [Naming.bindVars_of_notMem hy.1])
    exact .inr (hfunction.reads hbody (hσ y x hx) (by simp [hfunction.name_eq]) hread)
  global _ _ := fun _ _ _ hy => nomatch hy
  callKernel name args _ _ _ ihs := by
    intro hσ y x hy hx
    simp only [Expr.occurs, Bool.false_or] at hy
    exact ihs hσ hy hx
  callGlobal name args _ _ ihs := by
    intro hσ y x hy hx
    simp only [Expr.occurs, Bool.false_or] at hy
    exact ihs hσ hy hx
  call callee args _ _ _ ih ihs := by
    intro hσ y x hy hx
    rw [Expr.occurs, Bool.or_eq_true] at hy
    rcases hy with hy | hy
    · exact (ih hσ hy hx).append_left
    · exact (ihs (hσ.mono (Nat.le_add_right _ _)) hy hx).append_right
  ite cond onTrue onFalse _ hnTrue hwrapTrue hnFalse hwrapFalse ihc iht ihf := by
    intro hσ y x hy hx
    rw [Expr.occurs, Bool.or_eq_true, Bool.or_eq_true] at hy
    have hσ' := hσ.mono (Nat.le_add_right _ cond.binders.length)
    have hσ'' := hσ'.mono (Nat.le_add_right _ onTrue.binders.length)
    rw [Node.reads]
    rcases hy with hy | hy | hy
    · exact (ihc hσ hy hx).mono (List.Subset.refl _) fun h => by rw [h, Bool.true_or]
    · have hread := Node.reads_wrapDecl hwrapTrue (hnTrue.new_names (hσ' y x hx)) (iht hσ' hy hx)
      exact .inr (by rw [hread, Bool.true_or, Bool.or_true])
    · have hread := Node.reads_wrapDecl hwrapFalse (hnFalse.new_names (hσ'' y x hx)) (ihf hσ'' hy hx)
      exact .inr (by rw [hread, Bool.or_true, Bool.or_true])
  tuple _ _ ihs := ihs
  matchOn data clauses _ _ ih ihs := by
    intro hσ y x hy hx
    rw [Expr.occurs, Bool.or_eq_true] at hy
    rw [Node.reads]
    rcases hy with hy | hy
    · exact (ih hσ hy hx).mono (List.Subset.refl _) fun h => by rw [h, Bool.true_or]
    · have hread := ihs (hσ.mono (Nat.le_add_right _ _)) hy hx
      exact .inr (by rw [hread, Bool.or_true])
  construct _ _ _ _ ihs := ihs
  nil := fun _ _ _ hy => nomatch hy
  cons e es _ _ ih ihs := by
    intro hσ y x hy hx
    rw [Expr.listOccurs, Bool.or_eq_true] at hy
    rcases hy with hy | hy
    · exact (ih hσ hy hx).append_left
    · exact (ihs (hσ.mono (Nat.le_add_right _ _)) hy hx).append_right
  nilClause := fun _ _ _ hy => nomatch hy
  consClause p e rest hp hn hwrap _ ih ihs := by
    intro hσ y x hy hx
    simp only [Expr.clausesOccur, Bool.or_eq_true, Bool.and_eq_true, Bool.not_eq_true',
      List.contains_eq_mem, decide_eq_false_iff_not] at hy
    have hnum := hσ y x hx
    rw [Node.clausesRead, Bool.or_eq_true, Bool.and_eq_true]
    rcases hy with ⟨hvars, hocc⟩ | hocc
    · refine .inl ⟨?_, ?_⟩
      · simp only [hp.boundNames_eq, Bool.not_eq_true', List.contains_eq_mem,
          decide_eq_false_iff_not]
        exact fun hmem => hnum.not_of_le (Nat.le_refl _) (numbered_of_mem hmem)
      · exact Node.reads_wrapDecl hwrap
          (hn.new_names (hnum.mono (Nat.le_refl 0) (Nat.le_add_right _ _)))
          (ih (hσ.bindVars p.boundVars) hocc (by rwa [Naming.bindVars_of_notMem hvars]))
    · exact .inr (ihs (hσ.mono (by omega)) hocc hx)

/-! ## What is read is in scope -/

/-- The names of the variables that occur are in scope. -/
def Naming.Within (σ : Naming) (occ : Nat → Bool) (scope : List String) : Prop :=
  ∀ ⦃y x⦄, occ y = true → σ y = some x → x ∈ scope

section

variable {σ : Naming} {occ occ' : Nat → Bool} {scope scope' : List String} {k : Nat}

theorem within_or : σ.Within (fun y => occ y || occ' y) scope ↔
    σ.Within occ scope ∧ σ.Within occ' scope := by
  simp only [Naming.Within, Bool.or_eq_true, or_imp, forall_and]

theorem Naming.Within.mono (h : σ.Within occ scope) (hsub : scope ⊆ scope') :
    σ.Within occ scope' :=
  fun _ _ hy hx => hsub (h hy hx)

theorem Naming.Within.bind {v : Var} (h : σ.Within (fun y => v.id != y && occ y) scope)
    (x : String) : (σ.bind v.id x).Within occ (x :: scope) := by
  intro y z hy hz
  by_cases hv : y = v.id
  · rw [hv, Naming.bind_self] at hz
    cases hz
    exact List.mem_cons_self
  · rw [Naming.bind_of_ne hv] at hz
    exact List.mem_cons_of_mem _ (h (by simp [hy, Ne.symm hv]) hz)

theorem Naming.Within.bindVars {vs : List Var}
    (h : σ.Within (fun y => !(vs.map Var.id).contains y && occ y) scope) (k : Nat) :
    (σ.bindVars vs k).Within occ (numberedNames vs k ++ scope) := by
  intro y z hy hz
  by_cases hv : y ∈ vs.map Var.id
  · obtain ⟨x, hx, heq⟩ := Naming.bindVars_mem_names (k := k) hv σ
    cases heq.symm.trans hz
    exact List.mem_append_left _ hx
  · rw [Naming.bindVars_of_notMem hv] at hz
    refine List.mem_append_right _ (h ?_ hz)
    simp only [hy, Bool.and_true, Bool.not_eq_true', List.contains_eq_mem, decide_eq_false_iff_not]
    exact hv

end

open Node (ScopedHere)

/-- The names of the captures are those of the captured variables. -/
theorem mem_captureNames {σ : Naming} {vs : List Var} {captures : List Param}
    (h : List.Forall₂ (fun v p => σ v.id = some p.name) vs captures) {x : String} :
    x ∈ captures.map Param.name ↔ ∃ v ∈ vs, σ v.id = some x := by
  induction h with
  | nil => simp
  | cons hv _ ih =>
    rw [List.map_cons, List.mem_cons, List.exists_mem_cons_iff, hv, Option.some.injEq]
    exact or_congr eq_comm ih

section

variable {σ : Naming} {k : Nat} {own : Option (Nat × String)} {params : List Var} {body : Expr}
  {bs : List (String × Node)} {n : Node} {f : Lowered.Function}

theorem LowersFunction.mem_captures (h : LowersFunction σ k own params body bs n f) {x : String} :
    x ∈ f.captures.map Param.name ↔
      ∃ v ∈ captured (own.map Prod.fst) params body, σ v.id = some x :=
  mem_captureNames h.capture_names

/-- All that occurs in the body of a literal is in scope there: it is a parameter, the literal itself
or captured. -/
theorem LowersFunction.within_scope (h : LowersFunction σ k own params body bs n f)
    (hown : ∀ p ∈ own, σ p.1 = some p.2)
    (hplaced : Placed σ k (params.map Var.id ++ body.binders)) :
    (σ.bindVars params k).Within (fun y => body.occurs y) f.scope := by
  rw [Function.scope, h.param_names]
  refine Naming.Within.bindVars ?_ k
  intro y x hy hx
  simp only [Bool.and_eq_true, Bool.not_eq_true', List.contains_eq_mem,
    decide_eq_false_iff_not] at hy
  rw [List.mem_append]
  by_cases hy' : own.map Prod.fst = some y
  · obtain ⟨p, hp, rfl⟩ := Option.map_eq_some_iff.mp hy'
    cases (hown p hp).symm.trans hx
    exact .inl (by rw [h.name_eq, hp]; exact List.mem_singleton_self _)
  · have hbinders : y ∉ body.binders := by
      intro hmem
      have hnone := hplaced.unnamed y (List.mem_append_right _ hmem)
      cases hnone.symm.trans hx
    obtain ⟨v, hv, rfl⟩ := exists_mem_captured hy' hy.1 hbinders hy.2
    exact .inr (h.mem_captures.mpr ⟨v, hv, hx⟩)

/-- A literal captures exactly what it reads, if its body is well scoped. -/
theorem LowersFunction.scoped (h : LowersFunction σ k own params body bs n f) (hσ : σ.Below k)
    (hbody : Lowers L .lexical (σ.bindVars params k) (k + params.length) body bs n)
    (hscoped : f.body.Everywhere ScopedHere f.scope) {scope : List String}
    (hscope : ∀ v ∈ captured (own.map Prod.fst) params body, ∀ x, σ v.id = some x → x ∈ scope) :
    f.toNode.Everywhere ScopedHere scope := by
  obtain ⟨-, hnodup, hdisjoint⟩ := List.nodup_append'.mp h.names_nodup
  rw [List.map_append] at hnodup hdisjoint
  obtain ⟨-, hcaptures, hparams⟩ := List.nodup_append'.mp hnodup
  refine ⟨⟨?_, hcaptures, fun x => ⟨fun hx => ?_, ?_⟩⟩, hscoped⟩
  · intro c hc
    obtain ⟨v, hv, hx⟩ := h.mem_captures.mp (List.mem_map_of_mem hc)
    exact hscope v hv _ hx
  · obtain ⟨v, hv, hvx⟩ := h.mem_captures.mp hx
    have hocc := occurs_of_mem_captured hv
    simp only [Bool.and_eq_true, Bool.not_eq_true', List.contains_eq_mem,
      decide_eq_false_iff_not] at hocc
    have hread := reads_cases.expr hbody (hσ.bindVars params) hocc.2
      (by rwa [Naming.bindVars_of_notMem hocc.1])
    have hnew := hbody.new_names
      ((hσ _ _ hvx).mono (Nat.le_refl 0) (Nat.le_add_right k params.length))
    refine ⟨fun hmem => hparams hmem hx, fun hname => ?_, Node.reads_wrapDecl h.body_eq hnew hread⟩
    exact hdisjoint (by rw [hname]; exact List.mem_singleton_self x) (List.mem_append_right _ hx)
  · rintro ⟨hnot, hname, hread⟩
    have hmem := Node.mem_of_reads hscoped hread
    rw [Function.scope, List.mem_append, List.mem_append, Option.mem_toList] at hmem
    exact (hmem.resolve_left hnot).resolve_left hname

end

/-- Bindings of one part and of the next one, then a node and more nodes. -/
theorem scoped_append {scope : List String} {bs bs' : List (String × Node)} {n : Node}
    {ns : List Node} (hbs : Node.BindingsEverywhere ScopedHere scope bs)
    (hn : n.Everywhere ScopedHere ((bs.map Prod.fst).reverse ++ scope))
    (hbs' : Node.BindingsEverywhere ScopedHere scope bs')
    (hns : Node.AllEverywhere ScopedHere ((bs'.map Prod.fst).reverse ++ scope) ns) :
    Node.BindingsEverywhere ScopedHere scope (bs ++ bs') ∧
      n.Everywhere ScopedHere (((bs ++ bs').map Prod.fst).reverse ++ scope) ∧
      Node.AllEverywhere ScopedHere (((bs ++ bs').map Prod.fst).reverse ++ scope) ns := by
  rw [List.map_append, List.reverse_append, List.append_assoc]
  have hsub : scope ⊆ (bs.map Prod.fst).reverse ++ scope := List.subset_append_right _ _
  refine ⟨Node.bindingsEverywhere_append.mpr ⟨hbs, hbs'.mono Node.scopedHere_widens hsub⟩,
    hn.mono Node.scopedHere_widens (List.subset_append_right _ _),
    hns.mono Node.scopedHere_widens (Node.append_subset_append _ hsub)⟩

/-- In lexical scope bindings and node are well scoped wherever the names of all that occurs are in
scope. -/
theorem scoped_cases : Lowers.Cases L .lexical
    (fun σ k e bs n => Placed σ k e.binders → ∀ ⦃scope⦄, σ.Within (fun y => e.occurs y) scope →
      Node.BindingsEverywhere ScopedHere scope bs ∧
        n.Everywhere ScopedHere ((bs.map Prod.fst).reverse ++ scope))
    (fun σ k es bs ns => Placed σ k (Expr.listBinders es) →
      ∀ ⦃scope⦄, σ.Within (fun y => Expr.listOccurs y es) scope →
        Node.BindingsEverywhere ScopedHere scope bs ∧
          Node.AllEverywhere ScopedHere ((bs.map Prod.fst).reverse ++ scope) ns)
    (fun σ k clauses cs => Placed σ k (Expr.clauseBinders clauses) →
      ∀ ⦃scope⦄, σ.Within (fun y => Expr.clausesOccur y clauses) scope →
        Node.ClausesEverywhere ScopedHere scope cs) where
  var v hx := fun _ _ hwithin => ⟨trivial, hwithin (by simp [Expr.occurs]) hx⟩
  const _ := fun _ _ _ => ⟨trivial, trivial⟩
  letFunction v params fbody body hf hfunction _ ihf ih := by
    intro hplaced scope hwithin
    simp only [Expr.occurs] at hwithin
    obtain ⟨hwithinf, hwithin⟩ := within_or.mp hwithin
    have hparts := Placed.bind hplaced
    have hwithin' := hfunction.within_scope
      (by intro p hp; cases hp; exact Naming.bind_self _ _) hparts.left
    obtain ⟨hbs, hn⟩ := ihf (Placed.bindVars hparts.left) hwithin'
    have hscoped := Node.Everywhere.wrapDecl trivial hbs hn hfunction.body_eq
    obtain ⟨hbs', hn'⟩ := ih (by simpa using hparts.right) (hwithin.bind (numberedName v.name _))
    refine ⟨⟨hfunction.scoped hparts.below hf hscoped ?_, hbs'⟩, ?_⟩
    · intro u hu x hx
      -- a literal does not capture its own variable, so all it captures has a name from outside
      have hne : u.id ≠ v.id := by simpa using Ne.symm (of_decide_eq_true (List.mem_filter.mp hu).2)
      rw [Naming.bind_of_ne hne] at hx
      refine hwithinf (Bool.and_eq_true_iff.mpr ⟨occurs_of_mem_captured hu, ?_⟩) hx
      simp [Expr.isFunction, Ne.symm hne]
    · rw [List.map_cons, List.reverse_cons, List.append_assoc]
      exact hn'
  letValue v value body hvalue _ _ ihv ih := by
    intro hplaced scope hwithin
    simp only [Expr.occurs, hvalue, Bool.false_and, Bool.not_false, Bool.and_true] at hwithin
    obtain ⟨hwithinv, hwithin⟩ := within_or.mp hwithin
    have hparts := Placed.bind hplaced
    have hvalues : Placed _ _ (value.binders ++ body.binders) :=
      Placed.right (show Placed _ _ ([v.id] ++ _) from hplaced)
    obtain ⟨hbs, hn⟩ := ihv hvalues.left hwithinv
    obtain ⟨hbs', hn'⟩ := ih hparts.right
      ((hwithin.mono (List.subset_append_right _ scope)).bind (numberedName v.name _))
    refine ⟨Node.bindingsEverywhere_append.mpr ⟨hbs, hn, hbs'⟩, ?_⟩
    rw [List.map_append, List.map_cons, List.reverse_append, List.reverse_cons, List.append_assoc,
      List.append_assoc]
    exact hn'
  func params body hbody hfunction ih := by
    intro hplaced scope hwithin
    have hwithin' := hfunction.within_scope (by intro p hp; cases hp) hplaced
    obtain ⟨hbs, hn⟩ := ih (Placed.bindVars hplaced) hwithin'
    refine ⟨trivial, hfunction.scoped hplaced.below hbody
      (.wrapDecl trivial hbs hn hfunction.body_eq) ?_⟩
    intro u hu x hx
    exact hwithin (occurs_of_mem_captured hu) hx
  global _ _ := fun _ _ _ => ⟨trivial, trivial⟩
  callKernel name args _ _ _ ihs := by
    intro hplaced scope hwithin
    simp only [Expr.occurs, Bool.false_or] at hwithin
    obtain ⟨hbs, hns⟩ := ihs hplaced hwithin
    exact ⟨hbs, trivial, hns⟩
  callGlobal name args _ _ ihs := by
    intro hplaced scope hwithin
    simp only [Expr.occurs, Bool.false_or] at hwithin
    obtain ⟨hbs, hns⟩ := ihs hplaced hwithin
    exact ⟨hbs, trivial, hns⟩
  call callee args _ _ _ ih ihs := by
    intro hplaced scope hwithin
    simp only [Expr.occurs] at hwithin
    obtain ⟨hwithin, hwithins⟩ := within_or.mp hwithin
    obtain ⟨hbs, hn⟩ := ih (Placed.left hplaced) hwithin
    obtain ⟨hbs', hns⟩ := ihs (Placed.right hplaced) hwithins
    obtain ⟨hbs, hn, hns⟩ := scoped_append hbs hn hbs' hns
    exact ⟨hbs, trivial, hn, hns⟩
  ite cond onTrue onFalse _ _ hwrapTrue _ hwrapFalse ihc iht ihf := by
    intro hplaced scope hwithin
    simp only [Expr.occurs] at hwithin
    obtain ⟨hwithin, hwithinBranches⟩ := within_or.mp hwithin
    obtain ⟨hwithinTrue, hwithinFalse⟩ := within_or.mp hwithinBranches
    have hbranches := Placed.right hplaced
    obtain ⟨hbs, hn⟩ := ihc (Placed.left hplaced) hwithin
    obtain ⟨hbsTrue, hnTrue⟩ := iht hbranches.left
      (hwithinTrue.mono (List.subset_append_right _ scope))
    obtain ⟨hbsFalse, hnFalse⟩ := ihf hbranches.right
      (hwithinFalse.mono (List.subset_append_right _ scope))
    exact ⟨hbs, trivial, hn, .wrapDecl trivial hbsTrue hnTrue hwrapTrue,
      .wrapDecl trivial hbsFalse hnFalse hwrapFalse⟩
  tuple fields _ ihs := by
    intro hplaced scope hwithin
    obtain ⟨hbs, hns⟩ := ihs hplaced hwithin
    exact ⟨hbs, trivial, hns⟩
  matchOn data clauses _ _ ih ihs := by
    intro hplaced scope hwithin
    simp only [Expr.occurs] at hwithin
    obtain ⟨hwithin, hwithins⟩ := within_or.mp hwithin
    obtain ⟨hbs, hn⟩ := ih (Placed.left hplaced) hwithin
    exact ⟨hbs, trivial, hn,
      ihs (Placed.right hplaced) (hwithins.mono (List.subset_append_right _ _))⟩
  construct name fields _ _ ihs := by
    intro hplaced scope hwithin
    obtain ⟨hbs, hns⟩ := ihs hplaced hwithin
    exact ⟨hbs, trivial, hns⟩
  nil := fun _ _ _ => ⟨trivial, trivial⟩
  cons e es _ _ ih ihs := by
    intro hplaced scope hwithin
    simp only [Expr.listOccurs] at hwithin
    obtain ⟨hwithin, hwithins⟩ := within_or.mp hwithin
    obtain ⟨hbs, hn⟩ := ih (Placed.left hplaced) hwithin
    obtain ⟨hbs', hns⟩ := ihs (Placed.right hplaced) hwithins
    exact scoped_append hbs hn hbs' hns
  nilClause := fun _ _ _ => trivial
  consClause p e rest hp _ hwrap _ ih ihs := by
    intro hplaced scope hwithin
    simp only [Expr.clausesOccur] at hwithin
    obtain ⟨hwithin, hwithins⟩ := within_or.mp hwithin
    rw [Expr.clauseBinders, ← List.append_assoc] at hplaced
    obtain ⟨hbs, hn⟩ := ih (Placed.bindVars (Placed.left hplaced)) (hwithin.bindVars _)
    rw [← hp.boundNames_eq] at hbs hn
    exact ⟨.wrapDecl trivial hbs hn hwrap,
      ihs (by simpa [Nat.add_assoc] using Placed.right hplaced) hwithins⟩

/-- The translation of a definition that is closed is well scoped. -/
theorem LowersDefinition.wellScoped {f : Source.Function} {f' : Lowered.Function}
    (h : LowersDefinition L .threaded f f') (hclosed : f.Closed) : f'.WellScoped := by
  have hlexical := h.lexical_of_leakFree hclosed.leakFree
  obtain ⟨bs, n, hbody, hwrap⟩ := hlexical.body_eq
  have hplaced : Placed Naming.empty 0 (f.params.map Var.id ++ f.body.binders) :=
    ⟨Naming.below_empty 0, hclosed.binders_nodup, fun _ _ => rfl⟩
  have hwithin : (Naming.empty.bindVars f.params 0).Within (fun y => f.body.occurs y) f'.scope := by
    rw [Function.scope, h.param_names]
    exact Naming.Within.bindVars (fun y x _ (hx : none = some x) => nomatch hx) 0
  have hplaced' := Placed.bindVars hplaced
  rw [Nat.zero_add] at hplaced'
  obtain ⟨hbs, hn⟩ := scoped_cases.expr hbody hplaced' hwithin
  exact .wrapDecl trivial hbs hn hwrap

end Lowering

end TensorIR
