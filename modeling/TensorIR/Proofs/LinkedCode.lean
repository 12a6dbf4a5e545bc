import TensorIR.Proofs.EveryNode
import TensorIR.Proofs.LoweringOutcomes

/-! Lowering refers only to what there is.

Code refers to globals by their places, to kernels and to constructors. `Node.LinkedHere` says that
what a node refers to exists and is used as it is meant to be: a global is called with as many
arguments as its signature has parameters, a kernel with as many as it takes, and a constructor has
its tag, its fields and its type. Places are those of the function table, which grows while a body is
lowered. -/

namespace TensorIR

open Source Lowered Lowering

/-! ## References -/

namespace Lowered

/-- The name and the number of parameters of the function in each place. -/
abbrev Directory := FunctionId → Option (String × Nat)

/-- The second directory has all that the first one has. -/
def Directory.Within (places places' : Directory) : Prop :=
  ∀ ⦃id entry⦄, places id = some entry → places' id = some entry

/-- What the table has reserved. -/
def FunctionTable.directory (t : FunctionTable) : Directory := fun id =>
  (t.entry? id).map fun e => (e.name, e.sig.params.length)

def Program.directory (p : Program) : Directory := fun id =>
  (p.name? id).bind fun name => (p.function? id).map fun f => (name, f.params.length)

mutual

/-- The constructors in the pattern have their tags and their numbers of fields. -/
def Pattern.Linked (m : Module) : Lowered.Pattern → Prop
  | .wildcard | .bind _ => True
  | .ctor tag name fields =>
    (∃ info, m.ctor? name = some info ∧ tag = info.tag ∧ fields.length = info.fields.length) ∧
      Pattern.AllLinked m fields
  | .tuple fields => Pattern.AllLinked m fields

def Pattern.AllLinked (m : Module) : List Lowered.Pattern → Prop
  | [] => True
  | p :: ps => p.Linked m ∧ Pattern.AllLinked m ps

end

namespace Node

/-- What the node refers to exists, and is used as it is meant to be. -/
def LinkedHere (s : Setting) (places : Directory) : Node → Prop
  | .global target => ∃ params, places target.id = some (target.name, params)
  | .invoke target args => places target.id = some (target.name, args.length)
  | .packed name arity args _ tupled =>
    ∃ k, s.kernels.get? name = some k ∧ k.arity.Suits args.length arity tupled
  | .matchOn _ clauses _ => ∀ clause ∈ clauses, clause.1.Linked s.module
  | .ctor tag name fields ty =>
    ∃ info, s.module.ctor? name = some info ∧ tag = info.tag ∧
      fields.length = info.fields.length ∧ ty = .adt info.adt.name
  | _ => True

/-- All references in the node are right. -/
def Linked (s : Setting) (places : Directory) (n : Node) : Prop :=
  n.Everywhere (fun _ => LinkedHere s places) []

def AllLinked (s : Setting) (places : Directory) (ns : List Node) : Prop :=
  Node.AllEverywhere (fun _ => LinkedHere s places) [] ns

section

variable {s : Setting} {places places' : Directory} {n : Node}

theorem linkedHere_widens (h : places.Within places') :
    Widens (fun _ => LinkedHere s places) fun _ => LinkedHere s places' := by
  intro scope scope' n _ hn
  cases n with
  | global target =>
    obtain ⟨params, hparams⟩ := hn
    exact ⟨params, h hparams⟩
  | invoke target args => exact h hn
  | _ => exact hn

theorem Linked.mono (hn : n.Linked s places) (h : places.Within places') : n.Linked s places' :=
  Everywhere.mono (linkedHere_widens h) (List.Subset.refl _) hn

theorem AllLinked.mono {ns : List Node} (hns : AllLinked s places ns) (h : places.Within places') :
    AllLinked s places' ns :=
  AllEverywhere.mono (linkedHere_widens h) (List.Subset.refl _) hns

/-- The names in scope do not matter for references. -/
theorem Linked.everywhere (hn : n.Linked s places) (scope : List String) :
    n.Everywhere (fun _ => LinkedHere s places) scope :=
  Everywhere.inScope hn scope

theorem Linked.wrapDecl {bs : List (String × Node)} {a : Node} (hn : n.Linked s places)
    (hbs : ∀ b ∈ bs, b.2.Linked s places) (h : Node.wrapDecl bs n = .ok a) : a.Linked s places :=
  Everywhere.wrapDecl trivial (bindingsEverywhere_of_forall hbs []) (hn.everywhere _) h

theorem linked_toNode {f : Lowered.Function} (h : f.body.Linked s places) :
    f.toNode.Linked s places :=
  ⟨trivial, h.everywhere _⟩

end

end Node

end Lowered

namespace Lowering

/-! ## Patterns -/

mutual

theorem lowerPattern_linked {c : BodyContext} :
    ∀ {p : Source.Pattern} {ty : Option Ty} {q : Lowered.Pattern} {s s' : Scope} {g g' : Progress},
      lowerPattern c p ty s g = .ok (q, s') g' → q.Linked c.setting.module
  | .wildcard, _, _, _, _, _, _, h => by
    rw [lowerPattern] at h
    obtain ⟨rfl, -, -⟩ := pure_eq_ok.mp h
    exact trivial
  | .var v, _, _, _, _, _, _, h => by
    rw [lowerPattern] at h
    obtain ⟨x, s₁, g₁, -, k₁⟩ := bind_eq_ok.mp h
    obtain ⟨_, s₂, g₂, -, k₂⟩ := bind_eq_ok.mp k₁
    obtain ⟨rfl, -, -⟩ := pure_eq_ok.mp k₂
    exact trivial
  | .ctor name ps, _, _, _, _, _, _, h => by
    obtain ⟨info, qs, hinfo, -, hlen, hfields, rfl⟩ := lowerPattern_ctor_eq_ok h
    obtain ⟨hqs, hcount⟩ := lowerPatterns_linked hfields
    exact ⟨⟨info, hinfo, rfl, hcount.trans hlen.symm⟩, hqs⟩
  | .tuple ps, _, _, _, _, _, _, h => by
    obtain ⟨tys, qs, -, hfields, rfl⟩ := lowerPattern_tuple_eq_ok h
    exact (lowerPatterns_linked hfields).1

theorem lowerPatterns_linked {c : BodyContext} :
    ∀ {ps : List Source.Pattern} {tys : List Ty} {qs : List Lowered.Pattern} {s s' : Scope}
      {g g' : Progress}, lowerPatterns c ps tys s g = .ok (qs, s') g' →
        Lowered.Pattern.AllLinked c.setting.module qs ∧ qs.length = ps.length
  | [], _, _, _, _, _, _, h => by
    rw [lowerPatterns] at h
    obtain ⟨rfl, -, -⟩ := pure_eq_ok.mp h
    exact ⟨trivial, rfl⟩
  | p :: ps, _, _, _, _, _, _, h => by
    obtain ⟨q, qs, s₁, g₁, h₁, h₂, rfl⟩ := lowerPatterns_cons_eq_ok h
    obtain ⟨hqs, hcount⟩ := lowerPatterns_linked h₂
    exact ⟨⟨lowerPattern_linked h₁, hqs⟩, congrArg Nat.succ hcount⟩

end

/-! ## Expressions -/

/-- References of code that is made in a unit are right with the places of the table. -/
structure Ready (S : Growth) (c : BodyContext) (s : Scope) (g : Progress) : Prop where
  inv : S.Inv g.table
  bindings : ∀ b ∈ s.bindings, b.2.Linked c.setting g.table.directory

/-- However the step ends, the table has grown. A success has a result with the property, and the
bindings that are open then have right references. -/
def KeepsLinks {α : Type} (S : Growth) (c : BodyContext) (Q : α → Directory → Prop) (g : Progress)
    (r : EStateM.Result LowerError Progress (α × Scope)) : Prop :=
  S.Keeps g (fun r t => Q r.1 t.directory ∧
    ∀ b ∈ r.2.bindings, b.2.Linked c.setting t.directory) r

variable {S : Growth} {c : BodyContext} {s s' : Scope} {g g' : Progress}

theorem Ready.of_eq (h : Ready S c s g) (hbindings : s'.bindings = s.bindings)
    (htable : g'.table = g.table) : Ready S c s' g' :=
  ⟨htable ▸ h.inv, by rw [hbindings, htable]; exact h.bindings⟩

namespace KeepsLinks

variable {α β : Type} {Q : α → Directory → Prop} {Q' : β → Directory → Prop}

theorem pure {a : α} (h : Ready S c s g) (ha : Q a g.table.directory) :
    KeepsLinks S c Q g ((Pure.pure a : BodyM α) s g) :=
  Growth.Keeps.pure h.inv ⟨ha, h.bindings⟩

theorem bind {x : BodyM α} {f : α → BodyM β} (hx : KeepsLinks S c Q g (x s g))
    (hf : ∀ a s' g', S.Extends g g' → Q a g'.table.directory → Ready S c s' g' →
      KeepsLinks S c Q' g' (f a s' g')) : KeepsLinks S c Q' g ((x >>= f) s g) :=
  Growth.Keeps.bind hx fun a s' g' hext ha => hf a s' g' hext ha.1 ⟨hext.1, ha.2⟩

theorem simple_bind {x : BodyM α} {f : α → BodyM β} (hx : Simple x) (h : Ready S c s g)
    (hf : ∀ a s' g', x s g = .ok (a, s') g' → S.Extends g g' → Ready S c s' g' →
      KeepsLinks S c Q' g' (f a s' g')) : KeepsLinks S c Q' g ((x >>= f) s g) :=
  Growth.Keeps.simple_bind hx h.inv fun a s' g' hr hbindings htable =>
    hf a s' g' hr (.of_table_eq h.inv htable) (h.of_eq hbindings htable)

theorem of_inert {x : BodyM α} (hx : Inert x) (h : Ready S c s g)
    (hQ : ∀ a s' g', x s g = .ok (a, s') g' → Q a g.table.directory) : KeepsLinks S c Q g (x s g) :=
  Growth.Keeps.of_inert hx h.inv fun a s' g' hr hbindings =>
    ⟨hQ a s' g' hr, fun b hb => h.bindings b (hbindings ▸ hb)⟩

end KeepsLinks

/-- Obtaining a global lets the table grow and gives a place with its name. -/
def Obtains (S : Growth) (c : BodyContext) : Prop :=
  ∀ ⦃name g⦄, S.Inv g.table →
    S.Keeps g (fun id t => ∃ params, t.directory id = some (name, params)) (c.ensure name g)

/-- The lowering of the expression refers to what there is. -/
def ExprLinked (S : Growth) (c : BodyContext) (e : Expr) : Prop :=
  ∀ ⦃s g⦄, Ready S c s g → KeepsLinks S c (fun n places => n.Linked c.setting places) g (lowerExpr c e s g)

def ExprsLinked (S : Growth) (c : BodyContext) (es : List Expr) : Prop :=
  ∀ ⦃s g⦄, Ready S c s g →
    KeepsLinks S c (fun ns places => Node.AllLinked c.setting places ns ∧ ns.length = es.length) g
      (lowerExprs c es s g)

def ClausesLinked (S : Growth) (c : BodyContext) (clauses : List (Source.Pattern × Expr)) : Prop :=
  ∀ ⦃scrutinee result s g⦄, Ready S c s g →
    KeepsLinks S c (fun r places => ∀ clause ∈ r.1, clause.1.Linked c.setting.module ∧
      clause.2.Linked c.setting places) g (lowerClauses c scrutinee result clauses s g)

theorem restoringEnv_links {α : Type} {Q : α → Directory → Prop} {x : BodyM α}
    (h : KeepsLinks S c Q g (x s g)) : KeepsLinks S c Q g (restoringEnv x s g) := by
  change KeepsLinks S c Q g ((x >>= fun a => do
    modify fun s' => { s' with env := s.env }
    return a) s g)
  exact h.bind fun a s₁ g₁ hext ha hready => ⟨.of_table_eq hext.1 rfl, ha, hready.bindings⟩

theorem emit_links {name : String} {n : Node} (h : Ready S c s g)
    (hn : n.Linked c.setting g.table.directory) :
    KeepsLinks S c (fun _ _ => True) g (emit name n s g) := by
  refine ⟨.of_table_eq h.inv rfl, trivial, fun b hb => ?_⟩
  rcases List.mem_append.mp hb with hb | hb
  · exact h.bindings b hb
  · rw [List.mem_singleton.mp hb]
    exact hn

/-- The arity check compares the arguments with the signature that the place has. -/
theorem checkGlobalArity_eq_ok {name label : String} {id : FunctionId} {params found : Nat} {a : Unit}
    (hid : g.table.directory id = some (name, params))
    (h : c.checkGlobalArity label id found s g = .ok (a, s') g') : params = found := by
  obtain ⟨p, s₁, g₁, h₁, h⟩ := bind_eq_ok.mp h
  cases h₁
  obtain ⟨hcount, -, -⟩ := BodyContext.checkArity_eq_ok h
  obtain ⟨e, he, hentry⟩ := Option.map_eq_some_iff.mp hid
  cases hentry
  simpa [FunctionTable.signature?, he] using hcount

section

variable (hS : ∀ ⦃t t'⦄, S.le t t' → t.directory.Within t'.directory)
include hS

theorem closeScope_links {x : BodyM Node} (h : Ready S c s g)
    (hx : ∀ s, Ready S c s g →
      KeepsLinks S c (fun n places => n.Linked c.setting places) g (x s g)) :
    KeepsLinks S c (fun n places => n.Linked c.setting places) g (c.closeScope x s g) := by
  have hempty : Ready S c { s with bindings := [] } g := ⟨h.inv, nofun⟩
  change KeepsLinks S c _ g ((x >>= fun body => do
    let inner := (← get).bindings
    modify fun s' => { s' with bindings := s.bindings }
    c.checked (Node.wrapDecl inner body)) { s with bindings := [] } g)
  refine (hx _ hempty).bind fun n s₁ g₁ hext hn hready => ?_
  have houter : Ready S c { s₁ with bindings := s.bindings } g₁ :=
    ⟨hext.1, fun b hb => (h.bindings b hb).mono (hS hext.2)⟩
  change KeepsLinks S c _ g₁
    (c.checked (Node.wrapDecl s₁.bindings n) { s₁ with bindings := s.bindings } g₁)
  refine .of_inert (BodyContext.checked_inert _) houter fun a s' g' hr => ?_
  exact hn.wrapDecl hready.bindings (BodyContext.checked_eq_ok hr).1

theorem function_links {name : Option String} {f : Source.Function} {captures : List Param}
    {ret : Option Ty} (hbody : ExprLinked S c f.body) (h : Ready S c s g) :
    KeepsLinks S c (fun f' places => f'.body.Linked c.setting places) g
      (c.function name f captures ret (lowerExpr c f.body) s g) := by
  refine KeepsLinks.bind (Q := fun r places => r.2.1.Linked c.setting places)
    (restoringEnv_links ?_) fun r s₁ g₁ _ hbody hready => ?_
  · refine .simple_bind (BodyContext.bindParams_simple _) h fun params s₁ g₁ _ _ hready => ?_
    refine (closeScope_links hS hready fun _ h => hbody h).bind fun body s₂ g₂ _ hn hready => ?_
    cases ret.or f.ret.resolved? with
    | some ty => exact .pure hready hn
    | none =>
      exact .simple_bind (BodyContext.requireType_simple _ _) hready fun ty s₃ g₃ _ hext hready =>
        .pure hready (hn.mono (hS hext.2))
  · refine .of_inert (BodyContext.checked_inert _) hready fun f' s' g' hr => ?_
    obtain ⟨rfl, -⟩ := mkChecked_eq_ok (BodyContext.checked_eq_ok hr).1
    exact hbody

theorem closure_links {self : Option (Nat × String)} {f : Source.Function}
    (hbody : ExprLinked S c f.body) (h : Ready S c s g) :
    KeepsLinks S c (fun f' places => f'.toNode.Linked c.setting places) g
      (c.closure self f (lowerExpr c f.body) s g) := by
  refine .simple_bind (BodyContext.captures_simple _ _) h fun captures s₁ g₁ _ _ hready => ?_
  exact (function_links hS hbody hready).imp fun _ _ _ hf => ⟨Node.linked_toNode hf.1, hf.2⟩

theorem clause_links {scrutinee result : Option Ty} {p : Source.Pattern} {e : Expr}
    (ih : ExprLinked S c e) (h : Ready S c s g) :
    KeepsLinks S c (fun r places => r.1.1.Linked c.setting.module ∧ r.1.2.Linked c.setting places) g
      (c.clause scrutinee result p e (lowerExpr c e) s g) := by
  refine restoringEnv_links (.simple_bind (lowerPattern_simple p _) h fun q s₁ g₁ hr _ hready => ?_)
  refine (closeScope_links hS hready fun _ h => ih h).bind fun body s₂ g₂ _ hn hready => ?_
  have hq := lowerPattern_linked hr
  cases result with
  | some ty => exact .pure hready ⟨hq, hn⟩
  | none =>
    exact .simple_bind (BodyContext.typeOf_simple e) hready fun ty s₃ g₃ _ hext hready =>
      .pure hready ⟨hq, hn.mono (hS hext.2)⟩

theorem ensure_links (hens : Obtains S c) {name : String} (h : Ready S c s g) :
    KeepsLinks S c (fun id places => ∃ params, places id = some (name, params)) g
      ((liftM (c.ensure name) : BodyM FunctionId) s g) := by
  refine (hens h.inv).lift.imp fun r g' hext hr => ⟨hr.1, fun b hb => ?_⟩
  rw [hr.2] at hb
  exact (h.bindings b hb).mono (hS hext.2)

theorem letValue_links {v : Var} {value : Expr} (ih : ExprLinked S c value) (h : Ready S c s g) :
    KeepsLinks S c (fun _ _ => True) g (c.letValue v value (lowerExpr c value) s g) := by
  refine .simple_bind (fresh_simple _) h fun name s₁ g₁ _ _ hready => ?_
  refine (ih hready).bind fun n s₂ g₂ _ hn hready => ?_
  refine .simple_bind (BodyContext.letType_simple v value) hready fun ty s₃ g₃ _ hext₃ hready => ?_
  refine .simple_bind (bindVar_simple v _) hready fun _ s₄ g₄ _ hext₄ hready => ?_
  exact emit_links hready (hn.mono (hS (hext₃.trans hext₄).2))

theorem letFunction_links {v : Var} {f : Source.Function} (ih : ExprLinked S c f.body)
    (h : Ready S c s g) :
    KeepsLinks S c (fun _ _ => True) g (c.letFunction v f (lowerExpr c f.body) s g) := by
  refine .simple_bind (fresh_simple _) h fun name s₁ g₁ _ _ hready => ?_
  refine .simple_bind (bindVar_simple v _) hready fun _ s₂ g₂ _ _ hready => ?_
  refine (closure_links hS ih hready).bind fun f' s₃ g₃ _ hf' hready => ?_
  refine .simple_bind (bindVar_simple v _) hready fun _ s₄ g₄ _ hext hready => ?_
  exact emit_links hready (hf'.mono (hS hext.2))

/-- Lowering refers to what there is, if globals are obtained with their names. -/
theorem exprLinked_cases (hens : Obtains S c) :
    Expr.Cases (ExprLinked S c) (ExprsLinked S c) (ClausesLinked S c) where
  var v := by
    intro s g h
    rw [lowerExpr]
    exact .simple_bind (BodyContext.lookup_simple v) h fun b s₁ g₁ _ _ hready => .pure hready trivial
  const t := by
    intro s g h
    rw [lowerExpr]
    exact .pure h trivial
  letFunction v params fbody ret body ihf ih := by
    intro s g h
    rw [lowerExpr]
    exact (letFunction_links hS ihf h).bind fun _ s₁ g₁ _ _ hready => ih hready
  letValue v value body hvalue ihv ih := by
    intro s g h
    rw [lowerExpr_letIn hvalue]
    exact (letValue_links hS ihv h).bind fun _ s₁ g₁ _ _ hready => ih hready
  func params body ret ih := by
    intro s g h
    rw [lowerExpr]
    exact (closure_links hS ih h).bind fun f' s₁ g₁ _ hf' hready => .pure hready hf'
  global name := by
    intro s g h
    rw [lowerExpr]
    exact (ensure_links hS hens h).bind fun id s₁ g₁ _ hid hready => .pure hready hid
  op name := by
    intro s g h
    rw [lowerExpr]
    exact .of_inert (.throw _) h fun _ _ _ hr => (throw_ne_ok hr).elim
  callKernel name args ty ihs := by
    intro s g h
    rw [lowerExpr]
    refine .simple_bind (BodyContext.kernelArity_simple name args ty) h fun r s₁ g₁ hr _ hready => ?_
    obtain ⟨⟨kernel, hkernel, hsuits⟩, -, -⟩ := kernelArity_eq_ok hr
    refine (ihs hready).bind fun ns s₂ g₂ _ hns hready => ?_
    refine .of_inert (BodyContext.checked_inert _) hready fun n s' g' hr => ?_
    obtain rfl := mkPacked_eq_ok (BodyContext.checked_eq_ok hr).1
    exact ⟨⟨kernel, hkernel, hns.2 ▸ hsuits⟩, hns.1⟩
  callGlobal name args ty ihs := by
    intro s g h
    rw [lowerExpr]
    refine (ensure_links hS hens h).bind fun id s₁ g₁ _ hid hready => ?_
    obtain ⟨params, hparams⟩ := hid
    refine .simple_bind (BodyContext.checkGlobalArity_simple _ _ _) hready
      fun _ s₂ g₂ hr hext₂ hready => ?_
    obtain rfl := checkGlobalArity_eq_ok hparams hr
    refine (ihs hready).bind fun ns s₃ g₃ hext₃ hns hready => ?_
    have hplace := hS (hext₂.trans hext₃).2 hparams
    rw [← hns.2] at hplace
    exact .pure hready ⟨hplace, hns.1⟩
  call callee args ty hcallee ih ihs := by
    intro s g h
    rw [lowerExpr_call hcallee]
    refine .simple_bind (BodyContext.checkCallee_simple callee _) h fun _ s₁ g₁ _ _ hready => ?_
    refine (ih hready).bind fun n s₂ g₂ _ hn hready => ?_
    refine (ihs hready).bind fun ns s₃ g₃ hext hns hready => ?_
    exact .pure hready ⟨trivial, hn.mono (hS hext.2), hns.1⟩
  ite cond onTrue onFalse ty ihc iht ihf := by
    intro s g h
    rw [lowerExpr]
    refine (ihc h).bind fun n s₁ g₁ _ hn hready => ?_
    refine .simple_bind (BodyContext.checkCondition_simple cond) hready
      fun _ s₂ g₂ _ hext₂ hready => ?_
    refine (closeScope_links hS hready fun _ h => iht h).bind
      fun nTrue s₃ g₃ hext₃ htrue hready => ?_
    refine (closeScope_links hS hready fun _ h => ihf h).bind
      fun nFalse s₄ g₄ hext₄ hfalse hready => ?_
    refine .simple_bind (BodyContext.requireType_simple _ _) hready
      fun ty' s₅ g₅ _ hext₅ hready => ?_
    refine .of_inert (BodyContext.checked_inert _) hready fun a s' g' hr => ?_
    obtain rfl := mkIte_eq_ok (BodyContext.checked_eq_ok hr).1
    have hend := hext₄.trans hext₅
    exact ⟨trivial, hn.mono (hS (hext₂.trans (hext₃.trans hend)).2), htrue.mono (hS hend.2),
      hfalse.mono (hS hext₅.2)⟩
  tuple fields ty ihs := by
    intro s g h
    rw [lowerExpr]
    refine (ihs h).bind fun ns s₁ g₁ _ hns hready => ?_
    refine .simple_bind (BodyContext.requireType_simple _ _) hready fun ty' s₂ g₂ _ hext hready => ?_
    refine .of_inert (BodyContext.checked_inert _) hready fun a s' g' hr => ?_
    obtain rfl := mkTuple_eq_ok (BodyContext.checked_eq_ok hr).1
    exact ⟨trivial, hns.1.mono (hS hext.2)⟩
  matchOn data clauses ty ih ihs := by
    intro s g h
    rw [lowerExpr]
    refine (ih h).bind fun n s₁ g₁ _ hn hready => ?_
    refine .simple_bind (BodyContext.typeOf_simple data) hready fun scrutinee s₂ g₂ _ hext₂ hready => ?_
    refine (ihs hready).bind fun r s₃ g₃ hext₃ hclauses hready => ?_
    refine .simple_bind (BodyContext.checkCoverage_simple _ _) hready fun _ s₄ g₄ _ hext₄ hready => ?_
    cases hty : r.2 with
    | none => exact .of_inert (.throw _) hready fun _ _ _ hr => (throw_ne_ok hr).elim
    | some ty' =>
      refine .of_inert (BodyContext.checked_inert _) hready fun a s' g' hr => ?_
      obtain rfl := mkMatch_eq_ok (BodyContext.checked_eq_ok hr).1
      refine ⟨fun clause hclause => (hclauses clause hclause).1,
        hn.mono (hS (hext₂.trans (hext₃.trans hext₄)).2), Node.clausesEverywhere_of_forall ?_ []⟩
      exact fun clause hclause => (hclauses clause hclause).2.mono (hS hext₄.2)
  construct name fields ty ihs := by
    intro s g h
    rw [lowerExpr]
    refine .simple_bind (BodyContext.constructInfo_simple _ _ _) h fun info s₁ g₁ hr _ hready => ?_
    obtain ⟨hinfo, hlen, -, -⟩ := BodyContext.constructInfo_eq_ok hr
    refine (ihs hready).bind fun ns s₂ g₂ _ hns hready => ?_
    refine .of_inert (BodyContext.checked_inert _) hready fun a s' g' hr => ?_
    obtain rfl := mkCtor_eq_ok (BodyContext.checked_eq_ok hr).1
    exact ⟨⟨info, hinfo, rfl, hns.2.trans hlen.symm, rfl⟩, hns.1⟩
  nil := by
    intro s g h
    rw [lowerExprs]
    exact .pure h ⟨trivial, rfl⟩
  cons e es ih ihs := by
    intro s g h
    rw [lowerExprs]
    refine (ih h).bind fun n s₁ g₁ _ hn hready => ?_
    refine (ihs hready).bind fun ns s₂ g₂ hext hns hready => ?_
    exact .pure hready ⟨⟨hn.mono (hS hext.2), hns.1⟩, congrArg Nat.succ hns.2⟩
  nilClause := by
    intro scrutinee result s g h
    rw [lowerClauses]
    exact .pure h nofun
  consClause p e rest ih ihs := by
    intro scrutinee result s g h
    rw [lowerClauses]
    refine (clause_links hS ih h).bind fun r s₁ g₁ _ hclause hready => ?_
    refine (ihs hready).bind fun r' s₂ g₂ hext hclauses hready => ?_
    refine .pure hready (List.forall_mem_cons.mpr ⟨⟨hclause.1, hclause.2.mono (hS hext.2)⟩, ?_⟩)
    exact hclauses

end

end Lowering

end TensorIR
