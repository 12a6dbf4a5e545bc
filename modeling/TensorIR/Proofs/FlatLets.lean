import TensorIR.Proofs.EveryNode
import TensorIR.Proofs.ScopeLeaks
import TensorIR.Proofs.UnitHistory

/-! The `let`s of lowered code.

The body of a function, a branch and a clause are scopes, each with the `let`s that are in it and in no
scope inside it, at any depth of operands. Lowering takes the `let`s out of the expression of a scope and
puts one declaration around what is left, with a binding for each of them in evaluation order. -/

namespace TensorIR

open Source Lowered Lowering

/-! ## The `let`s of a scope -/

namespace Source

mutual

/-- The `let`s of the scope that the expression stands for, with their values, in evaluation order: a
`let` comes after those in its value and before those in its body. -/
def Expr.lets : Expr → List (Var × Expr)
  | .var _ | .const _ | .global _ | .op _ | .func .. => []
  | .letIn v value body => value.lets ++ (v, value) :: body.lets
  | .call callee args _ => callee.lets ++ Expr.listLets args
  | .ite cond _ _ _ => cond.lets
  | .tuple fields _ | .construct _ fields _ => Expr.listLets fields
  | .matchOn data _ _ => data.lets

/-- Operands are evaluated from left to right. -/
def Expr.listLets : List Expr → List (Var × Expr)
  | [] => []
  | e :: es => e.lets ++ Expr.listLets es

end

end Source

/-! ## Where declarations stand -/

namespace Lowered

mutual

/-- Declarations stand in the node only as whole scopes. The node itself may be one if it is a scope;
the values and the body of a declaration are none. -/
def Node.declsPlaced (scope : Bool) : Node → Bool
  | .var _ | .literal _ | .global _ => true
  | .decl bindings body => scope && (Node.bindingDeclsPlaced bindings && body.declsPlaced false)
  | .packed _ _ args _ _ | .invoke _ args => Node.listDeclsPlaced args
  | .apply callee args => callee.declsPlaced false && Node.listDeclsPlaced args
  | .func _ _ _ body _ => body.declsPlaced true
  | .ite cond onTrue onFalse _ =>
    cond.declsPlaced false && (onTrue.declsPlaced true && onFalse.declsPlaced true)
  | .tuple fields _ | .ctor _ _ fields _ => Node.listDeclsPlaced fields
  | .matchOn data clauses _ => data.declsPlaced false && Node.clauseDeclsPlaced clauses

def Node.listDeclsPlaced : List Node → Bool
  | [] => true
  | n :: ns => n.declsPlaced false && Node.listDeclsPlaced ns

def Node.bindingDeclsPlaced : List (String × Node) → Bool
  | [] => true
  | (_, n) :: bs => n.declsPlaced false && Node.bindingDeclsPlaced bs

def Node.clauseDeclsPlaced : List (Lowered.Pattern × Node) → Bool
  | [] => true
  | (_, n) :: cs => n.declsPlaced true && Node.clauseDeclsPlaced cs

end

end Lowered

/-! ## Flattening -/

namespace Lowering

mutual

/-- The node is what is left of the expression without the `let`s of its scope. -/
inductive Flattens : Expr → Node → Prop
  | var {v : Var} {x : String} : Flattens (.var v) (.var x)
  | const {t : Tensor} : Flattens (.const t) (.literal t)
  | letIn {v : Var} {value body : Expr} {n : Node} :
    Flattens body n → Flattens (.letIn v value body) n
  | func {params : List Var} {body : Expr} {ret ret' : Ty} {name : Option String}
    {params' captures : List Param} {n : Node} : FlattensScope body n →
      Flattens (.func params body ret) (.func name params' captures n ret')
  | global {name : String} {id : FunctionId} : Flattens (.global name) (.global ⟨id, name⟩)
  | callKernel {name : String} {arity : Nat} {tupled : Bool} {args : List Expr} {ty : Ty}
    {ns : List Node} : FlattensAll args ns →
      Flattens (.call (.op name) args ty) (.packed name arity ns ty tupled)
  | callGlobal {name : String} {id : FunctionId} {args : List Expr} {ty : Ty} {ns : List Node} :
    FlattensAll args ns → Flattens (.call (.global name) args ty) (.invoke ⟨id, name⟩ ns)
  | call {callee : Expr} {args : List Expr} {ty : Ty} {n : Node} {ns : List Node} :
    callee.isReference = false → Flattens callee n → FlattensAll args ns →
      Flattens (.call callee args ty) (.apply n ns)
  | ite {cond onTrue onFalse : Expr} {ty ty' : Ty} {n nTrue nFalse : Node} :
    Flattens cond n → FlattensScope onTrue nTrue → FlattensScope onFalse nFalse →
      Flattens (.ite cond onTrue onFalse ty) (.ite n nTrue nFalse ty')
  | tuple {fields : List Expr} {ty ty' : Ty} {ns : List Node} :
    FlattensAll fields ns → Flattens (.tuple fields ty) (.tuple ns ty')
  | matchOn {data : Expr} {clauses : List (Source.Pattern × Expr)} {ty ty' : Ty} {n : Node}
    {cs : List (Lowered.Pattern × Node)} : Flattens data n → FlattensClauses clauses cs →
      Flattens (.matchOn data clauses ty) (.matchOn n cs ty')
  | construct {name : String} {tag : Nat} {fields : List Expr} {ty ty' : Ty} {ns : List Node} :
    FlattensAll fields ns → Flattens (.construct name fields ty) (.ctor tag name ns ty')

inductive FlattensAll : List Expr → List Node → Prop
  | nil : FlattensAll [] []
  | cons {e : Expr} {es : List Expr} {n : Node} {ns : List Node} :
    Flattens e n → FlattensAll es ns → FlattensAll (e :: es) (n :: ns)

inductive FlattensClauses : List (Source.Pattern × Expr) → List (Lowered.Pattern × Node) → Prop
  | nil : FlattensClauses [] []
  | cons {p : Source.Pattern} {q : Lowered.Pattern} {e : Expr} {n : Node}
    {rest : List (Source.Pattern × Expr)} {cs : List (Lowered.Pattern × Node)} :
    FlattensScope e n → FlattensClauses rest cs → FlattensClauses ((p, e) :: rest) ((q, n) :: cs)

/-- Each `let` has the binding in its place, with a name for its variable and what is left of its
value. -/
inductive FlattensLets : List (Var × Expr) → List (String × Node) → Prop
  | nil : FlattensLets [] []
  | cons {v : Var} {value : Expr} {k : Nat} {n : Node} {lets : List (Var × Expr)}
    {bs : List (String × Node)} : Flattens value n → FlattensLets lets bs →
      FlattensLets ((v, value) :: lets) ((numberedName v.name k, n) :: bs)

/-- A scope with `let`s is a declaration of all of them, and one without is none. -/
inductive FlattensScope : Expr → Node → Prop
  | plain {e : Expr} {n : Node} : e.lets = [] → Flattens e n → FlattensScope e n
  | decl {e : Expr} {bs : List (String × Node)} {n : Node} : e.lets ≠ [] → FlattensLets e.lets bs →
    Flattens e n → FlattensScope e (.decl bs n)

end

theorem FlattensLets.append {lets lets' : List (Var × Expr)} {bs bs' : List (String × Node)}
    (h : FlattensLets lets bs) (h' : FlattensLets lets' bs') :
    FlattensLets (lets ++ lets') (bs ++ bs') := by
  induction lets generalizing bs with
  | nil =>
    cases h
    exact h'
  | cons binding lets ih =>
    cases h with
    | cons hn hbs => exact .cons hn (ih hbs)

theorem FlattensLets.eq_nil_iff {lets : List (Var × Expr)} {bs : List (String × Node)}
    (h : FlattensLets lets bs) : lets = [] ↔ bs = [] := by
  cases h with
  | nil => exact iff_of_true rfl rfl
  | cons => exact iff_of_false (List.cons_ne_nil _ _) (List.cons_ne_nil _ _)

theorem FlattensScope.of_wrapDecl {e : Expr} {bs : List (String × Node)} {n a : Node}
    (hbs : FlattensLets e.lets bs) (hn : Flattens e n) (h : Node.wrapDecl bs n = .ok a) :
    FlattensScope e a := by
  by_cases hnil : bs = []
  · subst hnil
    cases h
    exact .plain (hbs.eq_nil_iff.mpr rfl) hn
  · rcases Node.wrapDecl_eq_ok h with ⟨hbs', -⟩ | rfl
    · exact absurd hbs' hnil
    · exact .decl (mt hbs.eq_nil_iff.mp hnil) hbs hn

section

variable {L : Linkage} {mode : Scoping}

/-- Lowering hands the `let`s of the scope on as bindings. -/
theorem flattens_cases : Lowers.Cases L mode
    (fun _ _ e bs n => FlattensLets e.lets bs ∧ Flattens e n)
    (fun _ _ es bs ns => FlattensLets (Expr.listLets es) bs ∧ FlattensAll es ns)
    (fun _ _ clauses cs => FlattensClauses clauses cs) where
  var _ _ := ⟨.nil, .var⟩
  const _ := ⟨.nil, .const⟩
  letFunction v params fbody body _ hfunction _ ihf ih := by
    -- the `let`s of the literal stay in its own scope
    have hscope := FlattensScope.of_wrapDecl ihf.1 ihf.2 hfunction.body_eq
    exact ⟨.cons (.func hscope) ih.1, .letIn ih.2⟩
  letValue _ _ _ _ _ _ ihv ih := ⟨ihv.1.append (.cons ihv.2 ih.1), .letIn ih.2⟩
  func _ _ _ hfunction ih := ⟨.nil, .func (.of_wrapDecl ih.1 ih.2 hfunction.body_eq)⟩
  global _ _ := ⟨.nil, .global⟩
  callKernel _ _ _ _ _ ihs := ⟨ihs.1, .callKernel ihs.2⟩
  callGlobal _ _ _ _ ihs := ⟨ihs.1, .callGlobal ihs.2⟩
  call _ _ hcallee _ _ ih ihs := ⟨ih.1.append ihs.1, .call hcallee ih.2 ihs.2⟩
  ite _ _ _ _ _ hwrapTrue _ hwrapFalse ihc iht ihf :=
    ⟨ihc.1, .ite ihc.2 (.of_wrapDecl iht.1 iht.2 hwrapTrue) (.of_wrapDecl ihf.1 ihf.2 hwrapFalse)⟩
  tuple _ _ ihs := ⟨ihs.1, .tuple ihs.2⟩
  matchOn _ _ _ _ ih ihs := ⟨ih.1, .matchOn ih.2 ihs⟩
  construct _ _ _ _ ihs := ⟨ihs.1, .construct ihs.2⟩
  nil := ⟨.nil, .nil⟩
  cons _ _ _ _ ih ihs := ⟨ih.1.append ihs.1, .cons ih.2 ihs.2⟩
  nilClause := .nil
  consClause _ _ _ _ _ hwrap _ ih ihs := .cons (.of_wrapDecl ih.1 ih.2 hwrap) ihs

theorem LowersDefinition.flattensScope {f : Source.Function} {f' : Lowered.Function}
    (h : LowersDefinition L mode f f') : FlattensScope f.body f'.body := by
  obtain ⟨bs, n, hbody, hwrap⟩ := h.body_eq
  obtain ⟨hbs, hn⟩ := flattens_cases.expr hbody
  exact .of_wrapDecl hbs hn hwrap

end

mutual

/-- What is left of an expression is no declaration, and has none outside the scopes in it. -/
theorem Flattens.declsPlaced : ∀ {e : Expr} {n : Node}, Flattens e n →
    ∀ scope, n.declsPlaced scope = true
  | _, _, .var, _ | _, _, .const, _ | _, _, .global, _ => rfl
  | _, _, .letIn h, scope => h.declsPlaced scope
  | _, _, .func h, _ => h.declsPlaced
  | _, _, .callKernel hs, _ | _, _, .callGlobal hs, _ => hs.declsPlaced
  | _, _, .tuple hs, _ | _, _, .construct hs, _ => hs.declsPlaced
  | _, _, .call _ h hs, _ => Bool.and_eq_true_iff.mpr ⟨h.declsPlaced false, hs.declsPlaced⟩
  | _, _, .ite h hTrue hFalse, _ => Bool.and_eq_true_iff.mpr
    ⟨h.declsPlaced false, Bool.and_eq_true_iff.mpr ⟨hTrue.declsPlaced, hFalse.declsPlaced⟩⟩
  | _, _, .matchOn h hs, _ => Bool.and_eq_true_iff.mpr ⟨h.declsPlaced false, hs.declsPlaced⟩

theorem FlattensAll.declsPlaced : ∀ {es : List Expr} {ns : List Node}, FlattensAll es ns →
    Node.listDeclsPlaced ns = true
  | _, _, .nil => rfl
  | _, _, .cons h hs => Bool.and_eq_true_iff.mpr ⟨h.declsPlaced false, hs.declsPlaced⟩

theorem FlattensClauses.declsPlaced : ∀ {clauses : List (Source.Pattern × Expr)}
    {cs : List (Lowered.Pattern × Node)}, FlattensClauses clauses cs →
    Node.clauseDeclsPlaced cs = true
  | _, _, .nil => rfl
  | _, _, .cons h hs => Bool.and_eq_true_iff.mpr ⟨h.declsPlaced, hs.declsPlaced⟩

theorem FlattensLets.declsPlaced : ∀ {lets : List (Var × Expr)} {bs : List (String × Node)},
    FlattensLets lets bs → Node.bindingDeclsPlaced bs = true
  | _, _, .nil => rfl
  | _, _, .cons h hs => Bool.and_eq_true_iff.mpr ⟨h.declsPlaced false, hs.declsPlaced⟩

theorem FlattensScope.declsPlaced : ∀ {e : Expr} {n : Node}, FlattensScope e n →
    n.declsPlaced true = true
  | _, _, .plain _ h => h.declsPlaced true
  | _, _, .decl _ hs h => Bool.and_eq_true_iff.mpr
    ⟨rfl, Bool.and_eq_true_iff.mpr ⟨hs.declsPlaced, h.declsPlaced false⟩⟩

end

/-- In a function that lowering has accepted, declarations stand only as whole bodies, branches and
clauses, and each of these scopes declares exactly its `let`s, in evaluation order. -/
theorem lets_flattened {f : Source.Function} {f' : Lowered.Function} (h : Accepts f f') :
    f'.body.declsPlaced true = true ∧ FlattensScope f.body f'.body := by
  obtain ⟨c, ret, s', g, g', hfunction⟩ := h
  have hscope : FlattensScope f.body f'.body := (function_threaded hfunction).flattensScope
  exact ⟨hscope.declsPlaced, hscope⟩

/-- A pair of `let a = (let b = x; b); a` and
`if (let c = x; c) { let d = fn () { let b = x; b }; d() } else { x }`. -/
def nestedLets : Source.Function :=
  let bool (id : Nat) (name : String) : Var := ⟨id, name, .scalar .bool⟩
  let copy (v : Var) : Expr := .letIn v (.var boolVar) (.var v)
  let d : Var := ⟨4, "d", .infer⟩
  { params := [boolVar]
    body := .tuple [
      .letIn (bool 1 "a") (copy (bool 2 "b")) (.var (bool 1 "a")),
      .ite (copy (bool 3 "c"))
        (.letIn d (.func [] (copy (bool 2 "b")) (.scalar .bool)) (.call (.var d) [] (.scalar .bool)))
        (.var boolVar) .infer] .infer }

def nestedLetsLowered : Lowered.Function where
  name := none
  params := [⟨"x_0", .scalar .bool⟩]
  captures := []
  body := .decl [("b_2", .var "x_0"), ("a_1", .var "b_2"), ("c_3", .var "x_0")]
    (.tuple [.var "a_1", .ite (.var "c_3")
      (.decl [("d_4", .func (some "d_4") [] [⟨"x_0", .scalar .bool⟩]
          (.decl [("b_5", .var "x_0")] (.var "b_5")) (.scalar .bool))]
        (.apply (.var "d_4") []))
      (.var "x_0") (.scalar .bool)] boolPair)
  ret := boolPair

/-- The branch and the literal keep their own `let`s; the others come together. -/
theorem nestedLets_flattened : Accepts nestedLets nestedLetsLowered ∧
    nestedLetsLowered.body.declsPlaced true = true ∧
    FlattensScope nestedLets.body nestedLetsLowered.body := by
  have h : standalone.function none nestedLets [] none (lowerExpr standalone nestedLets.body) {} {} =
      .ok (nestedLetsLowered, ⟨[], [], 6⟩) {} := rfl
  have haccepts : Accepts nestedLets nestedLetsLowered := ⟨standalone, none, _, {}, {}, h⟩
  exact ⟨haccepts, lets_flattened haccepts⟩

end Lowering

end TensorIR
