import Mathlib.Data.List.Forall2
import TensorIR.Lowered.Checked
import TensorIR.Proofs.FreeVariables
import TensorIR.Proofs.Naming

/-! Lowering as a relation.

`Lowers` relates an expression to the bindings and the node that stand for it, given what its
variables stand for and the number of the next name. The numbers are handed out in the order of
`Expr.binders`. Which names are in scope for the later parts of an expression depends on the way of
scoping: lexically the same as for the first part, and when the environment is threaded through the
parts also those that the earlier parts have left in it (`Expr.namingAfter`). -/

namespace TensorIR

open Source Lowered Lowering

/-! ## What an expression leaves in the environment -/

namespace Source

mutual

/-- What variables stand for after an expression, if its variables stay in the environment. Only
functions and clauses take theirs back. -/
@[simp] def Expr.namingAfter : Expr → (k : Nat) → Naming → Naming
  | .var _, _, σ | .const _, _, σ | .global _, _, σ | .op _, _, σ | .func .., _, σ => σ
  | .letIn v value body, k, σ =>
    body.namingAfter (k + 1 + value.binders.length)
      ((value.namingAfter (k + 1) σ).bind v.id (numberedName v.name k))
  | .call callee args _, k, σ =>
    Expr.namingAfterAll args (k + callee.binders.length) (callee.namingAfter k σ)
  | .ite cond onTrue onFalse _, k, σ =>
    onFalse.namingAfter (k + cond.binders.length + onTrue.binders.length)
      (onTrue.namingAfter (k + cond.binders.length) (cond.namingAfter k σ))
  | .tuple fields _, k, σ | .construct _ fields _, k, σ => Expr.namingAfterAll fields k σ
  | .matchOn data _ _, k, σ => data.namingAfter k σ

@[simp] def Expr.namingAfterAll : List Expr → (k : Nat) → Naming → Naming
  | [], _, σ => σ
  | e :: es, k, σ => Expr.namingAfterAll es (k + e.binders.length) (e.namingAfter k σ)

end

end Source

/-- The number of arguments of a kernel call and their form suit the kernel. -/
def KernelArity.Suits : KernelArity → (args arity : Nat) → (tupled : Bool) → Prop
  | .fixed n, args, arity, tupled => args = n ∧ arity = n ∧ tupled = false
  | .packed, args, _, tupled => args = 1 ∧ tupled = true

namespace Lowering

/-- How names come into scope for the later parts of an expression. -/
inductive Scoping where
  | lexical
  | threaded

/-- What variables stand for in the parts that follow an expression. -/
def Scoping.after : Scoping → Expr → (k : Nat) → Naming → Naming
  | .lexical, _, _, σ => σ
  | .threaded, e, k, σ => e.namingAfter k σ

/-! ## The relation -/

/-- What expressions refer to: constructors, kernels, and the places of globals. -/
structure Linkage where
  module : Module
  kernels : KernelRegistry
  place : String → FunctionId → Prop

mutual

/-- The pattern with its constructors resolved and its variables named with numbers from `k` on. -/
inductive LowersPattern (m : Module) : (k : Nat) → Source.Pattern → Lowered.Pattern → Prop
  | wildcard {k : Nat} : LowersPattern m k .wildcard .wildcard
  | var {k : Nat} {v : Var} : LowersPattern m k (.var v) (.bind (numberedName v.name k))
  | ctor {k : Nat} {name : String} {info : CtorInfo} {ps : List Source.Pattern}
    {qs : List Lowered.Pattern} : m.ctor? name = some info → LowersPatterns m k ps qs →
      LowersPattern m k (.ctor name ps) (.ctor info.tag name qs)
  | tuple {k : Nat} {ps : List Source.Pattern} {qs : List Lowered.Pattern} :
    LowersPatterns m k ps qs → LowersPattern m k (.tuple ps) (.tuple qs)

inductive LowersPatterns (m : Module) :
    (k : Nat) → List Source.Pattern → List Lowered.Pattern → Prop
  | nil {k : Nat} : LowersPatterns m k [] []
  | cons {k : Nat} {p : Source.Pattern} {q : Lowered.Pattern} {ps : List Source.Pattern}
    {qs : List Lowered.Pattern} : LowersPattern m k p q →
    LowersPatterns m (k + p.boundVars.length) ps qs → LowersPatterns m k (p :: ps) (q :: qs)

end

/-- The variables that a function literal captures, apart from its own one. -/
def captured (own : Option Nat) (params : List Var) (body : Expr) : List Var :=
  (body.collectFree (params.map Var.id) []).filter fun v => own ≠ some v.id

/-- The function stands for a literal whose body has been lowered to the bindings and the node.
A literal that is bound to a variable has it and its name as its own. -/
structure LowersFunction (σ : Naming) (k : Nat) (own : Option (Nat × String)) (params : List Var)
    (body : Expr) (bs : List (String × Node)) (n : Node) (f : Lowered.Function) : Prop where
  name_eq : f.name = own.map Prod.snd
  param_names : f.params.map Param.name = numberedNames params k
  capture_names : List.Forall₂ (fun v p => σ v.id = some p.name)
    (captured (own.map Prod.fst) params body) f.captures
  body_eq : Node.wrapDecl bs n = .ok f.body
  names_nodup : (f.name.toList ++ (f.params ++ f.captures).map Param.name).Nodup

mutual

/-- The bindings and the node stand for the expression. -/
inductive Lowers (L : Linkage) (mode : Scoping) :
    Naming → (k : Nat) → Expr → List (String × Node) → Node → Prop
  | var {σ : Naming} {k : Nat} {v : Var} {x : String} :
    σ v.id = some x → Lowers L mode σ k (.var v) [] (.var x)
  | const {σ : Naming} {k : Nat} {t : Tensor} : Lowers L mode σ k (.const t) [] (.literal t)
  | letFunction {σ : Naming} {k : Nat} {v : Var} {params : List Var} {fbody body : Expr} {ret : Ty}
    {bs₁ bs₂ : List (String × Node)} {n₁ n₂ : Node} {f : Lowered.Function} :
    Lowers L mode ((σ.bind v.id (numberedName v.name k)).bindVars params (k + 1))
      (k + 1 + params.length) fbody bs₁ n₁ →
    LowersFunction (σ.bind v.id (numberedName v.name k)) (k + 1)
      (some (v.id, numberedName v.name k)) params fbody bs₁ n₁ f →
    Lowers L mode (σ.bind v.id (numberedName v.name k))
      (k + 1 + (params.length + fbody.binders.length)) body bs₂ n₂ →
      Lowers L mode σ k (.letIn v (.func params fbody ret) body)
        ((numberedName v.name k, f.toNode) :: bs₂) n₂
  | letValue {σ : Naming} {k : Nat} {v : Var} {value body : Expr} {bs₁ bs₂ : List (String × Node)}
    {n₁ n₂ : Node} : value.isFunction = false → Lowers L mode σ (k + 1) value bs₁ n₁ →
    Lowers L mode ((mode.after value (k + 1) σ).bind v.id (numberedName v.name k))
      (k + 1 + value.binders.length) body bs₂ n₂ →
      Lowers L mode σ k (.letIn v value body) (bs₁ ++ (numberedName v.name k, n₁) :: bs₂) n₂
  | func {σ : Naming} {k : Nat} {params : List Var} {body : Expr} {ret : Ty}
    {bs : List (String × Node)} {n : Node} {f : Lowered.Function} :
    Lowers L mode (σ.bindVars params k) (k + params.length) body bs n →
    LowersFunction σ k none params body bs n f → Lowers L mode σ k (.func params body ret) [] f.toNode
  | global {σ : Naming} {k : Nat} {name : String} {id : FunctionId} :
    L.place name id → Lowers L mode σ k (.global name) [] (.global ⟨id, name⟩)
  | callKernel {σ : Naming} {k : Nat} {name : String} {kernel : Kernel} {arity : Nat}
    {tupled : Bool} {args : List Expr} {ty : Ty} {bs : List (String × Node)} {ns : List Node} :
    L.kernels.get? name = some kernel → kernel.arity.Suits args.length arity tupled →
    LowersAll L mode σ k args bs ns →
      Lowers L mode σ k (.call (.op name) args ty) bs (.packed name arity ns ty tupled)
  | callGlobal {σ : Naming} {k : Nat} {name : String} {id : FunctionId} {args : List Expr} {ty : Ty}
    {bs : List (String × Node)} {ns : List Node} : L.place name id →
    LowersAll L mode σ k args bs ns →
      Lowers L mode σ k (.call (.global name) args ty) bs (.invoke ⟨id, name⟩ ns)
  | call {σ : Naming} {k : Nat} {callee : Expr} {args : List Expr} {ty : Ty}
    {bs₁ bs₂ : List (String × Node)} {n : Node} {ns : List Node} : callee.isReference = false →
    Lowers L mode σ k callee bs₁ n →
    LowersAll L mode (mode.after callee k σ) (k + callee.binders.length) args bs₂ ns →
      Lowers L mode σ k (.call callee args ty) (bs₁ ++ bs₂) (.apply n ns)
  | ite {σ : Naming} {k : Nat} {cond onTrue onFalse : Expr} {ty ty' : Ty}
    {bs bs₁ bs₂ : List (String × Node)} {n n₁ n₂ nTrue nFalse : Node} :
    Lowers L mode σ k cond bs n →
    Lowers L mode (mode.after cond k σ) (k + cond.binders.length) onTrue bs₁ n₁ →
    Node.wrapDecl bs₁ n₁ = .ok nTrue →
    Lowers L mode (mode.after onTrue (k + cond.binders.length) (mode.after cond k σ))
      (k + cond.binders.length + onTrue.binders.length) onFalse bs₂ n₂ →
    Node.wrapDecl bs₂ n₂ = .ok nFalse →
      Lowers L mode σ k (.ite cond onTrue onFalse ty) bs (.ite n nTrue nFalse ty')
  | tuple {σ : Naming} {k : Nat} {fields : List Expr} {ty ty' : Ty} {bs : List (String × Node)}
    {ns : List Node} : LowersAll L mode σ k fields bs ns →
      Lowers L mode σ k (.tuple fields ty) bs (.tuple ns ty')
  | matchOn {σ : Naming} {k : Nat} {data : Expr} {clauses : List (Source.Pattern × Expr)}
    {ty ty' : Ty} {bs : List (String × Node)} {n : Node} {cs : List (Lowered.Pattern × Node)} :
    Lowers L mode σ k data bs n →
    LowersClauses L mode (mode.after data k σ) (k + data.binders.length) clauses cs →
      Lowers L mode σ k (.matchOn data clauses ty) bs (.matchOn n cs ty')
  | construct {σ : Naming} {k : Nat} {name : String} {info : CtorInfo} {fields : List Expr}
    {ty ty' : Ty} {bs : List (String × Node)} {ns : List Node} :
    L.module.ctor? name = some info → LowersAll L mode σ k fields bs ns →
      Lowers L mode σ k (.construct name fields ty) bs (.ctor info.tag name ns ty')

/-- The bindings of all expressions come before all nodes. -/
inductive LowersAll (L : Linkage) (mode : Scoping) :
    Naming → (k : Nat) → List Expr → List (String × Node) → List Node → Prop
  | nil {σ : Naming} {k : Nat} : LowersAll L mode σ k [] [] []
  | cons {σ : Naming} {k : Nat} {e : Expr} {es : List Expr} {bs₁ bs₂ : List (String × Node)}
    {n : Node} {ns : List Node} : Lowers L mode σ k e bs₁ n →
    LowersAll L mode (mode.after e k σ) (k + e.binders.length) es bs₂ ns →
      LowersAll L mode σ k (e :: es) (bs₁ ++ bs₂) (n :: ns)

/-- Every clause has its own variables and bindings, in both ways of scoping. -/
inductive LowersClauses (L : Linkage) (mode : Scoping) :
    Naming → (k : Nat) → List (Source.Pattern × Expr) → List (Lowered.Pattern × Node) → Prop
  | nil {σ : Naming} {k : Nat} : LowersClauses L mode σ k [] []
  | cons {σ : Naming} {k : Nat} {p : Source.Pattern} {q : Lowered.Pattern} {e : Expr}
    {rest : List (Source.Pattern × Expr)} {bs : List (String × Node)} {n body : Node}
    {cs : List (Lowered.Pattern × Node)} : LowersPattern L.module k p q →
    Lowers L mode (σ.bindVars p.boundVars k) (k + p.boundVars.length) e bs n →
    Node.wrapDecl bs n = .ok body →
    LowersClauses L mode σ (k + p.boundVars.length + e.binders.length) rest cs →
      LowersClauses L mode σ k ((p, e) :: rest) ((q, body) :: cs)

end

/-! ## Induction over derivations -/

/-- The cases of an induction over derivations: what each rule keeps, given its premises and what
holds of them. -/
structure Lowers.Cases (L : Linkage) (mode : Scoping)
    (P : Naming → Nat → Expr → List (String × Node) → Node → Prop)
    (Q : Naming → Nat → List Expr → List (String × Node) → List Node → Prop)
    (R : Naming → Nat → List (Source.Pattern × Expr) → List (Lowered.Pattern × Node) → Prop) :
    Prop where
  var : ∀ {σ k x} v, σ v.id = some x → P σ k (.var v) [] (.var x)
  const : ∀ {σ k} t, P σ k (.const t) [] (.literal t)
  letFunction : ∀ {σ k ret bs₁ bs₂ n₁ n₂ f} v params fbody body,
    Lowers L mode ((σ.bind v.id (numberedName v.name k)).bindVars params (k + 1))
      (k + 1 + params.length) fbody bs₁ n₁ →
    LowersFunction (σ.bind v.id (numberedName v.name k)) (k + 1)
      (some (v.id, numberedName v.name k)) params fbody bs₁ n₁ f →
    Lowers L mode (σ.bind v.id (numberedName v.name k))
      (k + 1 + (params.length + fbody.binders.length)) body bs₂ n₂ →
    P ((σ.bind v.id (numberedName v.name k)).bindVars params (k + 1)) (k + 1 + params.length) fbody
      bs₁ n₁ →
    P (σ.bind v.id (numberedName v.name k)) (k + 1 + (params.length + fbody.binders.length)) body
      bs₂ n₂ →
      P σ k (.letIn v (.func params fbody ret) body) ((numberedName v.name k, f.toNode) :: bs₂) n₂
  letValue : ∀ {σ k bs₁ bs₂ n₁ n₂} v value body, value.isFunction = false →
    Lowers L mode σ (k + 1) value bs₁ n₁ →
    Lowers L mode ((mode.after value (k + 1) σ).bind v.id (numberedName v.name k))
      (k + 1 + value.binders.length) body bs₂ n₂ →
    P σ (k + 1) value bs₁ n₁ →
    P ((mode.after value (k + 1) σ).bind v.id (numberedName v.name k)) (k + 1 + value.binders.length)
      body bs₂ n₂ →
      P σ k (.letIn v value body) (bs₁ ++ (numberedName v.name k, n₁) :: bs₂) n₂
  func : ∀ {σ k ret bs n f} params body,
    Lowers L mode (σ.bindVars params k) (k + params.length) body bs n →
    LowersFunction σ k none params body bs n f →
    P (σ.bindVars params k) (k + params.length) body bs n →
      P σ k (.func params body ret) [] f.toNode
  global : ∀ {σ k id} name, L.place name id → P σ k (.global name) [] (.global ⟨id, name⟩)
  callKernel : ∀ {σ k kernel arity tupled ty bs ns} name args, L.kernels.get? name = some kernel →
    kernel.arity.Suits args.length arity tupled → LowersAll L mode σ k args bs ns →
    Q σ k args bs ns → P σ k (.call (.op name) args ty) bs (.packed name arity ns ty tupled)
  callGlobal : ∀ {σ k id ty bs ns} name args, L.place name id → LowersAll L mode σ k args bs ns →
    Q σ k args bs ns → P σ k (.call (.global name) args ty) bs (.invoke ⟨id, name⟩ ns)
  call : ∀ {σ k ty bs₁ bs₂ n ns} callee args, callee.isReference = false →
    Lowers L mode σ k callee bs₁ n →
    LowersAll L mode (mode.after callee k σ) (k + callee.binders.length) args bs₂ ns →
    P σ k callee bs₁ n →
    Q (mode.after callee k σ) (k + callee.binders.length) args bs₂ ns →
      P σ k (.call callee args ty) (bs₁ ++ bs₂) (.apply n ns)
  ite : ∀ {σ k ty ty' bs bs₁ bs₂ n n₁ n₂ nTrue nFalse} cond onTrue onFalse,
    Lowers L mode σ k cond bs n →
    Lowers L mode (mode.after cond k σ) (k + cond.binders.length) onTrue bs₁ n₁ →
    Node.wrapDecl bs₁ n₁ = .ok nTrue →
    Lowers L mode (mode.after onTrue (k + cond.binders.length) (mode.after cond k σ))
      (k + cond.binders.length + onTrue.binders.length) onFalse bs₂ n₂ →
    Node.wrapDecl bs₂ n₂ = .ok nFalse → P σ k cond bs n →
    P (mode.after cond k σ) (k + cond.binders.length) onTrue bs₁ n₁ →
    P (mode.after onTrue (k + cond.binders.length) (mode.after cond k σ))
      (k + cond.binders.length + onTrue.binders.length) onFalse bs₂ n₂ →
      P σ k (.ite cond onTrue onFalse ty) bs (.ite n nTrue nFalse ty')
  tuple : ∀ {σ k ty ty' bs ns} fields, LowersAll L mode σ k fields bs ns → Q σ k fields bs ns →
    P σ k (.tuple fields ty) bs (.tuple ns ty')
  matchOn : ∀ {σ k ty ty' bs n cs} data clauses, Lowers L mode σ k data bs n →
    LowersClauses L mode (mode.after data k σ) (k + data.binders.length) clauses cs →
    P σ k data bs n → R (mode.after data k σ) (k + data.binders.length) clauses cs →
      P σ k (.matchOn data clauses ty) bs (.matchOn n cs ty')
  construct : ∀ {σ k info ty ty' bs ns} name fields, L.module.ctor? name = some info →
    LowersAll L mode σ k fields bs ns → Q σ k fields bs ns →
      P σ k (.construct name fields ty) bs (.ctor info.tag name ns ty')
  nil : ∀ {σ k}, Q σ k [] [] []
  cons : ∀ {σ k bs₁ bs₂ n ns} e es, Lowers L mode σ k e bs₁ n →
    LowersAll L mode (mode.after e k σ) (k + e.binders.length) es bs₂ ns → P σ k e bs₁ n →
    Q (mode.after e k σ) (k + e.binders.length) es bs₂ ns → Q σ k (e :: es) (bs₁ ++ bs₂) (n :: ns)
  nilClause : ∀ {σ k}, R σ k [] []
  consClause : ∀ {σ k q bs n body cs} p e rest, LowersPattern L.module k p q →
    Lowers L mode (σ.bindVars p.boundVars k) (k + p.boundVars.length) e bs n →
    Node.wrapDecl bs n = .ok body →
    LowersClauses L mode σ (k + p.boundVars.length + e.binders.length) rest cs →
    P (σ.bindVars p.boundVars k) (k + p.boundVars.length) e bs n →
    R σ (k + p.boundVars.length + e.binders.length) rest cs →
      R σ k ((p, e) :: rest) ((q, body) :: cs)

namespace Lowers.Cases

variable {L : Linkage} {mode : Scoping}
  {P : Naming → Nat → Expr → List (String × Node) → Node → Prop}
  {Q : Naming → Nat → List Expr → List (String × Node) → List Node → Prop}
  {R : Naming → Nat → List (Source.Pattern × Expr) → List (Lowered.Pattern × Node) → Prop}

mutual

theorem expr (h : Lowers.Cases L mode P Q R) :
    ∀ {σ k e bs n}, Lowers L mode σ k e bs n → P σ k e bs n
  | _, _, _, _, _, .var hx => h.var _ hx
  | _, _, _, _, _, .const => h.const _
  | _, _, _, _, _, .letFunction hf hfunction hbody =>
    h.letFunction _ _ _ _ hf hfunction hbody (h.expr hf) (h.expr hbody)
  | _, _, _, _, _, .letValue hvalue hv hbody =>
    h.letValue _ _ _ hvalue hv hbody (h.expr hv) (h.expr hbody)
  | _, _, _, _, _, .func hbody hfunction => h.func _ _ hbody hfunction (h.expr hbody)
  | _, _, _, _, _, .global hplace => h.global _ hplace
  | _, _, _, _, _, .callKernel hkernel hsuits hargs =>
    h.callKernel _ _ hkernel hsuits hargs (h.list hargs)
  | _, _, _, _, _, .callGlobal hplace hargs => h.callGlobal _ _ hplace hargs (h.list hargs)
  | _, _, _, _, _, .call hcallee hn hargs =>
    h.call _ _ hcallee hn hargs (h.expr hn) (h.list hargs)
  | _, _, _, _, _, .ite hn hTrue hwrapTrue hFalse hwrapFalse =>
    h.ite _ _ _ hn hTrue hwrapTrue hFalse hwrapFalse (h.expr hn) (h.expr hTrue) (h.expr hFalse)
  | _, _, _, _, _, .tuple hfields => h.tuple _ hfields (h.list hfields)
  | _, _, _, _, _, .matchOn hn hclauses =>
    h.matchOn _ _ hn hclauses (h.expr hn) (h.clauses hclauses)
  | _, _, _, _, _, .construct hinfo hfields => h.construct _ _ hinfo hfields (h.list hfields)

theorem list (h : Lowers.Cases L mode P Q R) :
    ∀ {σ k es bs ns}, LowersAll L mode σ k es bs ns → Q σ k es bs ns
  | _, _, _, _, _, .nil => h.nil
  | _, _, _, _, _, .cons hn hns => h.cons _ _ hn hns (h.expr hn) (h.list hns)

theorem clauses (h : Lowers.Cases L mode P Q R) :
    ∀ {σ k clauses cs}, LowersClauses L mode σ k clauses cs → R σ k clauses cs
  | _, _, _, _, .nil => h.nilClause
  | _, _, _, _, .cons hp hn hwrap hrest =>
    h.consClause _ _ _ hp hn hwrap hrest (h.expr hn) (h.clauses hrest)

end

end Lowers.Cases

/-! ## Definitions -/

/-- The function stands for a whole definition: it has no name and captures nothing. -/
structure LowersDefinition (L : Linkage) (mode : Scoping) (f : Source.Function)
    (f' : Lowered.Function) : Prop where
  name_eq : f'.name = none
  param_names : f'.params.map Param.name = numberedNames f.params 0
  captures_eq : f'.captures = []
  body_eq : ∃ bs n, Lowers L mode (Naming.empty.bindVars f.params 0) f.params.length f.body bs n ∧
    Node.wrapDecl bs n = .ok f'.body

end Lowering

end TensorIR
