import TensorIR.Lowered.Table
import TensorIR.Proofs.DataValues
import TensorIR.Proofs.PatternTyping

/-! Programs whose annotations are consistent.

The judgement `Node.Typed` gives a node the type of its parts: what it reads is in scope, what it
calls exists and gets arguments of the types of its parameters, and what is written on it agrees with
what stands inside it. -/

namespace TensorIR

open Source Lowered

/-! ## Names and types in a program -/

namespace Lowered

/-- The name by which a local function can call itself. -/
def Node.ownName? : Node → Option String
  | .func name .. => name
  | _ => none

mutual

/-- All names that are bound inside a node, at any depth: names of bindings and patterns, parameters,
and own names of local functions. -/
def Node.binders : Node → List String
  | .var _ | .literal _ | .global _ => []
  | .decl bindings body => Node.bindingBinders bindings ++ body.binders
  | .packed _ _ args _ _ | .invoke _ args => Node.listBinders args
  | .apply callee args => callee.binders ++ Node.listBinders args
  | .func name params _ body _ => name.toList ++ params.map Param.name ++ body.binders
  | .ite cond onTrue onFalse _ => cond.binders ++ onTrue.binders ++ onFalse.binders
  | .tuple fields _ | .ctor _ _ fields _ => Node.listBinders fields
  | .matchOn data clauses _ => data.binders ++ Node.clauseBinders clauses

def Node.listBinders : List Node → List String
  | [] => []
  | n :: ns => n.binders ++ Node.listBinders ns

/-- A binding shares its name with the function that it holds, if that has the same name. -/
def Node.bindingBinders : List (String × Node) → List String
  | [] => []
  | (x, n) :: rest =>
    (if n.ownName? = some x then n.binders else x :: n.binders) ++ Node.bindingBinders rest

def Node.clauseBinders : List (Pattern × Node) → List String
  | [] => []
  | (p, n) :: rest => p.boundNames ++ n.binders ++ Node.clauseBinders rest

end

namespace Node

theorem mem_bindingBinders_head {x : String} (n : Node) :
    x ∈ if n.ownName? = some x then n.binders else x :: n.binders := by
  split
  · next hown =>
    cases n with
    | func name params captures body ret =>
      cases hown
      simp [binders]
    | _ => cases hown
  · exact List.mem_cons_self

theorem binders_sublist_bindingBinders (x : String) (n : Node) :
    n.binders.Sublist (if n.ownName? = some x then n.binders else x :: n.binders) := by
  split
  · exact .refl _
  · exact List.sublist_cons_self _ _

end Node

mutual

/-- The node and all nodes inside it, at any depth. -/
def Node.nodes : Node → List Node
  | n@(.var _) | n@(.literal _) | n@(.global _) => [n]
  | n@(.decl bindings body) => n :: (Node.bindingNodes bindings ++ body.nodes)
  | n@(.packed _ _ args _ _) | n@(.invoke _ args) => n :: Node.listNodes args
  | n@(.apply callee args) => n :: (callee.nodes ++ Node.listNodes args)
  | n@(.func _ _ _ body _) => n :: body.nodes
  | n@(.ite cond onTrue onFalse _) => n :: (cond.nodes ++ (onTrue.nodes ++ onFalse.nodes))
  | n@(.tuple fields _) | n@(.ctor _ _ fields _) => n :: Node.listNodes fields
  | n@(.matchOn data clauses _) => n :: (data.nodes ++ Node.clauseNodes clauses)

def Node.listNodes : List Node → List Node
  | [] => []
  | n :: ns => n.nodes ++ Node.listNodes ns

def Node.bindingNodes : List (String × Node) → List Node
  | [] => []
  | (_, n) :: rest => n.nodes ++ Node.bindingNodes rest

def Node.clauseNodes : List (Pattern × Node) → List Node
  | [] => []
  | (_, n) :: rest => n.nodes ++ Node.clauseNodes rest

end

/-- All nodes of the functions of the program. -/
def Program.nodes (P : Program) : List Node := P.functions.flatMap fun entry => entry.2.body.nodes

/-- The names of the parameters with their types. -/
def paramContext (params : List Param) : Context := params.map fun p => (p.name, p.ty)

/-- What a local function finds in its frame besides its arguments: itself and its captures. -/
def Function.boundContext (f : Function) : Context :=
  (f.name.toList.map fun name => (name, f.fnType)) ++ paramContext f.captures

mutual

/-- The node has the given type when the names of the context have theirs. -/
inductive Node.Typed (P : Program) (types : TypeTable) : Context → Node → Ty → Prop
  | var {Γ : Context} {x : String} {ty : Ty} :
    Γ.lookup x = some ty → Node.Typed P types Γ (.var x) ty
  | literal {Γ : Context} {t : Tensor} : Node.Typed P types Γ (.literal t) t.ty
  | global {Γ : Context} {target : GlobalRef} {f : Function} :
    P.function? target.id = some f → Node.Typed P types Γ (.global target) f.fnType
  | decl {Γ Δ : Context} {bindings : List (String × Node)} {body : Node} {ty : Ty} :
    Node.BindingsTyped P types Γ bindings Δ → Node.Typed P types Δ body ty →
      Node.Typed P types Γ (.decl bindings body) ty
  | packed {Γ : Context} {kernel : String} {arity : Nat} {args : List Node} {tys : List Ty}
    {ty : Ty} :
    Node.AllTyped P types Γ args tys → ty.FunctionFree types →
      Node.Typed P types Γ (.packed kernel arity args ty false) ty
  | packedTuple {Γ : Context} {kernel : String} {arg : Node} {tys : List Ty} {ty : Ty} :
    Node.Typed P types Γ arg (.tuple tys) → ty.FunctionFree types →
      Node.Typed P types Γ (.packed kernel tys.length [arg] ty true) ty
  | invoke {Γ : Context} {target : GlobalRef} {f : Function} {args : List Node} :
    P.function? target.id = some f → Node.AllTyped P types Γ args (f.params.map Param.ty) →
      Node.Typed P types Γ (.invoke target args) f.ret
  | apply {Γ : Context} {callee : Node} {args : List Node} {tys : List Ty} {ty : Ty} :
    Node.Typed P types Γ callee (.func tys ty) → Node.AllTyped P types Γ args tys →
      Node.Typed P types Γ (.apply callee args) ty
  | func {Γ : Context} {name : Option String} {params captures : List Param} {body : Node}
    {ret : Ty} :
    (∀ c ∈ captures, Γ.lookup c.name = some c.ty) →
    Node.Typed P types
      (paramContext params ++ Function.boundContext ⟨name, params, captures, body, ret⟩) body ret →
      Node.Typed P types Γ (.func name params captures body ret) (.func (params.map Param.ty) ret)
  | ite {Γ : Context} {cond onTrue onFalse : Node} {ty : Ty} :
    Node.Typed P types Γ cond (.scalar .bool) → Node.Typed P types Γ onTrue ty →
    Node.Typed P types Γ onFalse ty → Node.Typed P types Γ (.ite cond onTrue onFalse ty) ty
  | tuple {Γ : Context} {fields : List Node} {tys : List Ty} :
    Node.AllTyped P types Γ fields tys →
      Node.Typed P types Γ (.tuple fields (.tuple tys)) (.tuple tys)
  | matchOn {Γ : Context} {data : Node} {clauses : List (Pattern × Node)} {dataTy ty : Ty} :
    Node.Typed P types Γ data dataTy → Node.ClausesTyped P types Γ dataTy clauses ty →
      Node.Typed P types Γ (.matchOn data clauses ty) ty
  | ctor {Γ : Context} {adt name : String} {tag : Nat} {fields : List Node} {tys : List Ty} :
    types.ctorFields? adt tag = some tys → Node.AllTyped P types Γ fields tys →
      Node.Typed P types Γ (.ctor tag name fields (.adt adt)) (.adt adt)

/-- As many nodes as types, each of its type. -/
inductive Node.AllTyped (P : Program) (types : TypeTable) :
    Context → List Node → List Ty → Prop
  | nil {Γ : Context} : Node.AllTyped P types Γ [] []
  | cons {Γ : Context} {n : Node} {ty : Ty} {ns : List Node} {tys : List Ty} :
    Node.Typed P types Γ n ty → Node.AllTyped P types Γ ns tys →
      Node.AllTyped P types Γ (n :: ns) (ty :: tys)

/-- The bindings, each in the scope of those before it, extend the context. -/
inductive Node.BindingsTyped (P : Program) (types : TypeTable) :
    Context → List (String × Node) → Context → Prop
  | nil {Γ : Context} : Node.BindingsTyped P types Γ [] Γ
  | cons {Γ Δ : Context} {x : String} {n : Node} {ty : Ty} {rest : List (String × Node)} :
    Node.Typed P types Γ n ty → Node.BindingsTyped P types ((x, ty) :: Γ) rest Δ →
      Node.BindingsTyped P types Γ ((x, n) :: rest) Δ

/-- Every pattern suits the type of what is matched, and every body has the type of the match. -/
inductive Node.ClausesTyped (P : Program) (types : TypeTable) :
    Context → Ty → List (Pattern × Node) → Ty → Prop
  | nil {Γ : Context} {dataTy ty : Ty} : Node.ClausesTyped P types Γ dataTy [] ty
  | cons {Γ Δ : Context} {dataTy ty : Ty} {p : Pattern} {body : Node}
    {rest : List (Pattern × Node)} :
    p.Typed types dataTy Δ → Node.Typed P types (Δ ++ Γ) body ty →
    Node.ClausesTyped P types Γ dataTy rest ty →
      Node.ClausesTyped P types Γ dataTy ((p, body) :: rest) ty

end

/-- The annotations of a program are consistent: every global function has the type that is written on
it in the scope of its parameters, and all names bound inside it differ. -/
def Program.ConsistentlyAnnotated (P : Program) (types : TypeTable) : Prop :=
  ∀ entry ∈ P.functions,
    Node.Typed P types (paramContext entry.2.params) entry.2.body entry.2.ret ∧
      (entry.2.params.map Param.name ++ entry.2.body.binders).Nodup

end Lowered

end TensorIR
