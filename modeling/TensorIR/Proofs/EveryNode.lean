import TensorIR.Lowered.Checked

/-! Properties of every node of a function body.

A property of nodes may depend on the names that are in scope where the node stands. A function body
sees its own name, its parameters and its captures, a binding those before it, and a clause the names
of its pattern. -/

namespace TensorIR.Lowered

/-- What the body of the function sees: its parameters, itself and its captures. -/
def Function.scope (f : Function) : List String :=
  f.params.map Param.name ++ (f.name.toList ++ f.captures.map Param.name)

mutual

/-- The property holds of the node and of all nodes inside it, at any depth, each with the names that
are in scope there. -/
def Node.Everywhere (P : List String → Node → Prop) : (scope : List String) → Node → Prop
  | scope, .var x => P scope (.var x)
  | scope, .literal t => P scope (.literal t)
  | scope, .global target => P scope (.global target)
  | scope, .decl bindings body =>
    P scope (.decl bindings body) ∧ Node.BindingsEverywhere P scope bindings ∧
      body.Everywhere P ((bindings.map Prod.fst).reverse ++ scope)
  | scope, .packed kernel arity args ty tupled =>
    P scope (.packed kernel arity args ty tupled) ∧ Node.AllEverywhere P scope args
  | scope, .invoke target args => P scope (.invoke target args) ∧ Node.AllEverywhere P scope args
  | scope, .apply callee args =>
    P scope (.apply callee args) ∧ callee.Everywhere P scope ∧ Node.AllEverywhere P scope args
  | scope, .func name params captures body ret =>
    P scope (.func name params captures body ret) ∧
      body.Everywhere P (Function.scope ⟨name, params, captures, body, ret⟩)
  | scope, .ite cond onTrue onFalse ty =>
    P scope (.ite cond onTrue onFalse ty) ∧ cond.Everywhere P scope ∧
      onTrue.Everywhere P scope ∧ onFalse.Everywhere P scope
  | scope, .tuple fields ty => P scope (.tuple fields ty) ∧ Node.AllEverywhere P scope fields
  | scope, .matchOn data clauses ty =>
    P scope (.matchOn data clauses ty) ∧ data.Everywhere P scope ∧
      Node.ClausesEverywhere P scope clauses
  | scope, .ctor tag name fields ty =>
    P scope (.ctor tag name fields ty) ∧ Node.AllEverywhere P scope fields

def Node.AllEverywhere (P : List String → Node → Prop) :
    (scope : List String) → List Node → Prop
  | _, [] => True
  | scope, n :: ns => n.Everywhere P scope ∧ Node.AllEverywhere P scope ns

/-- Every binding sees the ones before it. -/
def Node.BindingsEverywhere (P : List String → Node → Prop) :
    (scope : List String) → List (String × Node) → Prop
  | _, [] => True
  | scope, (x, n) :: rest => n.Everywhere P scope ∧ Node.BindingsEverywhere P (x :: scope) rest

def Node.ClausesEverywhere (P : List String → Node → Prop) :
    (scope : List String) → List (Pattern × Node) → Prop
  | _, [] => True
  | scope, (p, n) :: rest =>
    n.Everywhere P (p.boundNames ++ scope) ∧ Node.ClausesEverywhere P scope rest

end

namespace Node

variable {P Q : List String → Node → Prop} {scope scope' : List String}

/-- The first property gives the second one, and more names may be in scope for it. -/
def Widens (P Q : List String → Node → Prop) : Prop :=
  ∀ ⦃scope scope' : List String⦄ ⦃n : Node⦄, scope ⊆ scope' → P scope n → Q scope' n

theorem append_subset_append (names : List String) (h : scope ⊆ scope') :
    names ++ scope ⊆ names ++ scope' :=
  fun _ hx => List.mem_append.mpr ((List.mem_append.mp hx).imp_right fun hmem => h hmem)

mutual

theorem Everywhere.mono (hPQ : Widens P Q) : ∀ {n : Node} {scope scope' : List String},
    scope ⊆ scope' → n.Everywhere P scope → n.Everywhere Q scope'
  | .var _, _, _, hsub, h => hPQ hsub h
  | .literal _, _, _, hsub, h => hPQ hsub h
  | .global _, _, _, hsub, h => hPQ hsub h
  | .decl _ _, _, _, hsub, h =>
    ⟨hPQ hsub h.1, BindingsEverywhere.mono hPQ hsub h.2.1,
      Everywhere.mono hPQ (append_subset_append _ hsub) h.2.2⟩
  | .packed .., _, _, hsub, h => ⟨hPQ hsub h.1, AllEverywhere.mono hPQ hsub h.2⟩
  | .invoke _ _, _, _, hsub, h => ⟨hPQ hsub h.1, AllEverywhere.mono hPQ hsub h.2⟩
  | .apply _ _, _, _, hsub, h =>
    ⟨hPQ hsub h.1, Everywhere.mono hPQ hsub h.2.1, AllEverywhere.mono hPQ hsub h.2.2⟩
  | .func .., _, _, hsub, h => ⟨hPQ hsub h.1, Everywhere.mono hPQ (List.Subset.refl _) h.2⟩
  | .ite .., _, _, hsub, h =>
    ⟨hPQ hsub h.1, Everywhere.mono hPQ hsub h.2.1, Everywhere.mono hPQ hsub h.2.2.1,
      Everywhere.mono hPQ hsub h.2.2.2⟩
  | .tuple _ _, _, _, hsub, h => ⟨hPQ hsub h.1, AllEverywhere.mono hPQ hsub h.2⟩
  | .matchOn .., _, _, hsub, h =>
    ⟨hPQ hsub h.1, Everywhere.mono hPQ hsub h.2.1, ClausesEverywhere.mono hPQ hsub h.2.2⟩
  | .ctor .., _, _, hsub, h => ⟨hPQ hsub h.1, AllEverywhere.mono hPQ hsub h.2⟩

theorem AllEverywhere.mono (hPQ : Widens P Q) : ∀ {ns : List Node} {scope scope' : List String},
    scope ⊆ scope' → Node.AllEverywhere P scope ns → Node.AllEverywhere Q scope' ns
  | [], _, _, _, _ => trivial
  | _ :: _, _, _, hsub, h => ⟨Everywhere.mono hPQ hsub h.1, AllEverywhere.mono hPQ hsub h.2⟩

theorem BindingsEverywhere.mono (hPQ : Widens P Q) :
    ∀ {bs : List (String × Node)} {scope scope' : List String}, scope ⊆ scope' →
      Node.BindingsEverywhere P scope bs → Node.BindingsEverywhere Q scope' bs
  | [], _, _, _, _ => trivial
  | _ :: _, _, _, hsub, h =>
    ⟨Everywhere.mono hPQ hsub h.1, BindingsEverywhere.mono hPQ (List.cons_subset_cons _ hsub) h.2⟩

theorem ClausesEverywhere.mono (hPQ : Widens P Q) :
    ∀ {cs : List (Pattern × Node)} {scope scope' : List String}, scope ⊆ scope' →
      Node.ClausesEverywhere P scope cs → Node.ClausesEverywhere Q scope' cs
  | [], _, _, _, _ => trivial
  | _ :: _, _, _, hsub, h =>
    ⟨Everywhere.mono hPQ (append_subset_append _ hsub) h.1, ClausesEverywhere.mono hPQ hsub h.2⟩

end

section

variable {P Q : List String → Node → Prop}

mutual

theorem Everywhere.and : ∀ {n : Node} {scope : List String}, n.Everywhere P scope →
    n.Everywhere Q scope → n.Everywhere (fun scope n => P scope n ∧ Q scope n) scope
  | .var _, _, h, h' | .literal _, _, h, h' | .global _, _, h, h' => ⟨h, h'⟩
  | .decl _ _, _, h, h' =>
    ⟨⟨h.1, h'.1⟩, BindingsEverywhere.and h.2.1 h'.2.1, Everywhere.and h.2.2 h'.2.2⟩
  | .packed .., _, h, h' => ⟨⟨h.1, h'.1⟩, AllEverywhere.and h.2 h'.2⟩
  | .invoke _ _, _, h, h' => ⟨⟨h.1, h'.1⟩, AllEverywhere.and h.2 h'.2⟩
  | .apply _ _, _, h, h' =>
    ⟨⟨h.1, h'.1⟩, Everywhere.and h.2.1 h'.2.1, AllEverywhere.and h.2.2 h'.2.2⟩
  | .func .., _, h, h' => ⟨⟨h.1, h'.1⟩, Everywhere.and h.2 h'.2⟩
  | .ite .., _, h, h' =>
    ⟨⟨h.1, h'.1⟩, Everywhere.and h.2.1 h'.2.1, Everywhere.and h.2.2.1 h'.2.2.1,
      Everywhere.and h.2.2.2 h'.2.2.2⟩
  | .tuple _ _, _, h, h' => ⟨⟨h.1, h'.1⟩, AllEverywhere.and h.2 h'.2⟩
  | .matchOn .., _, h, h' =>
    ⟨⟨h.1, h'.1⟩, Everywhere.and h.2.1 h'.2.1, ClausesEverywhere.and h.2.2 h'.2.2⟩
  | .ctor .., _, h, h' => ⟨⟨h.1, h'.1⟩, AllEverywhere.and h.2 h'.2⟩

theorem AllEverywhere.and : ∀ {ns : List Node} {scope : List String}, Node.AllEverywhere P scope ns →
    Node.AllEverywhere Q scope ns → Node.AllEverywhere (fun scope n => P scope n ∧ Q scope n) scope ns
  | [], _, _, _ => trivial
  | _ :: _, _, h, h' => ⟨Everywhere.and h.1 h'.1, AllEverywhere.and h.2 h'.2⟩

theorem BindingsEverywhere.and : ∀ {bs : List (String × Node)} {scope : List String},
    Node.BindingsEverywhere P scope bs → Node.BindingsEverywhere Q scope bs →
      Node.BindingsEverywhere (fun scope n => P scope n ∧ Q scope n) scope bs
  | [], _, _, _ => trivial
  | _ :: _, _, h, h' => ⟨Everywhere.and h.1 h'.1, BindingsEverywhere.and h.2 h'.2⟩

theorem ClausesEverywhere.and : ∀ {cs : List (Pattern × Node)} {scope : List String},
    Node.ClausesEverywhere P scope cs → Node.ClausesEverywhere Q scope cs →
      Node.ClausesEverywhere (fun scope n => P scope n ∧ Q scope n) scope cs
  | [], _, _, _ => trivial
  | _ :: _, _, h, h' => ⟨Everywhere.and h.1 h'.1, ClausesEverywhere.and h.2 h'.2⟩

end

end

/-- The property holds of the node itself. -/
theorem Everywhere.here {n : Node} (h : n.Everywhere P scope) : P scope n := by
  cases n with
  | var | literal | global => exact h
  | _ => exact h.1

theorem allEverywhere_iff {ns : List Node} :
    Node.AllEverywhere P scope ns ↔ ∀ n ∈ ns, n.Everywhere P scope := by
  induction ns with
  | nil => simp [AllEverywhere]
  | cons n ns ih => simp [AllEverywhere, ih]

theorem bindingsEverywhere_append {bs bs' : List (String × Node)} :
    Node.BindingsEverywhere P scope (bs ++ bs') ↔ Node.BindingsEverywhere P scope bs ∧
      Node.BindingsEverywhere P ((bs.map Prod.fst).reverse ++ scope) bs' := by
  induction bs generalizing scope with
  | nil => simp [BindingsEverywhere]
  | cons b bs ih =>
    obtain ⟨x, n⟩ := b
    simp only [List.cons_append, BindingsEverywhere, ih, List.map_cons, List.reverse_cons,
      List.append_assoc, List.nil_append, and_assoc]

section

variable {R : Node → Prop}

/-- Properties that do not depend on the names in scope hold in any scope. -/
theorem Everywhere.inScope {n : Node} (h : n.Everywhere (fun _ => R) []) (scope : List String) :
    n.Everywhere (fun _ => R) scope := by
  have hwidens : Widens (fun _ => R) fun _ => R := fun _ _ _ _ hn => hn
  exact Everywhere.mono hwidens (List.nil_subset scope) h

theorem bindingsEverywhere_of_forall {bs : List (String × Node)}
    (h : ∀ b ∈ bs, b.2.Everywhere (fun _ => R) []) (scope : List String) :
    Node.BindingsEverywhere (fun _ => R) scope bs := by
  induction bs generalizing scope with
  | nil => exact trivial
  | cons b bs ih =>
    rw [List.forall_mem_cons] at h
    exact ⟨h.1.inScope scope, ih h.2 _⟩

theorem clausesEverywhere_of_forall {cs : List (Pattern × Node)}
    (h : ∀ clause ∈ cs, clause.2.Everywhere (fun _ => R) []) (scope : List String) :
    Node.ClausesEverywhere (fun _ => R) scope cs := by
  induction cs with
  | nil => exact trivial
  | cons clause cs ih =>
    rw [List.forall_mem_cons] at h
    exact ⟨h.1.inScope _, ih h.2⟩

end

/-- Bindings around a node are a declaration, unless there are none. -/
theorem wrapDecl_eq_ok {bs : List (String × Node)} {n a : Node} (h : wrapDecl bs n = .ok a) :
    bs = [] ∧ a = n ∨ a = .decl bs n := by
  cases bs with
  | nil =>
    cases h
    exact .inl ⟨rfl, rfl⟩
  | cons b bs =>
    rw [wrapDecl, mkDecl] at h
    simp only [List.isEmpty_cons, Bool.false_eq_true, if_false] at h
    split at h
    · cases h
    · cases h
      exact .inr rfl

theorem Everywhere.wrapDecl {bs : List (String × Node)} {n a : Node}
    (hdecl : P scope (.decl bs n)) (hbs : Node.BindingsEverywhere P scope bs)
    (hn : n.Everywhere P ((bs.map Prod.fst).reverse ++ scope)) (h : Node.wrapDecl bs n = .ok a) :
    a.Everywhere P scope := by
  rcases wrapDecl_eq_ok h with ⟨rfl, rfl⟩ | rfl
  · exact hn
  · exact ⟨hdecl, hbs, hn⟩

end Node

end TensorIR.Lowered
