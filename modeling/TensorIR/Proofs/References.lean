import TensorIR.Proofs.EveryNode

/-! References to globals in code.

`Node.mapRefs` puts other references in the place of those in a node. Nothing else in a node depends
on the places of globals: the checks on new nodes give the same answers with any references. -/

namespace TensorIR.Lowered

mutual

/-- The node with every reference to a global replaced. -/
def Node.mapRefs (φ : GlobalRef → GlobalRef) : Node → Node
  | .var x => .var x
  | .literal t => .literal t
  | .global target => .global (φ target)
  | .decl bindings body => .decl (Node.mapRefsBindings φ bindings) (body.mapRefs φ)
  | .packed kernel arity args ty tupled => .packed kernel arity (Node.mapRefsAll φ args) ty tupled
  | .invoke target args => .invoke (φ target) (Node.mapRefsAll φ args)
  | .apply callee args => .apply (callee.mapRefs φ) (Node.mapRefsAll φ args)
  | .func name params captures body ret => .func name params captures (body.mapRefs φ) ret
  | .ite cond onTrue onFalse ty => .ite (cond.mapRefs φ) (onTrue.mapRefs φ) (onFalse.mapRefs φ) ty
  | .tuple fields ty => .tuple (Node.mapRefsAll φ fields) ty
  | .matchOn data clauses ty => .matchOn (data.mapRefs φ) (Node.mapRefsClauses φ clauses) ty
  | .ctor tag name fields ty => .ctor tag name (Node.mapRefsAll φ fields) ty

def Node.mapRefsAll (φ : GlobalRef → GlobalRef) : List Node → List Node
  | [] => []
  | n :: ns => n.mapRefs φ :: Node.mapRefsAll φ ns

def Node.mapRefsBindings (φ : GlobalRef → GlobalRef) : List (String × Node) → List (String × Node)
  | [] => []
  | (x, n) :: rest => (x, n.mapRefs φ) :: Node.mapRefsBindings φ rest

def Node.mapRefsClauses (φ : GlobalRef → GlobalRef) :
    List (Pattern × Node) → List (Pattern × Node)
  | [] => []
  | (p, n) :: rest => (p, n.mapRefs φ) :: Node.mapRefsClauses φ rest

end

/-- The function with every reference in its body replaced. -/
def Function.mapRefs (φ : GlobalRef → GlobalRef) (f : Function) : Function :=
  { f with body := f.body.mapRefs φ }

theorem bind_eq_map_bind {ε α β γ : Type} {φ : β → γ} {x : Except ε α} {f : α → Except ε β}
    {f' : α → Except ε γ} (h : ∀ a, f' a = (f a).map φ) : (x >>= f') = (x >>= f).map φ := by
  cases x with
  | error e => rfl
  | ok a => exact h a

namespace Node

section

variable {φ ψ : GlobalRef → GlobalRef}

/-! ## Laws -/

mutual

theorem mapRefs_id : ∀ n : Node, n.mapRefs id = n
  | .var _ | .literal _ | .global _ => rfl
  | .decl bindings body => by rw [mapRefs, mapRefsBindings_id bindings, mapRefs_id body]
  | .packed _ _ args _ _ => by rw [mapRefs, mapRefsAll_id args]
  | .invoke _ args => by rw [mapRefs, mapRefsAll_id args]; rfl
  | .apply callee args => by rw [mapRefs, mapRefs_id callee, mapRefsAll_id args]
  | .func _ _ _ body _ => by rw [mapRefs, mapRefs_id body]
  | .ite cond onTrue onFalse _ => by
    rw [mapRefs, mapRefs_id cond, mapRefs_id onTrue, mapRefs_id onFalse]
  | .tuple fields _ => by rw [mapRefs, mapRefsAll_id fields]
  | .matchOn data clauses _ => by rw [mapRefs, mapRefs_id data, mapRefsClauses_id clauses]
  | .ctor _ _ fields _ => by rw [mapRefs, mapRefsAll_id fields]

theorem mapRefsAll_id : ∀ ns : List Node, Node.mapRefsAll id ns = ns
  | [] => rfl
  | n :: ns => by rw [mapRefsAll, mapRefs_id n, mapRefsAll_id ns]

theorem mapRefsBindings_id : ∀ bs : List (String × Node), Node.mapRefsBindings id bs = bs
  | [] => rfl
  | (x, n) :: bs => by rw [mapRefsBindings, mapRefs_id n, mapRefsBindings_id bs]

theorem mapRefsClauses_id : ∀ cs : List (Pattern × Node), Node.mapRefsClauses id cs = cs
  | [] => rfl
  | (p, n) :: cs => by rw [mapRefsClauses, mapRefs_id n, mapRefsClauses_id cs]

end

mutual

theorem mapRefs_mapRefs : ∀ n : Node, (n.mapRefs φ).mapRefs ψ = n.mapRefs (ψ ∘ φ)
  | .var _ | .literal _ | .global _ => rfl
  | .decl bindings body => by
    simp only [mapRefs, mapRefsBindings_mapRefsBindings bindings, mapRefs_mapRefs body]
  | .packed _ _ args _ _ => by simp only [mapRefs, mapRefsAll_mapRefsAll args]
  | .invoke _ args => by simp only [mapRefs, mapRefsAll_mapRefsAll args, Function.comp]
  | .apply callee args => by
    simp only [mapRefs, mapRefs_mapRefs callee, mapRefsAll_mapRefsAll args]
  | .func _ _ _ body _ => by simp only [mapRefs, mapRefs_mapRefs body]
  | .ite cond onTrue onFalse _ => by
    simp only [mapRefs, mapRefs_mapRefs cond, mapRefs_mapRefs onTrue, mapRefs_mapRefs onFalse]
  | .tuple fields _ => by simp only [mapRefs, mapRefsAll_mapRefsAll fields]
  | .matchOn data clauses _ => by
    simp only [mapRefs, mapRefs_mapRefs data, mapRefsClauses_mapRefsClauses clauses]
  | .ctor _ _ fields _ => by simp only [mapRefs, mapRefsAll_mapRefsAll fields]

theorem mapRefsAll_mapRefsAll : ∀ ns : List Node,
    Node.mapRefsAll ψ (Node.mapRefsAll φ ns) = Node.mapRefsAll (ψ ∘ φ) ns
  | [] => rfl
  | n :: ns => by simp only [mapRefsAll, mapRefs_mapRefs n, mapRefsAll_mapRefsAll ns]

theorem mapRefsBindings_mapRefsBindings : ∀ bs : List (String × Node),
    Node.mapRefsBindings ψ (Node.mapRefsBindings φ bs) = Node.mapRefsBindings (ψ ∘ φ) bs
  | [] => rfl
  | (x, n) :: bs => by
    simp only [mapRefsBindings, mapRefs_mapRefs n, mapRefsBindings_mapRefsBindings bs]

theorem mapRefsClauses_mapRefsClauses : ∀ cs : List (Pattern × Node),
    Node.mapRefsClauses ψ (Node.mapRefsClauses φ cs) = Node.mapRefsClauses (ψ ∘ φ) cs
  | [] => rfl
  | (p, n) :: cs => by
    simp only [mapRefsClauses, mapRefs_mapRefs n, mapRefsClauses_mapRefsClauses cs]

end

/-- The property of nodes gives the same replacement for the reference that a node holds. -/
structure RefsAgree (P : List String → Node → Prop) (φ ψ : GlobalRef → GlobalRef) : Prop where
  global : ∀ ⦃scope target⦄, P scope (.global target) → φ target = ψ target
  invoke : ∀ ⦃scope target args⦄, P scope (.invoke target args) → φ target = ψ target

mutual

/-- Only the replacements for references that occur matter. -/
theorem mapRefs_congr {P : List String → Node → Prop} (h : RefsAgree P φ ψ) :
    ∀ {n : Node} {scope : List String}, n.Everywhere P scope → n.mapRefs φ = n.mapRefs ψ
  | .var _, _, _ | .literal _, _, _ => rfl
  | .global _, _, hn => by rw [mapRefs, mapRefs, h.global hn]
  | .decl .., _, hn => by
    rw [mapRefs, mapRefs, mapRefsBindings_congr h hn.2.1, mapRefs_congr h hn.2.2]
  | .packed .., _, hn => by rw [mapRefs, mapRefs, mapRefsAll_congr h hn.2]
  | .invoke .., _, hn => by rw [mapRefs, mapRefs, h.invoke hn.1, mapRefsAll_congr h hn.2]
  | .apply .., _, hn => by
    rw [mapRefs, mapRefs, mapRefs_congr h hn.2.1, mapRefsAll_congr h hn.2.2]
  | .func .., _, hn => by rw [mapRefs, mapRefs, mapRefs_congr h hn.2]
  | .ite .., _, hn => by
    rw [mapRefs, mapRefs, mapRefs_congr h hn.2.1, mapRefs_congr h hn.2.2.1,
      mapRefs_congr h hn.2.2.2]
  | .tuple .., _, hn => by rw [mapRefs, mapRefs, mapRefsAll_congr h hn.2]
  | .matchOn .., _, hn => by
    rw [mapRefs, mapRefs, mapRefs_congr h hn.2.1, mapRefsClauses_congr h hn.2.2]
  | .ctor .., _, hn => by rw [mapRefs, mapRefs, mapRefsAll_congr h hn.2]

theorem mapRefsAll_congr {P : List String → Node → Prop} (h : RefsAgree P φ ψ) :
    ∀ {ns : List Node} {scope : List String}, Node.AllEverywhere P scope ns →
      Node.mapRefsAll φ ns = Node.mapRefsAll ψ ns
  | [], _, _ => rfl
  | _ :: _, _, hns => by
    rw [mapRefsAll, mapRefsAll, mapRefs_congr h hns.1, mapRefsAll_congr h hns.2]

theorem mapRefsBindings_congr {P : List String → Node → Prop} (h : RefsAgree P φ ψ) :
    ∀ {bs : List (String × Node)} {scope : List String}, Node.BindingsEverywhere P scope bs →
      Node.mapRefsBindings φ bs = Node.mapRefsBindings ψ bs
  | [], _, _ => rfl
  | (_, _) :: _, _, hbs => by
    rw [mapRefsBindings, mapRefsBindings, mapRefs_congr h hbs.1, mapRefsBindings_congr h hbs.2]

theorem mapRefsClauses_congr {P : List String → Node → Prop} (h : RefsAgree P φ ψ) :
    ∀ {cs : List (Pattern × Node)} {scope : List String}, Node.ClausesEverywhere P scope cs →
      Node.mapRefsClauses φ cs = Node.mapRefsClauses ψ cs
  | [], _, _ => rfl
  | (_, _) :: _, _, hcs => by
    rw [mapRefsClauses, mapRefsClauses, mapRefs_congr h hcs.1, mapRefsClauses_congr h hcs.2]

end

/-! ## Lists -/

theorem length_mapRefsAll (ns : List Node) : (Node.mapRefsAll φ ns).length = ns.length := by
  induction ns with
  | nil => rfl
  | cons n ns ih => rw [mapRefsAll, List.length_cons, ih, List.length_cons]

theorem mapRefsBindings_append (bs bs' : List (String × Node)) :
    Node.mapRefsBindings φ (bs ++ bs') =
      Node.mapRefsBindings φ bs ++ Node.mapRefsBindings φ bs' := by
  induction bs with
  | nil => rfl
  | cons b bs ih =>
    obtain ⟨x, n⟩ := b
    rw [List.cons_append, mapRefsBindings, ih, mapRefsBindings, List.cons_append]

theorem names_mapRefsBindings (bs : List (String × Node)) :
    (Node.mapRefsBindings φ bs).map Prod.fst = bs.map Prod.fst := by
  induction bs with
  | nil => rfl
  | cons b bs ih =>
    obtain ⟨x, n⟩ := b
    rw [mapRefsBindings, List.map_cons, ih, List.map_cons]

theorem patterns_mapRefsClauses (cs : List (Pattern × Node)) :
    (Node.mapRefsClauses φ cs).map Prod.fst = cs.map Prod.fst := by
  induction cs with
  | nil => rfl
  | cons c cs ih =>
    obtain ⟨p, n⟩ := c
    rw [mapRefsClauses, List.map_cons, ih, List.map_cons]

/-! ## Checked nodes -/

theorem wrapDecl_mapRefs (bs : List (String × Node)) (n : Node) :
    wrapDecl (Node.mapRefsBindings φ bs) (n.mapRefs φ) = (wrapDecl bs n).map (mapRefs φ) := by
  cases bs with
  | nil => rfl
  | cons b bs =>
    have hnames := names_mapRefsBindings (φ := φ) (b :: bs)
    obtain ⟨x, n'⟩ := b
    rw [mapRefsBindings] at hnames ⊢
    simp only [wrapDecl, mkDecl, List.isEmpty_cons, Bool.false_eq_true, if_false, hnames]
    split
    · rfl
    · rfl

theorem mkPacked_mapRefs (kernel : String) (arity : Nat) (args : List Node) (ty : Ty)
    (tupled : Bool) : mkPacked kernel arity (Node.mapRefsAll φ args) ty tupled =
      (mkPacked kernel arity args ty tupled).map (mapRefs φ) := by
  have hwidth : (Node.mapRefsAll φ args).head?.bind tupleWidth? = args.head?.bind tupleWidth? := by
    cases args with
    | nil => rfl
    | cons n ns => cases n <;> simp [mapRefsAll, mapRefs, tupleWidth?, length_mapRefsAll]
  unfold mkPacked
  rw [hwidth, length_mapRefsAll]
  refine bind_eq_map_bind fun _ => ?_
  cases tupled with
  | false => exact bind_eq_map_bind fun _ => rfl
  | true =>
    refine bind_eq_map_bind fun _ => ?_
    cases args.head?.bind tupleWidth? with
    | none => rfl
    | some width => exact bind_eq_map_bind fun _ => rfl

theorem mkIte_mapRefs (cond onTrue onFalse : Node) (ty : Ty) :
    mkIte (cond.mapRefs φ) (onTrue.mapRefs φ) (onFalse.mapRefs φ) ty =
      (mkIte cond onTrue onFalse ty).map (mapRefs φ) :=
  bind_eq_map_bind fun _ => rfl

theorem mkTuple_mapRefs (fields : List Node) (ty : Ty) :
    mkTuple (Node.mapRefsAll φ fields) ty = (mkTuple fields ty).map (mapRefs φ) := by
  unfold mkTuple
  rw [length_mapRefsAll]
  refine bind_eq_map_bind fun _ => ?_
  cases ty with
  | tuple tys => exact bind_eq_map_bind fun _ => rfl
  | _ => rfl

theorem mkMatch_mapRefs (data : Node) (clauses : List (Pattern × Node)) (ty : Ty) :
    mkMatch (data.mapRefs φ) (Node.mapRefsClauses φ clauses) ty =
      (mkMatch data clauses ty).map (mapRefs φ) :=
  bind_eq_map_bind fun _ => rfl

theorem mkCtor_mapRefs (tag arity : Nat) (name : String) (fields : List Node) (ty : Ty) :
    mkCtor tag name arity (Node.mapRefsAll φ fields) ty =
      (mkCtor tag name arity fields ty).map (mapRefs φ) := by
  unfold mkCtor
  rw [length_mapRefsAll]
  exact bind_eq_map_bind fun _ => bind_eq_map_bind fun _ => rfl

end

end Node

theorem Function.mapRefs_id (f : Function) : f.mapRefs id = f := by
  rw [Function.mapRefs, Node.mapRefs_id]

theorem Function.mapRefs_mapRefs {φ ψ : GlobalRef → GlobalRef} (f : Function) :
    (f.mapRefs φ).mapRefs ψ = f.mapRefs (ψ ∘ φ) := by
  simp only [Function.mapRefs, Node.mapRefs_mapRefs]

theorem Function.mapRefs_congr {P : List String → Node → Prop} {φ ψ : GlobalRef → GlobalRef}
    (h : Node.RefsAgree P φ ψ) {f : Function} {scope : List String}
    (hf : f.body.Everywhere P scope) : f.mapRefs φ = f.mapRefs ψ := by
  rw [Function.mapRefs, Node.mapRefs_congr h hf]
  rfl

theorem Function.mkChecked_mapRefs {φ : GlobalRef → GlobalRef} (name : Option String)
    (params captures : List Param) (body : Node) (ret : Ty) :
    Function.mkChecked name params captures (body.mapRefs φ) ret =
      (Function.mkChecked name params captures body ret).map (Function.mapRefs φ) :=
  bind_eq_map_bind fun _ => bind_eq_map_bind fun _ => rfl

end TensorIR.Lowered
