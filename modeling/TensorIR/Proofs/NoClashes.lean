import TensorIR.Proofs.DistinctBinders
import TensorIR.Proofs.Requests
import TensorIR.Proofs.UnitHistory

/-! Lowering never fails because of names.

Two checks refuse names that clash: that of a declaration and that of a function. Other steps never do
(`Clean`). Whenever a scope is closed, its bindings have been lowered already, so they have the names
of different binders. When a function is built, its parameters have just been named, and what it
captures are the names of different variables from outside. -/

namespace TensorIR

open Source Lowered Lowering

/-- The node is refused because of its names. -/
def Lowered.NodeError.isClash : NodeError → Bool
  | .emptyDecl | .duplicateBinding _ | .duplicateParam .. => true
  | _ => false

/-- Lowering fails because of the names in a node. -/
def Lowering.LowerError.isClash : LowerError → Bool
  | .invalidNode _ cause => cause.isClash
  | _ => false

/-! ## Checks of nodes -/

namespace Lowered

/-- The check succeeds, or it fails for another reason than names. -/
def ClashFree {α : Type} (r : Except NodeError α) : Prop := ∀ e, r = .error e → e.isClash = false

namespace ClashFree

variable {α β : Type}

theorem ok (a : α) : ClashFree (.ok a) := by
  intro e h
  cases h

theorem error {cause : NodeError} (h : cause.isClash = false) :
    ClashFree (.error cause : Except NodeError α) := by
  intro e heq
  cases heq
  exact h

theorem bind {x : Except NodeError α} {f : α → Except NodeError β} (hx : ClashFree x)
    (hf : ∀ a, ClashFree (f a)) : ClashFree (x >>= f) := by
  cases x with
  | ok a => exact hf a
  | error cause => exact .error (hx cause rfl)

end ClashFree

theorem requireResolved_clashFree (node : String) (ty : Ty) :
    ClashFree (requireResolved node ty) := by
  unfold requireResolved
  split
  · exact .ok _
  · exact .error rfl

theorem requireArity_clashFree (node : String) (expected found : Nat) :
    ClashFree (requireArity node expected found) := by
  unfold requireArity
  split
  · exact .ok _
  · exact .error rfl

theorem mkPacked_clashFree (kernel : String) (arity : Nat) (args : List Node) (ty : Ty)
    (tupled : Bool) : ClashFree (Node.mkPacked kernel arity args ty tupled) := by
  refine (requireResolved_clashFree _ ty).bind fun _ => ?_
  cases tupled with
  | false => exact (requireArity_clashFree _ _ _).bind fun _ => .ok _
  | true =>
    refine (requireArity_clashFree _ _ _).bind fun _ => ?_
    split
    · exact (requireArity_clashFree _ _ _).bind fun _ => .ok _
    · exact .ok _

theorem mkIte_clashFree (cond onTrue onFalse : Node) (ty : Ty) :
    ClashFree (Node.mkIte cond onTrue onFalse ty) :=
  (requireResolved_clashFree _ ty).bind fun _ => .ok _

theorem mkTuple_clashFree (fields : List Node) (ty : Ty) : ClashFree (Node.mkTuple fields ty) := by
  refine (requireResolved_clashFree _ ty).bind fun _ => ?_
  split
  · exact (requireArity_clashFree _ _ _).bind fun _ => .ok _
  · exact .error rfl

theorem mkMatch_clashFree (data : Node) (clauses : List (Pattern × Node)) (ty : Ty) :
    ClashFree (Node.mkMatch data clauses ty) :=
  (requireResolved_clashFree _ ty).bind fun _ => .ok _

theorem mkCtor_clashFree (tag arity : Nat) (name : String) (fields : List Node) (ty : Ty) :
    ClashFree (Node.mkCtor tag name arity fields ty) :=
  (requireResolved_clashFree _ ty).bind fun _ =>
    (requireArity_clashFree _ _ _).bind fun _ => .ok _

/-- The next of different names has not been seen, and with it in front they still differ. -/
theorem nodup_middle {x : String} {seen xs : List String} (h : (seen ++ x :: xs).Nodup) :
    x ∉ seen ∧ (x :: seen ++ xs).Nodup := by
  have hfront := List.perm_middle.nodup_iff.mp h
  exact ⟨fun hx => (List.nodup_cons.mp hfront).1 (List.mem_append_left _ hx), hfront⟩

theorem firstRepeat?_eq_none {seen xs : List String} (h : (seen ++ xs).Nodup) :
    firstRepeat? seen xs = none := by
  induction xs generalizing seen with
  | nil => rfl
  | cons x xs ih =>
    obtain ⟨hnew, hrest⟩ := nodup_middle h
    rw [firstRepeat?, if_neg (by simpa using hnew)]
    exact ih hrest

/-- Different names can be bound together. -/
theorem wrapDecl_clashFree {bs : List (String × Node)} (h : (bs.map Prod.fst).Nodup) (n : Node) :
    ClashFree (Node.wrapDecl bs n) := by
  unfold Node.wrapDecl
  split
  · exact .ok _
  · next hne =>
    rw [Node.mkDecl, if_neg hne, firstRepeat?_eq_none h]
    exact .ok _

theorem checkParams_clashFree {func : String} {seen : List String} {ps : List Param}
    (h : (seen ++ ps.map Param.name).Nodup) : ClashFree (Function.checkParams func seen ps) := by
  induction ps generalizing seen with
  | nil => exact .ok _
  | cons p ps ih =>
    obtain ⟨hnew, hrest⟩ := nodup_middle h
    rw [Function.checkParams, if_neg (by simpa using hnew)]
    split
    · exact .error rfl
    · exact ih hrest

/-- A function whose own name, parameters and captures have different names is not refused because of
them. -/
theorem mkChecked_clashFree {name : Option String} {params captures : List Param}
    (h : (name.toList ++ (params ++ captures).map Param.name).Nodup) (body : Node) (ret : Ty) :
    ClashFree (Function.mkChecked name params captures body ret) :=
  (checkParams_clashFree h).bind fun _ => (requireResolved_clashFree _ ret).bind fun _ => .ok _

end Lowered

/-! ## Clean steps -/

namespace Lowering

/-- The step has succeeded, or failed for another reason than names. -/
def Unclashing {α : Type} (r : EStateM.Result LowerError Progress α) : Prop :=
  ∀ e g, r = .error e g → e.isClash = false

namespace Unclashing

variable {α β : Type} {s : Scope} {g : Progress}

theorem ok (a : α) (g : Progress) : Unclashing (.ok a g) := by
  intro e g' h
  cases h

theorem error {cause : LowerError} (h : cause.isClash = false) (g : Progress) :
    Unclashing (.error cause g : EStateM.Result LowerError Progress α) := by
  intro e g' heq
  cases heq
  exact h

theorem bind {x : BodyM α} {f : α → BodyM β} (hx : Unclashing (x s g))
    (hf : ∀ a s' g', x s g = .ok (a, s') g' → Unclashing (f a s' g')) :
    Unclashing ((x >>= f) s g) := by
  rw [bind_apply]
  cases hr : x s g with
  | ok r g' => exact hf r.1 r.2 g' hr
  | error cause g' => exact .error (hx cause g' hr) g'

theorem shared_bind {x : LowerM α} {f : α → LowerM β} (hx : Unclashing (x g))
    (hf : ∀ a g', Unclashing (f a g')) : Unclashing ((x >>= f) g) := by
  cases hr : x g with
  | ok a g' =>
    rw [shared_bind_of_ok hr]
    exact hf a g'
  | error cause g' =>
    rw [shared_bind_of_error hr]
    exact .error (hx cause g' hr) g'

theorem lift {x : LowerM α} (h : Unclashing (x g)) : Unclashing ((liftM x : BodyM α) s g) :=
  h.shared_bind fun a g' => .ok (a, s) g'

end Unclashing

/-- The step never fails because of names. -/
def Clean {α : Type} (x : BodyM α) : Prop := ∀ s g, Unclashing (x s g)

namespace Clean

variable {α β : Type}

theorem pure (a : α) : Clean (Pure.pure a : BodyM α) := fun s g => .ok (a, s) g

theorem throw {e : LowerError} (h : e.isClash = false) : Clean (MonadExcept.throw e : BodyM α) :=
  fun _ g => .error h g

theorem get : Clean (MonadState.get : BodyM Scope) := fun s g => .ok (s, s) g

theorem change (f : Scope → Scope) : Clean (modify f : BodyM PUnit) := by
  intro s g
  have hmodify : (modify f : BodyM PUnit) s g = .ok (⟨⟩, f s) g := rfl
  rw [hmodify]
  exact .ok _ g

theorem bind {x : BodyM α} {f : α → BodyM β} (hx : Clean x) (hf : ∀ a, Clean (f a)) :
    Clean (x >>= f) :=
  fun s g => (hx s g).bind fun a s' g' _ => hf a s' g'

end Clean

theorem LowerError.isClash_of_refusesNode {e : LowerError} (h : e.refusesNode = false) :
    e.isClash = false := by
  cases e with
  | invalidNode => cases h
  | _ => rfl

/-- A simple step refuses no node. -/
theorem Simple.clean {α : Type} {x : BodyM α} (h : Simple x) : Clean x := by
  induction h with
  | pure a => exact .pure a
  | throw he => exact .throw (LowerError.isClash_of_refusesNode he)
  | update => exact fun _ g => .ok _ g
  | shared hx =>
    intro s g
    obtain ⟨a, g', hr, -⟩ := hx g
    rw [lift_eq_ok.mpr ⟨hr, rfl⟩]
    exact .ok _ g'
  | bind _ _ ih ihf => exact ih.bind ihf

theorem emit_clean (name : String) (node : Node) : Clean (emit name node) := .change _

theorem BodyContext.checked_clean {c : BodyContext} {α : Type} {result : Except NodeError α}
    (h : ClashFree result) : Clean (c.checked result) := by
  cases result with
  | ok a => exact .pure a
  | error cause => exact .throw (h cause rfl)

/-! ## Scopes between two binders -/

/-- The given binders are next: the scope has named those before them in the list of all binders, and
variables stand for names of these. -/
structure Scope.Awaits (vs ws : List Var) (s : Scope) : Prop where
  given : s.env.naming.Given vs s.counter
  next : InOrder vs s.counter ws

section

variable {c : BodyContext} {vs ws ws' : List Var} {s s' : Scope} {g g' : Progress}

theorem Scope.Awaits.left (h : s.Awaits vs (ws ++ ws')) : s.Awaits vs ws := ⟨h.given, h.next.left⟩

theorem anyGrowth_ensures (c : BodyContext) (name : String) : anyGrowth.Ensures c name :=
  fun _ _ _ _ _ => ⟨⟨trivial, trivial⟩, fun _ _ => trivial⟩

/-- What lowering makes of an expression, whichever globals this refers to. -/
theorem lowerExpr_translates {e : Expr} {n : Node} (h : lowerExpr c e s g = .ok (n, s') g') :
    Translates anyGrowth c e n s s' g g' :=
  translatable_cases.expr e (fun name _ => anyGrowth_ensures c name) trivial h

theorem awaits_after {e : Expr} (hcounter : s'.counter = s.counter + e.binders.length)
    (hnaming : s'.env.naming = e.namingAfter s.counter s.env.naming)
    (hs : s.Awaits vs (e.boundVars ++ ws)) : s'.Awaits vs ws := by
  constructor
  · rw [hnaming, hcounter]
    exact hs.given.after e hs.next.left
  · rw [hcounter]
    exact hs.next.later

theorem lowerExpr_awaits {e : Expr} {n : Node} (h : lowerExpr c e s g = .ok (n, s') g')
    (hs : s.Awaits vs (e.boundVars ++ ws)) : s'.Awaits vs ws :=
  awaits_after (lowerExpr_translates h).counter (lowerExpr_translates h).naming hs

theorem closeScope_awaits {e : Expr} {n : Node}
    (h : c.closeScope (lowerExpr c e) s g = .ok (n, s') g')
    (hs : s.Awaits vs (e.boundVars ++ ws)) : s'.Awaits vs ws := by
  obtain ⟨hcounter, hnaming, -⟩ := closeScope_translates (translatable_cases.expr e)
    (fun name _ => anyGrowth_ensures c name) trivial h
  exact awaits_after hcounter hnaming hs

theorem awaits_bindVars {us : List Var} (hcounter : s'.counter = s.counter + us.length)
    (hnaming : s'.env.naming = s.env.naming.bindVars us s.counter)
    (hs : s.Awaits vs (us ++ ws)) : s'.Awaits vs ws := by
  constructor
  · rw [hnaming, hcounter]
    exact hs.given.bindVars hs.next.left
  · rw [hcounter]
    exact hs.next.right

theorem bindParams_awaits {us : List Var} {params : List Param}
    (h : c.bindParams us s g = .ok (params, s') g') (hs : s.Awaits vs (us ++ ws)) :
    s'.Awaits vs ws := by
  obtain ⟨-, -, hcounter, hnaming, -⟩ := bindParams_eq_ok h
  exact awaits_bindVars hcounter hnaming hs

theorem lowerPattern_awaits {p : Source.Pattern} {ty : Option Ty} {q : Lowered.Pattern}
    (h : lowerPattern c p ty s g = .ok (q, s') g') (hs : s.Awaits vs (p.boundVars ++ ws)) :
    s'.Awaits vs ws := by
  have hbinds := (lowerPattern_eq_ok h).2
  exact awaits_bindVars hbinds.counter hbinds.naming hs

theorem fresh_awaits {v : Var} {x : String} (h : fresh v.name s g = .ok (x, s') g')
    (hs : s.Awaits vs (v :: ws)) :
    s'.Awaits vs ws ∧ ∃ i, x = numberedName v.name i ∧ i < s'.counter ∧ vs[i]? = some v := by
  obtain ⟨rfl, rfl, rfl⟩ := fresh_eq_ok.mp h
  refine ⟨⟨hs.given.mono (Nat.le_succ _), hs.next.tail⟩, s.counter, rfl, ?_, hs.next.head⟩
  exact Nat.lt_succ_self s.counter

theorem bindVar_awaits {v : Var} {i : Nat} (hs : s.Awaits vs ws) (hi : i < s.counter)
    (hv : vs[i]? = some v) (ty : Ty) :
    Scope.Awaits vs ws { s with env := (v.id, ⟨numberedName v.name i, ty⟩) :: s.env } := by
  refine ⟨?_, hs.next⟩
  rw [Env.naming_cons]
  exact hs.given.bind hi hv

theorem closure_awaits {self : Option (Nat × String)} {f : Source.Function} {f' : Lowered.Function}
    (h : c.closure self f (lowerExpr c f.body) s g = .ok (f', s') g')
    (hs : s.Awaits vs (f.params ++ f.body.boundVars ++ ws)) :
    s'.Awaits vs ws ∧ s.counter ≤ s'.counter := by
  obtain ⟨hcounter, henv, -⟩ := closure_eq_ok (translatable_cases.expr f.body)
    (fun name _ => anyGrowth_ensures c name) trivial h
  refine ⟨⟨?_, ?_⟩, by omega⟩
  · rw [henv, hcounter]
    exact hs.given.mono (Nat.le_add_right _ _)
  · rw [hcounter, ← Expr.length_boundVars, ← List.length_append]
    exact hs.next.right

/-! ## Functions -/

/-- Lowering the expression never fails because of names, where it stands among all binders. -/
def Careful (c : BodyContext) (vs : List Var) (e : Expr) : Prop :=
  ∀ ⦃s : Scope⦄, s.Awaits vs e.boundVars → ∀ g, Unclashing (lowerExpr c e s g)

theorem restoringEnv_unclashing {α : Type} {x : BodyM α} (h : Unclashing (x s g)) :
    Unclashing (restoringEnv x s g) := by
  refine Unclashing.bind (Clean.get s g) fun s₀ s₁ g₁ h₁ => ?_
  obtain ⟨rfl, rfl, rfl⟩ := get_eq_ok.mp h₁
  refine h.bind fun a s₂ g₂ _ => ?_
  exact ((Clean.change _).bind fun _ => .pure a) s₂ g₂

/-- The bindings of a scope that is closed have different names. -/
theorem closeScope_unclashing {e : Expr} (he : Careful c vs e) (hs : s.Awaits vs e.boundVars)
    (g : Progress) : Unclashing (c.closeScope (lowerExpr c e) s g) := by
  refine Unclashing.bind (Clean.get s g) fun s₀ s₁ g₁ h₁ => ?_
  obtain ⟨rfl, rfl, rfl⟩ := get_eq_ok.mp h₁
  refine Unclashing.bind (Clean.change _ _ _) fun _ s₂ g₂ h₂ => ?_
  obtain ⟨rfl, rfl⟩ := modify_eq_ok.mp h₂
  have hopened : Scope.Awaits vs e.boundVars { s₁ with bindings := [] } := ⟨hs.given, hs.next⟩
  refine Unclashing.bind (he hopened _) fun n s₃ g₃ h₃ => ?_
  obtain ⟨bs, hbs, hlowers⟩ := (lowerExpr_translates h₃).lowers
  rw [List.nil_append] at hbs
  have hnodup : (Node.bindingBinders bs ++ n.binders).Nodup :=
    (binders_cases.expr (hlowers {} trivial)).nodup_iff.mpr (numberedNames_nodup _ _)
  have hnames : (bs.map Prod.fst).Nodup :=
    (Node.names_sublist_bindingBinders bs).nodup (List.nodup_append.mp hnodup).1
  refine Unclashing.bind (Clean.get s₃ g₃) fun s₄ s₅ g₄ h₄ => ?_
  obtain ⟨rfl, rfl, rfl⟩ := get_eq_ok.mp h₄
  refine Unclashing.bind (Clean.change _ _ _) fun _ s₆ g₆ _ => ?_
  exact BodyContext.checked_clean (hbs ▸ wrapDecl_clashFree hnames n) s₆ g₆

/-- The parameters of a function are named after all that stands outside of it. -/
theorem function_unclashing {name : Option String} {f : Source.Function} {captures : List Param}
    {ret : Option Ty} (hbody : Careful c vs f.body)
    (hs : s.Awaits vs (f.params ++ f.body.boundVars))
    (hnodup : (name.toList ++ captures.map Param.name).Nodup)
    (hold : ∀ x ∈ name.toList ++ captures.map Param.name, Numbered 0 s.counter x) (g : Progress) :
    Unclashing (c.function name f captures ret (lowerExpr c f.body) s g) := by
  refine Unclashing.bind (restoringEnv_unclashing ?_) fun r s₁ g₁ h₁ => ?_
  · refine Unclashing.bind ((BodyContext.bindParams_simple _).clean s g) fun params s₂ g₂ h₂ => ?_
    refine Unclashing.bind (closeScope_unclashing hbody (bindParams_awaits h₂ hs) g₂)
      fun body s₃ g₃ _ => ?_
    cases ret.or f.ret.resolved? with
    | some ty => exact Clean.pure _ s₃ g₃
    | none => exact ((BodyContext.requireType_simple _ _).clean.bind fun _ => .pure _) s₃ g₃
  · obtain ⟨params, body, ret'⟩ := r
    obtain ⟨s₂, h₂, -⟩ := restoringEnv_eq_ok h₁
    obtain ⟨ps, s₃, g₃, h₃, k₃⟩ := bind_eq_ok.mp h₂
    obtain ⟨body', s₄, g₄, -, k₄⟩ := bind_eq_ok.mp k₃
    have hparams : ps = params := by
      cases hret : ret.or f.ret.resolved? with
      | some ty =>
        rw [hret] at k₄
        cases (pure_eq_ok.mp k₄).1
        rfl
      | none =>
        rw [hret] at k₄
        obtain ⟨ty, s₅, g₅, -, k₅⟩ := bind_eq_ok.mp k₄
        cases (pure_eq_ok.mp k₅).1
        rfl
    obtain ⟨hnames, -⟩ := bindParams_eq_ok h₃
    rw [hparams] at hnames
    have hapart : (params.map Param.name ++ (name.toList ++ captures.map Param.name)).Nodup := by
      rw [hnames, List.nodup_append]
      refine ⟨numberedNames_nodup _ _, hnodup, ?_⟩
      rintro x hx _ hx' rfl
      exact (hold x hx').not_of_le (Nat.le_refl _) (numbered_of_mem hx)
    refine BodyContext.checked_clean (mkChecked_clashFree ?_ body ret') s₁ g₁
    rw [List.map_append]
    exact (List.perm_append_comm_assoc _ _ _).nodup_iff.mpr hapart

/-- The names of captured variables differ. -/
theorem nodup_captureNames {σ : Naming} {k : Nat} (hσ : σ.Given vs k) {captured : List Var}
    {captures : List Param} (h : List.Forall₂ (fun v p => σ v.id = some p.name) captured captures)
    (hnodup : (captured.map Var.id).Nodup) : (captures.map Param.name).Nodup := by
  induction h with
  | nil => exact .nil
  | @cons v p captured captures hv hrest ih =>
    obtain ⟨hnew, hnodup⟩ := List.nodup_cons.mp hnodup
    refine List.nodup_cons.mpr ⟨fun hmem => ?_, ih hnodup⟩
    obtain ⟨w, hw, hp⟩ := (mem_captureNames hrest).mp hmem
    exact hnew (hσ.inj hv hp ▸ List.mem_map_of_mem hw)

/-- A function literal captures the names of different variables, none of them its own. -/
theorem closure_unclashing {self : Option (Nat × String)} {f : Source.Function}
    (hbody : Careful c vs f.body) (hs : s.Awaits vs (f.params ++ f.body.boundVars))
    (hself : ∀ own, self = some own → s.env.naming own.1 = some own.2) (g : Progress) :
    Unclashing (c.closure self f (lowerExpr c f.body) s g) := by
  refine Unclashing.bind ((BodyContext.captures_simple _ _).clean s g) fun captures s₁ g₁ h₁ => ?_
  obtain ⟨hcaptures, rfl, rfl⟩ := captures_eq_ok h₁
  have hfree : (f.freeVars.map Var.id).Nodup := by
    rw [f.freeVars_eq]
    exact nodup_collectFree f.body .nil
  have hnodup : (captures.map Param.name).Nodup :=
    nodup_captureNames hs.given hcaptures ((List.filter_sublist.map Var.id).nodup hfree)
  apply function_unclashing hbody hs
  · cases self with
    | none => exact hnodup
    | some own =>
      refine List.nodup_cons.mpr ⟨fun hmem => ?_, hnodup⟩
      obtain ⟨v, hv, hx⟩ := (mem_captureNames hcaptures).mp hmem
      have hne : some own.1 ≠ some v.id := by simpa using (List.mem_filter.mp hv).2
      exact hne (congrArg some (hs.given.inj (hself own rfl) hx))
  · intro x hx
    rcases List.mem_append.mp hx with hx | hx
    · cases self with
      | none => cases hx
      | some own =>
        cases List.mem_singleton.mp hx
        exact hs.given.below _ _ (hself own rfl)
    · obtain ⟨v, -, hv⟩ := (mem_captureNames hcaptures).mp hx
      exact hs.given.below _ _ hv

/-! ## Expressions -/

theorem letFunction_unclashing {v : Var} {f : Source.Function} (hbody : Careful c vs f.body)
    (hs : s.Awaits vs (v :: (f.params ++ f.body.boundVars))) (g : Progress) :
    Unclashing (c.letFunction v f (lowerExpr c f.body) s g) := by
  refine Unclashing.bind ((fresh_simple v.name).clean s g) fun x s₁ g₁ h₁ => ?_
  obtain ⟨hs₁, i, rfl, hi, hv⟩ := fresh_awaits h₁ hs
  refine Unclashing.bind ((bindVar_simple _ _).clean s₁ g₁) fun _ s₂ g₂ h₂ => ?_
  obtain ⟨rfl, rfl⟩ := bindVar_eq_ok.mp h₂
  refine Unclashing.bind (closure_unclashing hbody (bindVar_awaits hs₁ hi hv _) ?_ _)
    fun f' s₃ g₃ _ => ?_
  · rintro _ ⟨⟩
    rw [Env.naming_cons, Naming.bind_self]
  · exact ((bindVar_simple _ _).clean.bind fun _ => emit_clean _ _) s₃ g₃

theorem letFunction_awaits {v : Var} {f : Source.Function} {a : Unit}
    (h : c.letFunction v f (lowerExpr c f.body) s g = .ok (a, s') g')
    (hs : s.Awaits vs (v :: (f.params ++ f.body.boundVars ++ ws))) : s'.Awaits vs ws := by
  obtain ⟨x, s₁, g₁, h₁, k₁⟩ := bind_eq_ok.mp h
  obtain ⟨hs₁, i, rfl, hi, hv⟩ := fresh_awaits h₁ hs
  obtain ⟨_, s₂, g₂, h₂, k₂⟩ := bind_eq_ok.mp k₁
  obtain ⟨rfl, rfl⟩ := bindVar_eq_ok.mp h₂
  obtain ⟨f', s₃, g₃, h₃, k₃⟩ := bind_eq_ok.mp k₂
  obtain ⟨hs₃, hle⟩ := closure_awaits h₃ (bindVar_awaits hs₁ hi hv _)
  obtain ⟨_, s₄, g₄, h₄, k₄⟩ := bind_eq_ok.mp k₃
  obtain ⟨rfl, rfl⟩ := bindVar_eq_ok.mp h₄
  obtain ⟨rfl, rfl⟩ := emit_eq_ok.mp k₄
  have hbound := bindVar_awaits hs₃ (Nat.lt_of_lt_of_le hi hle) hv f'.fnType
  exact ⟨hbound.given, hbound.next⟩

theorem letValue_unclashing {v : Var} {value : Expr} (hvalue : Careful c vs value)
    (hs : s.Awaits vs (v :: value.boundVars)) (g : Progress) :
    Unclashing (c.letValue v value (lowerExpr c value) s g) := by
  refine Unclashing.bind ((fresh_simple v.name).clean s g) fun x s₁ g₁ h₁ => ?_
  obtain ⟨hs₁, -⟩ := fresh_awaits h₁ hs
  refine Unclashing.bind (hvalue hs₁ g₁) fun n s₂ g₂ _ => ?_
  exact ((BodyContext.letType_simple _ _).clean.bind fun _ => (bindVar_simple _ _).clean.bind fun _ =>
    emit_clean _ _) s₂ g₂

theorem letValue_awaits {v : Var} {value : Expr} {a : Unit}
    (h : c.letValue v value (lowerExpr c value) s g = .ok (a, s') g')
    (hs : s.Awaits vs (v :: (value.boundVars ++ ws))) : s'.Awaits vs ws := by
  obtain ⟨x, s₁, g₁, h₁, k₁⟩ := bind_eq_ok.mp h
  obtain ⟨hs₁, i, rfl, hi, hv⟩ := fresh_awaits h₁ hs
  obtain ⟨n, s₂, g₂, h₂, k₂⟩ := bind_eq_ok.mp k₁
  have hs₂ := lowerExpr_awaits h₂ hs₁
  have hle := (lowerExpr_translates h₂).counter
  obtain ⟨ty, s₃, g₃, h₃, k₃⟩ := bind_eq_ok.mp k₂
  obtain ⟨rfl, -⟩ := BodyContext.letType_reads h₃
  obtain ⟨_, s₄, g₄, h₄, k₄⟩ := bind_eq_ok.mp k₃
  obtain ⟨rfl, rfl⟩ := bindVar_eq_ok.mp h₄
  obtain ⟨rfl, rfl⟩ := emit_eq_ok.mp k₄
  have hbound := bindVar_awaits hs₂ (by omega) hv ty
  exact ⟨hbound.given, hbound.next⟩

theorem clause_unclashing {scrutinee result : Option Ty} {p : Source.Pattern} {e : Expr}
    (he : Careful c vs e) (hs : s.Awaits vs (p.boundVars ++ e.boundVars)) (g : Progress) :
    Unclashing (c.clause scrutinee result p e (lowerExpr c e) s g) := by
  apply restoringEnv_unclashing
  refine Unclashing.bind ((lowerPattern_simple p scrutinee).clean s g) fun q s₁ g₁ h₁ => ?_
  refine Unclashing.bind (closeScope_unclashing he (lowerPattern_awaits h₁ hs) g₁)
    fun body s₂ g₂ _ => ?_
  cases result with
  | some ty => exact Clean.pure _ s₂ g₂
  | none => exact ((BodyContext.typeOf_simple e).clean.bind fun _ => .pure _) s₂ g₂

theorem clause_awaits {scrutinee result result' : Option Ty} {p : Source.Pattern} {e : Expr}
    {clause : Lowered.Pattern × Node}
    (h : c.clause scrutinee result p e (lowerExpr c e) s g = .ok ((clause, result'), s') g')
    (hs : s.Awaits vs (p.boundVars ++ (e.boundVars ++ ws))) : s'.Awaits vs ws := by
  obtain ⟨hcounter, henv, -⟩ := clause_eq_ok (translatable_cases.expr e)
    (fun name _ => anyGrowth_ensures c name) trivial h
  constructor
  · rw [henv, hcounter]
    exact hs.given.mono (by omega)
  · rw [hcounter]
    exact hs.next.right.later

/-- Lowering never fails because of names, if obtaining globals does not. -/
theorem careful_cases (hens : ∀ name g, Unclashing (c.ensure name g)) : Expr.Cases (Careful c vs)
    (fun es => ∀ ⦃s : Scope⦄, s.Awaits vs (Expr.listBoundVars es) →
      ∀ g, Unclashing (lowerExprs c es s g))
    (fun clauses => ∀ ⦃s : Scope⦄, s.Awaits vs (Expr.clauseBoundVars clauses) →
      ∀ scrutinee result g, Unclashing (lowerClauses c scrutinee result clauses s g)) where
  var v := by
    intro s hs g
    rw [lowerExpr]
    exact ((BodyContext.lookup_simple v).clean.bind fun b => .pure _) s g
  const t := by
    intro s hs g
    rw [lowerExpr]
    exact Clean.pure _ s g
  letFunction v params fbody ret body ihf ih := by
    intro s hs g
    have hall : s.Awaits vs (v :: (params ++ fbody.boundVars) ++ body.boundVars) := hs
    rw [lowerExpr]
    refine Unclashing.bind (letFunction_unclashing ihf hall.left g) fun _ s₁ g₁ h₁ => ?_
    exact ih (letFunction_awaits h₁ hs) g₁
  letValue v value body hvalue ihv ih := by
    intro s hs g
    have hall : s.Awaits vs (v :: value.boundVars ++ body.boundVars) := hs
    rw [lowerExpr_letIn hvalue]
    refine Unclashing.bind (letValue_unclashing ihv hall.left g) fun _ s₁ g₁ h₁ => ?_
    exact ih (letValue_awaits h₁ hs) g₁
  func params body ret ih := by
    intro s hs g
    rw [lowerExpr]
    refine Unclashing.bind (closure_unclashing ih hs ?_ g) fun f s₁ g₁ _ => Clean.pure _ s₁ g₁
    exact fun _ h => by cases h
  global name := by
    intro s hs g
    rw [lowerExpr]
    exact (hens name g).lift.bind fun id s₁ g₁ _ => Clean.pure _ s₁ g₁
  op name := by
    intro s hs g
    rw [lowerExpr]
    exact Clean.throw rfl s g
  callKernel name args ty ihs := by
    intro s hs g
    rw [lowerExpr]
    refine Unclashing.bind ((BodyContext.kernelArity_simple name args ty).clean s g) fun r s₁ g₁ h₁ => ?_
    obtain ⟨-, rfl, -⟩ := kernelArity_eq_ok h₁
    refine Unclashing.bind (ihs hs g₁) fun ns s₂ g₂ _ => ?_
    exact BodyContext.checked_clean (mkPacked_clashFree _ _ _ _ _) s₂ g₂
  callGlobal name args ty ihs := by
    intro s hs g
    rw [lowerExpr]
    refine (hens name g).lift.bind fun id s₁ g₁ h₁ => ?_
    obtain ⟨-, rfl⟩ := lift_eq_ok.mp h₁
    refine Unclashing.bind ((BodyContext.checkGlobalArity_simple _ _ _).clean s₁ g₁) fun _ s₂ g₂ h₂ => ?_
    obtain ⟨rfl, -⟩ := BodyContext.checkGlobalArity_reads h₂
    exact Unclashing.bind (ihs hs g₂) fun ns s₃ g₃ _ => Clean.pure _ s₃ g₃
  call callee args ty hcallee ih ihs := by
    intro s hs g
    rw [lowerExpr_call hcallee]
    refine Unclashing.bind ((BodyContext.checkCallee_simple _ _).clean s g) fun _ s₁ g₁ h₁ => ?_
    obtain ⟨rfl, -⟩ := BodyContext.checkCallee_reads h₁
    refine Unclashing.bind (ih hs.left g₁) fun n s₂ g₂ h₂ => ?_
    exact Unclashing.bind (ihs (lowerExpr_awaits h₂ hs) g₂) fun ns s₃ g₃ _ => Clean.pure _ s₃ g₃
  ite cond onTrue onFalse ty ihc iht ihf := by
    intro s hs g
    rw [lowerExpr]
    refine Unclashing.bind (ihc hs.left g) fun n s₁ g₁ h₁ => ?_
    have hs₁ := lowerExpr_awaits h₁ hs
    refine Unclashing.bind ((BodyContext.checkCondition_simple cond).clean s₁ g₁) fun _ s₂ g₂ h₂ => ?_
    obtain ⟨rfl, -⟩ := BodyContext.checkCondition_reads h₂
    refine Unclashing.bind (closeScope_unclashing iht hs₁.left g₂) fun nTrue s₃ g₃ h₃ => ?_
    have hs₃ := closeScope_awaits h₃ hs₁
    refine Unclashing.bind (closeScope_unclashing ihf hs₃ g₃) fun nFalse s₄ g₄ _ => ?_
    exact ((BodyContext.requireType_simple _ _).clean.bind fun ty =>
      BodyContext.checked_clean (mkIte_clashFree _ _ _ ty)) s₄ g₄
  tuple fields ty ihs := by
    intro s hs g
    rw [lowerExpr]
    refine Unclashing.bind (ihs hs g) fun ns s₁ g₁ _ => ?_
    exact ((BodyContext.requireType_simple _ _).clean.bind fun ty =>
      BodyContext.checked_clean (mkTuple_clashFree ns ty)) s₁ g₁
  matchOn data clauses ty ih ihs := by
    intro s hs g
    rw [lowerExpr]
    refine Unclashing.bind (ih hs.left g) fun n s₁ g₁ h₁ => ?_
    refine Unclashing.bind ((BodyContext.typeOf_simple data).clean s₁ g₁) fun scrutinee s₂ g₂ h₂ => ?_
    obtain ⟨rfl, -⟩ := BodyContext.typeOf_reads h₂
    refine Unclashing.bind (ihs (lowerExpr_awaits h₁ hs) _ _ g₂) fun r s₃ g₃ _ => ?_
    refine Unclashing.bind ((BodyContext.checkCoverage_simple _ _).clean s₃ g₃) fun _ s₄ g₄ _ => ?_
    obtain ⟨cs, result⟩ := r
    cases result with
    | some ty => exact BodyContext.checked_clean (mkMatch_clashFree n cs ty) s₄ g₄
    | none => exact Clean.throw rfl s₄ g₄
  construct name fields ty ihs := by
    intro s hs g
    rw [lowerExpr]
    refine Unclashing.bind ((BodyContext.constructInfo_simple _ _ _).clean s g) fun info s₁ g₁ h₁ => ?_
    obtain ⟨-, -, rfl, rfl⟩ := BodyContext.constructInfo_eq_ok h₁
    refine Unclashing.bind (ihs hs g₁) fun ns s₂ g₂ _ => ?_
    exact BodyContext.checked_clean (mkCtor_clashFree _ _ _ _ _) s₂ g₂
  nil := by
    intro s hs g
    rw [lowerExprs]
    exact Clean.pure _ s g
  cons e es ih ihs := by
    intro s hs g
    rw [lowerExprs]
    refine Unclashing.bind (ih hs.left g) fun n s₁ g₁ h₁ => ?_
    exact Unclashing.bind (ihs (lowerExpr_awaits h₁ hs) g₁) fun ns s₂ g₂ _ => Clean.pure _ s₂ g₂
  nilClause := by
    intro s hs scrutinee result g
    rw [lowerClauses]
    exact Clean.pure _ s g
  consClause p e rest ih ihs := by
    intro s hs scrutinee result g
    rw [lowerClauses]
    have hclause : s.Awaits vs (p.boundVars ++ e.boundVars) := by
      rw [Expr.clauseBoundVars, ← List.append_assoc] at hs
      exact hs.left
    refine Unclashing.bind (clause_unclashing ih hclause g) fun r s₁ g₁ h₁ => ?_
    refine Unclashing.bind (ihs (clause_awaits h₁ hs) _ _ g₁) fun _ s₂ g₂ _ => ?_
    exact Clean.pure _ s₂ g₂

end

/-! ## Units -/

section

variable {s : Setting}

/-- The lowering of a definition names its binders one after the other, beginning with none. -/
theorem lowerDefinition_unclashing {ensure : String → String → LowerM FunctionId}
    (hens : ∀ global requester g, Unclashing (ensure global requester g)) (name : String)
    (f : Source.Function) (ret : Ty) (g : Progress) :
    Unclashing (s.lowerDefinition ensure name f ret g) := by
  have hbody : Careful (s.context ensure name) (f.params ++ f.body.boundVars) f.body :=
    (careful_cases fun global => hens global name).expr f.body
  apply function_unclashing hbody ⟨Naming.Given.empty _ 0, inOrder_self _⟩
  · exact List.nodup_nil
  · exact List.forall_mem_nil _

theorem onTable_unclashing {α : Type} (name : String)
    (step : FunctionTable → Except TableError (α × FunctionTable)) (g : Progress) :
    Unclashing (onTable name step g) := by
  rw [onTable, shared_get_bind]
  cases step g.table with
  | ok r => exact .ok r.1 _
  | error e => exact .error rfl g

theorem signature_unclashing (name : String) (f : Source.Function) (g : Progress) :
    Unclashing (s.signature name f g) := by
  unfold Setting.signature
  split
  · exact .error rfl g
  · obtain ⟨ty, hty⟩ := s.retType_leaves name f g
    dsimp only
    rw [shared_bind_of_ok hty]
    cases ty with
    | some ret => exact .ok _ g
    | none => exact .error rfl g

theorem lowerGlobalWith_unclashing {ensure : String → String → LowerM FunctionId}
    (hens : ∀ global requester g, Unclashing (ensure global requester g)) (name : String)
    (f : Source.Function) (g : Progress) : Unclashing (s.lowerGlobalWith ensure name f g) := by
  cases hnew : g.table.lookup? name with
  | some id =>
    rw [Setting.lowerGlobalWith_of_taken hnew]
    exact .error rfl g
  | none =>
    rcases s.signature_leaves name f g with ⟨e, hsig⟩ | ⟨ret, hsig⟩
    · rw [Setting.lowerGlobalWith_of_unsigned hnew hsig]
      exact .error (signature_unclashing name f g e g hsig) g
    · rw [Setting.lowerGlobalWith_of_new hnew hsig]
      apply (lowerDefinition_unclashing hens name f ret _).shared_bind
      intro r g₁
      apply (onTable_unclashing name _ g₁).shared_bind
      exact fun _ g₂ => .ok _ _

theorem ensureWithin_unclashing (pending : Nat) (name requester : String) (g : Progress) :
    Unclashing (s.ensureWithin pending name requester g) := by
  apply Setting.ensureWithin_induction (Q := fun _ _ r => Unclashing r)
  · exact fun name id g _ => .ok id g
  · exact fun name requester g => .error rfl g
  · exact fun pending name f g _ _ ih => lowerGlobalWith_unclashing ih name f g

theorem serve_unclashing (r : Request) (g : Progress) : Unclashing (s.serve r g) := by
  cases r with
  | ensure name requester => exact ensureWithin_unclashing _ name requester g
  | lower name f => exact lowerGlobalWith_unclashing (ensureWithin_unclashing _) name f g

theorem finish_unclashing (g : Progress) : Unclashing (s.finish g) := by
  unfold Setting.finish
  rw [shared_get_bind]
  cases g.table.freeze with
  | error e => exact .error rfl g
  | ok p =>
    dsimp only
    split
    · exact .ok p _
    · exact .ok p g

theorem ensureAll_unclashing (globals : List (String × Source.Function)) (g : Progress) :
    Unclashing (s.ensureAll globals g) := by
  induction globals generalizing g with
  | nil => exact .ok () g
  | cons global globals ih =>
    apply (ensureWithin_unclashing _ global.1 global.1 g).shared_bind
    exact fun _ g' => ih g'

theorem lowerModule_unclashing (g : Progress) : Unclashing (s.lowerModule g) :=
  (ensureAll_unclashing s.module.globals g).shared_bind fun _ g' => finish_unclashing g'

theorem compile_unclashing (f : Source.Function) (g : Progress) : Unclashing (s.compile f g) := by
  unfold Setting.compile
  dsimp only
  split
  · exact .error rfl g
  · apply (serve_unclashing (.lower s.options.entryName f) g).shared_bind
    intro entry g₁
    apply (finish_unclashing g₁).shared_bind
    exact fun p g₂ => .ok (entry, p) g₂

end

theorem Accepts.bindsApart {f : Source.Function} {f' : Lowered.Function} (h : Accepts f f') :
    f'.BindsApart := by
  obtain ⟨c, ret, s', g, g', hfunction⟩ := h
  exact (function_threaded hfunction).bindsApart

end Lowering

open Lowering

/-- Names never clash, whatever the variables are called and however often they are bound. Inside a
lowered function all binders have different names: parameters, bindings and the variables of patterns,
where a local function shares its own name with the binding that holds it. Captures have the names of
binders outside the function that captures them. And no request to a unit fails because a declaration
is empty or a name is there twice. -/
theorem names_never_clash :
    (∀ f f', Accepts f f' → f'.BindsApart) ∧
    ∀ (s : Setting) (g : Progress), (∀ r, Unclashing (s.serve r g)) ∧
      Unclashing (s.lowerModule g) ∧ ∀ f, Unclashing (s.compile f g) := by
  refine ⟨fun f f' h => h.bindsApart, fun s g => ⟨?_, ?_, ?_⟩⟩
  · exact fun r => serve_unclashing r g
  · exact lowerModule_unclashing g
  · exact fun f => compile_unclashing f g

/-! ## Names that look like numbered ones -/

/-- `fn (y, y) { let f = fn (x) { if x { f(y) } else { y } }; let f = f(y); f }`, where the parameters
are one variable, and so are those of the `let`s. Their hints look like numbered names, are empty or
not in ASCII. -/
def namesakes : Source.Function :=
  let y (hint : String) : Var := ⟨0, hint, .scalar .bool⟩
  let f (hint : String) : Var := ⟨1, hint, .infer⟩
  let x : Var := ⟨2, "x", .scalar .bool⟩
  { params := [y "x_1", y ""]
    body := .letIn (f "x_1")
      (.func [x] (.ite (.var x) (.call (.var (f "x_1")) [.var (y "")] .infer) (.var (y "")) .infer)
        (.scalar .bool))
      (.letIn (f "é") (.call (.var (f "x_1")) [.var (y "")] .infer) (.var (f "é")))
    ret := .scalar .bool }

/-- The numbers keep the names apart. -/
theorem namesakes_apart : ∃ f', Accepts namesakes f' ∧
    f'.binders = ["x_1_0", "v_1", "x_1_2", "x_3", "__4"] ∧ f'.BindsApart := by
  let s : Setting := ⟨{}, {}, {}⟩
  have hlowered : ((s.lowerDefinition s.ensureGlobal "main" namesakes (.scalar .bool)).run' {}).map
    (·.1.binders) = some ["x_1_0", "v_1", "x_1_2", "x_3", "__4"] := by decide +kernel
  obtain ⟨⟨f', sc⟩, hr, hbinders⟩ := Option.map_eq_some_iff.mp hlowered
  obtain ⟨g, hg⟩ := exists_eq_ok_of_run' hr
  have haccepts : Accepts namesakes f' := ⟨s.context s.ensureGlobal "main", _, sc, {}, g, hg⟩
  exact ⟨f', haccepts, hbinders, names_never_clash.1 namesakes f' haccepts⟩

end TensorIR
