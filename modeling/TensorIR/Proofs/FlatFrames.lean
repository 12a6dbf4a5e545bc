import TensorIR.Proofs.BoundNames
import TensorIR.Proofs.NoClashes
import TensorIR.Proofs.TwinRuns

/-! One flat frame for each call is as good as lexical environments.

The evaluator keeps all that a call binds in one frame until the call returns. The evaluator here
(`evalIn`) has environments instead: what a declaration or a clause binds is gone after it, so that
operands, branches and clauses never see the names of each other. In code whose names are all in scope
and whose binders all differ, the frame shows the names in scope as the environment does, whatever else
is left in it. -/

namespace TensorIR

open Lowered Matching

/-! ## Evaluation in environments -/

namespace Run.CompiledUnit

variable (u : CompiledUnit) (call : Call)

/-- The value of a name in an environment. -/
def lookupIn (env : Frame) (name : String) : RunM Value :=
  match env.lookup name with
  | some v => pure v
  | none => throw (.unboundVariable name)

/-- The values of the captured names in an environment. -/
def captureAllIn (env : Frame) : List Param → RunM (List Value)
  | [] => return []
  | p :: ps => do
    let v ← lookupIn env p.name
    let vs ← captureAllIn env ps
    return v :: vs

mutual

/-- The value of a node in an environment, which is the same for all parts of the node apart from the
bodies of declarations and clauses. -/
def evalIn : Node → (env : Frame) → RunM Value
  | .var name, env => lookupIn env name
  | .literal value, _ => return .tensor value
  | .global target, _ => return .global target.id
  | .decl bindings body, env => do
    let inner ← bindIn bindings env
    evalIn body inner
  | .packed name arity args ty tupled, env => do
    let kernel ← u.kernel name
    let vs ← evalAllIn args env
    u.callKernel kernel name arity ty tupled vs
  | .invoke target args, env => do
    let vs ← evalAllIn args env
    u.callGlobal call target.id vs
  | .apply callee args, env => do
    let f ← evalIn callee env
    let vs ← evalAllIn args env
    u.applyValue call f vs
  | .func name params captures body ret, env => do
    let vs ← captureAllIn env captures
    return .closure ⟨name, params, captures, body, ret⟩ vs
  | .ite cond onTrue onFalse _, env => do
    let v ← evalIn cond env
    match v.asBool? with
    | some true => evalIn onTrue env
    | some false => evalIn onFalse env
    | none => throw (.typeMismatch .condition "a bool scalar condition" v)
  | .tuple fields _, env => do
    let vs ← evalAllIn fields env
    return .tuple vs
  | .matchOn data clauses _, env => do
    let v ← evalIn data env
    evalClausesIn v clauses env
  | .ctor tag _ fields _, env => do
    let vs ← evalAllIn fields env
    return .adt tag vs

def evalAllIn : List Node → (env : Frame) → RunM (List Value)
  | [], _ => return []
  | n :: ns, env => do
    let v ← evalIn n env
    let vs ← evalAllIn ns env
    return v :: vs

/-- The environment with one binding after the other added to it. -/
def bindIn : List (String × Node) → (env : Frame) → RunM Frame
  | [], env => return env
  | (name, n) :: rest, env => do
    let v ← evalIn n env
    bindIn rest ((name, v) :: env)

def evalClausesIn (v : Value) : List (Lowered.Pattern × Node) → (env : Frame) → RunM Value
  | [], _ => throw (.nonExhaustiveMatch v)
  | (p, body) :: rest, env =>
    match matchPattern? p v with
    | some entries => evalIn body (Frame.extend env entries)
    | none => evalClausesIn v rest env

end

/-- Calls a function whose body is evaluated in an environment, when `room` more calls may be opened
inside each other. -/
def lexicalCall : (room : Nat) → Call
  | room, f, label, bound, args =>
    if args.length = f.params.length then
      match room with
      | 0 => throw (.depthExceeded u.options.maxCallDepth)
      | room + 1 =>
        opened (evalIn u (lexicalCall room) f.body
          (Frame.extend bound ((f.params.map Param.name).zip args)))
    else throw (.arityMismatch ("function '" ++ label ++ "'") f.params.length args.length)

/-- Runs a global function with environments. -/
def runLexically (id : FunctionId) (args : List Value) : RunM Value :=
  u.runThrough (u.lexicalCall u.options.maxCallDepth) id args

/-- Runs the global function with the given name with environments. -/
def invokeLexically (name : String) (args : List Value) : RunM Value :=
  u.invokeThrough (u.lexicalCall u.options.maxCallDepth) name args

end Run.CompiledUnit

/-! ## Code with names in scope and different binders -/

namespace Lowered

/-- A variable, or what a function captures, is in scope. -/
def Node.InScope (scope : List String) : Node → Prop
  | .var x => x ∈ scope
  | .func _ _ captures _ _ => ∀ c ∈ captures, c.name ∈ scope
  | _ => True

/-- What the node reads is in scope, and what it binds is new to the scope. -/
def Node.Apart (scope : List String) (n : Node) : Prop :=
  n.InScope scope ∧ ∀ x ∈ scope, x ∉ n.binders

/-- All names are in scope where they are read, and all binders have different names. -/
structure Function.Lexical (f : Function) : Prop where
  inScope : f.toNode.Everywhere Node.InScope []
  distinct : f.toNode.binders.Nodup

/-- The names differ from each other and from those in scope. -/
structure New (scope names : List String) : Prop where
  nodup : names.Nodup
  apart : ∀ x ∈ scope, x ∉ names

namespace New

variable {scope scope' names names' : List String}

theorem mono (h : New scope names) (hsub : scope' ⊆ scope) : New scope' names :=
  ⟨h.nodup, fun x hx => h.apart x (hsub hx)⟩

theorem sublist (h : New scope names) (hsub : names'.Sublist names) : New scope names' :=
  ⟨h.nodup.sublist hsub, fun x hx hmem => h.apart x hx (hsub.subset hmem)⟩

theorem left (h : New scope (names ++ names')) : New scope names :=
  h.sublist (List.sublist_append_left _ _)

/-- Later names are new where the earlier ones are in scope. -/
theorem later (h : New scope (names ++ names')) : New (names ++ scope) names' where
  nodup := h.nodup.of_append_right
  apart x hx hmem := by
    rcases List.mem_append.mp hx with hx | hx
    · exact List.disjoint_of_nodup_append h.nodup hx hmem
    · exact h.apart x hx (List.mem_append_right _ hmem)

theorem right (h : New scope (names ++ names')) : New scope names' :=
  h.later.mono (List.subset_append_right _ _)

end New

namespace Node

mutual

/-- Where all binders differ from each other and from the scope, those of every part do. -/
theorem everywhere_apart : ∀ {n : Node} {scope : List String}, n.Everywhere InScope scope →
    New scope n.binders → n.Everywhere Apart scope
  | .var _, _, h, hnew => ⟨h, hnew.apart⟩
  | .literal _, _, h, hnew => ⟨h, hnew.apart⟩
  | .global _, _, h, hnew => ⟨h, hnew.apart⟩
  | .decl bindings body, scope, ⟨h, hbindings, hbody⟩, hnew => by
    refine ⟨⟨h, hnew.apart⟩, bindingsEverywhere_apart hbindings hnew.left, ?_⟩
    have hnames := (names_sublist_bindingBinders bindings).subset
    refine everywhere_apart hbody (hnew.later.mono fun x hx => ?_)
    rw [List.mem_append, List.mem_reverse] at hx
    exact List.mem_append.mpr (hx.imp_left fun hmem => hnames hmem)
  | .packed .., _, ⟨h, hargs⟩, hnew => ⟨⟨h, hnew.apart⟩, allEverywhere_apart hargs hnew⟩
  | .invoke _ _, _, ⟨h, hargs⟩, hnew => ⟨⟨h, hnew.apart⟩, allEverywhere_apart hargs hnew⟩
  | .apply _ _, _, ⟨h, hcallee, hargs⟩, hnew =>
    ⟨⟨h, hnew.apart⟩, everywhere_apart hcallee hnew.left, allEverywhere_apart hargs hnew.right⟩
  | .func name params captures body ret, scope, ⟨h, hbody⟩, hnew => by
    refine ⟨⟨h, hnew.apart⟩, everywhere_apart hbody (hnew.later.mono fun x hx => ?_)⟩
    simp only [Function.scope, List.mem_append] at hx ⊢
    rcases hx with hparam | hname | hcapture
    · exact .inl (.inr hparam)
    · exact .inl (.inl hname)
    · obtain ⟨c, hc, rfl⟩ := List.mem_map.mp hcapture
      exact .inr (h c hc)
  | .ite .., _, ⟨h, hcond, htrue, hfalse⟩, hnew =>
    ⟨⟨h, hnew.apart⟩, everywhere_apart hcond hnew.left.left, everywhere_apart htrue hnew.left.right,
      everywhere_apart hfalse hnew.right⟩
  | .tuple _ _, _, ⟨h, hfields⟩, hnew => ⟨⟨h, hnew.apart⟩, allEverywhere_apart hfields hnew⟩
  | .matchOn .., _, ⟨h, hdata, hclauses⟩, hnew =>
    ⟨⟨h, hnew.apart⟩, everywhere_apart hdata hnew.left, clausesEverywhere_apart hclauses hnew.right⟩
  | .ctor .., _, ⟨h, hfields⟩, hnew => ⟨⟨h, hnew.apart⟩, allEverywhere_apart hfields hnew⟩

theorem allEverywhere_apart : ∀ {ns : List Node} {scope : List String},
    Node.AllEverywhere InScope scope ns → New scope (Node.listBinders ns) →
      Node.AllEverywhere Apart scope ns
  | [], _, _, _ => trivial
  | _ :: _, _, ⟨hn, hns⟩, hnew =>
    ⟨everywhere_apart hn hnew.left, allEverywhere_apart hns hnew.right⟩

theorem bindingsEverywhere_apart : ∀ {bs : List (String × Node)} {scope : List String},
    Node.BindingsEverywhere InScope scope bs → New scope (Node.bindingBinders bs) →
      Node.BindingsEverywhere Apart scope bs
  | [], _, _, _ => trivial
  | (x, n) :: _, _, ⟨hn, hrest⟩, hnew => by
    refine ⟨everywhere_apart hn (hnew.left.sublist (binders_sublist_bindingBinders x n)), ?_⟩
    refine bindingsEverywhere_apart hrest (hnew.later.mono ?_)
    have hx := mem_bindingBinders_head (x := x) n
    exact List.cons_subset.mpr ⟨List.mem_append_left _ hx, List.subset_append_right _ _⟩

theorem clausesEverywhere_apart : ∀ {cs : List (Pattern × Node)} {scope : List String},
    Node.ClausesEverywhere InScope scope cs → New scope (Node.clauseBinders cs) →
      Node.ClausesEverywhere Apart scope cs
  | [], _, _, _ => trivial
  | _ :: _, _, ⟨hn, hrest⟩, hnew =>
    ⟨everywhere_apart hn hnew.left.later, clausesEverywhere_apart hrest hnew.right⟩

end

end Node

/-- A lexical function stands apart from all that its body can see. -/
theorem Function.Lexical.apart {f : Function} (h : f.Lexical) :
    f.body.Everywhere Node.Apart f.scope :=
  (Node.everywhere_apart h.inScope ⟨h.distinct, List.forall_mem_nil _⟩).2

end Lowered

/-- The functions in the value stand apart from all that their bodies can see. -/
abbrev Value.Lexical (v : Value) : Prop := v.Sound Node.Apart fun _ => True

abbrev Value.AllLexical (vs : List Value) : Prop := Value.AllSound Node.Apart (fun _ => True) vs

/-- Given functions that stand apart from what their bodies can see, the kernel returns no others. -/
def Kernel.KeepsLexical (k : Kernel) : Prop :=
  ∀ ⦃args v⦄, Value.AllLexical args → k.call args = .ok v → v.Lexical

namespace Run

/-! ## Frames and environments -/

namespace Frame

theorem lookup_extend_congr {F env : Frame} {entries : List (String × Value)} {x : String}
    (h : x ∉ entries.map Prod.fst → F.lookup x = env.lookup x) :
    (F.extend entries).lookup x = (env.extend entries).lookup x := by
  rw [extend, extend, List.lookup_append, List.lookup_append]
  cases hx : entries.reverse.lookup x with
  | some v => rfl
  | none =>
    have hnot : x ∉ entries.map Prod.fst := by
      intro hmem
      obtain ⟨e, he, rfl⟩ := List.mem_map.mp hmem
      simpa using List.lookup_eq_none_iff.mp hx e (List.mem_reverse.mpr he)
    exact h hnot

/-- In scope the frame shows what the environment has, and all its values are lexical. -/
structure Shows (scope : List String) (F env : Frame) : Prop where
  same : ∀ x ∈ scope, F.lookup x = env.lookup x
  values : ∀ e ∈ F, e.2.Lexical

namespace Shows

variable {scope : List String} {F env : Frame}

theorem self (h : ∀ e ∈ F, e.2.Lexical) : Shows scope F F := ⟨fun _ _ => rfl, h⟩

theorem lookup_lexical (h : Shows scope F env) {x : String} {v : Value}
    (hx : F.lookup x = some v) : v.Lexical := by
  obtain ⟨before, after, rfl, -⟩ := List.lookup_eq_some_iff.mp hx
  exact h.values (x, v) (by simp)

theorem extend (h : Shows scope F env) {entries : List (String × Value)}
    (hentries : ∀ e ∈ entries, e.2.Lexical) :
    Shows (entries.map Prod.fst ++ scope) (F.extend entries) (env.extend entries) where
  same x hx := lookup_extend_congr fun hnot => h.same x ((List.mem_append.mp hx).resolve_left hnot)
  values e he := by
    rcases List.mem_append.mp he with he | he
    · exact hentries e (List.mem_reverse.mp he)
    · exact h.values e he

/-- What an inner environment has added is forgotten again. -/
theorem restrict {inner : Frame} {names : List String} (h : Shows (names ++ scope) F inner)
    (hinner : ∀ x ∉ names, inner.lookup x = env.lookup x) (hnew : ∀ x ∈ scope, x ∉ names) :
    Shows scope F env where
  same x hx := (h.same x (List.mem_append_right _ hx)).trans (hinner x (hnew x hx))
  values := h.values

end Shows

end Frame

/-! ## Steps in a frame and in an environment -/

section

variable {α β γ δ : Type}

/-- The step in an environment ends as the step in a frame does, in the same machine; the results of a
success are related. -/
def EndsAs (Q : α → Frame → β → Prop) :
    EStateM.Result RunError Machine (α × Frame) → EStateM.Result RunError Machine β → Prop
  | .ok r M, r' => ∃ b, r' = .ok b M ∧ Q r.1 r.2 b
  | .error e M, r' => r' = .error e M

namespace EndsAs

variable {F : Frame} {M : Machine}

theorem ok {Q : α → Frame → β → Prop} {a : α} {b : β} (h : Q a F b) :
    EndsAs Q (.ok (a, F) M) (.ok b M) := ⟨b, rfl, h⟩

theorem imp {Q Q' : α → Frame → β → Prop} {r : EStateM.Result RunError Machine (α × Frame)}
    {r' : EStateM.Result RunError Machine β} (h : EndsAs Q r r')
    (hQ : ∀ a F b, Q a F b → Q' a F b) : EndsAs Q' r r' := by
  cases r with
  | ok p M =>
    obtain ⟨b, hb, hp⟩ := h
    exact ⟨b, hb, hQ _ _ _ hp⟩
  | error e M => exact h

theorem bind {Q : α → Frame → β → Prop} {Q' : γ → Frame → δ → Prop} {x : CallM α} {x' : RunM β}
    {f : α → CallM γ} {f' : β → RunM δ} (hx : EndsAs Q (x F M) (x' M))
    (hf : ∀ a F' b M', Q a F' b → EndsAs Q' (f a F' M') (f' b M')) :
    EndsAs Q' ((x >>= f) F M) ((x' >>= f') M) := by
  rw [bind_apply]
  cases hr : x F M with
  | ok p M' =>
    rw [hr] at hx
    obtain ⟨b, hb, hp⟩ := hx
    rw [shared_bind_of_ok hb]
    exact hf p.1 p.2 b M' hp
  | error e M' =>
    rw [hr] at hx
    rw [shared_bind_of_error hx]
    rfl

end EndsAs

/-- Both give the same result, which has the property, and the frame shows the environment. -/
structure Same (Q : α → Prop) (scope : List String) (env : Frame) (a : α) (F : Frame) (b : α) :
    Prop where
  eq : b = a
  holds : Q a
  shows : F.Shows scope env

namespace EndsAs

variable {Q : α → Prop} {scope : List String} {F env : Frame} {M : Machine}

theorem same {a : α} (ha : Q a) (hF : F.Shows scope env) :
    EndsAs (Same Q scope env) (.ok (a, F) M) (.ok a M) := .ok ⟨rfl, ha, hF⟩

theorem next {Q' : β → Frame → γ → Prop} {x : CallM α} {x' : RunM α} {f : α → CallM β}
    {f' : α → RunM γ} (hx : EndsAs (Same Q scope env) (x F M) (x' M))
    (hf : ∀ a F' M', Q a → F'.Shows scope env → EndsAs Q' (f a F' M') (f' a M')) :
    EndsAs Q' ((x >>= f) F M) ((x' >>= f') M) := by
  refine hx.bind fun a F' b M' h => ?_
  cases h.eq
  exact hf a F' M' h.holds h.shows

/-- A step that has to do with neither frame nor environment. -/
theorem lift {x x' : RunM α} (hsame : x' M = x M) (h : Settles (fun _ => True) Q (x M))
    (hF : F.Shows scope env) :
    EndsAs (Same Q scope env) ((liftM x : CallM α) F M) (x' M) := by
  rw [hsame]
  change EndsAs _ (EStateM.bind x (fun a => pure (a, F)) M) _
  rw [EStateM.bind]
  cases hr : x M with
  | ok a M' =>
    rw [hr] at h
    exact .same h hF
  | error e M' => rfl

/-- What is left in the frame does not matter once the call is over. -/
theorem run' {x : CallM α} {x' : RunM α} (h : EndsAs (Same Q scope env) (x F M) (x' M)) :
    x' M = x.run' F M ∧ Settles (fun _ => True) Q (x.run' F M) := by
  change _ = EStateM.map _ (x F) M ∧ Settles _ Q (EStateM.map _ (x F) M)
  rw [EStateM.map]
  cases hr : x F M with
  | ok p M' =>
    rw [hr] at h
    obtain ⟨b, hb, hsame⟩ := h
    rw [hsame.eq] at hb
    exact ⟨hb, hsame.holds⟩
  | error e M' =>
    rw [hr] at h
    exact ⟨h, trivial⟩

end EndsAs

end

/-! ## Code -/

/-- The functions of the unit are lexical, and its kernels keep to such functions. -/
structure CompiledUnit.Lexical (u : CompiledUnit) : Prop where
  functions : ∀ entry ∈ u.program.functions, entry.2.Lexical
  kernels : ∀ name k, u.kernels.get? name = some k → k.KeepsLexical

/-- Calls of code that stands apart from what it can see end alike, with lexical values. -/
def CallsAgree (call call' : Call) : Prop :=
  ∀ ⦃f scope bound args⦄, f.body.Everywhere Node.Apart scope → (∀ e ∈ bound, e.2.Lexical) →
    Value.AllLexical args → ∀ label M,
      call' f label bound args M = call f label bound args M ∧
        Settles (fun _ => True) Value.Lexical (call f label bound args M)

variable {u : CompiledUnit} {call call' : Call}

theorem callGlobal_agrees (hu : u.Lexical) (hcall : CallsAgree call call') (id : FunctionId)
    {args : List Value} (hargs : Value.AllLexical args) (M : Machine) :
    u.callGlobal call' id args M = u.callGlobal call id args M ∧
      Settles (fun _ => True) Value.Lexical (u.callGlobal call id args M) := by
  unfold CompiledUnit.callGlobal
  cases hentry : u.program.functions[id.index]? with
  | none => exact ⟨rfl, trivial⟩
  | some entry =>
    have hapart := (hu.functions entry (List.mem_of_getElem? hentry)).apart
    exact hcall hapart (List.forall_mem_nil _) hargs entry.1 _

theorem applyValue_agrees (hu : u.Lexical) (hcall : CallsAgree call call') {v : Value}
    (hv : v.Lexical) {args : List Value} (hargs : Value.AllLexical args) (M : Machine) :
    u.applyValue call' v args M = u.applyValue call v args M ∧
      Settles (fun _ => True) Value.Lexical (u.applyValue call v args M) := by
  cases v with
  | global id => exact callGlobal_agrees hu hcall id hargs M
  | closure f captures =>
    refine hcall hv.1 (fun e he => ?_) hargs _ _
    rw [Frame.extend, List.append_nil, List.mem_reverse] at he
    exact boundEntries_sound hv e he
  | tensor | tuple | adt => exact ⟨rfl, trivial⟩

theorem kernel_lexical (hu : u.Lexical) (name : String) (M : Machine) :
    Settles (fun _ => True) Kernel.KeepsLexical (u.kernel name M) := by
  unfold CompiledUnit.kernel
  cases hk : u.kernels.get? name with
  | none => exact trivial
  | some k => exact hu.kernels name k hk

theorem callKernel_lexical {k : Kernel} (hk : k.KeepsLexical) (name : String) (arity : Nat) (ty : Ty)
    (tupled : Bool) {args : List Value} (hargs : Value.AllLexical args) (M : Machine) :
    Settles (fun _ => True) Value.Lexical (u.callKernel k name arity ty tupled args M) :=
  callKernel_settles (fun _ _ => trivial) hargs (fun _ _ _ _ => trivial) hk ty M

section

variable {scope : List String} {F env : Frame}

theorem lookup_agrees {x : String} (hF : F.Shows scope env) (hx : x ∈ scope) (M : Machine) :
    EndsAs (Same Value.Lexical scope env) (lookup x F M) (CompiledUnit.lookupIn env x M) := by
  unfold CompiledUnit.lookupIn
  rw [← hF.same x hx]
  cases hv : F.lookup x with
  | some v =>
    rw [lookup_of_eq_some hv]
    exact .same (hF.lookup_lexical hv) hF
  | none =>
    rw [lookup_of_eq_none hv]
    rfl

theorem captureAll_agrees {captures : List Param} (hF : F.Shows scope env)
    (h : ∀ c ∈ captures, c.name ∈ scope) (M : Machine) :
    EndsAs (Same (fun vs => vs.length = captures.length ∧ Value.AllLexical vs) scope env)
      (CompiledUnit.captureAll captures F M) (CompiledUnit.captureAllIn env captures M) := by
  induction captures generalizing F M with
  | nil => exact .same ⟨rfl, trivial⟩ hF
  | cons c captures ih =>
    rw [List.forall_mem_cons] at h
    rw [CompiledUnit.captureAll, CompiledUnit.captureAllIn]
    refine (lookup_agrees hF h.1 M).next fun v F' M' hv hF' => ?_
    refine (ih hF' h.2 M').next fun vs F'' M'' hvs hF'' => ?_
    exact .same ⟨congrArg Nat.succ hvs.1, hv, hvs.2⟩ hF''

end

mutual

/-- A node has the same value in an environment as in a frame that shows it. Afterwards the frame still
shows the environment, since the node has bound new names only. -/
theorem eval_agrees (hu : u.Lexical) (hcall : CallsAgree call call') :
    ∀ (n : Node) {scope : List String} {F env : Frame}, n.Everywhere Node.Apart scope →
      F.Shows scope env → ∀ M,
        EndsAs (Same Value.Lexical scope env) (u.eval call n F M) (u.evalIn call' n env M)
  | .var _, _, _, _, hn, hF, M => lookup_agrees hF hn.1 M
  | .literal _, _, _, _, _, hF, _ => .same trivial hF
  | .global _, _, _, _, _, hF, _ => .same trivial hF
  | .decl bindings body, scope, _, env, ⟨hn, hbindings, hbody⟩, hF, M => by
    rw [CompiledUnit.eval, CompiledUnit.evalIn]
    refine (evalBindings_agrees hu hcall bindings hbindings hF M).bind ?_
    rintro _ F' inner M' ⟨hF', hinner⟩
    refine (eval_agrees hu hcall body hbody hF' M').imp fun v F'' w hsame => ?_
    -- the names of the bindings are new, so the scope sees the outer environment again
    have hnames := (Node.names_sublist_bindingBinders bindings).subset
    refine ⟨hsame.eq, hsame.holds, hsame.shows.restrict ?_ fun x hx hmem => ?_⟩
    · exact fun x hx => hinner x fun hmem => hx (List.mem_reverse.mpr hmem)
    · exact hn.2 x hx (List.mem_append_left _ (hnames (List.mem_reverse.mp hmem)))
  | .packed name arity args ty tupled, _, _, _, ⟨_, hargs⟩, hF, M => by
    rw [CompiledUnit.eval, CompiledUnit.evalIn]
    refine (EndsAs.lift rfl (kernel_lexical hu name M) hF).next fun k F' M' hk hF' => ?_
    refine (evalAll_agrees hu hcall args hargs hF' M').next fun vs F'' M'' hvs hF'' => ?_
    exact .lift rfl (callKernel_lexical hk name arity ty tupled hvs M'') hF''
  | .invoke target args, _, _, _, ⟨_, hargs⟩, hF, M => by
    rw [CompiledUnit.eval, CompiledUnit.evalIn]
    refine (evalAll_agrees hu hcall args hargs hF M).next fun vs F' M' hvs hF' => ?_
    obtain ⟨hsame, hlexical⟩ := callGlobal_agrees hu hcall target.id hvs M'
    exact .lift hsame hlexical hF'
  | .apply callee args, _, _, _, ⟨_, hcallee, hargs⟩, hF, M => by
    rw [CompiledUnit.eval, CompiledUnit.evalIn]
    refine (eval_agrees hu hcall callee hcallee hF M).next fun f F' M' hf hF' => ?_
    refine (evalAll_agrees hu hcall args hargs hF' M').next fun vs F'' M'' hvs hF'' => ?_
    obtain ⟨hsame, hlexical⟩ := applyValue_agrees hu hcall hf hvs M''
    exact .lift hsame hlexical hF''
  | .func name params captures body ret, _, _, _, ⟨hn, hbody⟩, hF, M => by
    rw [CompiledUnit.eval, CompiledUnit.evalIn]
    refine (captureAll_agrees hF hn.1 M).next fun vs F' M' hvs hF' => ?_
    exact .same ⟨hbody, hvs.1, hvs.2⟩ hF'
  | .ite cond onTrue onFalse _, _, _, _, ⟨_, hcond, htrue, hfalse⟩, hF, M => by
    rw [CompiledUnit.eval, CompiledUnit.evalIn]
    refine (eval_agrees hu hcall cond hcond hF M).next fun v F' M' _ hF' => ?_
    cases v.asBool? with
    | none => rfl
    | some b =>
      cases b with
      | true => exact eval_agrees hu hcall onTrue htrue hF' M'
      | false => exact eval_agrees hu hcall onFalse hfalse hF' M'
  | .tuple fields _, _, _, _, ⟨_, hfields⟩, hF, M => by
    rw [CompiledUnit.eval, CompiledUnit.evalIn]
    exact (evalAll_agrees hu hcall fields hfields hF M).next fun vs F' M' hvs hF' => .same hvs hF'
  | .matchOn data clauses _, _, _, _, ⟨hn, hdata, hclauses⟩, hF, M => by
    rw [CompiledUnit.eval, CompiledUnit.evalIn]
    refine (eval_agrees hu hcall data hdata hF M).next fun v F' M' hv hF' => ?_
    refine evalClauses_agrees hu hcall clauses hclauses (fun x hx hmem => ?_) hv hF' M'
    exact hn.2 x hx (List.mem_append_right _ hmem)
  | .ctor _ _ fields _, _, _, _, ⟨_, hfields⟩, hF, M => by
    rw [CompiledUnit.eval, CompiledUnit.evalIn]
    exact (evalAll_agrees hu hcall fields hfields hF M).next fun vs F' M' hvs hF' => .same hvs hF'

theorem evalAll_agrees (hu : u.Lexical) (hcall : CallsAgree call call') :
    ∀ (ns : List Node) {scope : List String} {F env : Frame}, Node.AllEverywhere Node.Apart scope ns →
      F.Shows scope env → ∀ M,
        EndsAs (Same Value.AllLexical scope env) (u.evalAll call ns F M) (u.evalAllIn call' ns env M)
  | [], _, _, _, _, hF, _ => .same trivial hF
  | n :: ns, _, _, _, ⟨hn, hns⟩, hF, M => by
    rw [CompiledUnit.evalAll, CompiledUnit.evalAllIn]
    refine (eval_agrees hu hcall n hn hF M).next fun v F' M' hv hF' => ?_
    refine (evalAll_agrees hu hcall ns hns hF' M').next fun vs F'' M'' hvs hF'' => ?_
    exact .same ⟨hv, hvs⟩ hF''

/-- Bindings extend the environment at their own names only. -/
theorem evalBindings_agrees (hu : u.Lexical) (hcall : CallsAgree call call') :
    ∀ (bs : List (String × Node)) {scope : List String} {F env : Frame},
      Node.BindingsEverywhere Node.Apart scope bs → F.Shows scope env → ∀ M,
        EndsAs (fun _ F' inner => F'.Shows ((bs.map Prod.fst).reverse ++ scope) inner ∧
          ∀ x ∉ bs.map Prod.fst, inner.lookup x = env.lookup x)
          (u.evalBindings call bs F M) (u.bindIn call' bs env M)
  | [], _, _, _, _, hF, _ => .ok ⟨hF, fun _ _ => rfl⟩
  | (x, n) :: bs, scope, _, env, ⟨hn, hbs⟩, hF, M => by
    rw [CompiledUnit.evalBindings, CompiledUnit.bindIn]
    refine (eval_agrees hu hcall n hn hF M).next fun v F' M' hv hF' => ?_
    have hentry : ∀ e ∈ [(x, v)], e.2.Lexical := by
      intro e he
      cases List.mem_singleton.mp he
      exact hv
    have hF'' : Frame.Shows (x :: scope) ((x, v) :: F') ((x, v) :: env) := hF'.extend hentry
    refine (evalBindings_agrees hu hcall bs hbs hF'' M').imp ?_
    rintro _ F₁ inner ⟨hF₁, hinner⟩
    refine ⟨by simpa using hF₁, fun y hy => ?_⟩
    simp only [List.map_cons, List.mem_cons, not_or] at hy
    rw [hinner y hy.2, Frame.lookup_cons_of_ne hy.1]

theorem evalClauses_agrees (hu : u.Lexical) (hcall : CallsAgree call call') :
    ∀ (clauses : List (Lowered.Pattern × Node)) {scope : List String} {F env : Frame} {v : Value},
      Node.ClausesEverywhere Node.Apart scope clauses →
      (∀ x ∈ scope, x ∉ Node.clauseBinders clauses) → v.Lexical → F.Shows scope env → ∀ M,
        EndsAs (Same Value.Lexical scope env) (u.evalClauses call v clauses F M)
          (u.evalClausesIn call' v clauses env M)
  | [], _, _, _, _, _, _, _, _, _ => rfl
  | (p, body) :: rest, scope, F, env, v, ⟨hbody, hrest⟩, hnew, hv, hF, M => by
    rw [CompiledUnit.evalClauses_cons, CompiledUnit.evalClausesIn]
    simp only [Node.clauseBinders, List.mem_append, not_or] at hnew
    cases hentries : matchPattern? p v with
    | none => exact evalClauses_agrees hu hcall rest hrest (fun x hx => (hnew x hx).2) hv hF M
    | some entries =>
      obtain ⟨hnames, hlexical⟩ := matchPattern?_sound hv hentries
      have hF' := hF.extend hlexical
      rw [hnames] at hF'
      refine (eval_agrees hu hcall body hbody hF' M).imp fun w F'' _ hsame => ?_
      refine ⟨hsame.eq, hsame.holds, hsame.shows.restrict ?_ fun x hx => (hnew x hx).1.1⟩
      exact fun x hx => Frame.lookup_extend_of_notMem (hnames ▸ hx)

end

/-! ## Calls and runs -/

theorem lexicalCall_agrees (hu : u.Lexical) (room : Nat) :
    CallsAgree (u.callWithin room) (u.lexicalCall room) := by
  induction room with
  | zero =>
    intro f scope bound args _ _ _ label M
    rw [CompiledUnit.callWithin, CompiledUnit.lexicalCall]
    split
    · exact ⟨rfl, trivial⟩
    · exact ⟨rfl, trivial⟩
  | succ room ih =>
    intro f scope bound args hbody hbound hargs label M
    rw [CompiledUnit.callWithin, CompiledUnit.lexicalCall]
    split
    · -- the call starts with a frame that is an environment
      have hself : Frame.Shows scope bound bound := .self hbound
      have hvalues := (hself.extend (zip_sound (f.params.map Param.name) hargs)).values
      have hends := fun M => (eval_agrees hu ih f.body hbody (.self hvalues) M).run'
      rw [funext fun M => (hends M).1]
      exact ⟨rfl, Settles.opened (fun M => (hends M).2) M⟩
    · exact ⟨rfl, trivial⟩

theorem runThrough_lexical (hu : u.Lexical) (hcall : CallsAgree call call') (id : FunctionId)
    {args : List Value} (hargs : Value.AllLexical args) :
    u.runThrough call' id args = u.runThrough call id args := by
  unfold CompiledUnit.runThrough
  rw [funext fun M => (callGlobal_agrees hu hcall id hargs M).1]

/-- One flat frame for each call is as good as lexical environments: where all functions read names
that are in scope only and bind different names, and kernels keep to such functions, runs on data end
with exactly the same values or failures either way. -/
theorem flat_frames_suffice (hu : u.Lexical) {args : List Value} (hargs : Value.allData args = true) :
    (∀ id, u.run id args = u.runLexically id args) ∧
      ∀ name, u.invoke name args = u.invokeLexically name args := by
  have hrun : ∀ id, u.runThrough (u.lexicalCall u.options.maxCallDepth) id args =
      u.runThrough (u.callWithin u.options.maxCallDepth) id args :=
    fun id => runThrough_lexical hu (lexicalCall_agrees hu _) id (.of_allData hargs)
  rw [u.run_eq, u.invoke_eq]
  refine ⟨fun id => (hrun id).symm, fun name => ?_⟩
  rw [CompiledUnit.invokeLexically, CompiledUnit.invokeThrough, CompiledUnit.invokeThrough]
  cases u.program.idOf? name with
  | none => rfl
  | some id => exact (hrun id).symm

end Run

/-! ## What lowering makes -/

open Source Lowering Run

theorem Lowered.Node.scopedHere_widens_inScope : Node.Widens Node.ScopedHere Node.InScope := by
  intro scope scope' n hsub h
  cases n with
  | var x => exact hsub h
  | func => exact fun c hc => hsub (h.1 c hc)
  | _ => exact trivial

theorem Lowered.Function.WellScoped.lexical {f : Lowered.Function} (h : f.WellScoped)
    (hbinds : f.BindsApart) : f.Lexical where
  inScope := by
    refine ⟨fun c hc => ?_, h.mono Node.scopedHere_widens_inScope (List.Subset.refl _)⟩
    rw [hbinds.own.2] at hc
    cases hc
  distinct := by
    rw [Function.toNode, Node.binders, hbinds.own.1]
    exact hbinds.nodup

theorem Lowered.Program.FromClosed.lexical {p : Program} (h : p.FromClosed) :
    ∀ entry ∈ p.functions, entry.2.Lexical := by
  intro entry hentry
  obtain ⟨f, hclosed, haccepts⟩ := h entry hentry
  exact (haccepts.wellScoped hclosed).lexical haccepts.bindsApart

theorem Kernel.ReturnsData.keepsLexical {k : Kernel} (h : k.ReturnsData) : k.KeepsLexical :=
  fun _ _ _ hcall => .of_isData (h hcall)

/-- The program of `walk`, which declares one local function in an operand of a call. -/
theorem walk_runs_lexically : ∃ entry program g v M,
    Setting.compile ⟨chainModule, .builtin, {}⟩ walk {} = .ok (entry, program) g ∧
      CompiledUnit.Lexical ⟨program, .builtin, chainModule.types, {}⟩ ∧
      CompiledUnit.runLexically ⟨program, .builtin, chainModule.types, {}⟩ entry walkArgs {} =
        .ok v M := by
  have hresult : walkResult.isSome = true := by decide +kernel
  obtain ⟨v, hv⟩ := Option.isSome_iff_exists.mp hresult
  obtain ⟨entry, program, g, M, hcompile, hrun⟩ := walkResult_eq_some hv
  have hlexical : CompiledUnit.Lexical ⟨program, .builtin, chainModule.types, {}⟩ :=
    ⟨((Setting.Makes.compile hcompile).fromClosed fun _ _ _ => walk_offers_closed).lexical,
      fun _ _ hk => (builtin_returnsData hk).keepsLexical⟩
  refine ⟨entry, program, g, v, M, hcompile, hlexical, ?_⟩
  rw [← (flat_frames_suffice hlexical rfl).1 entry]
  exact hrun

/-! ## A name that is gone -/

/-- A function whose second operand reads what only the first one declares. -/
def staleFunction : Lowered.Function where
  name := none
  params := []
  captures := []
  body := .tuple [.decl [("y_0", .literal (.scalarBool true))] (.var "y_0"), .var "y_0"]
    (.tuple [.scalar .bool, .scalar .bool])
  ret := .tuple [.scalar .bool, .scalar .bool]

/-- The program calls the function, which it gets from a kernel. -/
def staleUnit : CompiledUnit where
  program := ⟨[("main",
    { name := none
      params := []
      captures := []
      body := .apply (.packed "k" 0 [] staleFunction.fnType false) []
      ret := staleFunction.ret })]⟩
  kernels := ⟨[.const "k" (.fixed 0) (.closure staleFunction [])]⟩
  types := []
  options := {}

/-- Where a kernel returns code that is not well scoped, a flat frame still has a name that is gone from
the environment. -/
theorem stale_name_found : (∀ entry ∈ staleUnit.program.functions, entry.2.Lexical) ∧
    (∃ M, staleUnit.invoke "main" [] {} =
      .ok (.tuple [.tensor (.scalarBool true), .tensor (.scalarBool true)]) M) ∧
    ∃ M, staleUnit.invokeLexically "main" [] {} = .error (.unboundVariable "y_0") M := by
  refine ⟨?_, ⟨_, rfl⟩, ⟨_, rfl⟩⟩
  intro entry hentry
  obtain rfl := List.mem_singleton.mp hentry
  exact ⟨⟨List.forall_mem_nil _, trivial, ⟨trivial, trivial⟩, trivial⟩, .nil⟩

end TensorIR
