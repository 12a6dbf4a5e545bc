import TensorIR.Proofs.RunOutcomes
import TensorIR.Proofs.ValueTyping

/-! Runs of programs with consistent annotations.

Evaluation keeps every name of the context at a value of its type: a node changes the frame at the
names it binds only, and these are new to the context. So a run ends with a value of the annotated
type, or with one of the failures that annotations do not rule out. -/

namespace TensorIR.Run

open Lowered Matching

/-- The failures that annotations do not rule out. Each one belongs to a node of the program: a kernel
that it calls is missing, refuses the arguments or returns a value of another type than the one declared
at the call, or a match has no clause for the value. Besides, there may be too many open calls. -/
inductive RunError.Excused (u : CompiledUnit) : RunError → Prop
  | unknownKernel {name : String} {arity : Nat} {args : List Node} {ty : Ty} {tupled : Bool} :
    .packed name arity args ty tupled ∈ u.program.nodes → u.kernels.get? name = none →
      RunError.Excused u (.kernel name (.invalid "kernel is not registered with this module"))
  | kernel {name : String} {arity : Nat} {args : List Node} {ty : Ty} {tupled : Bool} {k : Kernel}
    {vs : List Value} {cause : KernelError} :
    .packed name arity args ty tupled ∈ u.program.nodes → u.kernels.get? name = some k →
    k.call vs = .error cause → RunError.Excused u (.kernel name cause)
  | kernelResult {name : String} {arity : Nat} {args : List Node} {ty : Ty} {tupled : Bool}
    {k : Kernel} {vs : List Value} {v : Value} :
    .packed name arity args ty tupled ∈ u.program.nodes → u.kernels.get? name = some k →
    k.call vs = .ok v → v.conformsTo u.types ty = false →
      RunError.Excused u (.typeMismatch .kernelCall ty.text v)
  | uncovered {data : Node} {clauses : List (Pattern × Node)} {ty : Ty} {v : Value} :
    .matchOn data clauses ty ∈ u.program.nodes →
    (∀ clause ∈ clauses, matchPattern? clause.1 v = none) →
      RunError.Excused u (.nonExhaustiveMatch v)
  | depth : RunError.Excused u (.depthExceeded u.options.maxCallDepth)

/-- A success has the property, and a failure is excused. -/
def Safe (u : CompiledUnit) {α : Type} (Q : α → Prop) : EStateM.Result RunError Machine α → Prop
  | .ok a _ => Q a
  | .error e _ => e.Excused u

namespace Safe

variable {u : CompiledUnit} {α β : Type}

theorem iff_settles {Q : α → Prop} {r : EStateM.Result RunError Machine α} :
    Safe u Q r ↔ Settles (RunError.Excused u) Q r := by
  cases r with
  | ok => exact Iff.rfl
  | error => exact Iff.rfl

theorem imp {Q R : α → Prop} {r : EStateM.Result RunError Machine α} (h : Safe u Q r)
    (himp : ∀ a, Q a → R a) : Safe u R r :=
  iff_settles.mpr ((iff_settles.mp h).imp (fun _ he => he) himp)

theorem bind {Q : α × Frame → Prop} {R : β × Frame → Prop} {x : CallM α} {f : α → CallM β}
    {frame : Frame} {m : Machine} (hx : Safe u Q (x frame m))
    (hf : ∀ a frame' m', Q (a, frame') → Safe u R (f a frame' m')) :
    Safe u R ((x >>= f) frame m) := by
  refine iff_settles.mpr ((iff_settles.mp hx).bind (fun _ he => he) ?_)
  exact fun a frame' m' ha => iff_settles.mp (hf a frame' m' ha)

theorem shared_bind {Q : α → Prop} {R : β → Prop} {x : RunM α} {f : α → RunM β} {m : Machine}
    (hx : Safe u Q (x m)) (hf : ∀ a m', Q a → Safe u R (f a m')) : Safe u R ((x >>= f) m) := by
  refine iff_settles.mpr ((iff_settles.mp hx).shared_bind (fun _ he => he) ?_)
  exact fun a m' ha => iff_settles.mp (hf a m' ha)

theorem lift {Q : α → Prop} {x : RunM α} {frame : Frame} {m : Machine} (hx : Safe u Q (x m)) :
    Safe u (fun r => Q r.1 ∧ r.2 = frame) ((liftM x : CallM α) frame m) :=
  iff_settles.mpr (iff_settles.mp hx).lift

theorem run' {Q : α → Prop} {x : CallM α} {frame : Frame} {m : Machine}
    (hx : Safe u (fun r => Q r.1) (x frame m)) : Safe u Q (x.run' frame m) :=
  iff_settles.mpr (Settles.run' (iff_settles.mp hx))

theorem opened {Q : Value → Prop} {step : RunM Value} {m : Machine}
    (h : ∀ m', Safe u Q (step m')) : Safe u Q (CompiledUnit.opened step m) :=
  iff_settles.mpr (Settles.opened (fun m' => iff_settles.mp (h m')) m)

end Safe

/-! ## Calls -/

namespace CompiledUnit

variable {u : CompiledUnit} {call : Call}

/-- Calls of consistent functions on arguments of their types are safe. -/
def CallSafe (u : CompiledUnit) (call : Call) : Prop :=
  ∀ ⦃f : Function⦄ ⦃Γ : Context⦄ ⦃bound : Frame⦄ ⦃args : List Value⦄,
    f.Consistent u.program u.types Γ → bound.Models u.program u.types Γ →
    Value.AllHaveType u.program u.types args (f.params.map Param.ty) → ∀ label m,
      Safe u (Value.HasType u.program u.types · f.ret) (call f label bound args m)

theorem callGlobal_safe (hP : u.program.ConsistentlyAnnotated u.types) (hcall : CallSafe u call)
    {id : FunctionId} {f : Function} {args : List Value} (hf : u.program.function? id = some f)
    (hargs : Value.AllHaveType u.program u.types args (f.params.map Param.ty)) (m : Machine) :
    Safe u (Value.HasType u.program u.types · f.ret) (callGlobal u call id args m) := by
  have hconsistent := hP.function hf
  obtain ⟨⟨name, f⟩, hentry, rfl⟩ := Option.map_eq_some_iff.mp hf
  simp only [callGlobal, hentry]
  exact hcall hconsistent (Frame.models_nil []) hargs name _

/-- A local function starts with a frame that models itself and its captures. -/
theorem models_bound {f : Function} {vs : List Value}
    (hv : Value.HasType u.program u.types (.closure f vs) f.fnType) :
    Frame.Models u.program u.types f.boundContext (Frame.extend []
      ((f.name.toList.map fun name => (name, .closure f vs)) ++
        (f.captures.map Param.name).zip vs)) := by
  have hself : List.Forall₂ (Frame.EntryHasType u.program u.types)
      (f.name.toList.map fun name => (name, Value.closure f vs))
      (f.name.toList.map fun name => (name, f.fnType)) := by
    rw [List.forall₂_map_left_iff, List.forall₂_map_right_iff, List.forall₂_same]
    exact fun _ _ => ⟨rfl, hv⟩
  cases hv with
  | closure _ hfunctional hcaptures =>
    have h := Frame.Models.extend (List.rel_append hself (Frame.forall₂_zip hcaptures)) hfunctional
      (Frame.models_nil [])
    rwa [List.append_nil] at h

theorem applyValue_safe (hP : u.program.ConsistentlyAnnotated u.types) (hcall : CallSafe u call)
    {v : Value} {tys : List Ty} {ty : Ty} {args : List Value}
    (hv : v.HasType u.program u.types (.func tys ty))
    (hargs : Value.AllHaveType u.program u.types args tys) (m : Machine) :
    Safe u (Value.HasType u.program u.types · ty) (applyValue u call v args m) := by
  generalize hty : Ty.func tys ty = fty at hv
  cases hv with
  | global hf =>
    injection hty with htys hret
    subst htys hret
    exact callGlobal_safe hP hcall hf hargs m
  | closure hconsistent hfunctional hcaptures =>
    injection hty with htys hret
    subst htys hret
    exact hcall hconsistent (models_bound (.closure hconsistent hfunctional hcaptures)) hargs _ _
  | tensor | tuple | adt => cases hty

section

variable {name : String} {arity : Nat} {nodes : List Node} {ty : Ty} {tupled : Bool}

theorem kernel_safe (hnode : .packed name arity nodes ty tupled ∈ u.program.nodes) (m : Machine) :
    Safe u (fun k => u.kernels.get? name = some k) (u.kernel name m) := by
  rw [kernel]
  cases hget : u.kernels.get? name with
  | none => exact .unknownKernel hnode hget
  | some k => exact rfl

/-- With checked results, a kernel returns a value of the type at the call: it has no functions in
it, so that conformance says all. -/
theorem callKernel_safe (hcheck : u.options.checkKernelOutputs = true) {k : Kernel}
    {args : List Value} (hnode : .packed name arity nodes ty tupled ∈ u.program.nodes)
    (hget : u.kernels.get? name = some k) (hfree : ty.FunctionFree u.types)
    (hargs : ∀ m, Safe u (fun _ => True) (kernelArgs name arity tupled args m)) (m : Machine) :
    Safe u (Value.HasType u.program u.types · ty)
      (callKernel u k name arity ty tupled args m) := by
  refine (hargs m).shared_bind fun args' m' _ => ?_
  refine Safe.shared_bind (Q := fun _ => True) trivial fun _ m' _ => ?_
  cases harity : k.checkArity args' with
  | error e => exact .kernel hnode hget (by rw [Kernel.call, harity]; rfl)
  | ok =>
    have hcall : k.call args' = k.body args' := by rw [Kernel.call, harity]; rfl
    refine Safe.shared_bind (Q := fun _ => True) trivial fun _ m' _ => ?_
    cases hbody : k.body args' with
    | error e => exact .kernel hnode hget (hcall.trans hbody)
    | ok v =>
      cases hconf : v.conformsTo u.types ty with
      | false =>
        simp only [hcheck, hconf]
        exact .kernelResult hnode hget (hcall.trans hbody) hconf
      | true =>
        simp only [hcheck, hconf]
        exact .of_isData (Value.isData_of_conformsTo hconf hfree) hconf

end

theorem kernelArgs_safe (name : String) (arity : Nat) (args : List Value) (m : Machine) :
    Safe u (fun _ => True) (kernelArgs name arity false args m) :=
  trivial

theorem kernelArgs_tupled_safe {name : String} {v : Value} {tys : List Ty}
    (hv : v.HasType u.program u.types (.tuple tys)) (m : Machine) :
    Safe u (fun _ => True) (kernelArgs name tys.length true [v] m) := by
  cases hv with
  | tuple hvs =>
    simp only [kernelArgs, List.getLast?_singleton, hvs.length_eq, if_true]
    exact trivial

/-! ## Nodes -/

theorem lookup_safe {Γ : Context} {frame : Frame} {x : String} {ty : Ty}
    (hframe : frame.Models u.program u.types Γ) (hx : Γ.lookup x = some ty) (m : Machine) :
    Safe u (fun r => r.1.HasType u.program u.types ty ∧ r.2 = frame) (lookup x frame m) := by
  obtain ⟨v, hv, hty⟩ := hframe x ty hx
  refine Safe.bind (Q := fun r => r = (frame, frame)) rfl ?_
  rintro frame' frame'' m' heq
  cases heq
  simp only [hv]
  exact ⟨hty, rfl⟩

theorem captureAll_safe {Γ : Context} {frame : Frame} {captures : List Param}
    (hframe : frame.Models u.program u.types Γ)
    (hcaptures : ∀ c ∈ captures, Γ.lookup c.name = some c.ty) (m : Machine) :
    Safe u (fun r => Value.AllHaveType u.program u.types r.1 (captures.map Param.ty) ∧ r.2 = frame)
      (captureAll captures frame m) := by
  induction captures generalizing m with
  | nil => exact ⟨.nil, rfl⟩
  | cons c captures ih =>
    rw [captureAll]
    refine (lookup_safe hframe (hcaptures c List.mem_cons_self) m).bind ?_
    rintro v frame' m' ⟨hv, rfl⟩
    refine (ih (fun c hc => hcaptures c (List.mem_cons_of_mem _ hc)) m').bind ?_
    rintro vs frame' m'' ⟨hvs, rfl⟩
    exact ⟨.cons hv hvs, rfl⟩

/-- The function of a consistent node is consistent in the scope of itself and its captures, whose
names are names of the context and hence not bound inside it. -/
theorem closure_hasType {P : Program} {types : Source.TypeTable} {Γ : Context} {f : Function}
    {vs : List Value}
    (hbody : Node.Typed P types (paramContext f.params ++ f.boundContext) f.body f.ret)
    (hcaptures : ∀ c ∈ f.captures, Γ.lookup c.name = some c.ty) (hfresh : Γ.Fresh f.toNode.binders)
    (hnodup : f.toNode.binders.Nodup) (hnodes : f.body.nodes ⊆ P.nodes)
    (hvs : Value.AllHaveType P types vs (f.captures.map Param.ty)) :
    Value.HasType P types (.closure f vs) f.fnType := by
  simp only [Function.toNode, Node.binders, List.append_assoc] at hfresh hnodup
  obtain ⟨-, hnodup', hself⟩ := List.nodup_append.mp hnodup
  obtain ⟨hparams, hbinders, hdisjoint⟩ := List.nodup_append.mp hnodup'
  -- a captured name is no name bound by the function
  have hcaptured : ∀ c ∈ f.captures,
      c.name ∉ f.name.toList ++ (f.params.map Param.name ++ f.body.binders) := by
    intro c hc hmem
    have hnone := hfresh c.name hmem
    rw [hcaptures c hc] at hnone
    cases hnone
  refine .closure ⟨hbody, hparams, ?_, hbinders, hnodes⟩ ?_ hvs
  · intro x hx
    refine Context.lookup_eq_none ?_
    simp only [Function.boundContext, List.map_append, paramContext_names, List.map_map,
      List.mem_append, List.mem_map, not_or]
    refine ⟨fun hp => ?_, fun hs => ?_, fun hc => ?_⟩
    · exact hdisjoint x (List.mem_map.mpr hp) x hx rfl
    · obtain ⟨y, hy, rfl⟩ := hs
      exact hself y hy y (List.mem_append_right _ hx) rfl
    · obtain ⟨c, hc, rfl⟩ := hc
      exact hcaptured c hc (List.mem_append_right _ (List.mem_append_right _ hx))
  · intro x ty ty' hty hty'
    simp only [Function.boundContext, paramContext, List.mem_append, List.mem_map,
      Prod.mk.injEq] at hty hty'
    rcases hty with ⟨y, hy, rfl, rfl⟩ | ⟨c, hc, rfl, rfl⟩ <;>
      rcases hty' with ⟨y', hy', heq, rfl⟩ | ⟨c', hc', heq, rfl⟩
    · rfl
    · exact absurd (List.mem_append_left _ (heq ▸ hy)) (hcaptured c' hc')
    · exact absurd (List.mem_append_left _ (heq ▸ hy')) (hcaptured c hc)
    · have h := hcaptures c' hc'
      rw [heq, hcaptures c hc] at h
      exact Option.some.inj h

/-- Bindings bind no other names than their own. -/
theorem lookup_of_bindingsTyped {P : Program} {types : Source.TypeTable} {Γ Δ : Context}
    {bindings : List (String × Node)} (h : Node.BindingsTyped P types Γ bindings Δ) {x : String}
    (hx : x ∉ Node.bindingBinders bindings) (hΓ : Γ.lookup x = none) : Δ.lookup x = none := by
  induction bindings generalizing Γ with
  | nil =>
    cases h
    exact hΓ
  | cons b bindings ih =>
    cases h with
    | @cons _ _ y n ty _ hn hrest =>
      simp only [Node.bindingBinders, List.mem_append, not_or] at hx
      have hne : x ≠ y := by
        rintro rfl
        exact hx.1 (Node.mem_bindingBinders_head n)
      refine ih hrest hx.2 ?_
      rw [List.lookup_cons, beq_false_of_ne hne]
      exact hΓ

mutual

/-- A consistent node evaluates to a value of its type, and changes the frame at the names it binds
only. -/
theorem eval_safe (hP : u.program.ConsistentlyAnnotated u.types)
    (hcheck : u.options.checkKernelOutputs = true) (hcall : CallSafe u call) :
    ∀ (n : Node) {Γ : Context} {ty : Ty} {frame : Frame}, n.Typed u.program u.types Γ ty →
      n.nodes ⊆ u.program.nodes → Γ.Fresh n.binders → n.binders.Nodup →
      frame.Models u.program u.types Γ → ∀ m,
        Safe u (fun r => r.1.HasType u.program u.types ty ∧ Frame.SameOutside n.binders frame r.2)
          (eval u call n frame m)
  | .var x, _, _, frame, .var hx, _, _, _, hframe, m => by
    rw [eval]
    refine (lookup_safe hframe hx m).imp ?_
    rintro ⟨v, frame'⟩ ⟨hv, rfl⟩
    exact ⟨hv, .refl _ _⟩
  | .literal t, _, _, _, .literal, _, _, _, _, m => ⟨.tensor, .refl _ _⟩
  | .global target, _, _, _, .global hf, _, _, _, _, m => ⟨.global hf, .refl _ _⟩
  | .decl bindings body, _, _, _, .decl hbindings hbody, hnodes, hfresh, hnodup, hframe, m => by
    obtain ⟨hnodes, hnodesBody⟩ := List.append_subset.mp (List.cons_subset.mp hnodes).2
    rw [Node.binders] at hfresh hnodup ⊢
    obtain ⟨hfresh, hfreshBody⟩ := Context.fresh_append.mp hfresh
    obtain ⟨hnodup, hnodupBody, hdisjoint⟩ := List.nodup_append.mp hnodup
    rw [eval]
    refine (evalBindings_safe hP hcheck hcall bindings hbindings hnodes hfresh hnodup hframe m).bind ?_
    rintro ⟨⟩ frame' m' ⟨hframe', hsame⟩
    have hfreshBody' := fun x hx => lookup_of_bindingsTyped hbindings
      (fun hmem => hdisjoint x hmem x hx rfl) (hfreshBody x hx)
    refine (eval_safe hP hcheck hcall body hbody hnodesBody hfreshBody' hnodupBody hframe'
      m').imp ?_
    rintro ⟨v, frame''⟩ ⟨hv, hsame'⟩
    exact ⟨hv, hsame.append hsame'⟩
  | .packed name arity args ty false, _, _, _, .packed hargs hfree, hnodes, hfresh, hnodup, hframe,
      m => by
    obtain ⟨hnode, hnodes⟩ := List.cons_subset.mp hnodes
    rw [Node.binders] at hfresh hnodup ⊢
    rw [eval]
    refine (kernel_safe hnode m).lift.bind ?_
    rintro k frame' m' ⟨hget, rfl⟩
    refine (evalAll_safe hP hcheck hcall args hargs hnodes hfresh hnodup hframe m').bind ?_
    rintro vs frame'' m'' ⟨-, hsame⟩
    refine (callKernel_safe hcheck hnode hget hfree (kernelArgs_safe name arity vs) m'').lift.imp ?_
    rintro ⟨v, frame'⟩ ⟨hv, rfl⟩
    exact ⟨hv, hsame⟩
  | .packed name _ [arg] ty true, _, _, _, .packedTuple harg hfree, hnodes, hfresh, hnodup, hframe,
      m => by
    obtain ⟨hnode, hnodes⟩ := List.cons_subset.mp hnodes
    rw [Node.binders] at hfresh hnodup ⊢
    rw [eval]
    refine (kernel_safe hnode m).lift.bind ?_
    rintro k frame' m' ⟨hget, rfl⟩
    refine (evalAll_safe hP hcheck hcall [arg] (.cons harg .nil) hnodes hfresh hnodup hframe
      m').bind ?_
    rintro vs frame'' m'' ⟨hvs, hsame⟩
    cases hvs with
    | cons hv hnil =>
      cases hnil
      refine (callKernel_safe hcheck hnode hget hfree (kernelArgs_tupled_safe hv) m'').lift.imp ?_
      rintro ⟨v, frame'⟩ ⟨hv, rfl⟩
      exact ⟨hv, hsame⟩
  | .invoke target args, _, _, _, .invoke hf hargs, hnodes, hfresh, hnodup, hframe, m => by
    obtain ⟨-, hnodes⟩ := List.cons_subset.mp hnodes
    rw [Node.binders] at hfresh hnodup ⊢
    rw [eval]
    refine (evalAll_safe hP hcheck hcall args hargs hnodes hfresh hnodup hframe m).bind ?_
    rintro vs frame' m' ⟨hvs, hsame⟩
    refine (callGlobal_safe hP hcall hf hvs m').lift.imp ?_
    rintro ⟨v, frame''⟩ ⟨hv, rfl⟩
    exact ⟨hv, hsame⟩
  | .apply callee args, _, _, _, .apply hcallee hargs, hnodes, hfresh, hnodup, hframe, m => by
    obtain ⟨hnodes, hnodesArgs⟩ := List.append_subset.mp (List.cons_subset.mp hnodes).2
    rw [Node.binders] at hfresh hnodup ⊢
    obtain ⟨hfresh, hfreshArgs⟩ := Context.fresh_append.mp hfresh
    obtain ⟨hnodup, hnodupArgs, -⟩ := List.nodup_append.mp hnodup
    rw [eval]
    refine (eval_safe hP hcheck hcall callee hcallee hnodes hfresh hnodup hframe m).bind ?_
    rintro f frame' m' ⟨hf, hsame⟩
    have hframe' := hframe.of_sameOutside hfresh hsame
    refine (evalAll_safe hP hcheck hcall args hargs hnodesArgs hfreshArgs hnodupArgs hframe'
      m').bind ?_
    rintro vs frame'' m'' ⟨hvs, hsame'⟩
    refine (applyValue_safe hP hcall hf hvs m'').lift.imp ?_
    rintro ⟨v, frame'⟩ ⟨hv, rfl⟩
    exact ⟨hv, hsame.append hsame'⟩
  | .func name params captures body ret, _, _, _, .func hcaptures hbody, hnodes, hfresh, hnodup,
      hframe, m => by
    obtain ⟨-, hnodes⟩ := List.cons_subset.mp hnodes
    rw [eval]
    refine (captureAll_safe hframe hcaptures m).bind ?_
    rintro vs frame' m' ⟨hvs, rfl⟩
    exact ⟨closure_hasType hbody hcaptures hfresh hnodup hnodes hvs, .refl _ _⟩
  | .ite cond onTrue onFalse _, _, _, _, .ite hcond htrue hfalse, hnodes, hfresh, hnodup, hframe,
      m => by
    obtain ⟨hnodes, hnodesBranches⟩ := List.append_subset.mp (List.cons_subset.mp hnodes).2
    obtain ⟨hnodesTrue, hnodesFalse⟩ := List.append_subset.mp hnodesBranches
    rw [Node.binders, List.append_assoc] at hfresh hnodup ⊢
    obtain ⟨hfresh, hfreshBranches⟩ := Context.fresh_append.mp hfresh
    obtain ⟨hfreshTrue, hfreshFalse⟩ := Context.fresh_append.mp hfreshBranches
    obtain ⟨hnodup, hnodupBranches, -⟩ := List.nodup_append.mp hnodup
    obtain ⟨hnodupTrue, hnodupFalse, -⟩ := List.nodup_append.mp hnodupBranches
    rw [eval]
    refine (eval_safe hP hcheck hcall cond hcond hnodes hfresh hnodup hframe m).bind ?_
    rintro v frame' m' ⟨hv, hsame⟩
    have hframe' := hframe.of_sameOutside hfresh hsame
    obtain ⟨b, hb⟩ := hv.asBool?
    cases b with
    | true =>
      simp only [hb]
      refine (eval_safe hP hcheck hcall onTrue htrue hnodesTrue hfreshTrue hnodupTrue hframe'
        m').imp ?_
      rintro ⟨v, frame''⟩ ⟨hv, hsame'⟩
      exact ⟨hv, hsame.append (hsame'.mono (List.subset_append_left _ _))⟩
    | false =>
      simp only [hb]
      refine (eval_safe hP hcheck hcall onFalse hfalse hnodesFalse hfreshFalse hnodupFalse hframe'
        m').imp ?_
      rintro ⟨v, frame''⟩ ⟨hv, hsame'⟩
      exact ⟨hv, hsame.append (hsame'.mono (List.subset_append_right _ _))⟩
  | .tuple fields _, _, _, _, .tuple hfields, hnodes, hfresh, hnodup, hframe, m => by
    obtain ⟨-, hnodes⟩ := List.cons_subset.mp hnodes
    rw [Node.binders] at hfresh hnodup ⊢
    rw [eval]
    refine (evalAll_safe hP hcheck hcall fields hfields hnodes hfresh hnodup hframe m).bind ?_
    rintro vs frame' m' ⟨hvs, hsame⟩
    exact ⟨.tuple hvs, hsame⟩
  | .matchOn data clauses _, _, _, _, .matchOn hdata hclauses, hnodes, hfresh, hnodup, hframe, m => by
    obtain ⟨hnode, hnodes⟩ := List.cons_subset.mp hnodes
    obtain ⟨hnodes, hnodesClauses⟩ := List.append_subset.mp hnodes
    rw [Node.binders] at hfresh hnodup ⊢
    obtain ⟨hfresh, hfreshClauses⟩ := Context.fresh_append.mp hfresh
    obtain ⟨hnodup, hnodupClauses, -⟩ := List.nodup_append.mp hnodup
    rw [eval]
    refine (eval_safe hP hcheck hcall data hdata hnodes hfresh hnodup hframe m).bind ?_
    rintro v frame' m' ⟨hv, hsame⟩
    have hframe' := hframe.of_sameOutside hfresh hsame
    refine (evalClauses_safe hP hcheck hcall [] clauses hclauses hv hnode (List.forall_mem_nil _)
      hnodesClauses hfreshClauses hnodupClauses hframe' m').imp ?_
    rintro ⟨v, frame''⟩ ⟨hv, hsame'⟩
    exact ⟨hv, hsame.append hsame'⟩
  | .ctor tag _ fields _, _, _, _, .ctor htys hfields, hnodes, hfresh, hnodup, hframe, m => by
    obtain ⟨-, hnodes⟩ := List.cons_subset.mp hnodes
    rw [Node.binders] at hfresh hnodup ⊢
    rw [eval]
    refine (evalAll_safe hP hcheck hcall fields hfields hnodes hfresh hnodup hframe m).bind ?_
    rintro vs frame' m' ⟨hvs, hsame⟩
    exact ⟨.adt htys hvs, hsame⟩

theorem evalAll_safe (hP : u.program.ConsistentlyAnnotated u.types)
    (hcheck : u.options.checkKernelOutputs = true) (hcall : CallSafe u call) :
    ∀ (ns : List Node) {Γ : Context} {tys : List Ty} {frame : Frame},
      Node.AllTyped u.program u.types Γ ns tys → Node.listNodes ns ⊆ u.program.nodes →
      Γ.Fresh (Node.listBinders ns) → (Node.listBinders ns).Nodup →
      frame.Models u.program u.types Γ → ∀ m,
        Safe u (fun r => Value.AllHaveType u.program u.types r.1 tys ∧
          Frame.SameOutside (Node.listBinders ns) frame r.2) (evalAll u call ns frame m)
  | [], _, _, _, .nil, _, _, _, _, m => ⟨.nil, .refl _ _⟩
  | n :: ns, _, _, _, .cons hn hns, hnodes, hfresh, hnodup, hframe, m => by
    obtain ⟨hnodes, hnodesRest⟩ := List.append_subset.mp hnodes
    rw [Node.listBinders] at hfresh hnodup ⊢
    obtain ⟨hfresh, hfreshRest⟩ := Context.fresh_append.mp hfresh
    obtain ⟨hnodup, hnodupRest, -⟩ := List.nodup_append.mp hnodup
    rw [evalAll]
    refine (eval_safe hP hcheck hcall n hn hnodes hfresh hnodup hframe m).bind ?_
    rintro v frame' m' ⟨hv, hsame⟩
    have hframe' := hframe.of_sameOutside hfresh hsame
    refine (evalAll_safe hP hcheck hcall ns hns hnodesRest hfreshRest hnodupRest hframe' m').bind ?_
    rintro vs frame'' m'' ⟨hvs, hsame'⟩
    exact ⟨.cons hv hvs, hsame.append hsame'⟩

theorem evalBindings_safe (hP : u.program.ConsistentlyAnnotated u.types)
    (hcheck : u.options.checkKernelOutputs = true) (hcall : CallSafe u call) :
    ∀ (bindings : List (String × Node)) {Γ Δ : Context} {frame : Frame},
      Node.BindingsTyped u.program u.types Γ bindings Δ →
      Node.bindingNodes bindings ⊆ u.program.nodes → Γ.Fresh (Node.bindingBinders bindings) →
      (Node.bindingBinders bindings).Nodup → frame.Models u.program u.types Γ → ∀ m,
        Safe u (fun r => Frame.Models u.program u.types Δ r.2 ∧
          Frame.SameOutside (Node.bindingBinders bindings) frame r.2)
          (evalBindings u call bindings frame m)
  | [], _, _, _, .nil, _, _, _, hframe, m => ⟨hframe, .refl _ _⟩
  | (x, n) :: rest, Γ, _, frame, @Node.BindingsTyped.cons _ _ _ _ _ _ ty _ hn hrest, hnodes, hfresh,
      hnodup, hframe, m => by
    obtain ⟨hnodes, hnodesRest⟩ := List.append_subset.mp hnodes
    rw [Node.bindingBinders] at hfresh hnodup ⊢
    obtain ⟨hfresh, hfreshRest⟩ := Context.fresh_append.mp hfresh
    obtain ⟨hnodup, hnodupRest, hdisjoint⟩ := List.nodup_append.mp hnodup
    rw [evalBindings]
    have hsublist := Node.binders_sublist_bindingBinders x n
    have hsub := hsublist.subset
    refine (eval_safe hP hcheck hcall n hn hnodes (fun y hy => hfresh y (hsub hy))
      (hnodup.sublist hsublist) hframe m).bind ?_
    rintro v frame' m' ⟨hv, hsame⟩
    have hframe' := hframe.of_sameOutside (fun y hy => hfresh y (hsub hy)) hsame
    have hx := Node.mem_bindingBinders_head (x := x) n
    have hframe'' : Frame.Models u.program u.types ((x, ty) :: Γ) ((x, v) :: frame') :=
      hframe'.extend (Δ := [(x, ty)]) (.cons ⟨rfl, hv⟩ .nil) (.of_nodup (by simp))
    have hfreshRest' : Context.Fresh ((x, ty) :: Γ) (Node.bindingBinders rest) := by
      intro y hy
      have hne : y ≠ x := fun heq => hdisjoint x hx y hy heq.symm
      rw [List.lookup_cons, beq_false_of_ne hne]
      exact hfreshRest y hy
    refine (evalBindings_safe hP hcheck hcall rest hrest hnodesRest hfreshRest' hnodupRest hframe''
      m').imp ?_
    rintro ⟨⟨⟩, frame''⟩ ⟨hmodels, hsame'⟩
    refine ⟨hmodels, Frame.SameOutside.append (fun y hy => ?_) hsame'⟩
    have hne : y ≠ x := fun heq => hy (heq ▸ hx)
    rw [Frame.lookup_cons_of_ne hne]
    exact hsame y fun hmem => hy (hsub hmem)

/-- The clauses before have refused the value. -/
theorem evalClauses_safe (hP : u.program.ConsistentlyAnnotated u.types)
    (hcheck : u.options.checkKernelOutputs = true) (hcall : CallSafe u call) :
    ∀ (before clauses : List (Lowered.Pattern × Node)) {Γ : Context} {data : Node} {dataTy ty : Ty}
      {frame : Frame} {v : Value}, Node.ClausesTyped u.program u.types Γ dataTy clauses ty →
      v.HasType u.program u.types dataTy →
      .matchOn data (before ++ clauses) ty ∈ u.program.nodes →
      (∀ clause ∈ before, matchPattern? clause.1 v = none) →
      Node.clauseNodes clauses ⊆ u.program.nodes → Γ.Fresh (Node.clauseBinders clauses) →
      (Node.clauseBinders clauses).Nodup → frame.Models u.program u.types Γ → ∀ m,
        Safe u (fun r => r.1.HasType u.program u.types ty ∧
          Frame.SameOutside (Node.clauseBinders clauses) frame r.2)
          (evalClauses u call v clauses frame m)
  | before, [], _, _, _, _, _, _, .nil, _, hnode, hrefused, _, _, _, _, m =>
    .uncovered (List.append_nil before ▸ hnode) hrefused
  | before, (p, body) :: rest, Γ, _, _, _, frame, v,
      @Node.ClausesTyped.cons _ _ _ Δ _ _ _ _ _ hp hbody hrest, hv, hnode, hrefused, hnodes, hfresh,
      hnodup, hframe, m => by
    obtain ⟨hnodes, hnodesRest⟩ := List.append_subset.mp hnodes
    rw [Node.clauseBinders] at hfresh hnodup ⊢
    obtain ⟨hfreshClause, hfreshRest⟩ := Context.fresh_append.mp hfresh
    obtain ⟨-, hfreshBody⟩ := Context.fresh_append.mp hfreshClause
    obtain ⟨hnodupClause, hnodupRest, -⟩ := List.nodup_append.mp hnodup
    obtain ⟨hnodupNames, hnodupBody, hdisjoint⟩ := List.nodup_append.mp hnodupClause
    rw [evalClauses_cons]
    cases hmatch : matchPattern? p v with
    | none =>
      have hrefused' : ∀ clause ∈ before ++ [(p, body)], matchPattern? clause.1 v = none := by
        rw [List.forall_mem_append]
        exact ⟨hrefused, List.forall_mem_singleton.mpr hmatch⟩
      refine (evalClauses_safe hP hcheck hcall (before ++ [(p, body)]) rest hrest hv
        (List.append_cons before _ rest ▸ hnode) hrefused' hnodesRest hfreshRest hnodupRest hframe
        m).imp ?_
      rintro ⟨v, frame'⟩ ⟨hv, hsame⟩
      exact ⟨hv, hsame.mono (List.subset_append_right _ _)⟩
    | some entries =>
      have hentries := matchPattern?_typed hp hv hmatch
      have hnames := boundNames_of_typed hp
      have hframe' := hframe.extend hentries (.of_nodup (hnames ▸ hnodupNames))
      have hfreshBody' : Context.Fresh (Δ ++ Γ) body.binders := by
        intro x hx
        refine Context.lookup_append_none (Context.lookup_eq_none ?_) (hfreshBody x hx)
        exact fun hmem => hdisjoint x (hnames ▸ hmem) x hx rfl
      refine (eval_safe hP hcheck hcall body hbody hnodes hfreshBody' hnodupBody hframe' m).imp ?_
      rintro ⟨v, frame'⟩ ⟨hv, hsame⟩
      have hbound : Frame.SameOutside p.boundNames frame (frame.extend entries) :=
        .extend (by rw [Frame.names_of_forall₂ hentries, hnames]; exact fun _ h => h)
      exact ⟨hv, (hbound.append hsame).mono (List.subset_append_left _ _)⟩

end

/-! ## Runs -/

/-- However much room there is, calls are safe. -/
theorem callWithin_safe (hP : u.program.ConsistentlyAnnotated u.types)
    (hcheck : u.options.checkKernelOutputs = true) (room : Nat) :
    CallSafe u (u.callWithin room) := by
  induction room with
  | zero =>
    intro f Γ bound args hf hbound hargs label m
    have hlength : args.length = f.params.length := by simpa using hargs.length_eq
    simp only [callWithin, hlength, if_true]
    exact .depth
  | succ room ih =>
    intro f Γ bound args hf hbound hargs label m
    have hlength : args.length = f.params.length := by simpa using hargs.length_eq
    have hframe := hbound.extend (Frame.forall₂_zip hargs)
      (.of_nodup (paramContext_names f.params ▸ hf.params_nodup))
    simp only [callWithin, hlength, if_true]
    refine Safe.opened fun m' => Safe.run' ?_
    refine (eval_safe hP hcheck ih f.body hf.body hf.nodes hf.fresh hf.nodup hframe m').imp ?_
    rintro ⟨v, frame'⟩ ⟨hv, -⟩
    exact hv

theorem checkArgs_of_allConform {types : Source.TypeTable} {params : List Param}
    {args : List Value} (h : Value.allConform types args (params.map Param.ty) = true)
    (m : Machine) : checkArgs types params args m = .ok () m := by
  induction params generalizing args with
  | nil => rfl
  | cons p params ih =>
    obtain ⟨v, vs, rfl, hv, hvs⟩ := Value.allConform_cons h
    simp only [checkArgs, hv, if_true]
    exact ih hvs

/-- If the annotations of a program are consistent and results of kernels are checked, then a global
function that is run on arguments of its types without functions in them returns a value of its
type, or fails in one of the excused ways; and so it does when it is invoked by name. -/
theorem run_of_consistent (hP : u.program.ConsistentlyAnnotated u.types)
    (hcheck : u.options.checkKernelOutputs = true) {id : FunctionId} {f : Function}
    (hf : u.program.function? id = some f) {args : List Value} (hdata : Value.allData args = true)
    (hargs : Value.allConform u.types args (f.params.map Param.ty) = true) (m : Machine) :
    Safe u (·.conformsTo u.types f.ret = true) (u.run id args m) ∧
      ∀ name, u.program.idOf? name = some id →
        Safe u (·.conformsTo u.types f.ret = true) (u.invoke name args m) := by
  have hrun : Safe u (·.conformsTo u.types f.ret = true) (u.run id args m) := by
    have hcall := callGlobal_safe hP (callWithin_safe hP hcheck u.options.maxCallDepth) hf
      (Value.AllHaveType.of_allData hdata hargs)
    have hlength : args.length = f.params.length := by simpa using Value.allConform_length hargs
    obtain ⟨⟨name, f⟩, hentry, rfl⟩ := Option.map_eq_some_iff.mp hf
    simp only [run, hentry, hlength, ne_eq, not_true_eq_false, if_false]
    refine Safe.shared_bind (Q := fun _ => True) ?_ fun _ m' _ => ?_
    · rw [checkArgs_of_allConform hargs]
      exact trivial
    · refine (hcall m').shared_bind fun v m'' hv => ?_
      simp only [hv.conformsTo, if_true]
      exact hv.conformsTo
  refine ⟨hrun, fun name hname => ?_⟩
  rw [invoke, hname]
  exact hrun

end CompiledUnit

/-- Lists of booleans. -/
def chain : Source.TypeData := ⟨"Chain", [⟨"End", []⟩, ⟨"Link", [.scalar .bool, .adt "Chain"]⟩]⟩

/-- A local function goes down the links while they hold `true`, and returns at the end what it has
captured. -/
def followLinks : Function where
  name := none
  params := [⟨"links_0", .adt "Chain"⟩, ⟨"last_1", .scalar .bool⟩]
  captures := []
  body := .decl
    [("go_2", .func (some "go_2") [⟨"rest_3", .adt "Chain"⟩] [⟨"last_1", .scalar .bool⟩]
      (.matchOn (.var "rest_3")
        [(.ctor 0 "End" [], .var "last_1"),
          (.ctor 1 "Link" [.bind "here_4", .bind "next_5"],
            .ite (.var "here_4") (.apply (.var "go_2") [.var "next_5"]) (.var "here_4")
              (.scalar .bool))]
        (.scalar .bool)) (.scalar .bool))]
    (.apply (.var "go_2") [.var "links_0"])
  ret := .scalar .bool

def linksUnit : CompiledUnit := ⟨⟨[("main", followLinks)]⟩, ⟨[]⟩, [chain], {}⟩

theorem followLinks_consistent : linksUnit.program.ConsistentlyAnnotated linksUnit.types := by
  intro entry hentry
  obtain rfl := List.mem_singleton.mp hentry
  refine ⟨?_, by decide⟩
  have hgo : Node.Typed linksUnit.program linksUnit.types
      [("rest_3", .adt "Chain"), ("go_2", .func [.adt "Chain"] (.scalar .bool)),
        ("last_1", .scalar .bool)]
      (.matchOn (.var "rest_3")
        [(.ctor 0 "End" [], .var "last_1"),
          (.ctor 1 "Link" [.bind "here_4", .bind "next_5"],
            .ite (.var "here_4") (.apply (.var "go_2") [.var "next_5"]) (.var "here_4")
              (.scalar .bool))]
        (.scalar .bool)) (.scalar .bool) :=
    .matchOn (.var rfl)
      (.cons (.ctor rfl .nil) (.var rfl)
        (.cons (.ctor rfl (.cons .bind (.cons .bind .nil)))
          (.ite (.var rfl) (.apply (.var rfl) (.cons (.var rfl) .nil)) (.var rfl)) .nil))
  refine .decl (.cons (.func ?_ hgo) .nil) (.apply (.var rfl) (.cons (.var rfl) .nil))
  intro c hc
  obtain rfl := List.mem_singleton.mp hc
  rfl

theorem followLinks_safe :
    linksUnit.program.ConsistentlyAnnotated linksUnit.types ∧
      Safe linksUnit (·.conformsTo linksUnit.types (.scalar .bool) = true)
        (linksUnit.invoke "main"
          [.adt 1 [.tensor (.scalarBool true), .adt 0 []], .tensor (.scalarBool false)] {}) := by
  have hf : linksUnit.program.function? ⟨0⟩ = some followLinks := rfl
  exact ⟨followLinks_consistent,
    (CompiledUnit.run_of_consistent followLinks_consistent rfl hf rfl rfl {}).2 "main" rfl⟩

end TensorIR.Run
