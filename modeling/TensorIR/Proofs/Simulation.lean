import TensorIR.Proofs.Agreement

/-! Runs follow evaluation in the source. -/

namespace TensorIR.Run

open Source Lowered Lowering Run.Frame

attribute [local simp] CompiledUnit.eval CompiledUnit.evalAll CompiledUnit.evalBindings
  CompiledUnit.evalClauses Module.eval Module.evalAll Module.evalClauses

variable {u : CompiledUnit} {call : Call}

/-! ## Kernels -/

section

variable {L : Linkage} {order : CallOrder} {kernel : Kernel} {name : String}

theorem checkArity_of_length_eq {n : Nat} (hkernel : kernel.arity = .fixed n) {us : List Value}
    (hlen : us.length = n) : kernel.checkArity us = .ok () := by
  rw [Kernel.checkArity, hkernel]
  exact if_pos hlen

/-- A kernel gets inputs that stand for each other, of the right number. -/
theorem kernelInputs_follow {arity : Nat} {tupled : Bool} {us : List Value} {ws : List Val}
    (hsuits : kernel.arity.Suits ws.length arity tupled) (hrep : RepresentsAll L order us ws)
    (M : Machine) :
    Follows L order [] (fun vs ws' => RepresentsAll L order vs ws' ∧ kernel.checkArity vs = .ok ()) M
      (CompiledUnit.kernelArgs name arity tupled us M) (Module.kernelInputs kernel.arity ws) := by
  cases harity : kernel.arity with
  | fixed n =>
    rw [harity] at hsuits
    obtain ⟨hlen, -, rfl⟩ := hsuits
    simp only [Module.kernelInputs, hlen, if_pos]
    exact .ok ⟨hrep, checkArity_of_length_eq harity (hrep.length_eq.trans hlen)⟩
  | packed =>
    rw [harity] at hsuits
    obtain ⟨hlen, rfl⟩ := hsuits
    have hcheck : ∀ vs, kernel.checkArity vs = .ok () := fun vs => by rw [Kernel.checkArity, harity]
    cases hrep with
    | nil => cases hlen
    | cons h hnil =>
      cases hnil with
      | cons => cases hlen
      | nil =>
        cases h with
        | tuple hfields =>
          simp only [CompiledUnit.kernelArgs, List.getLast?_singleton, if_pos, Module.kernelInputs]
          split
          · exact .ok ⟨hfields, hcheck _⟩
          · exact .declared ⟨name, rfl⟩
        | _ => exact .declared (.inr (.inr rfl))

/-- A kernel that starts is a kernel that is called. -/
theorem record_follows {vs : List Value} {ws : List Val} (hrep : RepresentsAll L order vs ws)
    (M : Machine) :
    Follows L order [] (fun _ _ => True) M (record (.kernel name vs) M) (.note ⟨name, ws⟩) :=
  ⟨[⟨name, vs⟩], M.starts_push _, (), rfl, trivial, .single ⟨rfl, hrep⟩⟩

/-- Kernels make values that stand for each other of inputs that do. -/
theorem callKernel_follows {kernels : KernelRegistry} {meaning : KernelMeaning} {arity : Nat}
    {ty : Ty} {tupled : Bool} {us : List Value} {ws : List Val}
    (hmeans : kernel.Means (meaning kernel)) (hget : kernels.get? name = some kernel)
    (hsuits : kernel.arity.Suits ws.length arity tupled) (hrep : RepresentsAll L order us ws)
    (M : Machine) :
    Follows L order [] (Represents L order) M (u.callKernel kernel name arity ty tupled us M)
      (Module.applyKernel kernels meaning name ws) := by
  simp only [Module.applyKernel, hget]
  refine (kernelInputs_follow hsuits hrep M).shared_bind ?_
  rintro vs M₁ ws' ⟨hinputs, hcheck⟩
  have hresult := hmeans _ hinputs.alike hcheck
  simp only [hcheck]
  refine Follows.record_bind rfl (fun M₁ => ?_) M₁
  refine (record_follows hinputs M₁).shared_bind fun _ M₂ _ _ => ?_
  generalize kernel.body vs = x, meaning kernel ws' = x' at hresult
  cases hresult with
  | error => exact .failed rfl
  | @ok v w halike =>
    cases hout : u.options.checkKernelOutputs && !v.conformsTo u.types ty with
    | false =>
      simp only [hout]
      exact .ok (.of_alike halike)
    | true =>
      simp only [hout]
      exact .declared (.inr (.inr rfl))

end

/-! ## Function literals -/

section

variable {L : Linkage} {order : CallOrder} {σ : Naming} {env : ValEnv} {F : Frame} {own : Option Nat}
  {params : List Var} {body : Expr} {f : Lowered.Function}

theorem captureAll_represents {occ : Nat → Bool} {vs : List Var} {captures : List Param}
    (h : List.Forall₂ (fun v p => σ v.id = some p.name) vs captures)
    (hmirrors : Mirrors L order occ σ env F) (hocc : ∀ v ∈ vs, occ v.id = true) (M : Machine) :
    ∃ us, CompiledUnit.captureAll captures F M = .ok (us, F) M ∧
      RepresentsCaptures L order env vs us := by
  induction h with
  | nil => exact ⟨[], rfl, .nil⟩
  | @cons v p vs captures hp _ ih =>
    rw [List.forall_mem_cons] at hocc
    obtain ⟨x, u, w, hx, hu, hw, hrep⟩ := hmirrors v.id hocc.1
    obtain rfl : x = p.name := Option.some.inj (hx.symm.trans hp)
    obtain ⟨us, hus, hreps⟩ := ih hocc.2
    refine ⟨u :: us, ?_, .cons hw hrep hreps⟩
    rw [CompiledUnit.captureAll, bind_apply, lookup_of_eq_some hu]
    simp only [bind_apply, hus]
    rfl

/-- A literal becomes a function value that stands for it. -/
theorem literal_realizes {occ : Nat → Bool} {i j : Nat}
    (hadmits : order.Admits body) (hcode : TranslatesLiteral L own params body f)
    (hcaptures : List.Forall₂ (fun v p => σ v.id = some p.name) (captured own params body) f.captures)
    (hmirrors : Mirrors L order occ σ env F)
    (hocc : ∀ v ∈ captured own params body, occ v.id = true) :
    Realizes L order u call (Represents L order) σ i j F [] (u.eval call f.toNode)
      (pure (.closure own params body env)) := by
  refine .of_follows fun F₁ M₁ hstable => ?_
  obtain ⟨us, hus, hreps⟩ :=
    captureAll_represents hcaptures (hmirrors.sameAt hstable.named) hocc M₁
  rw [Lowered.Function.toNode, CompiledUnit.eval, bind_apply, hus]
  exact .ok ⟨.closure hadmits hcode hreps, .refl i j F₁⟩

/-- The code, the frame and the environment that a call starts with, for a function with the given
parameters and body. -/
inductive Enters (L : Linkage) (order : CallOrder) (params : List Var) (body : Expr)
    (f : Lowered.Function) (env : ValEnv) (F : Frame) : Prop
  | intro {σ : Naming} {k : Nat} {bs : List (String × Node)} {n : Node} : order.Admits body →
    Placed σ k (params.map Var.id ++ body.binders) →
    Lowers L .lexical (σ.bindVars params k) (k + params.length) body bs n →
    f.params.map Param.name = numberedNames params k → Node.wrapDecl bs n = .ok f.body →
    Mirrors L order (fun y => !(params.map Var.id).contains y && body.occurs y) σ env F →
      Enters L order params body f env F

theorem Enters.length_eq (h : Enters L order params body f env F) :
    f.params.length = params.length := by
  cases h with
  | intro _ _ _ hnames => rw [← List.length_map (f := Param.name), hnames, length_numberedNames]

/-- The names that the frame of a local function starts with are all different. -/
theorem nodup_start {k : Nat} {own : Option (Nat × String)} {bs : List (String × Node)} {n : Node}
    (h : LowersFunction σ k own params body bs n f) {us : List Value} (v : Value)
    (hlen : us.length = f.captures.length) :
    (((f.name.toList.map fun name => (name, v)) ++
      (f.captures.map Param.name).zip us).map Prod.fst).Nodup := by
  have hnames := h.names_nodup
  rw [List.map_append] at hnames
  rw [List.map_append, List.map_map, List.map_fst_zip (by simp [hlen])]
  refine List.Nodup.sublist ?_ hnames
  rw [show Prod.fst ∘ (fun name => (name, v)) = id from rfl, List.map_id]
  exact (List.sublist_append_right _ _).append_left _

/-- A function value that stands for a literal starts with itself and its captures. -/
theorem enters_of_closure {us : List Value}
    (h : Represents L order (.closure f us) (.closure own params body env)) :
    Enters L order params body f ((own.toList.map fun y => (y, .closure own params body env)) ++ env)
      (Frame.extend [] ((f.name.toList.map fun name => (name, .closure f us)) ++
        (f.captures.map Param.name).zip us)) := by
  have hself := h
  cases h with
  | closure hadmits hcode hcaptures =>
    cases hcode with
    | @intro σ k own _ _ bs n _ hown hplaced hlowers hf =>
      have hnodup := nodup_start hf (.closure f us)
        (hcaptures.length_eq.trans hf.capture_names.length_eq)
      refine .intro hadmits hplaced hlowers hf.param_names hf.body_eq fun y hy => ?_
      simp only [Bool.and_eq_true, Bool.not_eq_true', List.contains_eq_mem,
        decide_eq_false_iff_not] at hy
      by_cases hy' : own.map Prod.fst = some y
      · obtain ⟨p, rfl, rfl⟩ := Option.map_eq_some_iff.mp hy'
        refine ⟨p.2, _, _, hown p rfl, lookup_extend_of_mem hnodup ?_, List.lookup_cons_self, hself⟩
        rw [hf.name_eq]
        exact List.mem_cons_self
      · -- The variable has a name in the naming of the literal, so the literal does not bind it.
        have hsome := covers_cases.expr hlowers y hy.2
        rw [Naming.bindVars_of_notMem hy.1] at hsome
        have hbinders : y ∉ body.binders := fun hmem => by
          rw [hplaced.unnamed y (List.mem_append_right _ hmem)] at hsome
          cases hsome
        obtain ⟨v, hv, rfl⟩ := exists_mem_captured hy' hy.1 hbinders hy.2
        obtain ⟨x, u, w, hx, hmem, hw, hrep⟩ := hcaptures.exists_of_mem hf.capture_names hv
        refine ⟨x, u, w, hx, lookup_extend_of_mem hnodup (List.mem_append_right _ hmem), ?_, hrep⟩
        cases own with
        | none => exact hw
        | some p =>
          have hne : v.id ≠ p.1 := fun heq => hy' (congrArg some heq.symm)
          change List.lookup v.id ((p.1, _) :: env) = some w
          rw [List.lookup_cons, beq_false_of_ne hne]
          exact hw

/-- A global starts with nothing but its arguments. -/
theorem enters_of_global {g : Source.Function} (hclosed : g.Closed)
    (hadmits : order.Admits g.body) (h : LowersDefinition L .lexical g f) :
    Enters L order g.params g.body f [] [] := by
  obtain ⟨bs, n, hlowers, hwrap⟩ := h.body_eq
  rw [← Nat.zero_add g.params.length] at hlowers
  refine .intro hadmits ⟨Naming.below_empty 0, hclosed.binders_nodup, fun _ _ => rfl⟩ hlowers
    h.param_names hwrap fun y hy => ?_
  simp only [Bool.and_eq_true, Bool.not_eq_true', List.contains_eq_mem,
    decide_eq_false_iff_not] at hy
  exact absurd (h.mem_params hy.2) hy.1

end

/-! ## Expressions -/

/-- The unit and the module agree on what expressions refer to. -/
structure Links (L : Linkage) (m : Module) (u : CompiledUnit) : Prop where
  ctor : ∀ name, m.ctor? name = L.module.ctor? name
  kernels : u.kernels = L.kernels
  global : ∀ ⦃name id⦄, L.place name id → ∃ f f', m.function? name = some f ∧
    u.program.functions[id.index]? = some (name, f') ∧ f.Closed ∧ LowersDefinition L .lexical f f'

/-- The bodies of the globals that have a place may be evaluated in the order. -/
def AdmitsGlobals (order : CallOrder) (L : Linkage) (m : Module) : Prop :=
  ∀ ⦃name id f⦄, L.place name id → m.function? name = some f → order.Admits f.body

/-- Calls of values that stand for each other follow each other. -/
def CallsFollow (L : Linkage) (order : CallOrder) (u : CompiledUnit) (call : Call)
    (vcall : ValCall) : Prop :=
  ∀ ⦃v w us ws⦄, Represents L order v w → RepresentsAll L order us ws → ∀ M,
    Follows L order [] (Represents L order) M (u.applyValue call v us M) (vcall w ws)

section

variable {L : Linkage} {order : CallOrder} {m : Module} {meaning : KernelMeaning} {vcall : ValCall}

/-- Whatever an expression is lowered to does what its evaluation does. -/
def Simulates (L : Linkage) (order : CallOrder) (u : CompiledUnit) (call : Call) (m : Module)
    (meaning : KernelMeaning) (vcall : ValCall) (e : Expr) : Prop :=
  order.Admits e → ∀ ⦃σ k bs n⦄, Lowers L .lexical σ k e bs n → Placed σ k e.binders →
    ∀ ⦃env F⦄, Mirrors L order (fun y => e.occurs y) σ env F →
      Realizes L order u call (Represents L order) σ k (k + e.binders.length) F bs (u.eval call n)
        (m.eval L.kernels meaning vcall e env)

def SimulatesAll (L : Linkage) (order : CallOrder) (u : CompiledUnit) (call : Call) (m : Module)
    (meaning : KernelMeaning) (vcall : ValCall) (es : List Expr) : Prop :=
  order.AdmitsOperands es → ∀ ⦃σ k bs ns⦄, LowersAll L .lexical σ k es bs ns →
    Placed σ k (Expr.listBinders es) →
    ∀ ⦃env F⦄, Mirrors L order (fun y => Expr.listOccurs y es) σ env F →
      Realizes L order u call (fun us ws => RepresentsAll L order us ws ∧ ws.length = es.length) σ k
        (k + (Expr.listBinders es).length) F bs (u.evalAll call ns)
        (m.evalAll L.kernels meaning vcall es env)

/-- Clauses have no bindings of their own to be evaluated first. -/
def SimulatesClauses (L : Linkage) (order : CallOrder) (u : CompiledUnit) (call : Call) (m : Module)
    (meaning : KernelMeaning) (vcall : ValCall) (clauses : List (Source.Pattern × Expr)) : Prop :=
  order.AdmitsClauses clauses → ∀ ⦃σ k cs⦄, LowersClauses L .lexical σ k clauses cs →
    Placed σ k (Expr.clauseBinders clauses) →
    ∀ ⦃env F⦄, Mirrors L order (fun y => Expr.clausesOccur y clauses) σ env F →
      ∀ ⦃v w⦄, Represents L order v w → ∀ M,
        Follows L order [] (fun p w' => Represents L order p.1 w' ∧
            ChangesWithin k (k + (Expr.clauseBinders clauses).length) F p.2) M
          (u.evalClauses call v cs F M) (m.evalClauses L.kernels meaning vcall w clauses env)

theorem eval_call {callee : Expr} (h : callee.isReference = false) (args : List Expr) (ty : Ty)
    (env : ValEnv) :
    m.eval L.kernels meaning vcall (.call callee args ty) env =
      (do
        let w ← m.eval L.kernels meaning vcall callee env
        let ws ← m.evalAll L.kernels meaning vcall args env
        vcall w ws) := by
  cases callee with
  | op | global => cases h
  | _ => rfl

theorem eval_letIn {v : Var} {value : Expr} (h : value.isFunction = false) (body : Expr)
    (env : ValEnv) :
    m.eval L.kernels meaning vcall (.letIn v value body) env =
      (do
        let w ← m.eval L.kernels meaning vcall value env
        m.eval L.kernels meaning vcall body ((v.id, w) :: env)) := by
  cases value with
  | func => cases h
  | _ => rfl

theorem eval_wrapDecl {bs : List (String × Node)} {n a : Node} (h : Node.wrapDecl bs n = .ok a) :
    u.eval call a =
      (do
        u.evalBindings call bs
        u.eval call n) := by
  cases bs with
  | nil =>
    cases h
    rfl
  | cons b bs =>
    rw [Node.wrapDecl, Node.mkDecl] at h
    simp only [List.isEmpty_cons, Bool.false_eq_true, if_false] at h
    split at h
    · cases h
    · cases h
      rw [CompiledUnit.eval]

/-- A body with its own bindings. -/
theorem Realizes.wrapped {β : Type} {R : Value → β → Prop} {σ : Naming} {i j : Nat} {F : Frame}
    {bs : List (String × Node)} {n a : Node} {o : Outcome β}
    (h : Realizes L order u call R σ i j F bs (u.eval call n) o) (hwrap : Node.wrapDecl bs n = .ok a)
    (M : Machine) :
    Follows L order [] (fun p b => R p.1 b ∧ ChangesWithin i j F p.2) M (u.eval call a F M) o := by
  rw [eval_wrapDecl hwrap]
  exact h.follows M

/-- What a function captures has a name apart from its own one. -/
theorem captures_of_bind {σ : Naming} {k : Nat} {v : Var} {params : List Var} {body : Expr}
    {bs : List (String × Node)} {n : Node} {f : Lowered.Function} {x : String}
    (h : LowersFunction (σ.bind v.id x) k (some (v.id, x)) params body bs n f) :
    List.Forall₂ (fun w p => σ w.id = some p.name) (captured (some v.id) params body) f.captures := by
  have hne : ∀ w ∈ captured (some v.id) params body, w.id ≠ v.id := fun w hw heq => by
    simpa [heq] using List.of_mem_filter hw
  refine ((List.forall₂_and_left _ _).mpr ⟨hne, h.capture_names⟩).imp fun w p hw => ?_
  rw [← hw.2, Naming.bind_of_ne hw.1]

theorem simulates_letFunction {v : Var} {params : List Var} {fbody body : Expr} {ret : Ty}
    (ih : Simulates L order u call m meaning vcall body) :
    Simulates L order u call m meaning vcall (.letIn v (.func params fbody ret) body) := by
  intro hadmits σ k bs n h hplaced env F hmirrors
  cases h with
  | letValue hvalue => cases hvalue
  | @letFunction _ _ _ _ _ _ _ bs₁ bs₂ n₁ n₂ f hfbody hf hbody =>
    simp only [Expr.occurs, Expr.isFunction, Bool.true_and, mirrors_or] at hmirrors
    have hbound := Placed.bind hplaced
    have hcode : TranslatesLiteral L (some v.id) params fbody f := by
      refine @TranslatesLiteral.intro L _ _ (some (v.id, numberedName v.name k)) _ _ _ _ _ ?_
        hbound.left hfbody hf
      rintro p hp
      cases hp
      exact Naming.bind_self _ _
    have hocc : ∀ w ∈ captured (some v.id) params fbody,
        (!(params.map Var.id).contains w.id && fbody.occurs w.id && !(v.id == w.id)) = true := by
      intro w hw
      have hown := List.of_mem_filter hw
      rw [occurs_of_mem_captured hw, Bool.true_and]
      simpa using hown
    have hlen : k + (Expr.letIn v (.func params fbody ret) body).binders.length =
        k + 1 + (params.length + fbody.binders.length) + body.binders.length := by
      simp only [Expr.binders, List.length_cons, List.length_append, List.length_map]
      omega
    -- The evaluation binds the function without evaluating anything first.
    change Realizes L order u call _ σ k _ F ([] ++ (_, f.toNode) :: bs₂) _
      (pure (.closure (some v.id) params fbody env) >>= fun w =>
        m.eval L.kernels meaning vcall body ((v.id, w) :: env))
    rw [hlen]
    refine Realizes.letIn (j := k + 1 + (params.length + fbody.binders.length)) hplaced.below
      (by omega) (by omega)
      (literal_realizes hadmits.letIn.1 hcode (captures_of_bind hf) hmirrors.1 hocc)
      fun value w F' hrep hsame hx => ?_
    have hplaced' := hbound.right
    rw [Expr.binders, List.length_append, List.length_map] at hplaced'
    exact ih hadmits.letIn.2 hbody hplaced' ((hmirrors.2.sameAt hsame).bind hx hrep)

theorem simulates_letValue {v : Var} {value body : Expr} (hvalue : value.isFunction = false)
    (ihv : Simulates L order u call m meaning vcall value)
    (ih : Simulates L order u call m meaning vcall body) :
    Simulates L order u call m meaning vcall (.letIn v value body) := by
  intro hadmits σ k bs n h hplaced env F hmirrors
  cases h with
  | letFunction => cases hvalue
  | letValue _ hn hbody =>
    simp only [Expr.occurs, hvalue, Bool.false_and, Bool.not_false, Bool.and_true,
      mirrors_or] at hmirrors
    have hlen : k + (Expr.letIn v value body).binders.length =
        k + 1 + value.binders.length + body.binders.length := by
      simp only [Expr.binders, List.length_cons, List.length_append]
      omega
    have hparts : Placed σ (k + 1) (value.binders ++ body.binders) :=
      Placed.right (show Placed σ k ([v.id] ++ (value.binders ++ body.binders)) from hplaced)
    rw [hlen, eval_letIn hvalue]
    refine Realizes.letIn hplaced.below (by omega) (by omega)
      (ihv hadmits.letIn.1 hn hparts.left hmirrors.1) fun u w F' hrep hsame hx => ?_
    exact ih hadmits.letIn.2 hbody (Placed.bind hplaced).right
      ((hmirrors.2.sameAt hsame).bind hx hrep)

theorem simulates_callKernel (hlinks : Links L m u) (hkernels : L.kernels.Means meaning)
    {name : String} {args : List Expr} {ty : Ty}
    (ihs : SimulatesAll L order u call m meaning vcall args) :
    Simulates L order u call m meaning vcall (.call (.op name) args ty) := by
  intro hadmits σ k bs n h hplaced env F hmirrors
  cases h with
  | call hcallee => cases hcallee
  | @callKernel _ _ _ kernel arity tupled _ _ _ ns hget hsuits hargs =>
    simp only [Expr.occurs, Bool.false_or] at hmirrors
    have hfound : u.kernel name = pure kernel := by
      rw [CompiledUnit.kernel, hlinks.kernels, hget]
    have hargs' := ihs hadmits.call.2 hargs hplaced hmirrors
    simp only [CompiledUnit.eval, Module.eval, hfound, liftM_pure, pure_bind]
    refine hargs'.bind hplaced.below (Nat.le_refl _) fun us ws F₁ M₁ hus _ => ?_
    refine (callKernel_follows (hkernels hget) hget (hus.2 ▸ hsuits) hus.1 M₁).lift.imp ?_
    rintro ⟨v, F₂⟩ w ⟨hrep, rfl⟩
    exact ⟨hrep, .refl _ _ _⟩

theorem simulates_callGlobal (hlinks : Links L m u) (hcall : CallsFollow L order u call vcall)
    {name : String} {args : List Expr} {ty : Ty}
    (ihs : SimulatesAll L order u call m meaning vcall args) :
    Simulates L order u call m meaning vcall (.call (.global name) args ty) := by
  intro hadmits σ k bs n h hplaced env F hmirrors
  cases h with
  | call hcallee => cases hcallee
  | @callGlobal _ _ _ id _ _ _ ns hplace hargs =>
    simp only [Expr.occurs, Bool.false_or] at hmirrors
    obtain ⟨f, -, hf, -⟩ := hlinks.global hplace
    have hargs' := ihs hadmits.call.2 hargs hplaced hmirrors
    simp only [CompiledUnit.eval, Module.eval, hf]
    change Realizes L order u call _ σ k _ F bs _
      (m.evalAll L.kernels meaning vcall args env >>= fun ws => vcall (.global name) ws)
    refine hargs'.bind hplaced.below (Nat.le_refl _) fun us ws F₁ M₁ hus _ => ?_
    refine (hcall (.global hplace) hus.1 M₁).lift.imp ?_
    rintro ⟨v, F₂⟩ w ⟨hrep, rfl⟩
    exact ⟨hrep, .refl _ _ _⟩

theorem simulates_call (hcall : CallsFollow L order u call vcall) {callee : Expr} {args : List Expr}
    {ty : Ty} (hcallee : callee.isReference = false)
    (ih : Simulates L order u call m meaning vcall callee)
    (ihs : SimulatesAll L order u call m meaning vcall args) :
    Simulates L order u call m meaning vcall (.call callee args ty) := by
  intro hadmits σ k bs n h hplaced env F hmirrors
  cases h with
  | callKernel | callGlobal => cases hcallee
  | call _ hn hargs =>
    simp only [Expr.occurs, mirrors_or] at hmirrors
    have hlen : k + (Expr.call callee args ty).binders.length =
        k + callee.binders.length + (Expr.listBinders args).length := by
      rw [Expr.binders, List.length_append, Nat.add_assoc]
    simp only [hlen, CompiledUnit.eval, eval_call hcallee]
    obtain ⟨hadmits, hoperands⟩ := hadmits.call
    -- In a kept order no argument has bindings, so nothing of it comes before the callee.
    refine Realizes.seq hplaced.below (by omega) (by omega)
      (fun ho => hargs.bindings_eq_nil (hoperands ho))
      (ih hadmits hn (Placed.left hplaced) hmirrors.1)
      (fun F' hsame => ihs hoperands hargs (Placed.right hplaced) (hmirrors.2.sameAt hsame)) ?_
    exact fun v w us ws hrep hreps F₁ M₁ => (hcall hrep hreps.1 M₁).lift

theorem simulates_ite {cond onTrue onFalse : Expr} {ty : Ty}
    (ih : Simulates L order u call m meaning vcall cond)
    (iht : Simulates L order u call m meaning vcall onTrue)
    (ihf : Simulates L order u call m meaning vcall onFalse) :
    Simulates L order u call m meaning vcall (.ite cond onTrue onFalse ty) := by
  intro hadmits σ k bs n h hplaced env F hmirrors
  cases h with
  | ite hn hnTrue hwrapTrue hnFalse hwrapFalse =>
    simp only [Expr.occurs, mirrors_or] at hmirrors
    have hlen : k + (Expr.ite cond onTrue onFalse ty).binders.length =
        k + cond.binders.length + onTrue.binders.length + onFalse.binders.length := by
      simp only [Expr.binders, List.length_append]
      omega
    have hbranches := Placed.right hplaced
    simp only [hlen, CompiledUnit.eval, Module.eval]
    obtain ⟨hadmits, hadmitsTrue, hadmitsFalse⟩ := hadmits.ite
    refine (ih hadmits hn (Placed.left hplaced) hmirrors.1).bind hplaced.below (by omega)
      fun v w F₁ M₁ hrep hsame => ?_
    have htrue := iht hadmitsTrue hnTrue hbranches.left (hmirrors.2.1.sameAt hsame)
    have hfalse := ihf hadmitsFalse hnFalse hbranches.right (hmirrors.2.2.sameAt hsame)
    rw [← hrep.asBool?]
    cases v.asBool? with
    | none => exact .failed rfl
    | some b =>
      cases b with
      | true =>
        exact (htrue.wrapped hwrapTrue M₁).imp fun p w' hp => ⟨hp.1, hp.2.mono (by omega) (by omega)⟩
      | false =>
        exact (hfalse.wrapped hwrapFalse M₁).imp fun p w' hp =>
          ⟨hp.1, hp.2.mono (by omega) (by omega)⟩

theorem simulates_matchOn {data : Expr} {clauses : List (Source.Pattern × Expr)} {ty : Ty}
    (ih : Simulates L order u call m meaning vcall data)
    (ihs : SimulatesClauses L order u call m meaning vcall clauses) :
    Simulates L order u call m meaning vcall (.matchOn data clauses ty) := by
  intro hadmits σ k bs n h hplaced env F hmirrors
  cases h with
  | matchOn hn hclauses =>
    simp only [Expr.occurs, mirrors_or] at hmirrors
    have hlen : k + (Expr.matchOn data clauses ty).binders.length =
        k + data.binders.length + (Expr.clauseBinders clauses).length := by
      rw [Expr.binders, List.length_append, Nat.add_assoc]
    simp only [hlen, CompiledUnit.eval, Module.eval]
    refine (ih hadmits.matchOn.1 hn (Placed.left hplaced) hmirrors.1).bind hplaced.below (by omega)
      fun v w F₁ M₁ hrep hsame => ?_
    have hclauses' := ihs hadmits.matchOn.2 hclauses (Placed.right hplaced) (hmirrors.2.sameAt hsame)
    refine (hclauses' hrep M₁).imp ?_
    exact fun p w' hp => ⟨hp.1, hp.2.mono (by omega) (Nat.le_refl _)⟩

theorem simulates_consClause (hlinks : Links L m u) {p : Source.Pattern} {e : Expr}
    {rest : List (Source.Pattern × Expr)} (ih : Simulates L order u call m meaning vcall e)
    (ihs : SimulatesClauses L order u call m meaning vcall rest) :
    SimulatesClauses L order u call m meaning vcall ((p, e) :: rest) := by
  intro hadmits σ k cs h hplaced env F hmirrors v w hrep M
  cases h with
  | @cons _ _ _ q _ _ bs n body cs hq hn hwrap hrest =>
    simp only [Expr.clausesOccur, mirrors_or] at hmirrors
    have hlen : k + (Expr.clauseBinders ((p, e) :: rest)).length =
        k + p.boundVars.length + e.binders.length + (Expr.clauseBinders rest).length := by
      simp only [Expr.clauseBinders, List.length_append, List.length_map]
      omega
    have hrestPlaced := Placed.right (Placed.right hplaced)
    rw [List.length_map] at hrestPlaced
    simp only [hlen, CompiledUnit.evalClauses_cons, Module.evalClauses]
    generalize hq' : Matching.matchPattern? q v = accepted, hp' : m.matches? p w = accepted'
    have hmatch := matchPattern?_represents hlinks.ctor hq hrep
    rw [hq', hp'] at hmatch
    cases hmatch with
    | none =>
      refine (ihs hadmits.cons.2 hrest hrestPlaced hmirrors.2 hrep M).imp fun r w' hr => ?_
      exact ⟨hr.1, hr.2.mono (by omega) (Nat.le_refl _)⟩
    | @some us ws hentries =>
      change Follows L order [] _ M (u.eval call body (F.extend us) M) _
      have hbody := ih hadmits.cons.1 hn (Placed.bindVars hplaced).left
        (hentries.mirrors hplaced.below hmirrors.1)
      refine (hbody.wrapped hwrap M).imp fun r w' hr => ⟨hr.1, ?_⟩
      exact ((hentries.changesWithin F).mono (Nat.le_refl k) (by omega)).trans
        (hr.2.mono (by omega) (by omega))

/-- Whatever is lowered in lexical scope does what its evaluation does, if calls do. -/
theorem simulates_cases (hlinks : Links L m u) (hkernels : L.kernels.Means meaning)
    (hcall : CallsFollow L order u call vcall) :
    Expr.Cases (Simulates L order u call m meaning vcall)
      (SimulatesAll L order u call m meaning vcall) (SimulatesClauses L order u call m meaning vcall) where
  var v := by
    intro hadmits σ k bs n h hplaced env F hmirrors
    cases h with
    | @var _ _ _ x hx =>
      obtain ⟨x', value, w, hx', hvalue, hw, hrep⟩ := hmirrors v.id (by simp [Expr.occurs])
      obtain rfl : x = x' := Option.some.inj (hx.symm.trans hx')
      refine .of_follows fun F₁ M₁ hstable => ?_
      have hvalue' := (hstable.named v.id x hx).trans hvalue
      simp only [CompiledUnit.eval, Module.eval, hw, lookup_of_eq_some hvalue']
      exact .ok ⟨hrep, .refl _ _ _⟩
  const t := by
    intro hadmits σ k bs n h hplaced env F hmirrors
    cases h with
    | const => exact .of_follows fun F₁ M₁ _ => .ok ⟨.tensor, .refl _ _ _⟩
  letFunction v params fbody ret body _ ih := simulates_letFunction ih
  letValue v value body hvalue ihv ih := simulates_letValue hvalue ihv ih
  func params body ret _ := by
    intro hadmits σ k bs n h hplaced env F hmirrors
    cases h with
    | func hbody hf =>
      have hcode : TranslatesLiteral L none params body _ :=
        @TranslatesLiteral.intro L _ _ none _ _ _ _ _ nofun hplaced hbody hf
      exact literal_realizes hadmits hcode hf.capture_names hmirrors
        fun v hv => occurs_of_mem_captured hv
  global name := by
    intro hadmits σ k bs n h hplaced env F hmirrors
    cases h with
    | global hplace =>
      obtain ⟨f, -, hf, -⟩ := hlinks.global hplace
      simp only [CompiledUnit.eval, Module.eval, hf]
      exact .of_follows fun F₁ M₁ _ => .ok ⟨.global hplace, .refl _ _ _⟩
  op name := by
    intro hadmits σ k bs n h
    cases h
  callKernel name args ty ihs := simulates_callKernel hlinks hkernels ihs
  callGlobal name args ty ihs := simulates_callGlobal hlinks hcall ihs
  call callee args ty hcallee ih ihs := simulates_call hcall hcallee ih ihs
  ite cond onTrue onFalse ty ih iht ihf := simulates_ite ih iht ihf
  tuple fields ty ihs := by
    intro hadmits σ k bs n h hplaced env F hmirrors
    cases h with
    | tuple hfields =>
      simp only [CompiledUnit.eval, Module.eval]
      refine (ihs hadmits hfields hplaced hmirrors).bind hplaced.below (Nat.le_refl _) ?_
      exact fun us ws F₁ M₁ hus _ => .ok ⟨.tuple hus.1, .refl _ _ _⟩
  matchOn data clauses ty ih ihs := simulates_matchOn ih ihs
  construct name fields ty ihs := by
    intro hadmits σ k bs n h hplaced env F hmirrors
    cases h with
    | construct hinfo hfields =>
      simp only [CompiledUnit.eval, Module.eval, hlinks.ctor, hinfo]
      refine (ihs hadmits hfields hplaced hmirrors).bind hplaced.below (Nat.le_refl _) ?_
      exact fun us ws F₁ M₁ hus _ => .ok ⟨.adt hus.1, .refl _ _ _⟩
  nil := by
    intro hadmits σ k bs ns h hplaced env F hmirrors
    cases h with
    | nil => exact .of_follows fun F₁ M₁ _ => .ok ⟨⟨.nil, rfl⟩, .refl _ _ _⟩
  cons e es ih ihs := by
    intro hadmits σ k bs ns h hplaced env F hmirrors
    cases h with
    | cons hn hns =>
      simp only [Expr.listOccurs, mirrors_or] at hmirrors
      have hlen : k + (Expr.listBinders (e :: es)).length =
          k + e.binders.length + (Expr.listBinders es).length := by
        rw [Expr.listBinders, List.length_append, Nat.add_assoc]
      simp only [hlen, CompiledUnit.evalAll, Module.evalAll]
      obtain ⟨hadmits, hoperands⟩ := hadmits.cons
      refine Realizes.seq hplaced.below (by omega) (by omega)
        (fun ho => hns.bindings_eq_nil (hoperands ho))
        (ih hadmits hn (Placed.left hplaced) hmirrors.1)
        (fun F' hsame => ihs hoperands hns (Placed.right hplaced) (hmirrors.2.sameAt hsame)) ?_
      exact fun v w us ws hrep hreps F₁ M₁ =>
        .ok ⟨⟨.cons hrep hreps.1, congrArg Nat.succ hreps.2⟩, rfl⟩
  nilClause := by
    intro hadmits σ k cs h hplaced env F hmirrors v w hrep M
    cases h with
    | nil => exact .failed trivial
  consClause p e rest ih ihs := simulates_consClause hlinks ih ihs

/-! ## Calls -/

/-- The body of a function does what the body of the source function does. -/
theorem body_follows (hlinks : Links L m u) (hkernels : L.kernels.Means meaning)
    (hcall : CallsFollow L order u call vcall) {params : List Var} {body : Expr}
    {f : Lowered.Function} {env : ValEnv} {F : Frame}
    {us : List Value} {ws : List Val} (h : Enters L order params body f env F)
    (hreps : RepresentsAll L order us ws) (hlen : us.length = params.length) (M : Machine) :
    Follows L order [] (Represents L order) M
      ((u.eval call f.body).run' (F.extend ((f.params.map Param.name).zip us)) M)
      (m.eval L.kernels meaning vcall body (env.extend ((params.map Var.id).zip ws))) := by
  cases h with
  | intro hadmits hplaced hlowers hnames hwrap hmirrors =>
    have hmirrors' := (RepresentsEntries.of_zip hreps hlen).mirrors hplaced.below hmirrors
    rw [hnames]
    have hbody := (simulates_cases hlinks hkernels hcall).expr body hadmits hlowers hplaced.bindVars
      hmirrors'
    exact Traces.run' ((hbody.wrapped hwrap M).imp fun _ _ hp => hp.1)

theorem invoke_follows {label : String} {x : RunM Value} {o : Outcome Val}
    (h : ∀ M, Follows L order [] (Represents L order) M (x M) o) (M : Machine) :
    Follows L order [] (Represents L order) M
      ((do
        record (.invoke label (← get).depth)
        x) M) o :=
  Follows.record_bind (e := .invoke label M.depth) (f := fun _ => x) rfl h M

/-- How a function is called, in a run and in the source. -/
theorem applyValue_follows {run : Expr → ValEnv → Outcome Val} (hlinks : Links L m u)
    (hglobals : AdmitsGlobals order L m)
    (henter : ∀ ⦃params body f env F us ws⦄, Enters L order params body f env F →
      RepresentsAll L order us ws → ∀ label M,
        Follows L order [] (Represents L order) M (call f label F us M)
          (Module.callWith.enter run params body env ws)) :
    CallsFollow L order u call (m.callWith run) := by
  intro v w us ws hrep hreps M
  have hself := hrep
  cases hrep with
  | tensor | tuple | adt => exact .failed rfl
  | @global id name hplace =>
    obtain ⟨f, f', hf, hf', hclosed, hlowers⟩ := hlinks.global hplace
    have hadmits : order.Admits f.body := hglobals hplace hf
    simp only [CompiledUnit.applyValue, CompiledUnit.callGlobal, hf', Module.callWith, hf]
    have henters := enters_of_global hclosed hadmits hlowers
    exact invoke_follows (fun M' => henter henters hreps name M') M
  | closure => exact invoke_follows (fun M' => henter (enters_of_closure hself) hreps _ M') M

/-- Calls follow each other, however many of them may be open. -/
theorem callWithin_follows (hlinks : Links L m u) (hkernels : L.kernels.Means meaning)
    (hglobals : AdmitsGlobals order L m) (room : Nat) :
    CallsFollow L order u (u.callWithin room) (m.callWithin L.kernels meaning room) := by
  induction room with
  | zero =>
    refine applyValue_follows hlinks hglobals fun params body f env F us ws h hreps label M => ?_
    rw [CompiledUnit.callWithin, Module.callWith.enter, h.length_eq, hreps.length_eq]
    split
    · exact .failed trivial
    · exact .failed ⟨rfl, rfl⟩
  | succ room ih =>
    refine applyValue_follows hlinks hglobals fun params body f env F us ws h hreps label M => ?_
    rw [CompiledUnit.callWithin, Module.callWith.enter, h.length_eq, hreps.length_eq]
    split
    · next hlen =>
      have hus := hreps.length_eq.trans hlen
      exact Traces.opened (fun M' => body_follows hlinks hkernels ih h hreps hus M') M
    · exact .failed ⟨rfl, rfl⟩

/-- Arguments are checked before anything runs. -/
theorem checkArgs_traces (ps : List Param) (vs : List Value) (M : Machine) :
    Traces (fun cs e => cs = [] ∧ e.Declared) (fun cs _ => cs = []) M
      (CompiledUnit.checkArgs u.types ps vs M) := by
  induction ps generalizing vs with
  | nil => exact Traces.ok rfl
  | cons p ps ih =>
    cases vs with
    | nil => exact Traces.ok rfl
    | cons v vs =>
      rw [CompiledUnit.checkArgs]
      split
      · exact ih vs
      · exact Traces.error ⟨rfl, .inl rfl⟩

/-- A global that gets too few or too many arguments fails. -/
theorem callWithin_global_of_ne {name : String} {f : Source.Function} {ws : List Val}
    (hf : m.function? name = some f) (hlen : ws.length ≠ f.params.length) (kernels : KernelRegistry)
    (room : Nat) : m.callWithin kernels meaning room (.global name) ws =
      .fail (.arityMismatch f.params.length ws.length) := by
  cases room with
  | zero => simp only [Module.callWithin, Module.callWith, hf, Module.callWith.enter, hlen, if_false]
  | succ => simp only [Module.callWithin, Module.callWith, hf, Module.callWith.enter, hlen, if_false]

/-- A run from outside follows the call of the global. -/
theorem run_follows (hlinks : Links L m u) (hkernels : L.kernels.Means meaning)
    (hglobals : AdmitsGlobals order L m) {name : String} {id : FunctionId}
    (hplace : L.place name id) {us : List Value} {ws : List Val}
    (hreps : RepresentsAll L order us ws) (M : Machine) :
    Follows L order [] (Represents L order) M (u.run id us M)
      (m.callWithin L.kernels meaning u.options.maxCallDepth (.global name) ws) := by
  obtain ⟨f, f', hf, hf', hclosed, hlowers⟩ := hlinks.global hplace
  have hparams : f'.params.length = f.params.length :=
    (enters_of_global hclosed (hglobals hplace hf) hlowers).length_eq
  simp only [CompiledUnit.run, hf']
  split
  · next hlen =>
    rw [hreps.length_eq, hparams] at hlen
    rw [callWithin_global_of_ne hf hlen]
    exact .failed ⟨hparams, hreps.length_eq⟩
  · refine Traces.shared_bind (checkArgs_traces f'.params us M) ?_ ?_
    · intro cs e h
      rw [h.1]
      exact .declared h.2
    intro cs _ M₁ hcs
    rw [hcs]
    have hcall := callWithin_follows hlinks hkernels hglobals u.options.maxCallDepth (.global hplace)
      hreps M₁
    refine Traces.shared_bind hcall (fun _ _ he => he) ?_
    rintro cs v M₂ ⟨w, hw, hrep, hsame⟩
    split
    · refine Traces.ok ⟨w, hw, hrep, ?_⟩
      rwa [List.append_nil]
    · refine Traces.error (Fails.declared_after (.inr (.inl rfl)) ?_)
      rwa [List.append_nil]

end

end TensorIR.Run
