import TensorIR.Proofs.MeaningPreserved

/-! Compiled units call the kernels that the source calls.

Where no operand is a `let`, a run starts the kernels one by one as the evaluation of the entry calls
them, until it ends as the evaluation does or stops at a declared type. A `let` in an operand is
evaluated early but once, so that a run that succeeds has still made the same calls. -/

namespace TensorIR.Run

open Source Lowered Lowering

/-- The run has started exactly the kernels that are called in the evaluation, in the same order and
on the same arguments, and ends with the same value or for the same reason; or it has stopped at a
declared type on the way. Values are the same if they hold the same data, and in the same places
functions one of which is the translation of the other. -/
def InStep (L : Linkage) (M : Machine) (o : Outcome Val) :
    EStateM.Result RunError Machine Value → Prop
  | .ok v M' => ∃ cs, M'.starts = M.starts ++ cs ∧ List.Forall₂ (SameCall L .kept) cs o.calls ∧
    ∃ w, o.result = .ok w ∧ Represents L .kept v w
  | .error e M' => ∃ cs, M'.starts = M.starts ++ cs ∧
    ((e.Declared ∧ ∃ ks, ks <+: o.calls ∧ List.Forall₂ (SameCall L .kept) cs ks) ∨
      (List.Forall₂ (SameCall L .kept) cs o.calls ∧ ∃ e', o.result = .error e' ∧ e.SameKind e'))

theorem Follows.inStep {L : Linkage} {M : Machine} {o : Outcome Val}
    {x : EStateM.Result RunError Machine Value}
    (h : Follows L .kept [] (Represents L .kept) M x o) : InStep L M o x := by
  cases x with
  | ok v M' =>
    obtain ⟨cs, hcs, w, hw, hrep, as, hall, -, hkept⟩ := h
    cases hkept rfl
    exact ⟨cs, hcs, hall, w, hw, hrep⟩
  | error e M' =>
    obtain ⟨cs, hcs, hfails⟩ := h
    rcases hfails.kept rfl with hdeclared | ⟨e', he', hkind, hall⟩
    · exact ⟨cs, hcs, .inl hdeclared⟩
    · exact ⟨cs, hcs, .inr ⟨hall, e', he', hkind⟩⟩

/-- Kernel calls are neither lost nor repeated, and without a `let` in an operand not reordered. The
kernels neither look into functions nor make any, and no function that the entry reaches has a free
variable or binds one twice. If no operand in these functions is a `let`, a run on data keeps in step
with the evaluation of the entry. Whatever operands are, the evaluation succeeds if the run does, with
the same value, and the run has made its calls, each as often. -/
theorem kernel_calls_preserved {m m' : Module} {kernels : KernelRegistry} {meaning : KernelMeaning}
    {f : Source.Function} {options : CompileOptions} {g : Progress} {entry : FunctionId}
    {program : Program}
    (hcompile : Setting.compile ⟨m, kernels, options⟩ f {} = .ok (entry, program) g)
    (hentry : m.define options.entryName f = .ok m')
    (hclosed : ∀ name f, m'.Reaches options.entryName name → m'.function? name = some f → f.Closed)
    (hkernels : kernels.Means meaning) (limits : EvalOptions) {args : List Value}
    (hargs : Value.allData args = true) (M : Machine) :
    ∃ ws o, Val.ofValues? args = some ws ∧
      m'.callWithin kernels meaning limits.maxCallDepth (.global options.entryName) ws = o ∧
      ((∀ name f, m'.Reaches options.entryName name → m'.function? name = some f →
          f.body.plain = true) →
        InStep (Setting.link ⟨m, kernels, options⟩ g.table) M o
          (CompiledUnit.run ⟨program, kernels, m.types, limits⟩ entry args M)) ∧
      ∀ v M', CompiledUnit.run ⟨program, kernels, m.types, limits⟩ entry args M = .ok v M' →
        ∃ w cs cs', o.result = .ok w ∧
          Represents (Setting.link ⟨m, kernels, options⟩ g.table) .free v w ∧
          M'.starts = M.starts ++ cs ∧ cs'.Perm cs ∧
          List.Forall₂ (SameCall (Setting.link ⟨m, kernels, options⟩ g.table) .free) cs' o.calls := by
  have htranslated := compile_translated_link hentry hcompile
  have hlinks : Links (Setting.link ⟨m, kernels, options⟩ g.table) m'
      ⟨program, kernels, m.types, limits⟩ :=
    links_of_translated (Module.define_types hentry) htranslated hclosed
  obtain ⟨ws, hws, hkept⟩ := exists_representsAll args hargs
  obtain ⟨ws', hws', hfree⟩ := exists_representsAll args hargs
  cases hws.symm.trans hws'
  refine ⟨ws, _, hws, rfl, ?_, ?_⟩
  · intro hplain
    have hglobals : AdmitsGlobals .kept (Setting.link ⟨m, kernels, options⟩ g.table) m' := by
      intro name id f hplace hf _
      obtain ⟨_, _, _, _, _, hreach⟩ := htranslated.function hplace
      exact hplain name f hreach hf
    exact (run_follows hlinks hkernels hglobals htranslated.entry_place hkept M).inStep
  · intro v M' hrun
    have hfollows := run_follows hlinks hkernels (fun _ _ f _ _ => CallOrder.free_admits f.body)
      htranslated.entry_place hfree M
    rw [hrun] at hfollows
    obtain ⟨cs, hcs, w, hw, hrep, cs', hall, hperm, -⟩ := hfollows
    exact ⟨w, cs, cs', hw, hrep, hcs, hperm, hall⟩

/-! ## A function that goes through a kernel -/

def secondKernel : Kernel := .pick "second" (.fixed 2) 1

def toggleKernels : KernelRegistry :=
  ⟨[secondKernel, .ofBinary "not_equal" (Tensor.compare .notEqual)]⟩

/-- The first kernel passes functions on, and the other one works on data. -/
def toggleMeaning : KernelMeaning := fun kernel ws =>
  if kernel.name = "second" then
    match ws[1]? with
    | some w => .ok w
    | none => .error (.arity 2 ws.length)
  else KernelMeaning.onData kernel ws

theorem toggleKernels_means : toggleKernels.Means toggleMeaning := by
  intro name kernel hget
  have hmem : kernel ∈ toggleKernels.kernels := List.mem_of_find?_eq_some hget
  simp only [toggleKernels, List.mem_cons, List.not_mem_nil, or_false] at hmem
  rcases hmem with rfl | rfl
  · exact Kernel.pick_means 1
  · have hmeaning : toggleMeaning (.ofBinary "not_equal" (Tensor.compare .notEqual)) =
        KernelMeaning.onData (.ofBinary "not_equal" (Tensor.compare .notEqual)) := by
      funext ws
      exact if_neg (by decide)
    rw [hmeaning]
    exact (Kernel.ofBinary_firstOrder _).means

/-- `fn (b) { not_equal(b, true) }` -/
def flipBit : Source.Function where
  params := [bitVar 0 "b"]
  body := .call (.op "not_equal") [.var (bitVar 0 "b"), .const (.scalarBool true)] (.scalar .bool)
  ret := .scalar .bool

/-- `fn (x, y) { let s = not_equal(x, y); let keep = fn (b) { not_equal(b, s) };
let chosen = second(s, keep); chosen(flip(y)) }` -/
def toggle : Source.Function where
  params := [bitVar 0 "x", bitVar 1 "y"]
  body := .letIn (bitVar 2 "s")
    (.call (.op "not_equal") [.var (bitVar 0 "x"), .var (bitVar 1 "y")] (.scalar .bool))
    (.letIn ⟨3, "keep", .infer⟩
      (.func [bitVar 4 "b"]
        (.call (.op "not_equal") [.var (bitVar 4 "b"), .var (bitVar 2 "s")] (.scalar .bool))
        (.scalar .bool))
      (.letIn ⟨5, "chosen", .infer⟩
        (.call (.op "second") [.var (bitVar 2 "s"), .var ⟨3, "keep", .infer⟩]
          (.func [.scalar .bool] (.scalar .bool)))
        (.call (.var ⟨5, "chosen", .infer⟩)
          [.call (.global "flip") [.var (bitVar 1 "y")] (.scalar .bool)] (.scalar .bool))))
  ret := .scalar .bool

def toggleArgs : List Value := [.tensor (.scalarBool true), .tensor (.scalarBool false)]

/-- What the compiled function returns, and the kernels that it starts. -/
def toggleResult : Option (Option Bool × List String) :=
  match Setting.compile ⟨⟨[("flip", flipBit)], []⟩, toggleKernels, {}⟩ toggle {} with
  | .ok (entry, program) _ =>
    match CompiledUnit.run ⟨program, toggleKernels, [], {}⟩ entry toggleArgs {} with
    | .ok v M => some (v.asBool?, M.starts.map KernelStart.kernel)
    | .error .. => none
  | .error .. => none

theorem toggleResult_eq_some {b : Option Bool} {names : List String}
    (h : toggleResult = some (b, names)) : ∃ entry program g v M,
      Setting.compile ⟨⟨[("flip", flipBit)], []⟩, toggleKernels, {}⟩ toggle {} =
        .ok (entry, program) g ∧
      CompiledUnit.run ⟨program, toggleKernels, [], {}⟩ entry toggleArgs {} = .ok v M ∧
      v.asBool? = b ∧ M.starts.map KernelStart.kernel = names := by
  unfold toggleResult at h
  split at h
  · next entry program g hcompile =>
    split at h
    · next v M hrun =>
      cases h
      exact ⟨entry, program, g, v, M, hcompile, hrun, rfl, rfl⟩
    · cases h
  · cases h

/-- The module with the function in it. -/
def toggleModule : Module := ⟨[("flip", flipBit), ("main", toggle)], []⟩

theorem toggleModule_closed_plain {name : String} {f : Source.Function}
    (h : toggleModule.function? name = some f) : f.Closed ∧ f.body.plain = true := by
  obtain ⟨before, after, heq, -⟩ := List.lookup_eq_some_iff.mp h
  have hmem : (name, f) ∈ toggleModule.globals := heq ▸ by simp
  simp only [toggleModule, List.mem_cons, Prod.mk.injEq, List.not_mem_nil, or_false] at hmem
  rcases hmem with ⟨-, rfl⟩ | ⟨-, rfl⟩
  · exact ⟨⟨rfl, by decide⟩, rfl⟩
  · exact ⟨⟨rfl, by decide⟩, rfl⟩

theorem toggle_calls_kept : ∃ entry program g v M ws,
    Setting.compile ⟨⟨[("flip", flipBit)], []⟩, toggleKernels, {}⟩ toggle {} =
      .ok (entry, program) g ∧
    CompiledUnit.run ⟨program, toggleKernels, [], {}⟩ entry toggleArgs {} = .ok v M ∧
    v.asBool? = some false ∧
    M.starts.map KernelStart.kernel = ["not_equal", "second", "not_equal", "not_equal"] ∧
    Val.ofValues? toggleArgs = some ws ∧
    InStep (Setting.link ⟨⟨[("flip", flipBit)], []⟩, toggleKernels, {}⟩ g.table) {}
      (toggleModule.callWithin toggleKernels toggleMeaning 500 (.global "main") ws) (.ok v M) := by
  have hresult : toggleResult =
      some (some false, ["not_equal", "second", "not_equal", "not_equal"]) := by decide +kernel
  obtain ⟨entry, program, g, v, M, hcompile, hrun, hbool, hnames⟩ := toggleResult_eq_some hresult
  have hdefine : Module.define ⟨[("flip", flipBit)], []⟩ "main" toggle = .ok toggleModule :=
    if_neg (show ¬ (Module.function? ⟨[("flip", flipBit)], []⟩ "main").isSome = true by
      decide +kernel)
  obtain ⟨ws, o, hws, rfl, hstep, -⟩ := kernel_calls_preserved hcompile hdefine
    (fun _ _ _ hf => (toggleModule_closed_plain hf).1) toggleKernels_means {}
    (show Value.allData toggleArgs = true from rfl) {}
  have hplain := hstep fun _ _ _ hf => (toggleModule_closed_plain hf).2
  rw [hrun] at hplain
  exact ⟨entry, program, g, v, M, ws, hcompile, hrun, hbool, hnames, hws, hplain⟩

end TensorIR.Run
