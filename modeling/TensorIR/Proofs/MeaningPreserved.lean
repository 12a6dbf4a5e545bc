import TensorIR.Proofs.Simulation
import TensorIR.Proofs.UnitTranslation

/-! Compiled units keep the meaning of their entry functions.

A unit is the translation of all that its entry reaches. If nothing in it is free or bound twice, the
translation is one in lexical scope, and a run of the unit agrees with the evaluation of the entry in
the source. -/

namespace TensorIR.Run

open Source Lowered Lowering

/-- A run from outside agrees with the call of the global. -/
theorem run_agrees {m m' : Module} {place : String → FunctionId → Prop} {u : CompiledUnit}
    (hlinks : Links ⟨m, .builtin, place⟩ m' u) {name : String} {id : FunctionId}
    (hplace : place name id) {us : List Value} {ws : List Val}
    (hreps : RepresentsAll ⟨m, .builtin, place⟩ .free us ws) (M : Machine) :
    Agrees (Represents ⟨m, .builtin, place⟩ .free) (u.run id us M)
      (m'.callWithin .builtin .onData u.options.maxCallDepth (.global name) ws).result :=
  (run_follows hlinks KernelRegistry.builtin_means (fun _ _ f _ _ => CallOrder.free_admits f.body)
    hplace hreps M).agrees

/-- A compiled unit links the globals of the module with its entry function. -/
theorem links_of_translated {m m' : Module} {kernels : KernelRegistry}
    {place : String → FunctionId → Prop} {start : String} {entry : FunctionId} {program : Program}
    {types : TypeTable} {options : EvalOptions} (htypes : m'.types = m.types)
    (h : Translated ⟨m, kernels, place⟩ m' start entry program)
    (hclosed : ∀ name f, m'.Reaches start name → m'.function? name = some f → f.Closed) :
    Links ⟨m, kernels, place⟩ m' ⟨program, kernels, types, options⟩ where
  ctor name := by rw [Module.ctor?, Module.ctor?, htypes]
  kernels := rfl
  global name id hplace := by
    obtain ⟨f, f', hf, hf', hlowers, hreach⟩ := h.function hplace
    have hf_closed := hclosed name f hreach hf
    exact ⟨f, f', hf, hf', hf_closed, hlowers.lexical_of_leakFree hf_closed.leakFree⟩

/-- Lowering preserves meaning. The entry function is a global of its own under the name that the
options give it, so the meaning of the unit is that of the module with the entry in it. Where no
function that the entry reaches has a free variable or binds one twice, a run on data that returns
data returns what the source evaluates to; and if the source evaluates to data, the run returns it or
fails against a declared type. -/
theorem compile_preserves_meaning {m m' : Module} {f : Source.Function} {options : CompileOptions}
    {g : Progress} {entry : FunctionId} {program : Program}
    (hcompile : Setting.compile ⟨m, .builtin, options⟩ f {} = .ok (entry, program) g)
    (hentry : m.define options.entryName f = .ok m')
    (hclosed : ∀ name f, m'.Reaches options.entryName name → m'.function? name = some f → f.Closed)
    (limits : EvalOptions) {args : List Value} (hargs : Value.allData args = true) {v : Value}
    (hv : v.isData = true) (M : Machine) :
    (∀ M', CompiledUnit.run ⟨program, .builtin, m.types, limits⟩ entry args M = .ok v M' →
      m'.Yields .builtin limits.maxCallDepth options.entryName args v) ∧
    (m'.Yields .builtin limits.maxCallDepth options.entryName args v →
      ∃ M', CompiledUnit.run ⟨program, .builtin, m.types, limits⟩ entry args M = .ok v M' ∨
        ∃ e : RunError, e.Declared ∧
          CompiledUnit.run ⟨program, .builtin, m.types, limits⟩ entry args M = .error e M') := by
  obtain ⟨place, htranslated⟩ := compile_translated hentry hcompile
  have hlinks : Links ⟨m, .builtin, place⟩ m' ⟨program, .builtin, m.types, limits⟩ :=
    links_of_translated (Module.define_types hentry) htranslated hclosed
  obtain ⟨ws, hws, hreps⟩ := exists_representsAll (L := ⟨m, .builtin, place⟩) args hargs
  have hagrees := run_agrees hlinks htranslated.entry_place hreps M
  constructor
  · intro M' hrun
    rw [hrun] at hagrees
    obtain ⟨w, hw, hrep⟩ := hagrees
    exact ⟨ws, w, hws, hw, by rw [hrep.toValue?, hv]; rfl⟩
  · rintro ⟨ws', w, hws', hw, hv'⟩
    obtain rfl := Option.some.inj (hws.symm.trans hws')
    cases hrun : CompiledUnit.run ⟨program, .builtin, m.types, limits⟩ entry args M with
    | ok v' M' =>
      rw [hrun] at hagrees
      obtain ⟨w', hw', hrep⟩ := hagrees
      cases hw.symm.trans hw'
      rw [hrep.toValue?] at hv'
      split at hv'
      · cases hv'
        exact ⟨M', .inl rfl⟩
      · cases hv'
    | error e M' =>
      rw [hrun] at hagrees
      exact ⟨M', .inr ⟨e, hagrees w hw, rfl⟩⟩

/-! ## A closure that captures a recursive one -/

def chainData : TypeData := ⟨"Chain", [⟨"End", []⟩, ⟨"Link", [.scalar .bool, .adt "Chain"]⟩]⟩

def bitVar (id : Nat) (name : String) : Var := ⟨id, name, .scalar .bool⟩

/-- `fn (c, x, y) { if c { x } else { y } }` -/
def chooseBit : Source.Function where
  params := [bitVar 0 "c", bitVar 1 "x", bitVar 2 "y"]
  body := .ite (.var (bitVar 0 "c")) (.var (bitVar 1 "x")) (.var (bitVar 2 "y")) .infer

def chainModule : Module := ⟨[("choose", chooseBit)], [chainData]⟩

/-- The conjunction of the links, up to the first that does not hold:
`fn (rest) { match rest { End => last, Link(here, next) => if here { go(next) } else { here } } }`,
bound to `go`. -/
def goLiteral : Expr :=
  let rest : Var := ⟨3, "rest", .adt "Chain"⟩
  let next : Var := ⟨5, "next", .infer⟩
  .func [rest]
    (.matchOn (.var rest)
      [(.ctor "End" [], .var (bitVar 1 "last")),
        (.ctor "Link" [.var (bitVar 4 "here"), .var next],
          .ite (.var (bitVar 4 "here")) (.call (.var ⟨2, "go", .infer⟩) [.var next] .infer)
            (.var (bitVar 4 "here")) (.scalar .bool))]
      (.scalar .bool)) (.scalar .bool)

/-- `fn (b) { not_equal(b, go(End)) }` -/
def flipLiteral : Expr :=
  .func [bitVar 7 "b"]
    (.call (.op "not_equal")
      [.var (bitVar 7 "b"),
        .call (.var ⟨2, "go", .infer⟩) [.construct "End" [] (.adt "Chain")] .infer] (.scalar .bool))
    (.scalar .bool)

/-- `fn (links, last) { let go = …; choose(go(links), last, let flip = …; flip(last)) }` -/
def walk : Source.Function where
  params := [⟨0, "links", .adt "Chain"⟩, bitVar 1 "last"]
  body := .letIn ⟨2, "go", .infer⟩ goLiteral
    (.call (.global "choose")
      [.call (.var ⟨2, "go", .infer⟩) [.var ⟨0, "links", .adt "Chain"⟩] .infer,
        .var (bitVar 1 "last"),
        .letIn ⟨6, "flip", .infer⟩ flipLiteral
          (.call (.var ⟨6, "flip", .infer⟩) [.var (bitVar 1 "last")] .infer)] (.scalar .bool))
  ret := .scalar .bool

/-- A chain of a link that holds and one that does not, and a last one that holds. -/
def walkArgs : List Value :=
  [.adt 1 [.tensor (.scalarBool true), .adt 1 [.tensor (.scalarBool false), .adt 0 []]],
    .tensor (.scalarBool true)]

/-- What the compiled function returns. -/
def walkResult : Option Value :=
  match Setting.compile ⟨chainModule, .builtin, {}⟩ walk {} with
  | .ok (entry, program) _ =>
    match CompiledUnit.run ⟨program, .builtin, chainModule.types, {}⟩ entry walkArgs {} with
    | .ok v _ => some v
    | .error .. => none
  | .error .. => none

theorem walkResult_eq_some {v : Value} (h : walkResult = some v) : ∃ entry program g M,
    Setting.compile ⟨chainModule, .builtin, {}⟩ walk {} = .ok (entry, program) g ∧
      CompiledUnit.run ⟨program, .builtin, chainModule.types, {}⟩ entry walkArgs {} = .ok v M := by
  unfold walkResult at h
  split at h
  · next entry program g hcompile =>
    split at h
    · next v' M hrun =>
      cases h
      exact ⟨entry, program, g, M, hcompile, hrun⟩
    · cases h
  · cases h

/-- The module with the function in it. -/
def walkModule : Module := ⟨[("choose", chooseBit), ("main", walk)], [chainData]⟩

theorem walkModule_closed {name : String} {f : Source.Function}
    (h : walkModule.function? name = some f) : f.Closed := by
  obtain ⟨before, after, heq, -⟩ := List.lookup_eq_some_iff.mp h
  have hmem : (name, f) ∈ walkModule.globals := heq ▸ by simp
  simp only [walkModule, List.mem_cons, Prod.mk.injEq, List.not_mem_nil, or_false] at hmem
  rcases hmem with ⟨-, rfl⟩ | ⟨-, rfl⟩
  · exact ⟨rfl, by decide⟩
  · exact ⟨rfl, by decide⟩

theorem walk_meaning : ∃ v, walkResult = some v ∧ v.asBool? = some false ∧
    walkModule.Yields .builtin 500 "main" walkArgs v := by
  have hresult : walkResult.bind Value.asBool? = some false := by decide +kernel
  obtain ⟨v, hv, hbool⟩ := Option.bind_eq_some_iff.mp hresult
  obtain ⟨entry, program, g, M, hcompile, hrun⟩ := walkResult_eq_some hv
  have hdefine : chainModule.define "main" walk = .ok walkModule :=
    if_neg (show ¬ (chainModule.function? "main").isSome = true by decide +kernel)
  have hdata : v.isData = true := by
    cases v with
    | tensor => rfl
    | _ => cases hbool
  exact ⟨v, hv, hbool, (compile_preserves_meaning hcompile hdefine
    (fun _ _ _ hf => walkModule_closed hf) {} rfl hdata {}).1 M hrun⟩

end TensorIR.Run
