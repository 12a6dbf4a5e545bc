import TensorIR.Proofs.LinkedPrograms
import TensorIR.Proofs.ScopeLeaks
import TensorIR.Proofs.ScopedCode

/-! No run meets a name without a value.

The code of closed functions is well scoped, so every name that it reads has been given a value
before. What can bring in other code are kernels: one that returns a function of another program
returns code that nobody has checked. If kernels keep to well scoped code, so do all runs. -/

namespace TensorIR

open Source Lowered Lowering Run
open Node (ScopedHere)

/-- The code of all functions in the value is well scoped. -/
abbrev Value.Scoped (v : Value) : Prop := v.Sound ScopedHere fun _ => True

abbrev Value.AllScoped (vs : List Value) : Prop := Value.AllSound ScopedHere (fun _ => True) vs

/-- Given functions with well scoped code, the kernel returns no others. -/
def Kernel.KeepsScope (k : Kernel) : Prop :=
  ∀ ⦃args v⦄, Value.AllScoped args → k.call args = .ok v → v.Scoped

theorem Kernel.ReturnsData.keepsScope {k : Kernel} (h : k.ReturnsData) : k.KeepsScope :=
  fun _ _ _ hcall => .of_isData (h hcall)

section

variable {s : Setting} {given : String → Source.Function → Prop} {t : FunctionTable} {p : Program}

theorem Lowering.Accepts.wellScoped {f : Source.Function} {f' : Lowered.Function}
    (h : Accepts f f') (hclosed : f.Closed) : f'.WellScoped := by
  obtain ⟨c, ret, s', g, g', hfunction⟩ := h
  exact (function_threaded hfunction).wellScoped hclosed

/-- Every function of the program is made of a closed one. -/
def Lowered.Program.FromClosed (p : Program) : Prop :=
  ∀ function ∈ p.functions, ∃ f : Source.Function, f.Closed ∧ Accepts f function.2

/-- It is enough that everything that can be compiled for the names of the program is closed. -/
theorem Lowering.Setting.Makes.fromClosed (h : s.Makes given t p)
    (hclosed : ∀ name ∈ p.names, ∀ f, s.Offers given name f → f.Closed) : p.FromClosed := by
  intro function hmem
  obtain ⟨i, hi⟩ := List.mem_iff_getElem?.mp hmem
  have hf : p.functions[(⟨i⟩ : FunctionId).index]? = some function := hi
  obtain ⟨e, -, hname, hinstalled⟩ := h.installed hf
  obtain ⟨f, hoffer, haccepts⟩ := hinstalled.source
  exact ⟨f, hclosed function.1 (List.mem_map_of_mem hmem) f (hname ▸ hoffer), haccepts⟩

theorem Lowering.Setting.Makes.scope_guards (h : s.Makes given t p) (hclosed : p.FromClosed)
    {kernels : KernelRegistry}
    (hkernels : ∀ name k, kernels.get? name = some k → k.KeepsScope) (types : TypeTable)
    (limits : EvalOptions) :
    Guards ⟨p, kernels, types, limits⟩ ScopedHere (fun _ => True)
      (fun e => ∀ x, e ≠ .unboundVariable x) where
  values e he := by
    rintro x rfl
    cases he
  var _ _ hn := .inl hn
  capture _ _ _ _ _ _ hn c hc := .inl (hn.1 c hc)
  global _ _ _ := trivial
  invoke _ _ _ _ := trivial
  function id _ := by
    dsimp only
    cases hf : p.functions[id.index]? with
    | none => exact .inr ⟨rfl, fun _ => RunError.noConfusion⟩
    | some function =>
      obtain ⟨e, -, -, hinstalled⟩ := h.installed hf
      obtain ⟨f, hf', haccepts⟩ := hclosed function (List.mem_of_getElem? hf)
      have hscoped := haccepts.wellScoped hf'
      rw [Function.WellScoped, Function.scope, hinstalled.name_eq, hinstalled.captures_eq] at hscoped
      exact .inl ⟨function.1, function.2, rfl, by simpa using hscoped⟩
  kernel scope name arity args ty tupled _ M := by
    rw [CompiledUnit.kernel]
    dsimp only
    cases hk : kernels.get? name with
    | none => exact fun _ => RunError.noConfusion
    | some k =>
      intro vs _ hvs M'
      refine callKernel_settles ?_ hvs (fun _ _ _ _ _ => RunError.noConfusion) (hkernels name k hk)
        ty M'
      rintro e he x rfl
      cases he

/-- Lowering makes well scoped code of closed functions, with captures that are exact. So where the
functions of a program are made of closed ones and kernels keep to well scoped code, no run on data
meets a name without a value. -/
theorem names_always_bound :
    (∀ f f', Accepts f f' → f.Closed → f'.WellScoped) ∧
    ∀ s given t p, Setting.Makes s given t p → p.FromClosed →
      ∀ (kernels : KernelRegistry), (∀ name k, kernels.get? name = some k → k.KeepsScope) →
      ∀ (types : TypeTable) (limits : EvalOptions) (args : List Value), Value.allData args = true →
      ∀ M : Machine,
        (∀ id, Settles (fun e => ∀ x, e ≠ .unboundVariable x) (fun _ => True)
          (CompiledUnit.run ⟨p, kernels, types, limits⟩ id args M)) ∧
        ∀ name, Settles (fun e => ∀ x, e ≠ .unboundVariable x) (fun _ => True)
          (CompiledUnit.invoke ⟨p, kernels, types, limits⟩ name args M) := by
  refine ⟨fun f f' h => h.wellScoped, ?_⟩
  intro s given t p h hclosed kernels hkernels types limits args hargs M
  have hrun : ∀ id, Settles (fun e => ∀ x, e ≠ .unboundVariable x) (fun _ => True)
      (CompiledUnit.run ⟨p, kernels, types, limits⟩ id args M) := by
    intro id
    have hguards := h.scope_guards hclosed hkernels types limits
    exact (run_settles hguards trivial (.of_allData hargs) M).imp (fun _ he => he) fun _ _ => trivial
  refine ⟨hrun, fun name => ?_⟩
  rw [CompiledUnit.invoke]
  cases p.idOf? name with
  | some id => exact hrun id
  | none => exact fun _ => RunError.noConfusion

end

/-! ## A closure that captures a recursive one, and one from elsewhere -/

theorem walk_offers_closed {name : String} {f : Source.Function}
    (h : Setting.Offers ⟨chainModule, .builtin, {}⟩ (fun name f' => name = "main" ∧ f' = walk) name f) :
    f.Closed := by
  have hdefine : chainModule.define "main" walk = .ok walkModule :=
    if_neg (show ¬ (chainModule.function? "main").isSome = true by decide +kernel)
  rcases h with ⟨rfl, rfl⟩ | hf
  · exact walkModule_closed (Module.function?_define_self hdefine)
  · exact walkModule_closed (Module.function?_define hdefine hf)

/-- The local functions of `walk` capture its parameter and each other, and it has well scoped code,
so that no run of it meets a name without a value. -/
theorem walk_names_bound : ∃ entry program g,
    Setting.compile ⟨chainModule, .builtin, {}⟩ walk {} = .ok (entry, program) g ∧
      (∀ f', Accepts walk f' → f'.WellScoped) ∧
      Settles (fun e => ∀ x, e ≠ .unboundVariable x) (fun _ => True)
        (CompiledUnit.run ⟨program, .builtin, chainModule.types, {}⟩ entry walkArgs {}) := by
  have hresult : walkResult.isSome = true := by decide +kernel
  obtain ⟨v, hv⟩ := Option.isSome_iff_exists.mp hresult
  obtain ⟨entry, program, g, M, hcompile, -⟩ := walkResult_eq_some hv
  obtain ⟨hscoped, hruns⟩ := names_always_bound
  refine ⟨entry, program, g, hcompile, fun f' hf' => hscoped walk f' hf' ⟨rfl, by decide⟩, ?_⟩
  have hmakes := Setting.Makes.compile hcompile
  exact (hruns _ _ _ _ hmakes (hmakes.fromClosed fun _ _ _ => walk_offers_closed) .builtin
    (fun _ _ hk => (builtin_returnsData hk).keepsScope) _ _ walkArgs rfl {}).1 entry

/-- A function without arguments whose body reads a name that it has not captured. -/
def strayFunction : Lowered.Function where
  name := none
  params := []
  captures := []
  body := .var "y_0"
  ret := .scalar .bool

/-- A registry with one kernel, which returns the stray function. -/
def strayKernels : KernelRegistry := ⟨[.const "k" (.fixed 0) (.closure strayFunction [])]⟩

/-- `fn () { (k())() }` -/
def callStray : Source.Function where
  params := []
  body := .call (.call (.op "k") [] (.func [] (.scalar .bool))) [] .infer
  ret := .scalar .bool

/-- The name that the compiled function finds without a value. -/
def strayName : Option String :=
  match Setting.compile ⟨{}, strayKernels, {}⟩ callStray {} with
  | .ok (entry, program) _ =>
    match CompiledUnit.run ⟨program, strayKernels, [], {}⟩ entry [] {} with
    | .error (.unboundVariable x) _ => some x
    | _ => none
  | .error .. => none

/-- A kernel can return code from elsewhere that reads a name without a value. -/
theorem stray_name_unbound : callStray.Closed ∧ ∃ entry program g M,
    Setting.compile ⟨{}, strayKernels, {}⟩ callStray {} = .ok (entry, program) g ∧
      CompiledUnit.run ⟨program, strayKernels, [], {}⟩ entry [] {} =
        .error (.unboundVariable "y_0") M := by
  have hname : strayName = some "y_0" := by decide +kernel
  refine ⟨⟨rfl, by decide⟩, ?_⟩
  unfold strayName at hname
  split at hname
  · next entry program g hcompile =>
    split at hname
    · next x M hrun =>
      cases hname
      exact ⟨entry, program, g, M, hcompile, hrun⟩
    · cases hname
  · cases hname

end TensorIR
