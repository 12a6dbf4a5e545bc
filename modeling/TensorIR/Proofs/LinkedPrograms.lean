import TensorIR.Proofs.GuardedRuns
import TensorIR.Proofs.KernelData
import TensorIR.Proofs.MeaningPreserved
import TensorIR.Proofs.UnitHistory

/-! Finished programs are fully linked.

A table is closed only when all its places have functions, so what the code of a unit refers to in
its table is there in its program. Then no run can meet a function or a kernel that is missing, and
a kernel fails only if it refuses its arguments itself. -/

namespace TensorIR

open Source Lowered Lowering Run

section

variable {s : Setting} {given : String → Source.Function → Prop} {t : FunctionTable} {p : Program}

/-- What is known of an entry holds for the function in its place. -/
theorem Lowering.Setting.Makes.installed (h : s.Makes given t p) {id : FunctionId} {name : String}
    {f : Lowered.Function} (hf : p.functions[id.index]? = some (name, f)) :
    ∃ e, t.entry? id = some e ∧ e.name = name ∧ EntryInstalled s given t e f := by
  obtain ⟨g, hreached, rfl, hfreeze⟩ := h.exists_reached
  obtain ⟨e, he, hname, hfunc⟩ := FunctionTable.exists_entry_of_freeze hfreeze hf
  exact ⟨e, he, hname, hreached.inv e (List.mem_of_getElem? he) f hfunc⟩

/-- Places have the same names and numbers of parameters in the table and in the program. -/
theorem Lowering.Setting.Makes.directory_eq (h : s.Makes given t p) : t.directory = p.directory := by
  funext id
  simp only [FunctionTable.directory, Program.directory, Program.name?, Program.function?]
  cases hf : p.functions[id.index]? with
  | some function =>
    obtain ⟨e, he, hname, hinstalled⟩ := h.installed hf
    rw [he]
    simp [hname, hinstalled.signature_eq]
  | none =>
    obtain ⟨g, -, -, hfreeze⟩ := h.exists_reached
    cases he : t.entry? id with
    | none => rfl
    | some e =>
      obtain ⟨f, -, hf'⟩ := FunctionTable.freeze_eq_ok hfreeze he
      cases hf.symm.trans hf'

theorem Lowering.Setting.Makes.linked (h : s.Makes given t p) {id : FunctionId} {name : String}
    {f : Lowered.Function} (hf : p.functions[id.index]? = some (name, f)) :
    f.body.Linked s p.directory := by
  obtain ⟨e, -, -, hinstalled⟩ := h.installed hf
  exact h.directory_eq ▸ hinstalled.linked

theorem directory_eq_some {id : FunctionId} {entry : String × Nat}
    (h : p.directory id = some entry) :
    p.name? id = some entry.1 ∧ (p.function? id).isSome = true := by
  obtain ⟨name, hname, hentry⟩ := Option.bind_eq_some_iff.mp h
  obtain ⟨f, hf, rfl⟩ := Option.map_eq_some_iff.mp hentry
  exact ⟨hname, by rw [hf]; rfl⟩

theorem exists_idOf? {name : String} (h : name ∈ p.names) :
    ∃ id, p.idOf? name = some id ∧ (p.function? id).isSome = true := by
  obtain ⟨function, hmem, rfl⟩ := List.mem_map.mp h
  cases hi : p.functions.findIdx? (·.1 == function.1) with
  | none => exact absurd (List.findIdx?_eq_none_iff.mp hi function hmem) (by simp)
  | some i =>
    have hlt := (List.findIdx?_eq_some_iff_getElem.mp hi).1
    exact ⟨⟨i⟩, by rw [Program.idOf?, hi]; rfl, by simp [Program.function?, hlt]⟩

/-- Every reference in the code of the program is right, and its functions have the signatures that
the table has reserved for them. -/
structure FullyLinked (s : Setting) (t : FunctionTable) (p : Program) : Prop where
  references : ∀ ⦃id f⦄, p.function? id = some f →
    f.body.Everywhere (fun _ => Node.LinkedHere s p.directory) f.scope
  signature : ∀ ⦃id name f⦄, p.name? id = some name → p.function? id = some f →
    t.name? id = some name ∧ t.signature? id = some ⟨f.params.map Param.ty, f.ret⟩

theorem Lowering.Setting.Makes.fullyLinked (h : s.Makes given t p) : FullyLinked s t p where
  references id f hf := by
    obtain ⟨function, hfunction, rfl⟩ := Option.map_eq_some_iff.mp hf
    exact (h.linked hfunction).everywhere _
  signature id name f hname hf := by
    obtain ⟨function, hfunction, rfl⟩ := Option.map_eq_some_iff.mp hf
    rw [Program.name?, hfunction] at hname
    cases hname
    obtain ⟨e, he, hname, hinstalled⟩ := h.installed hfunction
    rw [FunctionTable.name?, FunctionTable.signature?, he, ← hinstalled.signature_eq, ← hname]
    exact ⟨rfl, rfl⟩

/-- The entry function of a compiled unit is in its place. -/
theorem compile_entry {f : Source.Function} {entry : FunctionId} {g : Progress}
    (h : s.compile f {} = .ok (entry, p) g) :
    p.name? entry = some s.options.entryName ∧ (p.function? entry).isSome = true := by
  obtain ⟨g₁, h₁, h₂⟩ := compile_eq_ok h
  have hkeeps : (historyGrowth s fun _ _ => True).Keeps {}
      (fun id t => ∃ params, t.directory id = some (s.options.entryName, params))
      (s.lowerGlobal s.options.entryName f {}) :=
    lowerGlobalWith_keeps (fun _ => ensureWithin_obtains _ _) (.inl trivial)
      fun _ he => (List.not_mem_nil he).elim
  rw [h₁] at hkeeps
  obtain ⟨-, params, hparams⟩ := hkeeps
  rw [← (finish_eq_ok h₂).2, (Setting.Makes.compile h).directory_eq] at hparams
  exact directory_eq_some hparams

/-! ## Runs -/

/-- Calls of the kernel return no functions. -/
def Kernel.ReturnsData (k : Kernel) : Prop := ∀ ⦃args v⦄, k.call args = .ok v → v.isData = true

/-- No function and no kernel is missing: a kernel fails only if it has been given as many arguments
as it takes and refuses them itself. -/
def Run.RunError.NothingMissing (kernels : KernelRegistry) : RunError → Prop
  | .unknownFunction _ => False
  | .kernel name cause => ∃ k args, kernels.get? name = some k ∧ k.checkArity args = .ok () ∧
      k.body args = .error cause
  | _ => True

theorem Run.RunError.NothingMissing.of_values {kernels : KernelRegistry} (e : RunError)
    (h : e.OfValues) : e.NothingMissing kernels := by
  cases e with
  | unknownFunction | kernel => cases h
  | _ => exact trivial

theorem KernelArity.Suits.checkArity {k : Kernel} {count arity : Nat} {tupled : Bool}
    (h : k.arity.Suits count arity tupled) {vs args : List Value} (hcount : vs.length = count)
    (hargs : tupled = false → args = vs) : k.checkArity args = .ok () := by
  unfold Kernel.checkArity
  cases harity : k.arity with
  | packed => rfl
  | fixed n =>
    rw [harity] at h
    obtain ⟨hn, -, htupled⟩ := h
    exact if_pos (by rw [hargs htupled, hcount, hn])

/-- Code with right references meets nothing that is missing. -/
theorem Lowering.Setting.Makes.guards (h : s.Makes given t p)
    (hdata : ∀ name k, s.kernels.get? name = some k → k.ReturnsData) (types : TypeTable)
    (limits : EvalOptions) :
    Guards ⟨p, s.kernels, types, limits⟩ (fun _ => Node.LinkedHere s p.directory)
      (fun id => (p.function? id).isSome = true) (RunError.NothingMissing s.kernels) where
  values := .of_values
  var _ _ _ := .inr trivial
  capture _ _ _ _ _ _ _ _ _ := .inr trivial
  global scope target hn := by
    obtain ⟨params, hparams⟩ := hn
    exact (directory_eq_some hparams).2
  invoke scope target args hn := (directory_eq_some hn).2
  function id hid := by
    obtain ⟨f, hf⟩ := Option.isSome_iff_exists.mp hid
    obtain ⟨function, hfunction, rfl⟩ := Option.map_eq_some_iff.mp hf
    exact .inl ⟨function.1, function.2, hfunction, (h.linked hfunction).everywhere _⟩
  kernel scope name arity args ty tupled hn M := by
    obtain ⟨k, hk, hsuits⟩ := hn
    rw [CompiledUnit.kernel, hk]
    intro vs hlen hvs M'
    refine callKernel_settles .of_values hvs ?_ ?_ ty M'
    · intro args cause hargs hcall
      have hcheck := hsuits.checkArity hlen hargs
      rw [Kernel.call, hcheck] at hcall
      exact ⟨k, args, hk, hcheck, hcall⟩
    · exact fun args v _ hcall => .of_isData (hdata name k hk hcall)

/-- Finished programs are fully linked, whichever requests a unit has had before. So where kernels
return no functions, a run on data of a function in the program, by its place or by its name, meets
nothing that is missing. A compiled entry function is in the program under its name. -/
theorem program_fully_linked (h : s.Makes given t p) :
    FullyLinked s t p ∧
    ((∀ name k, s.kernels.get? name = some k → k.ReturnsData) →
      ∀ (types : TypeTable) (limits : EvalOptions) (args : List Value), Value.allData args = true →
        ∀ M : Machine,
          (∀ id, (p.function? id).isSome = true →
            Settles (RunError.NothingMissing s.kernels) (fun _ => True)
              (CompiledUnit.run ⟨p, s.kernels, types, limits⟩ id args M)) ∧
          ∀ name ∈ p.names, Settles (RunError.NothingMissing s.kernels) (fun _ => True)
            (CompiledUnit.invoke ⟨p, s.kernels, types, limits⟩ name args M)) ∧
    ∀ f entry g, s.compile f {} = .ok (entry, p) g →
      p.name? entry = some s.options.entryName ∧ (p.function? entry).isSome = true := by
  refine ⟨h.fullyLinked, ?_, fun f entry g => compile_entry⟩
  intro hdata types limits args hargs M
  have hrun : ∀ id, (p.function? id).isSome = true →
      Settles (RunError.NothingMissing s.kernels) (fun _ => True)
        (CompiledUnit.run ⟨p, s.kernels, types, limits⟩ id args M) := by
    intro id hid
    have hsettles := run_settles (h.guards hdata types limits) hid (.of_allData hargs) M
    exact hsettles.imp (fun _ he => he) fun _ _ => trivial
  refine ⟨hrun, fun name hname => ?_⟩
  obtain ⟨id, hid, hsome⟩ := exists_idOf? hname
  rw [CompiledUnit.invoke, hid]
  exact hrun id hsome

end

theorem builtin_returnsData {name : String} {k : Kernel}
    (h : KernelRegistry.builtin.get? name = some k) : k.ReturnsData :=
  fun _ _ hcall => (KernelRegistry.builtin_firstOrder h hcall).2

/-- The program of `walk` has a kernel call, a match on constructors, a local function that calls
itself and a call of a global. -/
theorem walk_fully_linked : ∃ entry program g,
    Setting.compile ⟨chainModule, .builtin, {}⟩ walk {} = .ok (entry, program) g ∧
      FullyLinked ⟨chainModule, .builtin, {}⟩ g.table program ∧
      Settles (RunError.NothingMissing .builtin) (fun _ => True)
        (CompiledUnit.run ⟨program, .builtin, chainModule.types, {}⟩ entry walkArgs {}) := by
  have hresult : walkResult.isSome = true := by decide +kernel
  obtain ⟨v, hv⟩ := Option.isSome_iff_exists.mp hresult
  obtain ⟨entry, program, g, M, hcompile, -⟩ := walkResult_eq_some hv
  obtain ⟨hlinked, hruns, hentry⟩ := program_fully_linked (.compile hcompile)
  refine ⟨entry, program, g, hcompile, hlinked, ?_⟩
  exact (hruns (fun _ _ => builtin_returnsData) _ _ walkArgs rfl {}).1 entry
    (hentry walk entry g hcompile).2

end TensorIR
