import TensorIR.Proofs.ConstructorNames

/-! Modules through all their calls.

A call is refused exactly if a name that it brings has an answer already, and it then changes nothing.
A call that is accepted puts one definition at the end of a list. So every answer that a module has
given stays, and the module lists the definitions that have been accepted, in the order of the
calls. -/

namespace TensorIR.Source

namespace ModuleCall

/-- The global that the call asks for, if it asks for one. -/
def global? : ModuleCall → Option (String × Function)
  | .define name f => some (name, f)
  | .addType _ => none

/-- The data type that the call asks for, if it asks for one. -/
def type? : ModuleCall → Option TypeData
  | .define _ _ => none
  | .addType data => some data

/-- No name that the call brings has an answer in the module. -/
def Fresh (m : Module) : ModuleCall → Prop
  | .define name _ => m.function? name = none
  | .addType data => m.type? data.name = none ∧ ∀ c ∈ data.ctors, m.ctor? c.name = none

end ModuleCall

namespace Module

variable {m m' m'' : Module} {call : ModuleCall} {calls : List ModuleCall} {name : String}

/-- The calls that are accepted when they are made one after the other. -/
def accepted (m : Module) : List ModuleCall → List ModuleCall
  | [] => []
  | call :: calls =>
    match m.serve call with
    | .ok m' => call :: m'.accepted calls
    | .error _ => m.accepted calls

/-! ## Single calls -/

/-- A call that is accepted has only new names, and puts its definition at the end. -/
theorem serve_eq_ok (h : m.serve call = .ok m') :
    call.Fresh m ∧ m'.globals = m.globals ++ call.global?.toList ∧
      m'.types = m.types ++ call.type?.toList := by
  cases call with
  | define name f =>
    obtain ⟨hnew, rfl⟩ := define_eq_ok h
    exact ⟨hnew, rfl, (List.append_nil _).symm⟩
  | addType data =>
    obtain ⟨hnew, htypes⟩ := addType_types h
    refine ⟨⟨hnew, fun c hc => addType_ctors h (List.mem_map_of_mem hc)⟩, ?_, htypes⟩
    exact (addType_globals h).trans (List.append_nil _).symm

/-- A call with only new names is accepted. -/
theorem exists_serve_of_fresh (h : call.Fresh m) : ∃ m', m.serve call = .ok m' := by
  cases call with
  | define name f =>
    have hnew : m.function? name = none := h
    refine ⟨{ m with globals := m.globals ++ [(name, f)] }, ?_⟩
    rw [serve, define, hnew]
    rfl
  | addType data =>
    have hctors : data.ctors.find? (fun c => (m.ctor? c.name).isSome) = none := by
      rw [List.find?_eq_none]
      intro c hc
      simp [h.2 c hc]
    refine ⟨{ m with types := m.types ++ [data] }, ?_⟩
    rw [serve, addType, h.1, hctors]
    rfl

theorem step_of_ok (h : m.serve call = .ok m') : m.step call = m' := by rw [step, h]

theorem step_of_error {e : ModuleError} (h : m.serve call = .error e) : m.step call = m := by
  rw [step, h]

/-! ## Growth -/

/-- The module has all definitions of the other one, followed by further ones. -/
structure Extends (m m' : Module) : Prop where
  globals : m.globals <+: m'.globals
  types : m.types <+: m'.types

namespace Extends

theorem refl (m : Module) : m.Extends m := ⟨List.prefix_refl _, List.prefix_refl _⟩

theorem trans (h : m.Extends m') (h' : m'.Extends m'') : m.Extends m'' :=
  ⟨h.globals.trans h'.globals, h.types.trans h'.types⟩

theorem function? (h : m.Extends m') {f : Function} (hf : m.function? name = some f) :
    m'.function? name = some f := by
  obtain ⟨later, hlater⟩ := h.globals
  rw [Module.function?] at hf ⊢
  rw [← hlater, List.lookup_append, hf, Option.some_or]

theorem type? (h : m.Extends m') {data : TypeData} (hdata : m.type? name = some data) :
    m'.type? name = some data := by
  obtain ⟨later, hlater⟩ := h.types
  rw [Module.type?, TypeTable.get?] at hdata ⊢
  rw [← hlater, List.find?_append, hdata, Option.some_or]

theorem ctor? (h : m.Extends m') {info : CtorInfo} (hinfo : m.ctor? name = some info) :
    m'.ctor? name = some info := by
  obtain ⟨later, hlater⟩ := h.types
  rw [Module.ctor?] at hinfo ⊢
  rw [← hlater, List.findSome?_append, hinfo, Option.some_or]

end Extends

theorem extends_step (m : Module) (call : ModuleCall) : m.Extends (m.step call) := by
  cases h : m.serve call with
  | error e =>
    rw [step_of_error h]
    exact .refl m
  | ok m' =>
    obtain ⟨-, hglobals, htypes⟩ := serve_eq_ok h
    rw [step_of_ok h]
    exact ⟨hglobals ▸ List.prefix_append _ _, htypes ▸ List.prefix_append _ _⟩

theorem extends_run (m : Module) (calls : List ModuleCall) : m.Extends (calls.foldl step m) := by
  induction calls generalizing m with
  | nil => exact .refl m
  | cons call calls ih => exact (m.extends_step call).trans (ih (m.step call))

/-! ## Contents -/

/-- A run adds the definitions of the calls that are accepted, and nothing else. -/
theorem run_contents (m : Module) (calls : List ModuleCall) :
    (calls.foldl step m).globals = m.globals ++ (m.accepted calls).filterMap ModuleCall.global? ∧
      (calls.foldl step m).types = m.types ++ (m.accepted calls).filterMap ModuleCall.type? := by
  induction calls generalizing m with
  | nil => exact ⟨(List.append_nil _).symm, (List.append_nil _).symm⟩
  | cons call calls ih =>
    rw [List.foldl_cons, accepted]
    cases h : m.serve call with
    | error e =>
      rw [step_of_error h]
      exact ih m
    | ok m' =>
      obtain ⟨-, hglobals, htypes⟩ := serve_eq_ok h
      obtain ⟨hglobals', htypes'⟩ := ih m'
      rw [step_of_ok h, hglobals', htypes', hglobals, htypes]
      cases call with
      | define name f => exact ⟨List.append_assoc _ _ _, by rw [List.append_assoc]; rfl⟩
      | addType data => exact ⟨by rw [List.append_assoc]; rfl, List.append_assoc _ _ _⟩

end Module

end TensorIR.Source
