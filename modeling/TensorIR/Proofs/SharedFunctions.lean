import TensorIR.Kernel.Builtin
import TensorIR.Lowering.Unit
import TensorIR.Proofs.DepthLimit
import TensorIR.Proofs.GuardedRuns
import TensorIR.Proofs.KernelData

/-! Function values that go from one unit to another.

Function values refer to globals by their places, and a place is looked up in the program that is
running. So a value means the same in another unit as far as the places that it leads to have the same
functions there (`Program.Shares`). Where they have others, the other unit calls its own. -/

namespace TensorIR

open Source Lowered Matching

/-! ## Shared places -/

namespace Lowered

/-- The global that the node itself refers to is in the set. -/
def Node.RefersTo (G : FunctionId → Prop) : Node → Prop
  | .global target | .invoke target _ => G target.id
  | _ => True

namespace Program

/-- The places of the set have the same functions in both programs, and the code there refers to no
places outside of the set. -/
structure Overlap (p q : Program) (G : FunctionId → Prop) : Prop where
  same : ∀ ⦃id⦄, G id → q.functions[id.index]? = p.functions[id.index]?
  closed : ∀ ⦃id name f⦄, G id → p.functions[id.index]? = some (name, f) →
    f.body.Everywhere (fun _ => Node.RefersTo G) []

/-- All that a call of the global can lead to is the same in both programs: its own place and, from
there on, every place that code in such places refers to. -/
def Shares (p q : Program) (id : FunctionId) : Prop := ∃ G, p.Overlap q G ∧ G id

/-- Shared places are the greatest overlap. -/
theorem overlap_shares (p q : Program) : p.Overlap q (p.Shares q) where
  same := by
    rintro id ⟨G, hoverlap, hid⟩
    exact hoverlap.same hid
  closed := by
    rintro id name f ⟨G, hoverlap, hid⟩ hf
    have hwidens : Node.Widens (fun _ => Node.RefersTo G) fun _ => Node.RefersTo (p.Shares q) := by
      intro _ _ n _ hn
      cases n with
      | global | invoke => exact ⟨G, hoverlap, hn⟩
      | _ => exact trivial
    exact (hoverlap.closed hid hf).mono hwidens (List.Subset.refl _)

end Program

end Lowered

/-- The functions in the value refer to globals of the set only, in their code and in what they have
captured. -/
abbrev Value.RefersTo (G : FunctionId → Prop) (v : Value) : Prop :=
  v.Sound (fun _ => Node.RefersTo G) G

abbrev Value.AllReferTo (G : FunctionId → Prop) (vs : List Value) : Prop :=
  Value.AllSound (fun _ => Node.RefersTo G) G vs

/-- The value is a part of the other one: that value itself, a field of it, or what a function in it
has captured. -/
inductive Value.PartOf (c : Value) : Value → Prop
  | self : PartOf c c
  | field {w : Value} {fields : List Value} : w ∈ fields → PartOf c w → PartOf c (.tuple fields)
  | variant {w : Value} {tag : Nat} {fields : List Value} :
    w ∈ fields → PartOf c w → PartOf c (.adt tag fields)
  | captured {w : Value} {f : Lowered.Function} {captures : List Value} :
    w ∈ captures → PartOf c w → PartOf c (.closure f captures)

theorem Value.PartOf.sound {P : List String → Node → Prop} {G : FunctionId → Prop} {c v : Value}
    (h : c.PartOf v) (hv : v.Sound P G) : c.Sound P G := by
  induction h with
  | self => exact hv
  | field hw _ ih | variant hw _ ih => exact ih (allSound_iff.mp hv _ hw)
  | captured hw _ ih => exact ih (allSound_iff.mp hv.2.2 _ hw)

/-- Given functions that refer to globals of the set only, the kernel returns no others. -/
def Kernel.KeepsTo (G : FunctionId → Prop) (k : Kernel) : Prop :=
  ∀ ⦃args v⦄, Value.AllReferTo G args → k.call args = .ok v → v.RefersTo G

theorem Kernel.FirstOrder.keepsTo {k : Kernel} (h : k.FirstOrder) (G : FunctionId → Prop) :
    k.KeepsTo G :=
  fun _ _ _ hcall => .of_isData (h hcall).2

namespace Run

/-! ## Runs that stay in good places -/

section

variable {α β : Type} {E : RunError → Prop} {F : Frame} {M : Machine}

/-- Only the results that the first step can have matter for what comes after it. -/
theorem bind_eq_bind_of_settles {Q : α × Frame → Prop} {x x' : CallM α} {f f' : α → CallM β}
    (hx : x' F M = x F M) (hQ : Settles E Q (x F M))
    (hf : ∀ a F' M', Q (a, F') → f' a F' M' = f a F' M') : (x' >>= f') F M = (x >>= f) F M := by
  rw [bind_apply, bind_apply, hx]
  cases hr : x F M with
  | ok r M' =>
    rw [hr] at hQ
    exact hf r.1 r.2 M' hQ
  | error e M' => rfl

theorem lift_eq_lift {x x' : RunM α} (h : x' M = x M) :
    (liftM x' : CallM α) F M = (liftM x : CallM α) F M := by
  change EStateM.bind x' _ M = EStateM.bind x _ M
  rw [EStateM.bind, EStateM.bind, h]

theorem run'_eq_run' {x x' : CallM α} (h : x' F M = x F M) : x'.run' F M = x.run' F M := by
  change EStateM.map _ (x' F) M = EStateM.map _ (x F) M
  rw [EStateM.map, EStateM.map, h]

end

/-- Units with the same kernels, types and options, and with the same functions in good places. -/
structure CompiledUnit.Agrees (u u' : CompiledUnit) (G : FunctionId → Prop) : Prop where
  kernels : u'.kernels = u.kernels
  types : u'.types = u.types
  checks : u'.options.checkKernelOutputs = u.options.checkKernelOutputs
  limit : u'.options.maxCallDepth = u.options.maxCallDepth
  function : ∀ ⦃id⦄, G id → u'.program.functions[id.index]? = u.program.functions[id.index]?

variable {P : List String → Node → Prop} {G : FunctionId → Prop} {E : RunError → Prop}

/-- Calls of code with the property end alike. -/
def CallsSame (P : List String → Node → Prop) (G : FunctionId → Prop) (call call' : Call) : Prop :=
  ∀ ⦃f scope bound args⦄, f.body.Everywhere P (f.params.map Param.name ++ scope) →
    bound.Covers P G scope → Value.AllSound P G args → ∀ label M,
      call' f label bound args M = call f label bound args M

variable {u u' : CompiledUnit} {call call' : Call}

section

variable (H : u.Agrees u' G)
include H

theorem CompiledUnit.Agrees.kernel_eq (name : String) : u'.kernel name = u.kernel name := by
  rw [CompiledUnit.kernel, CompiledUnit.kernel, H.kernels]

theorem CompiledUnit.Agrees.callKernel_eq (k : Kernel) (name : String) (arity : Nat) (ty : Ty)
    (tupled : Bool) (args : List Value) :
    u'.callKernel k name arity ty tupled args = u.callKernel k name arity ty tupled args := by
  rw [CompiledUnit.callKernel, CompiledUnit.callKernel, H.types, H.checks]

theorem callGlobal_same (hu : Guards u P G E) (hsame : CallsSame P G call call') {id : FunctionId}
    (hid : G id) {args : List Value} (hargs : Value.AllSound P G args) (M : Machine) :
    u'.callGlobal call' id args M = u.callGlobal call id args M := by
  unfold CompiledUnit.callGlobal
  rw [H.function hid]
  rcases hu.function hid with ⟨name, f, hf, hbody⟩ | ⟨hnone, -⟩
  · rw [hf]
    rw [← List.append_nil (f.params.map Param.name)] at hbody
    exact hsame hbody .empty hargs name _
  · rw [hnone]

theorem applyValue_same (hu : Guards u P G E) (hsame : CallsSame P G call call') {v : Value}
    (hv : v.Sound P G) {args : List Value} (hargs : Value.AllSound P G args) (M : Machine) :
    u'.applyValue call' v args M = u.applyValue call v args M := by
  cases v with
  | global id => exact callGlobal_same H hu hsame hv hargs M
  | closure f captures => exact hsame hv.1 (boundEntries_cover hv) hargs _ _
  | tensor | tuple | adt => rfl

end

mutual

/-- A node with the property has the same value in both units. -/
theorem eval_same (H : u.Agrees u' G) (hu : Guards u P G E) (hcall : CallsGuarded P G E call)
    (hsame : CallsSame P G call call') :
    ∀ (n : Node) {scope : List String} {F : Frame}, n.Everywhere P scope → F.Covers P G scope →
      ∀ M, u'.eval call' n F M = u.eval call n F M
  | .var _, _, _, _, _, _ => rfl
  | .literal _, _, _, _, _, _ => rfl
  | .global _, _, _, _, _, _ => rfl
  | .decl bindings body, _, _, ⟨_, hbindings, hbody⟩, hF, M => by
    rw [CompiledUnit.eval, CompiledUnit.eval]
    refine bind_eq_bind_of_settles (evalBindings_same H hu hcall hsame bindings hbindings hF M)
      (evalBindings_settles hu hcall bindings hbindings hF M) fun _ F' M' hF' => ?_
    exact eval_same H hu hcall hsame body hbody hF' M'
  | .packed name arity args ty tupled, _, _, ⟨hn, hargs⟩, hF, M => by
    rw [CompiledUnit.eval, CompiledUnit.eval, H.kernel_eq]
    refine bind_eq_bind_of_settles rfl (hu.kernel hn M).lift ?_
    rintro k _ M' ⟨-, rfl⟩
    refine bind_eq_bind_of_settles (evalAll_same H hu hcall hsame args hargs hF M')
      (evalAll_settles hu hcall args hargs hF M') fun vs F' M'' _ => ?_
    rw [H.callKernel_eq]
  | .invoke target args, _, _, ⟨hn, hargs⟩, hF, M => by
    rw [CompiledUnit.eval, CompiledUnit.eval]
    refine bind_eq_bind_of_settles (evalAll_same H hu hcall hsame args hargs hF M)
      (evalAll_settles hu hcall args hargs hF M) ?_
    rintro vs F' M' ⟨⟨-, hvs⟩, -⟩
    exact lift_eq_lift (callGlobal_same H hu hsame (hu.invoke hn) hvs M')
  | .apply callee args, _, _, ⟨_, hcallee, hargs⟩, hF, M => by
    rw [CompiledUnit.eval, CompiledUnit.eval]
    refine bind_eq_bind_of_settles (eval_same H hu hcall hsame callee hcallee hF M)
      (eval_settles hu hcall callee hcallee hF M) ?_
    rintro f F' M' ⟨hf, hF'⟩
    refine bind_eq_bind_of_settles (evalAll_same H hu hcall hsame args hargs hF' M')
      (evalAll_settles hu hcall args hargs hF' M') ?_
    rintro vs F'' M'' ⟨⟨-, hvs⟩, -⟩
    exact lift_eq_lift (applyValue_same H hu hsame hf hvs M'')
  | .func .., _, _, _, _, _ => by rw [CompiledUnit.eval, CompiledUnit.eval]
  | .ite cond onTrue onFalse _, _, _, ⟨_, hcond, htrue, hfalse⟩, hF, M => by
    rw [CompiledUnit.eval, CompiledUnit.eval]
    refine bind_eq_bind_of_settles (eval_same H hu hcall hsame cond hcond hF M)
      (eval_settles hu hcall cond hcond hF M) ?_
    rintro v F' M' ⟨-, hF'⟩
    cases v.asBool? with
    | none => rfl
    | some b =>
      cases b with
      | true => exact eval_same H hu hcall hsame onTrue htrue hF' M'
      | false => exact eval_same H hu hcall hsame onFalse hfalse hF' M'
  | .tuple fields _, _, _, ⟨_, hfields⟩, hF, M => by
    rw [CompiledUnit.eval, CompiledUnit.eval]
    exact bind_eq_bind_of_settles (evalAll_same H hu hcall hsame fields hfields hF M)
      (evalAll_settles hu hcall fields hfields hF M) fun _ _ _ _ => rfl
  | .matchOn data clauses _, _, _, ⟨_, hdata, hclauses⟩, hF, M => by
    rw [CompiledUnit.eval, CompiledUnit.eval]
    refine bind_eq_bind_of_settles (eval_same H hu hcall hsame data hdata hF M)
      (eval_settles hu hcall data hdata hF M) ?_
    rintro v F' M' ⟨hv, hF'⟩
    exact evalClauses_same H hu hcall hsame clauses hclauses hv hF' M'
  | .ctor _ _ fields _, _, _, ⟨_, hfields⟩, hF, M => by
    rw [CompiledUnit.eval, CompiledUnit.eval]
    exact bind_eq_bind_of_settles (evalAll_same H hu hcall hsame fields hfields hF M)
      (evalAll_settles hu hcall fields hfields hF M) fun _ _ _ _ => rfl

theorem evalAll_same (H : u.Agrees u' G) (hu : Guards u P G E) (hcall : CallsGuarded P G E call)
    (hsame : CallsSame P G call call') :
    ∀ (ns : List Node) {scope : List String} {F : Frame}, Node.AllEverywhere P scope ns →
      F.Covers P G scope → ∀ M, u'.evalAll call' ns F M = u.evalAll call ns F M
  | [], _, _, _, _, _ => rfl
  | n :: ns, _, _, ⟨hn, hns⟩, hF, M => by
    rw [CompiledUnit.evalAll, CompiledUnit.evalAll]
    refine bind_eq_bind_of_settles (eval_same H hu hcall hsame n hn hF M)
      (eval_settles hu hcall n hn hF M) ?_
    rintro v F' M' ⟨-, hF'⟩
    exact bind_eq_bind_of_settles (evalAll_same H hu hcall hsame ns hns hF' M')
      (evalAll_settles hu hcall ns hns hF' M') fun _ _ _ _ => rfl

theorem evalBindings_same (H : u.Agrees u' G) (hu : Guards u P G E)
    (hcall : CallsGuarded P G E call) (hsame : CallsSame P G call call') :
    ∀ (bs : List (String × Node)) {scope : List String} {F : Frame},
      Node.BindingsEverywhere P scope bs → F.Covers P G scope →
        ∀ M, u'.evalBindings call' bs F M = u.evalBindings call bs F M
  | [], _, _, _, _, _ => rfl
  | (x, n) :: bs, _, _, ⟨hn, hbs⟩, hF, M => by
    rw [CompiledUnit.evalBindings, CompiledUnit.evalBindings]
    refine bind_eq_bind_of_settles (eval_same H hu hcall hsame n hn hF M)
      (eval_settles hu hcall n hn hF M) ?_
    rintro v F' M' ⟨hv, hF'⟩
    exact evalBindings_same H hu hcall hsame bs hbs (hF'.push x hv) M'

theorem evalClauses_same (H : u.Agrees u' G) (hu : Guards u P G E)
    (hcall : CallsGuarded P G E call) (hsame : CallsSame P G call call') :
    ∀ (clauses : List (Lowered.Pattern × Node)) {scope : List String} {F : Frame} {v : Value},
      Node.ClausesEverywhere P scope clauses → v.Sound P G → F.Covers P G scope →
        ∀ M, u'.evalClauses call' v clauses F M = u.evalClauses call v clauses F M
  | [], _, _, _, _, _, _, _ => rfl
  | (p, body) :: rest, _, F, v, ⟨hbody, hrest⟩, hv, hF, M => by
    rw [CompiledUnit.evalClauses_cons, CompiledUnit.evalClauses_cons]
    cases hentries : matchPattern? p v with
    | none => exact evalClauses_same H hu hcall hsame rest hrest hv hF M
    | some entries =>
      obtain ⟨hnames, hsound⟩ := matchPattern?_sound hv hentries
      have hF' := hF.extend hsound
      rw [hnames] at hF'
      exact eval_same H hu hcall hsame body hbody hF' M

end

/-- Calls with the same room end alike, however many of them may be open. -/
theorem callWithin_same (H : u.Agrees u' G) (hu : Guards u P G E) (room : Nat) :
    CallsSame P G (u.callWithin room) (u'.callWithin room) := by
  induction room with
  | zero =>
    intro f scope bound args _ _ _ label M
    rw [CompiledUnit.callWithin, CompiledUnit.callWithin, H.limit]
  | succ room ih =>
    intro f scope bound args hbody hbound hargs label M
    rw [CompiledUnit.callWithin, CompiledUnit.callWithin]
    split
    · next hlen =>
      have hframe := hbound.extend (zip_sound (f.params.map Param.name) hargs)
      rw [List.map_fst_zip (by simp [hlen])] at hframe
      have hbodies := fun M => run'_eq_run'
        (eval_same H hu (callWithin_guarded hu room) ih f.body hbody hframe M)
      rw [funext hbodies]
    · rfl

/-- Machines with the same calls open make calls alike. -/
theorem machineCall_same (H : u.Agrees u' G) (hu : Guards u P G E) :
    CallsSame P G u.machineCall u'.machineCall := by
  intro f scope bound args hbody hbound hargs label M
  rw [CompiledUnit.machineCall, CompiledUnit.machineCall, H.limit]
  exact callWithin_same H hu _ hbody hbound hargs label M

/-! ## Applications in another unit -/

/-- Code that refers to shared places stays in them. -/
theorem guards_shares {u : CompiledUnit} {q : Program}
    (hkeep : ∀ name k, u.kernels.get? name = some k → k.KeepsTo (u.program.Shares q)) :
    Guards u (fun _ => Node.RefersTo (u.program.Shares q)) (u.program.Shares q) fun _ => True where
  values _ _ := trivial
  var _ _ _ := .inr trivial
  capture _ _ _ _ _ _ _ _ _ := .inr trivial
  global _ _ hn := hn
  invoke _ _ _ hn := hn
  function id hid := by
    cases hf : u.program.functions[id.index]? with
    | none => exact .inr ⟨rfl, trivial⟩
    | some function =>
      have hclosed := (u.program.overlap_shares q).closed hid hf
      exact .inl ⟨function.1, function.2, rfl, hclosed.inScope _⟩
  kernel _ name _ _ ty _ _ M := by
    rw [CompiledUnit.kernel]
    cases hk : u.kernels.get? name with
    | none => exact trivial
    | some k =>
      intro vs _ hvs M'
      exact callKernel_settles (fun _ _ => trivial) hvs (fun _ _ _ _ => trivial) (hkeep name k hk)
        ty M'

/-- The places of globals that both units share. -/
abbrev CompiledUnit.Shared (A B : CompiledUnit) : FunctionId → Prop := A.program.Shares B.program

/-- Function values keep their meaning in another unit as far as both units share the globals that they
lead to. If the units have the same kernels, types and options, and kernels keep to functions that
refer to shared globals, then to apply such a function to values with such functions, with the same
calls open, has exactly the same outcome in both units. And where a shared function has been invoked
on such values, the functions in its result are of this kind. -/
theorem shared_functions_keep_meaning {A B : CompiledUnit} (hkernels : B.kernels = A.kernels)
    (htypes : B.types = A.types)
    (hchecks : B.options.checkKernelOutputs = A.options.checkKernelOutputs)
    (hlimit : B.options.maxCallDepth = A.options.maxCallDepth)
    (hkeep : ∀ name k, A.kernels.get? name = some k → k.KeepsTo (A.Shared B)) :
    (∀ (c : Value) (args : List Value), c.RefersTo (A.Shared B) →
      Value.AllReferTo (A.Shared B) args → ∀ M,
        B.applyValue B.machineCall c args M = A.applyValue A.machineCall c args M) ∧
    ∀ (id : FunctionId) (args : List Value) (v c : Value) (M M' : Machine), A.Shared B id →
      Value.AllReferTo (A.Shared B) args → A.run id args M = .ok v M' → c.PartOf v →
        c.RefersTo (A.Shared B) := by
  have hguards := guards_shares hkeep
  have hagrees : A.Agrees B (A.Shared B) :=
    ⟨hkernels, htypes, hchecks, hlimit, (A.program.overlap_shares B.program).same⟩
  constructor
  · intro c args hc hargs M
    exact applyValue_same hagrees hguards (machineCall_same hagrees hguards) hc hargs M
  · intro id args v c M M' hid hargs hrun hpart
    have hv := run_settles hguards hid hargs M
    rw [hrun] at hv
    exact hpart.sound hv

/-! ## A closure over a shared global -/

/-- `fn (x) { x }` -/
def keepCode : Lowered.Function := ⟨none, [⟨"x_0", .scalar .bool⟩], [], .var "x_0", .scalar .bool⟩

/-- `fn () { keep(x) }`, with `x` captured. -/
def lateCode : Lowered.Function :=
  ⟨none, [], [⟨"x_0", .scalar .bool⟩], .invoke ⟨⟨1⟩, "keep"⟩ [.var "x_0"], .scalar .bool⟩

/-- `fn (x) { fn () { keep(x) } }` -/
def makeCode : Lowered.Function :=
  ⟨none, [⟨"x_0", .scalar .bool⟩], [], lateCode.toNode, lateCode.fnType⟩

/-- Has `make`, which returns a function that calls `keep` later. -/
def lateUnit : CompiledUnit where
  program := ⟨[("make", makeCode), ("keep", keepCode), ("spare", keepCode)]⟩
  kernels := .builtin
  types := []

/-- Has `use`, which calls what it is given, and `make` and `keep` in the same places. -/
def useUnit : CompiledUnit where
  program := ⟨[("make", makeCode), ("keep", keepCode),
    ("use", ⟨none, [⟨"h_0", lateCode.fnType⟩], [], .apply (.var "h_0") [], .scalar .bool⟩)]⟩
  kernels := .builtin
  types := []

theorem make_shared : lateUnit.Shared useUnit ⟨0⟩ := by
  refine ⟨fun id => id = ⟨0⟩ ∨ id = ⟨1⟩, ⟨?_, ?_⟩, .inl rfl⟩
  · rintro id (rfl | rfl)
    · rfl
    · rfl
  · rintro id name f (rfl | rfl) hf
    · cases hf
      exact ⟨trivial, .inr rfl, trivial, trivial⟩
    · cases hf
      exact trivial

/-- What `make` returns leads to shared globals only, and calls `keep` in the other unit as well. -/
theorem late_call_keeps_meaning :
    ∃ c M, lateUnit.invoke "make" [.tensor (.scalarBool true)] {} = .ok c M ∧
      c = .closure lateCode [.tensor (.scalarBool true)] ∧
      c.RefersTo (lateUnit.Shared useUnit) ∧
      ∀ M', useUnit.applyValue useUnit.machineCall c [] M' =
        lateUnit.applyValue lateUnit.machineCall c [] M' := by
  have hkeep : ∀ name k, lateUnit.kernels.get? name = some k →
      k.KeepsTo (lateUnit.Shared useUnit) :=
    fun name k hk => (KernelRegistry.builtin_firstOrder hk).keepsTo _
  obtain ⟨happly, hresult⟩ :=
    shared_functions_keep_meaning (A := lateUnit) (B := useUnit) rfl rfl rfl rfl hkeep
  have hrefers : (Value.closure lateCode [.tensor (.scalarBool true)]).RefersTo
      (lateUnit.Shared useUnit) :=
    hresult ⟨0⟩ [.tensor (.scalarBool true)] _ _ {} _ make_shared ⟨trivial, trivial⟩ rfl .self
  exact ⟨_, _, rfl, rfl, hrefers, fun M' => happly _ [] hrefers trivial M'⟩

end Run

/-! ## A global in the place of another one -/

open Lowering Run

/-- `fn (x) { x }` -/
def keepBit : Source.Function where
  params := [⟨0, "x", .scalar .bool⟩]
  body := .var ⟨0, "x", .scalar .bool⟩
  ret := .scalar .bool

/-- `fn (y) { false }` -/
def dropBit : Source.Function where
  params := [⟨1, "y", .scalar .bool⟩]
  body := .const (.scalarBool false)
  ret := .scalar .bool

def bitSetting : Setting := ⟨⟨[("keep", keepBit), ("drop", dropBit)], []⟩, .builtin, {}⟩

/-- `fn () { keep }` -/
def lendKeep : Source.Function where
  params := []
  body := .global "keep"
  ret := keepBit.fnType

/-- `fn (h) { (h(true), drop(true)) }` -/
def borrow : Source.Function where
  params := [⟨2, "h", keepBit.fnType⟩]
  body := .tupleOf [.apply (.var ⟨2, "h", keepBit.fnType⟩) [.const (.scalarBool true)],
    .callGlobal "drop" [.const (.scalarBool true)]]
  ret := .tuple [.scalar .bool, .scalar .bool]

/-- The compiled program as a unit. -/
def bitUnit (p : Program) : CompiledUnit := ⟨p, bitSetting.kernels, bitSetting.module.types, {}⟩

/-- What the lent function makes of `true` in its own unit, and where it has been lent to. -/
def lentBits : Option (Bool × Bool) :=
  match bitSetting.compile lendKeep {}, bitSetting.compile borrow {} with
  | .ok (entry, p) _, .ok (entry', q) _ =>
    match (bitUnit p).run entry [] {} with
    | .ok c _ =>
      match (bitUnit p).applyValue (bitUnit p).machineCall c [.tensor (.scalarBool true)] {},
        (bitUnit q).run entry' [c] {} with
      | .ok v _, .ok (.tuple [w, _]) _ => v.asBool?.bind fun b => w.asBool?.map fun b' => (b, b')
      | _, _ => none
    | .error .. => none
  | _, _ => none

/-- A global that one unit lends to another is not what is called there: `keep` has the place that
`drop` has in the other unit, which accepts it and calls its own function. -/
theorem lent_global_misread : ∃ entry p g entry' q g' c M v M₁ w x M₂,
    bitSetting.compile lendKeep {} = .ok (entry, p) g ∧
    bitSetting.compile borrow {} = .ok (entry', q) g' ∧
    (bitUnit p).run entry [] {} = .ok c M ∧
    (bitUnit p).applyValue (bitUnit p).machineCall c [.tensor (.scalarBool true)] {} = .ok v M₁ ∧
    (bitUnit q).run entry' [c] {} = .ok (.tuple [w, x]) M₂ ∧
    v.asBool? = some true ∧ w.asBool? = some false := by
  have hbits : lentBits = some (true, false) := by decide +kernel
  unfold lentBits at hbits
  split at hbits
  · next entry p g entry' q g' hlend hborrow =>
    split at hbits
    · next c M hc =>
      split at hbits
      · next v M₁ w x M₂ hv hw =>
        obtain ⟨b, hb, hbits⟩ := Option.bind_eq_some_iff.mp hbits
        obtain ⟨b', hb', hpair⟩ := Option.map_eq_some_iff.mp hbits
        cases hpair
        exact ⟨_, _, _, _, _, _, _, _, _, _, _, _, _, hlend, hborrow, hc, hv, hw, hb, hb'⟩
      · cases hbits
    · cases hbits
  · cases hbits

end TensorIR
