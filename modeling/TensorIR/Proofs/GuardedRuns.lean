import TensorIR.Proofs.DataValues
import TensorIR.Proofs.EveryNode
import TensorIR.Proofs.Frames
import TensorIR.Proofs.RunOutcomes

/-! Runs of code that has a property everywhere.

If every node of a program has a property that makes the step at the node harmless, then no run does
harm. What carries this through a run is that all function values at hand are code with the property
again (`Value.Sound`), and that a frame has a value for every name in scope (`Frame.Covers`). -/

namespace TensorIR

open Source Lowered Matching

mutual

/-- All functions in the value are good: the code of the local ones has the property everywhere, with
as many values as captures, and the global ones are in good places. -/
def Value.Sound (P : List String → Node → Prop) (G : FunctionId → Prop) : Value → Prop
  | .tensor _ => True
  | .tuple fields => Value.AllSound P G fields
  | .adt _ fields => Value.AllSound P G fields
  | .global id => G id
  | .closure f captures =>
    f.body.Everywhere P f.scope ∧ captures.length = f.captures.length ∧
      Value.AllSound P G captures

def Value.AllSound (P : List String → Node → Prop) (G : FunctionId → Prop) : List Value → Prop
  | [] => True
  | v :: vs => v.Sound P G ∧ Value.AllSound P G vs

end

namespace Value

variable {P : List String → Node → Prop} {G : FunctionId → Prop}

theorem allSound_iff {vs : List Value} : AllSound P G vs ↔ ∀ v ∈ vs, v.Sound P G := by
  induction vs with
  | nil => simp [AllSound]
  | cons v vs ih => simp [AllSound, ih]

mutual

theorem Sound.of_isData : ∀ {v : Value}, v.isData = true → v.Sound P G
  | .tensor _, _ => trivial
  | .tuple _, h => AllSound.of_allData h
  | .adt _ _, h => AllSound.of_allData h

theorem AllSound.of_allData : ∀ {vs : List Value}, allData vs = true → AllSound P G vs
  | [], _ => trivial
  | v :: vs, h => by
    rw [allData, Bool.and_eq_true] at h
    exact ⟨Sound.of_isData h.1, AllSound.of_allData h.2⟩

end

end Value

namespace Matching

variable {P : List String → Node → Prop} {G : FunctionId → Prop}

mutual

theorem matchPattern?_names : ∀ {p : Lowered.Pattern} {v : Value} {entries : List (String × Value)},
    matchPattern? p v = some entries → entries.map Prod.fst = p.boundNames
  | .wildcard, _, _, h => by
    cases h
    rfl
  | .bind _, _, _, h => by
    cases h
    rfl
  | .ctor tag _ ps, .adt t vs, _, h => by
    rw [matchPattern?] at h
    split at h
    · exact matchPatterns?_names h
    · cases h
  | .tuple ps, .tuple vs, _, h => matchPatterns?_names h

theorem matchPatterns?_names : ∀ {ps : List Lowered.Pattern} {vs : List Value}
    {entries : List (String × Value)}, matchPatterns? ps vs = some entries →
      entries.map Prod.fst = Lowered.Pattern.boundNamesList ps
  | [], [], _, h => by
    cases h
    rfl
  | p :: ps, v :: vs, _, h => by
    simp only [matchPatterns?, Option.bind_eq_bind, Option.bind_eq_some_iff, Option.pure_def,
      Option.some.injEq] at h
    obtain ⟨xs, hxs, ys, hys, rfl⟩ := h
    rw [List.map_append, matchPattern?_names hxs, matchPatterns?_names hys,
      Lowered.Pattern.boundNamesList]

end

mutual

theorem matchPattern?_parts_sound : ∀ {p : Lowered.Pattern} {v : Value}
    {entries : List (String × Value)}, v.Sound P G → matchPattern? p v = some entries →
      ∀ e ∈ entries, e.2.Sound P G
  | .wildcard, _, _, _, h => by
    cases h
    exact List.forall_mem_nil _
  | .bind _, _, _, hv, h => by
    cases h
    exact List.forall_mem_singleton.mpr hv
  | .ctor tag _ ps, .adt t vs, _, hv, h => by
    rw [matchPattern?] at h
    split at h
    · exact matchPatterns?_parts_sound hv h
    · cases h
  | .tuple ps, .tuple vs, _, hv, h => matchPatterns?_parts_sound hv h

theorem matchPatterns?_parts_sound : ∀ {ps : List Lowered.Pattern} {vs : List Value}
    {entries : List (String × Value)}, Value.AllSound P G vs → matchPatterns? ps vs = some entries →
      ∀ e ∈ entries, e.2.Sound P G
  | [], [], _, _, h => by
    cases h
    exact List.forall_mem_nil _
  | p :: ps, v :: vs, _, hv, h => by
    simp only [matchPatterns?, Option.bind_eq_bind, Option.bind_eq_some_iff, Option.pure_def,
      Option.some.injEq] at h
    obtain ⟨xs, hxs, ys, hys, rfl⟩ := h
    exact List.forall_mem_append.mpr
      ⟨matchPattern?_parts_sound hv.1 hxs, matchPatterns?_parts_sound hv.2 hys⟩

end

/-- A pattern gives values to exactly its names, and they are parts of the value. -/
theorem matchPattern?_sound {p : Lowered.Pattern} {v : Value} {entries : List (String × Value)}
    (hv : v.Sound P G) (h : matchPattern? p v = some entries) :
    entries.map Prod.fst = p.boundNames ∧ ∀ e ∈ entries, e.2.Sound P G :=
  ⟨matchPattern?_names h, matchPattern?_parts_sound hv h⟩

end Matching

namespace Run

variable {P : List String → Node → Prop} {G : FunctionId → Prop} {E : RunError → Prop}

/-! ## Frames -/

/-- All names in scope have a value, and all values are sound. -/
structure Frame.Covers (P : List String → Node → Prop) (G : FunctionId → Prop)
    (scope : List String) (F : Frame) : Prop where
  bound : ∀ x ∈ scope, ∃ v, F.lookup x = some v
  sound : ∀ e ∈ F, e.2.Sound P G

namespace Frame.Covers

variable {scope scope' : List String} {F : Frame}

theorem mono (h : F.Covers P G scope) (hsub : scope' ⊆ scope) : F.Covers P G scope' :=
  ⟨fun x hx => h.bound x (hsub hx), h.sound⟩

theorem lookup_sound (h : F.Covers P G scope) {x : String} {v : Value}
    (hx : F.lookup x = some v) : v.Sound P G := by
  obtain ⟨before, after, rfl, -⟩ := List.lookup_eq_some_iff.mp hx
  exact h.sound (x, v) (by simp)

theorem extend (h : F.Covers P G scope) {entries : List (String × Value)}
    (hentries : ∀ e ∈ entries, e.2.Sound P G) :
    (F.extend entries).Covers P G (entries.map Prod.fst ++ scope) where
  bound x hx := by
    by_cases hmem : x ∈ entries.map Prod.fst
    · obtain ⟨v, -, hv⟩ : ∃ v, (x, v) ∈ entries ∧ (F.extend entries).lookup x = some v :=
        exists_lookup_extend hmem
      exact ⟨v, hv⟩
    · obtain ⟨v, hv⟩ := h.bound x ((List.mem_append.mp hx).resolve_left hmem)
      exact ⟨v, (lookup_extend_of_notMem hmem).trans hv⟩
  sound e he := by
    rcases List.mem_append.mp he with he | he
    · exact hentries e (List.mem_reverse.mp he)
    · exact h.sound e he

theorem push (h : F.Covers P G scope) (x : String) {v : Value} (hv : v.Sound P G) :
    Frame.Covers P G (x :: scope) ((x, v) :: F) := by
  have hentry : ∀ e ∈ [(x, v)], e.2.Sound P G := by
    intro e he
    cases List.mem_singleton.mp he
    exact hv
  exact h.extend hentry

theorem empty : Frame.Covers P G [] [] := ⟨nofun, nofun⟩

end Frame.Covers

theorem zip_sound (names : List String) {vs : List Value} (h : Value.AllSound P G vs) :
    ∀ e ∈ names.zip vs, e.2.Sound P G :=
  fun _ he => Value.allSound_iff.mp h _ (List.of_mem_zip he).2

/-! ## Harmless steps -/

/-- A failure that has to do with the values of a run, and not with what its code refers to. -/
def RunError.OfValues : RunError → Prop
  | .arityMismatch .. | .typeMismatch .. | .nonExhaustiveMatch _ | .depthExceeded _ => True
  | _ => False

/-- The property makes every step of the unit harmless: a step fails in the given way only, names are
found, and references lead to good places. -/
structure Guards (u : CompiledUnit) (P : List String → Node → Prop) (G : FunctionId → Prop)
    (E : RunError → Prop) : Prop where
  values : ∀ e : RunError, e.OfValues → E e
  var : ∀ ⦃scope x⦄, P scope (.var x) → x ∈ scope ∨ E (.unboundVariable x)
  capture : ∀ ⦃scope name params captures body ret⦄, P scope (.func name params captures body ret) →
    ∀ c ∈ captures, c.name ∈ scope ∨ E (.unboundVariable c.name)
  global : ∀ ⦃scope target⦄, P scope (.global target) → G target.id
  invoke : ∀ ⦃scope target args⦄, P scope (.invoke target args) → G target.id
  function : ∀ ⦃id⦄, G id →
    (∃ name f, u.program.functions[id.index]? = some (name, f) ∧
      f.body.Everywhere P (f.params.map Param.name)) ∨
    u.program.functions[id.index]? = none ∧ E (.unknownFunction id.text)
  kernel : ∀ ⦃scope name arity args ty tupled⦄, P scope (.packed name arity args ty tupled) →
    ∀ M, Settles E (fun k => ∀ vs, vs.length = args.length → Value.AllSound P G vs →
      ∀ M', Settles E (Value.Sound P G) (u.callKernel k name arity ty tupled vs M'))
      (u.kernel name M)

/-- Calls of code with the property do no harm. -/
def CallsGuarded (P : List String → Node → Prop) (G : FunctionId → Prop) (E : RunError → Prop)
    (call : Call) : Prop :=
  ∀ ⦃f scope bound args⦄, f.body.Everywhere P (f.params.map Param.name ++ scope) →
    bound.Covers P G scope → Value.AllSound P G args → ∀ label M,
      Settles E (Value.Sound P G) (call f label bound args M)

variable {u : CompiledUnit} {call : Call} {scope : List String} {F : Frame}

theorem lookup_settles {x : String} (hF : F.Covers P G scope)
    (hx : x ∈ scope ∨ E (.unboundVariable x)) (M : Machine) :
    Settles E (fun r => r.1.Sound P G ∧ r.2 = F) (lookup x F M) := by
  cases hv : F.lookup x with
  | some v =>
    rw [lookup_of_eq_some hv]
    exact ⟨hF.lookup_sound hv, rfl⟩
  | none =>
    rw [lookup_of_eq_none hv]
    refine hx.resolve_left fun hmem => ?_
    obtain ⟨v, hv'⟩ := hF.bound x hmem
    cases hv.symm.trans hv'

theorem captureAll_settles {captures : List Param} (hF : F.Covers P G scope)
    (h : ∀ c ∈ captures, c.name ∈ scope ∨ E (.unboundVariable c.name)) (M : Machine) :
    Settles E (fun r => (r.1.length = captures.length ∧ Value.AllSound P G r.1) ∧ r.2 = F)
      (CompiledUnit.captureAll captures F M) := by
  induction captures generalizing M with
  | nil => exact ⟨⟨rfl, trivial⟩, rfl⟩
  | cons c captures ih =>
    rw [List.forall_mem_cons] at h
    rw [CompiledUnit.captureAll]
    refine (lookup_settles hF h.1 M).bind (fun _ he => he) ?_
    rintro v _ M' ⟨hv, rfl⟩
    refine (ih h.2 M').bind (fun _ he => he) ?_
    rintro vs _ M'' ⟨⟨hlen, hvs⟩, rfl⟩
    exact ⟨⟨congrArg Nat.succ hlen, hv, hvs⟩, rfl⟩

theorem callGlobal_settles (hu : Guards u P G E) (hcall : CallsGuarded P G E call)
    {id : FunctionId} (hid : G id) {args : List Value} (hargs : Value.AllSound P G args)
    (M : Machine) : Settles E (Value.Sound P G) (u.callGlobal call id args M) := by
  unfold CompiledUnit.callGlobal
  rcases hu.function hid with ⟨name, f, hf, hbody⟩ | ⟨hnone, hE⟩
  · rw [hf]
    rw [← List.append_nil (f.params.map Param.name)] at hbody
    exact hcall hbody .empty hargs name _
  · rw [hnone]
    exact hE

/-- A local function starts with a frame of sound values, itself among them. -/
theorem boundEntries_sound {f : Lowered.Function} {captures : List Value}
    (h : (Value.closure f captures).Sound P G) :
    ∀ e ∈ (f.name.toList.map fun name => (name, Value.closure f captures)) ++
      (f.captures.map Param.name).zip captures, e.2.Sound P G := by
  intro e he
  rcases List.mem_append.mp he with he | he
  · obtain ⟨_, -, rfl⟩ := List.mem_map.mp he
    exact h
  · exact zip_sound _ h.2.2 e he

/-- The frame that a local function starts with has all that its body sees besides its parameters. -/
theorem boundEntries_cover {f : Lowered.Function} {captures : List Value}
    (h : (Value.closure f captures).Sound P G) :
    (Frame.extend [] ((f.name.toList.map fun name => (name, Value.closure f captures)) ++
      (f.captures.map Param.name).zip captures)).Covers P G
        (f.name.toList ++ f.captures.map Param.name) := by
  have hlen : captures.length = f.captures.length := h.2.1
  have hcovers := (Frame.Covers.empty (P := P) (G := G)).extend (boundEntries_sound h)
  rw [List.append_nil, List.map_append, List.map_map, List.map_fst_zip (by simp [hlen]),
    show Prod.fst ∘ (fun name => (name, Value.closure f captures)) = id from rfl,
    List.map_id] at hcovers
  exact hcovers

theorem applyValue_settles (hu : Guards u P G E) (hcall : CallsGuarded P G E call) {v : Value}
    (hv : v.Sound P G) {args : List Value} (hargs : Value.AllSound P G args) (M : Machine) :
    Settles E (Value.Sound P G) (u.applyValue call v args M) := by
  cases v with
  | global id => exact callGlobal_settles hu hcall hv hargs M
  | closure f captures => exact hcall hv.1 (boundEntries_cover hv) hargs _ _
  | tensor | tuple | adt => exact hu.values _ trivial

/-! ## Kernels -/

/-- A kernel gets its arguments as they are, or the fields of the one tuple. -/
theorem kernelArgs_settles (hE : ∀ e : RunError, e.OfValues → E e) {name : String} {arity : Nat}
    {tupled : Bool} {vs : List Value} (hvs : Value.AllSound P G vs) (M : Machine) :
    Settles E (fun args => Value.AllSound P G args ∧ (tupled = false → args = vs))
      (CompiledUnit.kernelArgs name arity tupled vs M) := by
  unfold CompiledUnit.kernelArgs
  cases tupled with
  | false => exact ⟨hvs, fun _ => rfl⟩
  | true =>
    simp only [if_true]
    cases hlast : vs.getLast? with
    | none => exact hE _ trivial
    | some v =>
      cases v with
      | tuple fields =>
        dsimp only
        split
        · have hmem : Value.tuple fields ∈ vs := List.mem_of_getLast? hlast
          exact ⟨Value.allSound_iff.mp hvs _ hmem, nofun⟩
        · exact hE _ trivial
      | _ => exact hE _ trivial

/-- A kernel call returns what the kernel returns, or fails with a value that does not fit or as the
kernel does. -/
theorem callKernel_settles (hE : ∀ e : RunError, e.OfValues → E e) {k : Kernel} {name : String}
    {arity : Nat} {tupled : Bool} {vs : List Value} (hvs : Value.AllSound P G vs)
    (hrefuse : ∀ args cause, (tupled = false → args = vs) → k.call args = .error cause →
      E (.kernel name cause))
    (hreturn : ∀ args v, Value.AllSound P G args → k.call args = .ok v → v.Sound P G) (ty : Ty)
    (M : Machine) :
    Settles E (Value.Sound P G) (u.callKernel k name arity ty tupled vs M) := by
  unfold CompiledUnit.callKernel
  refine (kernelArgs_settles hE hvs M).shared_bind (fun _ he => he) ?_
  intro args M₁ hargs
  refine Settles.shared_bind (E := E) (Q := fun _ => True) trivial (fun _ he => he) ?_
  intro _ M₂ _
  cases hcheck : k.checkArity args with
  | error cause => exact hrefuse args cause hargs.2 (by rw [Kernel.call, hcheck]; rfl)
  | ok =>
    refine Settles.shared_bind (E := E) (Q := fun _ => True) trivial (fun _ he => he) ?_
    intro _ M₃ _
    cases hbody : k.body args with
    | error cause =>
      exact hrefuse args cause hargs.2 (by rw [Kernel.call, hcheck]; exact hbody)
    | ok v =>
      have hv := hreturn args v hargs.1 (by rw [Kernel.call, hcheck]; exact hbody)
      dsimp only
      split
      · exact hE _ trivial
      · exact hv

/-! ## Nodes -/

mutual

/-- A node with the property evaluates to a sound value or fails in the given way, and the names in
scope keep their values. -/
theorem eval_settles (hu : Guards u P G E) (hcall : CallsGuarded P G E call) :
    ∀ (n : Node) {scope : List String} {F : Frame}, n.Everywhere P scope → F.Covers P G scope →
      ∀ M, Settles E (fun r => r.1.Sound P G ∧ r.2.Covers P G scope) (u.eval call n F M)
  | .var x, _, _, hn, hF, M => by
    refine (lookup_settles hF (hu.var hn) M).imp (fun _ he => he) ?_
    rintro ⟨v, _⟩ ⟨hv, rfl⟩
    exact ⟨hv, hF⟩
  | .literal _, _, _, _, hF, _ => ⟨trivial, hF⟩
  | .global _, _, _, hn, hF, _ => ⟨hu.global hn, hF⟩
  | .decl bindings body, _, _, ⟨_, hbindings, hbody⟩, hF, M => by
    rw [CompiledUnit.eval]
    refine (evalBindings_settles hu hcall bindings hbindings hF M).bind (fun _ he => he) ?_
    rintro _ F' M' hF'
    refine (eval_settles hu hcall body hbody hF' M').imp (fun _ he => he) ?_
    rintro r ⟨hv, hr⟩
    exact ⟨hv, hr.mono (List.subset_append_right _ _)⟩
  | .packed name arity args ty tupled, _, _, ⟨hn, hargs⟩, hF, M => by
    rw [CompiledUnit.eval]
    refine (hu.kernel hn M).lift.bind (fun _ he => he) ?_
    rintro k _ M' ⟨hk, rfl⟩
    refine (evalAll_settles hu hcall args hargs hF M').bind (fun _ he => he) ?_
    rintro vs F' M'' ⟨⟨hlen, hvs⟩, hF'⟩
    refine (hk vs hlen hvs M'').lift.imp (fun _ he => he) ?_
    rintro ⟨v, _⟩ ⟨hv, rfl⟩
    exact ⟨hv, hF'⟩
  | .invoke target args, _, _, ⟨hn, hargs⟩, hF, M => by
    rw [CompiledUnit.eval]
    refine (evalAll_settles hu hcall args hargs hF M).bind (fun _ he => he) ?_
    rintro vs F' M' ⟨⟨-, hvs⟩, hF'⟩
    refine (callGlobal_settles hu hcall (hu.invoke hn) hvs M').lift.imp (fun _ he => he) ?_
    rintro ⟨v, _⟩ ⟨hv, rfl⟩
    exact ⟨hv, hF'⟩
  | .apply callee args, _, _, ⟨_, hcallee, hargs⟩, hF, M => by
    rw [CompiledUnit.eval]
    refine (eval_settles hu hcall callee hcallee hF M).bind (fun _ he => he) ?_
    rintro f F' M' ⟨hf, hF'⟩
    refine (evalAll_settles hu hcall args hargs hF' M').bind (fun _ he => he) ?_
    rintro vs F'' M'' ⟨⟨-, hvs⟩, hF''⟩
    refine (applyValue_settles hu hcall hf hvs M'').lift.imp (fun _ he => he) ?_
    rintro ⟨v, _⟩ ⟨hv, rfl⟩
    exact ⟨hv, hF''⟩
  | .func name params captures body ret, _, _, ⟨hn, hbody⟩, hF, M => by
    rw [CompiledUnit.eval]
    refine (captureAll_settles hF (hu.capture hn) M).bind (fun _ he => he) ?_
    rintro vs _ M' ⟨⟨hlen, hvs⟩, rfl⟩
    exact ⟨⟨hbody, hlen, hvs⟩, hF⟩
  | .ite cond onTrue onFalse _, _, _, ⟨_, hcond, htrue, hfalse⟩, hF, M => by
    rw [CompiledUnit.eval]
    refine (eval_settles hu hcall cond hcond hF M).bind (fun _ he => he) ?_
    rintro v F' M' ⟨-, hF'⟩
    cases v.asBool? with
    | none => exact hu.values _ trivial
    | some b =>
      cases b with
      | true => exact eval_settles hu hcall onTrue htrue hF' M'
      | false => exact eval_settles hu hcall onFalse hfalse hF' M'
  | .tuple fields _, _, _, ⟨_, hfields⟩, hF, M => by
    rw [CompiledUnit.eval]
    refine (evalAll_settles hu hcall fields hfields hF M).bind (fun _ he => he) ?_
    rintro vs F' M' ⟨⟨-, hvs⟩, hF'⟩
    exact ⟨hvs, hF'⟩
  | .matchOn data clauses _, _, _, ⟨_, hdata, hclauses⟩, hF, M => by
    rw [CompiledUnit.eval]
    refine (eval_settles hu hcall data hdata hF M).bind (fun _ he => he) ?_
    rintro v F' M' ⟨hv, hF'⟩
    exact evalClauses_settles hu hcall clauses hclauses hv hF' M'
  | .ctor tag _ fields _, _, _, ⟨_, hfields⟩, hF, M => by
    rw [CompiledUnit.eval]
    refine (evalAll_settles hu hcall fields hfields hF M).bind (fun _ he => he) ?_
    rintro vs F' M' ⟨⟨-, hvs⟩, hF'⟩
    exact ⟨hvs, hF'⟩

theorem evalAll_settles (hu : Guards u P G E) (hcall : CallsGuarded P G E call) :
    ∀ (ns : List Node) {scope : List String} {F : Frame}, Node.AllEverywhere P scope ns →
      F.Covers P G scope → ∀ M,
        Settles E (fun r => (r.1.length = ns.length ∧ Value.AllSound P G r.1) ∧
          r.2.Covers P G scope) (u.evalAll call ns F M)
  | [], _, _, _, hF, _ => ⟨⟨rfl, trivial⟩, hF⟩
  | n :: ns, _, _, ⟨hn, hns⟩, hF, M => by
    rw [CompiledUnit.evalAll]
    refine (eval_settles hu hcall n hn hF M).bind (fun _ he => he) ?_
    rintro v F' M' ⟨hv, hF'⟩
    refine (evalAll_settles hu hcall ns hns hF' M').bind (fun _ he => he) ?_
    rintro vs F'' M'' ⟨⟨hlen, hvs⟩, hF''⟩
    exact ⟨⟨congrArg Nat.succ hlen, hv, hvs⟩, hF''⟩

theorem evalBindings_settles (hu : Guards u P G E) (hcall : CallsGuarded P G E call) :
    ∀ (bs : List (String × Node)) {scope : List String} {F : Frame},
      Node.BindingsEverywhere P scope bs → F.Covers P G scope → ∀ M,
        Settles E (fun r => r.2.Covers P G ((bs.map Prod.fst).reverse ++ scope))
          (u.evalBindings call bs F M)
  | [], _, _, _, hF, _ => hF
  | (x, n) :: bs, _, _, ⟨hn, hbs⟩, hF, M => by
    rw [CompiledUnit.evalBindings]
    refine (eval_settles hu hcall n hn hF M).bind (fun _ he => he) ?_
    rintro v F' M' ⟨hv, hF'⟩
    refine (evalBindings_settles hu hcall bs hbs (hF'.push x hv) M').imp (fun _ he => he) ?_
    intro r hr
    simpa using hr

theorem evalClauses_settles (hu : Guards u P G E) (hcall : CallsGuarded P G E call) :
    ∀ (clauses : List (Lowered.Pattern × Node)) {scope : List String} {F : Frame} {v : Value},
      Node.ClausesEverywhere P scope clauses → v.Sound P G → F.Covers P G scope → ∀ M,
        Settles E (fun r => r.1.Sound P G ∧ r.2.Covers P G scope) (u.evalClauses call v clauses F M)
  | [], _, _, _, _, _, _, _ => hu.values _ trivial
  | (p, body) :: rest, _, F, v, ⟨hbody, hrest⟩, hv, hF, M => by
    rw [CompiledUnit.evalClauses_cons]
    cases hentries : matchPattern? p v with
    | none => exact evalClauses_settles hu hcall rest hrest hv hF M
    | some entries =>
      obtain ⟨hnames, hsound⟩ := matchPattern?_sound hv hentries
      have hF' := hF.extend hsound
      rw [hnames] at hF'
      refine (eval_settles hu hcall body hbody hF' M).imp (fun _ he => he) ?_
      rintro r ⟨hw, hr⟩
      exact ⟨hw, hr.mono (List.subset_append_right _ _)⟩

end

/-! ## Calls and runs -/

/-- Calls do no harm, however many of them may be open. -/
theorem callWithin_guarded (hu : Guards u P G E) (room : Nat) :
    CallsGuarded P G E (u.callWithin room) := by
  induction room with
  | zero =>
    intro f scope bound args _ _ _ label M
    rw [CompiledUnit.callWithin]
    split <;> exact hu.values _ trivial
  | succ room ih =>
    intro f scope bound args hbody hbound hargs label M
    rw [CompiledUnit.callWithin]
    split
    · next hlen =>
      have hframe := hbound.extend (zip_sound (f.params.map Param.name) hargs)
      rw [List.map_fst_zip (by simp [hlen])] at hframe
      refine Settles.opened (fun M' => Settles.run' ?_) M
      exact (eval_settles hu ih f.body hbody hframe M').imp (fun _ he => he) fun _ hr => hr.1
    · exact hu.values _ trivial

theorem checkArgs_settles_values (hE : ∀ e : RunError, e.OfValues → E e) (types : TypeTable)
    (ps : List Param) (vs : List Value) (M : Machine) :
    Settles E (fun _ => True) (CompiledUnit.checkArgs types ps vs M) := by
  induction ps generalizing vs with
  | nil => exact trivial
  | cons p ps ih =>
    cases vs with
    | nil => exact trivial
    | cons v vs =>
      rw [CompiledUnit.checkArgs]
      split
      · exact ih vs
      · exact hE _ trivial

/-- A run of a function in a good place returns a sound value or fails in the given way. -/
theorem run_settles (hu : Guards u P G E) {id : FunctionId} (hid : G id) {args : List Value}
    (hargs : Value.AllSound P G args) (M : Machine) :
    Settles E (Value.Sound P G) (u.run id args M) := by
  unfold CompiledUnit.run
  rcases hu.function hid with ⟨name, f, hf, -⟩ | ⟨hnone, hE⟩
  · simp only [hf]
    split
    · exact hu.values _ trivial
    · refine (checkArgs_settles_values hu.values u.types f.params args M).shared_bind
        (fun _ he => he) fun _ M₁ _ => ?_
      refine (callGlobal_settles hu (callWithin_guarded hu _) hid hargs M₁).shared_bind
        (fun _ he => he) fun v M₂ hv => ?_
      split
      · exact hv
      · exact hu.values _ trivial
  · simp only [hnone]
    exact hE

end Run

end TensorIR
