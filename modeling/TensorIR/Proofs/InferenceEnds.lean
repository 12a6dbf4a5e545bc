import TensorIR.Proofs.Steps
import TensorIR.Proofs.TypeInference

/-! Runs of inference.

The types of expressions and the result types of globals are found by recursion through each other: an
expression asks for the globals that it calls, and a global without a declared result type for the type of
its body. Nothing gets smaller on the way into a body but the set of globals that are not marked.

`Infers` has the runs of this recursion that end, with the marks before and after, and without a bound on
their depth. Every question has exactly one such run. It gives the answer of the recursion that is bounded
by the number of globals, and the marks after it are those before it. -/

namespace TensorIR.Lowering

open Source Lowered

/-! ## Runs -/

section

variable (m : Module) (t : FunctionTable)

mutual

/-- The type of an expression: what is written on it if that is resolved, and else what its form shows.
The premises of a rule are the questions that are asked on the way, each with the marks that the one
before it has left. -/
inductive Infers : (locals : Var → Option Ty) → Expr → (marks : List String) → Option Ty →
    (marks' : List String) → Prop
  | written {locals : Var → Option Ty} {e : Expr} {marks : List String} :
    e.ty.isResolved = true → Infers locals e marks (some e.ty) marks
  | byForm {locals : Var → Option Ty} {e : Expr} {marks marks' : List String} {ty : Option Ty} :
    e.ty.isResolved = false → InfersByForm locals e marks ty marks' → Infers locals e marks ty marks'

inductive InfersByForm : (locals : Var → Option Ty) → Expr → (marks : List String) → Option Ty →
    (marks' : List String) → Prop
  | var {locals : Var → Option Ty} {marks : List String} {v : Var} {ty : Option Ty} :
    locals v = ty → InfersByForm locals (.var v) marks ty marks
  | letIn {locals : Var → Option Ty} {marks marks' : List String} {v : Var} {value body : Expr}
    {ty : Option Ty} : Infers locals body marks ty marks' →
      InfersByForm locals (.letIn v value body) marks ty marks'
  | funcDeclared {locals : Var → Option Ty} {marks : List String} {params : List Var} {body : Expr}
    {ret : Ty} : ret.isResolved = true →
      InfersByForm locals (.func params body ret) marks (some (.func (params.map Var.ty) ret)) marks
  | func {locals : Var → Option Ty} {marks marks' : List String} {params : List Var} {body : Expr}
    {ret : Ty} {ty : Option Ty} : ret.isResolved = false → Infers locals body marks ty marks' →
      InfersByForm locals (.func params body ret) marks (ty.map (Ty.func (params.map Var.ty))) marks'
  | noGlobal {locals : Var → Option Ty} {marks : List String} {name : String} :
    globalParams? m t name = none → InfersByForm locals (.global name) marks none marks
  | global {locals : Var → Option Ty} {marks marks' : List String} {name : String}
    {params : List Ty} {ty : Option Ty} : globalParams? m t name = some params →
    GlobalRet name marks ty marks' →
      InfersByForm locals (.global name) marks (ty.map (Ty.func params)) marks'
  | op {locals : Var → Option Ty} {marks : List String} {name : String} :
    InfersByForm locals (.op name) marks none marks
  | callKernel {locals : Var → Option Ty} {marks : List String} {name : String} {args : List Expr}
    {a : Ty} : InfersByForm locals (.call (.op name) args a) marks none marks
  | callGlobal {locals : Var → Option Ty} {marks marks' : List String} {name : String}
    {args : List Expr} {a : Ty} {ty : Option Ty} : GlobalRet name marks ty marks' →
      InfersByForm locals (.call (.global name) args a) marks ty marks'
  | call {locals : Var → Option Ty} {marks marks' : List String} {callee : Expr} {args : List Expr}
    {a : Ty} {ty : Option Ty} : callee.isReference = false → Infers locals callee marks ty marks' →
      InfersByForm locals (.call callee args a) marks (ty.bind resultOf?) marks'
  | onTrue {locals : Var → Option Ty} {marks marks' : List String} {cond onTrue onFalse : Expr}
    {a ty : Ty} : Infers locals onTrue marks (some ty) marks' →
      InfersByForm locals (.ite cond onTrue onFalse a) marks (some ty) marks'
  | onFalse {locals : Var → Option Ty} {marks marks' marks'' : List String}
    {cond onTrue onFalse : Expr} {a : Ty} {ty : Option Ty} : Infers locals onTrue marks none marks' →
    Infers locals onFalse marks' ty marks'' →
      InfersByForm locals (.ite cond onTrue onFalse a) marks ty marks''
  | tuple {locals : Var → Option Ty} {marks marks' : List String} {fields : List Expr} {a : Ty}
    {tys : Option (List Ty)} : InfersAll locals fields marks tys marks' →
      InfersByForm locals (.tuple fields a) marks (tys.map Ty.tuple) marks'
  | matchOn {locals : Var → Option Ty} {marks marks' : List String} {data : Expr}
    {clauses : List (Source.Pattern × Expr)} {a : Ty} {ty : Option Ty} :
    InfersFirst locals clauses marks ty marks' →
      InfersByForm locals (.matchOn data clauses a) marks ty marks'
  | construct {locals : Var → Option Ty} {marks : List String} {name : String} {fields : List Expr}
    {a : Ty} : InfersByForm locals (.construct name fields a) marks none marks

/-- The fields of a tuple up to the first one that shows no type. -/
inductive InfersAll : (locals : Var → Option Ty) → List Expr → (marks : List String) →
    Option (List Ty) → (marks' : List String) → Prop
  | nil {locals : Var → Option Ty} {marks : List String} : InfersAll locals [] marks (some []) marks
  | stop {locals : Var → Option Ty} {marks marks' : List String} {e : Expr} {es : List Expr} :
    Infers locals e marks none marks' → InfersAll locals (e :: es) marks none marks'
  | next {locals : Var → Option Ty} {marks marks' marks'' : List String} {e : Expr} {es : List Expr}
    {ty : Ty} {tys : Option (List Ty)} : Infers locals e marks (some ty) marks' →
    InfersAll locals es marks' tys marks'' →
      InfersAll locals (e :: es) marks (tys.map (ty :: ·)) marks''

/-- The clauses up to the first one that shows a type. -/
inductive InfersFirst : (locals : Var → Option Ty) → List (Source.Pattern × Expr) →
    (marks : List String) → Option Ty → (marks' : List String) → Prop
  | nil {locals : Var → Option Ty} {marks : List String} : InfersFirst locals [] marks none marks
  | stop {locals : Var → Option Ty} {marks marks' : List String} {p : Source.Pattern} {e : Expr}
    {rest : List (Source.Pattern × Expr)} {ty : Ty} : Infers locals e marks (some ty) marks' →
      InfersFirst locals ((p, e) :: rest) marks (some ty) marks'
  | next {locals : Var → Option Ty} {marks marks' marks'' : List String} {p : Source.Pattern}
    {e : Expr} {rest : List (Source.Pattern × Expr)} {ty : Option Ty} :
    Infers locals e marks none marks' → InfersFirst locals rest marks' ty marks'' →
      InfersFirst locals ((p, e) :: rest) marks ty marks''

/-- The result type of a function for the name: as it is declared, or the type of the body, which is
looked at with the name marked. -/
inductive FunctionRet : (name : String) → Source.Function → (marks : List String) → Option Ty →
    (marks' : List String) → Prop
  | declared {name : String} {f : Source.Function} {marks : List String} :
    f.ret.isResolved = true → FunctionRet name f marks (some f.ret) marks
  | marked {name : String} {f : Source.Function} {marks : List String} :
    f.ret.isResolved = false → name ∈ marks → FunctionRet name f marks none marks
  | body {name : String} {f : Source.Function} {marks marks' : List String} {ty : Option Ty} :
    f.ret.isResolved = false → name ∉ marks →
    Infers (fun _ => none) f.body (name :: marks) ty marks' →
      FunctionRet name f marks ty (marks'.erase name)

/-- The result type of a global, from the table or else from the module. -/
inductive GlobalRet : (name : String) → (marks : List String) → Option Ty → (marks' : List String) → Prop
  | reserved {name : String} {id : FunctionId} {marks : List String} : t.lookup? name = some id →
      GlobalRet name marks ((t.signature? id).map Signature.ret) marks
  | defined {name : String} {f : Source.Function} {marks marks' : List String} {ty : Option Ty} :
    t.lookup? name = none → m.function? name = some f → FunctionRet name f marks ty marks' →
      GlobalRet name marks ty marks'
  | unknown {name : String} {marks : List String} :
    t.lookup? name = none → m.function? name = none → GlobalRet name marks none marks

end

end

/-! ## At most one run -/

/-- There is no other outcome than this one. -/
def OnlyOutcome {α : Type} (R : α → List String → Prop) (a : α) (marks : List String) : Prop :=
  ∀ ⦃a' marks'⦄, R a' marks' → a = a' ∧ marks = marks'

/-- There is a run, and every run ends so. -/
def RunsTo {α : Type} (R : α → List String → Prop) (a : α) (marks : List String) : Prop :=
  R a marks ∧ OnlyOutcome R a marks

section

variable {m : Module} {t : FunctionTable}

mutual

/-- The rules leave no choice. -/
theorem Infers.unique : ∀ {locals : Var → Option Ty} {e : Expr} {marks marks' : List String}
    {ty : Option Ty},
    Infers m t locals e marks ty marks' →
      OnlyOutcome (Infers m t locals e marks) ty marks'
  | _, _, _, _, _, .written hty => by
    intro _ _ h₂
    cases h₂ with
    | written => exact ⟨rfl, rfl⟩
    | byForm hopen => cases hty.symm.trans hopen
  | _, _, _, _, _, .byForm hopen h => by
    intro _ _ h₂
    cases h₂ with
    | written hty => cases hty.symm.trans hopen
    | byForm _ h₂ => exact h.unique h₂

theorem InfersByForm.unique : ∀ {locals : Var → Option Ty} {e : Expr} {marks marks' : List String}
    {ty : Option Ty},
    InfersByForm m t locals e marks ty marks' →
      OnlyOutcome (InfersByForm m t locals e marks) ty marks'
  | _, _, _, _, _, .var hv => by
    intro _ _ h₂
    cases h₂ with
    | var hv₂ => exact ⟨hv.symm.trans hv₂, rfl⟩
  | _, _, _, _, _, .letIn h => by
    intro _ _ h₂
    cases h₂ with
    | letIn h₂ => exact h.unique h₂
  | _, _, _, _, _, .funcDeclared hret => by
    intro _ _ h₂
    cases h₂ with
    | funcDeclared => exact ⟨rfl, rfl⟩
    | func hopen => cases hret.symm.trans hopen
  | _, _, _, _, _, .func hopen h => by
    intro _ _ h₂
    cases h₂ with
    | funcDeclared hret => cases hret.symm.trans hopen
    | func _ h₂ =>
      obtain ⟨rfl, rfl⟩ := h.unique h₂
      exact ⟨rfl, rfl⟩
  | _, _, _, _, _, .noGlobal hnone => by
    intro _ _ h₂
    cases h₂ with
    | noGlobal => exact ⟨rfl, rfl⟩
    | global hparams => cases hnone.symm.trans hparams
  | _, _, _, _, _, .global hparams h => by
    intro _ _ h₂
    cases h₂ with
    | noGlobal hnone => cases hnone.symm.trans hparams
    | global hparams₂ h₂ =>
      cases hparams.symm.trans hparams₂
      obtain ⟨rfl, rfl⟩ := h.unique h₂
      exact ⟨rfl, rfl⟩
  | _, _, _, _, _, .op => by
    intro _ _ h₂
    cases h₂
    exact ⟨rfl, rfl⟩
  | _, _, _, _, _, .callKernel => by
    intro _ _ h₂
    cases h₂ with
    | callKernel => exact ⟨rfl, rfl⟩
    | call hcallee => cases hcallee
  | _, _, _, _, _, .callGlobal h => by
    intro _ _ h₂
    cases h₂ with
    | callGlobal h₂ => exact h.unique h₂
    | call hcallee => cases hcallee
  | _, _, _, _, _, .call hcallee h => by
    intro _ _ h₂
    cases h₂ with
    | callKernel | callGlobal => cases hcallee
    | call _ h₂ =>
      obtain ⟨rfl, rfl⟩ := h.unique h₂
      exact ⟨rfl, rfl⟩
  | _, _, _, _, _, .onTrue h => by
    intro _ _ h₂
    cases h₂ with
    | onTrue h₂ => exact h.unique h₂
    | onFalse h₂ => cases (h.unique h₂).1
  | _, _, _, _, _, .onFalse h h' => by
    intro _ _ h₂
    cases h₂ with
    | onTrue h₂ => cases (h.unique h₂).1
    | onFalse h₂ h₂' =>
      obtain ⟨-, rfl⟩ := h.unique h₂
      exact h'.unique h₂'
  | _, _, _, _, _, .tuple h => by
    intro _ _ h₂
    cases h₂ with
    | tuple h₂ =>
      obtain ⟨rfl, rfl⟩ := h.unique h₂
      exact ⟨rfl, rfl⟩
  | _, _, _, _, _, .matchOn h => by
    intro _ _ h₂
    cases h₂ with
    | matchOn h₂ => exact h.unique h₂
  | _, _, _, _, _, .construct => by
    intro _ _ h₂
    cases h₂
    exact ⟨rfl, rfl⟩

theorem InfersAll.unique : ∀ {locals : Var → Option Ty} {es : List Expr}
    {marks marks' : List String} {tys : Option (List Ty)},
    InfersAll m t locals es marks tys marks' →
      OnlyOutcome (InfersAll m t locals es marks) tys marks'
  | _, _, _, _, _, .nil => by
    intro _ _ h₂
    cases h₂
    exact ⟨rfl, rfl⟩
  | _, _, _, _, _, .stop h => by
    intro _ _ h₂
    cases h₂ with
    | stop h₂ => exact ⟨rfl, (h.unique h₂).2⟩
    | next h₂ => cases (h.unique h₂).1
  | _, _, _, _, _, .next h hs => by
    intro _ _ h₂
    cases h₂ with
    | stop h₂ => cases (h.unique h₂).1
    | next h₂ hs₂ =>
      obtain ⟨hty, rfl⟩ := h.unique h₂
      cases hty
      obtain ⟨rfl, rfl⟩ := hs.unique hs₂
      exact ⟨rfl, rfl⟩

theorem InfersFirst.unique : ∀ {locals : Var → Option Ty} {clauses : List (Source.Pattern × Expr)}
    {marks marks' : List String} {ty : Option Ty},
    InfersFirst m t locals clauses marks ty marks' →
      OnlyOutcome (InfersFirst m t locals clauses marks) ty marks'
  | _, _, _, _, _, .nil => by
    intro _ _ h₂
    cases h₂
    exact ⟨rfl, rfl⟩
  | _, _, _, _, _, .stop h => by
    intro _ _ h₂
    cases h₂ with
    | stop h₂ => exact h.unique h₂
    | next h₂ => cases (h.unique h₂).1
  | _, _, _, _, _, .next h hs => by
    intro _ _ h₂
    cases h₂ with
    | stop h₂ => cases (h.unique h₂).1
    | next h₂ hs₂ =>
      obtain ⟨-, rfl⟩ := h.unique h₂
      exact hs.unique hs₂

theorem FunctionRet.unique : ∀ {name : String} {f : Source.Function} {marks marks' : List String}
    {ty : Option Ty},
    FunctionRet m t name f marks ty marks' →
      OnlyOutcome (FunctionRet m t name f marks) ty marks'
  | _, _, _, _, _, .declared hret => by
    intro _ _ h₂
    cases h₂ with
    | declared => exact ⟨rfl, rfl⟩
    | marked hopen | body hopen => cases hret.symm.trans hopen
  | _, _, _, _, _, .marked hopen hmem => by
    intro _ _ h₂
    cases h₂ with
    | declared hret => cases hret.symm.trans hopen
    | marked => exact ⟨rfl, rfl⟩
    | body _ hnew => exact absurd hmem hnew
  | _, _, _, _, _, .body hopen hnew h => by
    intro _ _ h₂
    cases h₂ with
    | declared hret => cases hret.symm.trans hopen
    | marked _ hmem => exact absurd hmem hnew
    | body _ _ h₂ =>
      obtain ⟨rfl, rfl⟩ := h.unique h₂
      exact ⟨rfl, rfl⟩

theorem GlobalRet.unique : ∀ {name : String} {marks marks' : List String} {ty : Option Ty},
    GlobalRet m t name marks ty marks' →
      OnlyOutcome (GlobalRet m t name marks) ty marks'
  | _, _, _, _, .reserved hid => by
    intro _ _ h₂
    cases h₂ with
    | reserved hid₂ =>
      cases hid.symm.trans hid₂
      exact ⟨rfl, rfl⟩
    | defined hnone | unknown hnone => cases hid.symm.trans hnone
  | _, _, _, _, .defined hnone hf h => by
    intro _ _ h₂
    cases h₂ with
    | reserved hid => cases hid.symm.trans hnone
    | defined _ hf₂ h₂ =>
      cases hf.symm.trans hf₂
      exact h.unique h₂
    | unknown _ hf₂ => cases hf.symm.trans hf₂
  | _, _, _, _, .unknown hnone hf => by
    intro _ _ h₂
    cases h₂ with
    | reserved hid => cases hid.symm.trans hnone
    | defined _ hf₂ => cases hf.symm.trans hf₂
    | unknown => exact ⟨rfl, rfl⟩

end

end

/-! ## The run of an expression -/

section

variable {α : Type} {marks : List String} {ty : Ty} {found : Option Ty} {step : InferM (Option Ty)}

theorem Finds.pure {a b : α} (h : a = b) : Finds (pure a) marks b := by
  rw [h]
  rfl

theorem Finds.annotated (h : ty.isResolved = true) :
    Finds (Lowering.annotatedOr ty step) marks (some ty) := by
  rw [Lowering.annotatedOr, if_pos h]
  rfl

theorem Finds.annotatedOr (h : ty.isResolved = false) (hstep : Finds step marks found) :
    Finds (Lowering.annotatedOr ty step) marks found := by
  rw [Lowering.annotatedOr, if_neg (Bool.eq_false_iff.mp h)]
  exact hstep

end

/-- The recursion has a run to the answer that the step finds, and both leave the marks. -/
def EndsAs {α : Type} (R : α → List String → Prop) (x : InferM α) (marks : List String) : Prop :=
  ∃ a, R a marks ∧ Finds x marks a

section

variable {m : Module} {t : FunctionTable} {retOf : String → InferM (Option Ty)}
  {locals : Var → Option Ty} {marks : List String}

/-- A type that is written on an expression is found without any question. -/
theorem inferType_written : ∀ e : Expr, e.ty.isResolved = true →
    Finds (inferType m t retOf locals e) marks (some e.ty)
  | .var v, h => by
    rw [inferType]
    exact .annotated h
  | .const value, _ => by
    rw [inferType]
    exact .pure rfl
  | .letIn v value body, h => by
    rw [inferType]
    exact inferType_written body h
  | .func params body ret, h => by
    have hresult : (if ret.isResolved then ret else body.ty).isResolved = true :=
      (Bool.and_eq_true_iff.mp h).2
    rw [inferType, Expr.ty]
    split at hresult
    · next hret =>
      rw [if_pos hret]
      exact (Finds.annotated hret).bind rfl
    · next hret =>
      rw [if_neg hret]
      have hbody := inferType_written body hresult
      exact (hbody.annotatedOr (Bool.eq_false_iff.mpr hret)).bind rfl
  | .call callee args ty, h => by
    cases hcallee : callee.isReference with
    | false =>
      rw [inferType_call hcallee]
      exact .annotated h
    | true =>
      cases callee with
      | op name =>
        rw [inferType]
        exact .pure (if_pos h)
      | global name =>
        rw [inferType]
        exact .annotated h
      | _ => cases hcallee
  | .ite cond onTrue onFalse ty, h | .tuple fields ty, h | .matchOn data clauses ty, h => by
    rw [inferType]
    exact .annotated h
  | .construct name fields ty, h => by
    rw [inferType]
    exact .pure (if_pos h)

theorem EndsAs.byForm {e : Expr} (h : e.ty.isResolved = false →
      EndsAs (InfersByForm m t locals e marks) (inferType m t retOf locals e) marks) :
    EndsAs (Infers m t locals e marks) (inferType m t retOf locals e) marks := by
  cases hty : e.ty.isResolved with
  | true => exact ⟨some e.ty, .written hty, inferType_written e hty⟩
  | false =>
    obtain ⟨ty, hform, hfinds⟩ := h hty
    exact ⟨ty, .byForm hty hform, hfinds⟩

/-- An expression has a run where the globals have runs. -/
theorem infers_cases (hret : ∀ name, EndsAs (GlobalRet m t name marks) (retOf name) marks) : Expr.Cases
    (fun e => EndsAs (Infers m t locals e marks) (inferType m t retOf locals e) marks)
    (fun es => EndsAs (InfersAll m t locals es marks) (inferTypes m t retOf locals es) marks)
    (fun clauses => EndsAs (InfersFirst m t locals clauses marks)
      (inferClauses m t retOf locals clauses) marks) where
  var v := by
    refine .byForm fun hopen => ⟨locals v, .var rfl, ?_⟩
    rw [inferType]
    exact .annotatedOr hopen (.pure rfl)
  const value := by
    refine .byForm fun hopen => ?_
    cases hopen
  letFunction v params fbody ret body _ ih := by
    obtain ⟨ty, hrun, hfinds⟩ := ih
    refine .byForm fun _ => ⟨ty, .letIn hrun, ?_⟩
    rw [inferType]
    exact hfinds
  letValue v value body _ _ ih := by
    obtain ⟨ty, hrun, hfinds⟩ := ih
    refine .byForm fun _ => ⟨ty, .letIn hrun, ?_⟩
    rw [inferType]
    exact hfinds
  func params body ret ih := by
    refine .byForm fun _ => ?_
    rw [inferType]
    cases hret : ret.isResolved with
    | true => exact ⟨_, .funcDeclared hret, (Finds.annotated hret).bind rfl⟩
    | false =>
      obtain ⟨ty, hrun, hfinds⟩ := ih
      exact ⟨_, .func hret hrun, (hfinds.annotatedOr hret).bind rfl⟩
  global name := by
    refine .byForm fun _ => ?_
    rw [inferType]
    cases hparams : globalParams? m t name with
    | none => exact ⟨none, .noGlobal hparams, rfl⟩
    | some params =>
      obtain ⟨ty, hrun, hfinds⟩ := hret name
      exact ⟨_, .global hparams hrun, hfinds.bind rfl⟩
  op name := .byForm fun _ => ⟨none, .op, rfl⟩
  callKernel name args ty _ := by
    refine .byForm fun hopen => ⟨none, .callKernel, ?_⟩
    rw [inferType]
    exact .pure (if_neg (Bool.eq_false_iff.mp hopen))
  callGlobal name args ty _ := by
    obtain ⟨ty, hrun, hfinds⟩ := hret name
    refine .byForm fun hopen => ⟨ty, .callGlobal hrun, ?_⟩
    rw [inferType]
    exact hfinds.annotatedOr hopen
  call callee args ty hcallee ih _ := by
    obtain ⟨ty, hrun, hfinds⟩ := ih
    refine .byForm fun hopen => ⟨_, .call hcallee hrun, ?_⟩
    rw [inferType_call hcallee]
    exact .annotatedOr hopen (hfinds.bind rfl)
  ite cond onTrue onFalse ty _ iht ihf := by
    refine .byForm fun hopen => ?_
    rw [inferType]
    obtain ⟨found, hrun, hfinds⟩ := iht
    cases found with
    | some ty => exact ⟨some ty, .onTrue hrun, .annotatedOr hopen (hfinds.bind rfl)⟩
    | none =>
      obtain ⟨ty, hrun', hfinds'⟩ := ihf
      exact ⟨ty, .onFalse hrun hrun', .annotatedOr hopen (hfinds.bind hfinds')⟩
  tuple fields ty ihs := by
    obtain ⟨tys, hrun, hfinds⟩ := ihs
    refine .byForm fun hopen => ⟨_, .tuple hrun, ?_⟩
    rw [inferType]
    exact .annotatedOr hopen (hfinds.bind rfl)
  matchOn data clauses ty _ ihs := by
    obtain ⟨ty, hrun, hfinds⟩ := ihs
    refine .byForm fun hopen => ⟨ty, .matchOn hrun, ?_⟩
    rw [inferType]
    exact hfinds.annotatedOr hopen
  construct name fields ty _ := by
    refine .byForm fun hopen => ⟨none, .construct, ?_⟩
    rw [inferType]
    exact .pure (if_neg (Bool.eq_false_iff.mp hopen))
  nil := by
    rw [inferTypes]
    exact ⟨some [], .nil, rfl⟩
  cons e es ih ihs := by
    rw [inferTypes]
    obtain ⟨found, hrun, hfinds⟩ := ih
    cases found with
    | none => exact ⟨none, .stop hrun, hfinds.bind rfl⟩
    | some ty =>
      obtain ⟨tys, hrun', hfinds'⟩ := ihs
      exact ⟨_, .next hrun hrun', hfinds.bind (hfinds'.bind rfl)⟩
  nilClause := by
    rw [inferClauses]
    exact ⟨none, .nil, rfl⟩
  consClause p e rest ih ihs := by
    rw [inferClauses]
    obtain ⟨found, hrun, hfinds⟩ := ih
    cases found with
    | some ty => exact ⟨some ty, .stop hrun, hfinds.bind rfl⟩
    | none =>
      obtain ⟨ty, hrun', hfinds'⟩ := ihs
      exact ⟨ty, .next hrun hrun', hfinds.bind hfinds'⟩

end

/-! ## The runs of globals -/

section

variable {m : Module} {t : FunctionTable} {marks : List String} {name : String}

/-- The result type of a function is found where the type of its body is, with the function marked. -/
theorem EndsAs.functionRet {infer : Expr → InferM (Option Ty)} {f : Source.Function}
    (h : name ∉ marks → EndsAs (Infers m t (fun _ => none) f.body (name :: marks)) (infer f.body)
      (name :: marks)) :
    EndsAs (FunctionRet m t name f marks) (functionRet infer name f) marks := by
  rw [Lowering.functionRet]
  cases hret : f.ret.isResolved with
  | true => exact ⟨some f.ret, .declared hret, .annotated hret⟩
  | false =>
    by_cases hmarked : name ∈ marks
    · exact ⟨none, .marked hret hmarked, .annotatedOr hret (whileResolving_of_mem hmarked)⟩
    · obtain ⟨ty, hrun, hfinds⟩ := h hmarked
      have hbody := FunctionRet.body hret hmarked hrun
      rw [List.erase_cons_head] at hbody
      exact ⟨ty, hbody, .annotatedOr hret (whileResolving_of_notMem hmarked hfinds)⟩

theorem EndsAs.globalRetWith {infer : Expr → InferM (Option Ty)}
    (h : ∀ f, m.function? name = some f → name ∉ marks →
      EndsAs (Infers m t (fun _ => none) f.body (name :: marks)) (infer f.body) (name :: marks)) :
    EndsAs (GlobalRet m t name marks) (globalRetWith m t infer name) marks := by
  rw [Lowering.globalRetWith]
  cases hid : t.lookup? name with
  | some id => exact ⟨_, .reserved hid, rfl⟩
  | none =>
    cases hf : m.function? name with
    | none => exact ⟨none, .unknown hid hf, rfl⟩
    | some f =>
      obtain ⟨ty, hrun, hfinds⟩ := EndsAs.functionRet (h f hf)
      exact ⟨ty, .defined hid hf hrun, hfinds⟩

/-- Bodies are looked at inside each other at most as often as there are globals that are not marked. -/
theorem globalRet_ends {n : Nat} (hn : unmarked m marks ≤ n) (name : String) :
    EndsAs (GlobalRet m t name marks) (globalRet m t n name) marks := by
  induction n generalizing marks name with
  | zero =>
    apply EndsAs.globalRetWith
    intro f hf hnew
    exact absurd (unmarked_cons_lt hf hnew) (by omega)
  | succ n ih =>
    apply EndsAs.globalRetWith
    intro f hf hnew
    have hfewer := unmarked_cons_lt hf hnew
    exact (infers_cases (ih (by omega))).expr f.body

theorem inferType_ends (locals : Var → Option Ty) (e : Expr) (marks : List String) :
    EndsAs (Infers m t locals e marks) (inferType m t (globalRet m t m.globals.length) locals e)
      marks :=
  (infers_cases (globalRet_ends (unmarked_le m marks))).expr e

theorem functionRet_ends (name : String) (f : Source.Function) (marks : List String) :
    EndsAs (FunctionRet m t name f marks)
      (functionRet (inferType m t (globalRet m t m.globals.length) fun _ => none) name f) marks :=
  .functionRet fun _ => inferType_ends _ f.body _

end

/-! ## Units -/

/-- The step, and the same step once more. -/
def twice {M : Type → Type} [Monad M] {α : Type} (x : M α) : M (α × α) := do
  let a ← x
  let b ← x
  return (a, b)

theorem twice_finds {α : Type} {x : InferM α} {marks : List String} {a : α} (h : Finds x marks a) :
    Finds (twice x) marks (a, a) := h.bind (h.bind rfl)

theorem twice_leaves {α : Type} {x : LowerM α} {g : Progress} {a : α} (h : x g = .ok a g) :
    twice x g = .ok (a, a) g := by
  rw [twice, shared_bind_of_ok h, shared_bind_of_ok h]
  rfl

/-- Inference ends in every unit, whatever its globals call, and leaves no trace: every question has
exactly one run, which gives the answer of the unit, and the marks, the table and all else of the unit
are as they were before. So asking twice gives the same answer. -/
theorem inference_ends (s : Setting) (g : Progress) :
    (∀ locals e, ∃ ty, RunsTo (Infers s.module g.table locals e g.resolving) ty g.resolving ∧
      s.infer locals e g = .ok ty g ∧ twice (s.infer locals e) g = .ok (ty, ty) g) ∧
    (∀ name, ∃ ty, RunsTo (GlobalRet s.module g.table name g.resolving) ty g.resolving ∧
      Finds (globalRet s.module g.table s.module.globals.length name) g.resolving ty ∧
      Finds (twice (globalRet s.module g.table s.module.globals.length name)) g.resolving (ty, ty)) ∧
    ∀ name f, ∃ ty, RunsTo (FunctionRet s.module g.table name f g.resolving) ty g.resolving ∧
      s.retType name f g = .ok ty g ∧ twice (s.retType name f) g = .ok (ty, ty) g := by
  refine ⟨?_, ?_, ?_⟩
  · intro locals e
    obtain ⟨ty, hrun, hfinds⟩ := inferType_ends (m := s.module) locals e g.resolving
    have hinfer := Setting.infer_of_finds hfinds
    exact ⟨ty, ⟨hrun, hrun.unique⟩, hinfer, twice_leaves hinfer⟩
  · intro name
    obtain ⟨ty, hrun, hfinds⟩ := globalRet_ends (unmarked_le s.module g.resolving) name
    exact ⟨ty, ⟨hrun, hrun.unique⟩, hfinds, twice_finds hfinds⟩
  · intro name f
    obtain ⟨ty, hrun, hfinds⟩ := functionRet_ends (m := s.module) name f g.resolving
    have hret := Setting.retType_of_finds hfinds
    exact ⟨ty, ⟨hrun, hrun.unique⟩, hret, twice_leaves hret⟩

/-- Two globals that call each other and declare no result type: the way back finds the mark of the first
one, which then takes the type of its other branch. -/
example :
    let call (name : String) : Expr := .call (.global name) [] .infer
    let no : Expr := .const (.scalarBool false)
    let m : Module := { globals := [("ping", ⟨[], .ite no (call "pong") no .infer, .infer⟩),
      ("pong", ⟨[], call "ping", .infer⟩)] }
    globalRet m {} m.globals.length "ping" [] = (some (.scalar .bool), []) := rfl

end TensorIR.Lowering
