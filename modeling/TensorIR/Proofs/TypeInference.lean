import TensorIR.Lowering.Inference
import TensorIR.Proofs.Expressions

/-! Inference and the globals that it looks at.

Inference asks for the result types of the globals in an expression, and reads the rest off the
expression and its environment. So it finds the same type wherever these globals show the same types,
and it leaves the marks as they were. A global is marked while its body is looked at, and so the
number of globals bounds how deep bodies are looked at inside each other. -/

namespace TensorIR.Lowering

open Source Lowered

/-! ## Steps of inference -/

/-- The step finds the answer and leaves the marks as they are. -/
def Finds {α : Type} (x : InferM α) (marks : List String) (a : α) : Prop := x marks = (a, marks)

/-- Both steps find the same answer, each with its own marks. -/
def FindSame {α : Type} (x x' : InferM α) (marks marks' : List String) : Prop :=
  ∃ a, Finds x marks a ∧ Finds x' marks' a

section

variable {α β : Type} {marks marks' : List String}

theorem Finds.bind {x : InferM α} {f : α → InferM β} {a : α} {b : β} (hx : Finds x marks a)
    (hf : Finds (f a) marks b) : Finds (x >>= f) marks b := by
  have hstep : (x >>= f) marks = f (x marks).1 (x marks).2 := rfl
  rw [Finds, hstep, hx]
  exact hf

theorem FindSame.pure (a : α) : FindSame (pure a) (pure a) marks marks' := ⟨a, rfl, rfl⟩

theorem FindSame.bind {x x' : InferM α} {f f' : α → InferM β} (hx : FindSame x x' marks marks')
    (hf : ∀ a, FindSame (f a) (f' a) marks marks') : FindSame (x >>= f) (x' >>= f') marks marks' := by
  obtain ⟨a, ha, ha'⟩ := hx
  obtain ⟨b, hb, hb'⟩ := hf a
  exact ⟨b, ha.bind hb, ha'.bind hb'⟩

theorem FindSame.annotatedOr {ty : Ty} {x x' : InferM (Option Ty)}
    (h : FindSame x x' marks marks') :
    FindSame (annotatedOr ty x) (annotatedOr ty x') marks marks' := by
  unfold Lowering.annotatedOr
  split
  · exact .pure _
  · exact h

end

/-! ## Expressions -/

section

variable {m : Module} {t t' : FunctionTable} {retOf retOf' : String → InferM (Option Ty)}
  {locals : Var → Option Ty} {marks marks' : List String}

/-- The global shows the same types on both sides. -/
structure ShowsSame (m : Module) (t t' : FunctionTable) (retOf retOf' : String → InferM (Option Ty))
    (marks marks' : List String) (name : String) : Prop where
  params : globalParams? m t' name = globalParams? m t name
  ret : FindSame (retOf name) (retOf' name) marks marks'

theorem inferType_call {callee : Expr} {args : List Expr} {ty : Ty}
    (hcallee : callee.isReference = false) :
    inferType m t retOf locals (.call callee args ty) =
      annotatedOr ty (do return (← inferType m t retOf locals callee).bind resultOf?) := by
  cases callee with
  | op | global => cases hcallee
  | _ => rfl

/-- Inference finds the same type where the globals of the expression show the same types. -/
theorem inferType_same_cases : Expr.Cases
    (fun e => (∀ name ∈ e.globals, ShowsSame m t t' retOf retOf' marks marks' name) →
      FindSame (inferType m t retOf locals e) (inferType m t' retOf' locals e) marks marks')
    (fun es => (∀ name ∈ Expr.listGlobals es, ShowsSame m t t' retOf retOf' marks marks' name) →
      FindSame (inferTypes m t retOf locals es) (inferTypes m t' retOf' locals es) marks marks')
    (fun cs => (∀ name ∈ Expr.clauseGlobals cs, ShowsSame m t t' retOf retOf' marks marks' name) →
      FindSame (inferClauses m t retOf locals cs) (inferClauses m t' retOf' locals cs) marks
        marks') where
  var v _ := by
    rw [inferType, inferType]
    exact .annotatedOr (.pure _)
  const t _ := .pure _
  letFunction v params fbody ret body _ ih h := by
    rw [inferType, inferType]
    exact ih fun name hname => h name (List.mem_append_right _ hname)
  letValue v value body _ _ ih h := by
    rw [inferType, inferType]
    exact ih fun name hname => h name (List.mem_append_right _ hname)
  func params body ret ih h := by
    rw [inferType, inferType]
    exact (ih h).annotatedOr.bind fun _ => .pure _
  global name h := by
    have hname := h name (List.mem_singleton_self name)
    rw [inferType, inferType, hname.params]
    cases globalParams? m t name with
    | none => exact .pure _
    | some params => exact hname.ret.bind fun _ => .pure _
  op name _ := .pure _
  callKernel name args ty _ _ := by
    rw [inferType, inferType]
    exact .pure _
  callGlobal name args ty _ h := by
    rw [inferType, inferType]
    exact (h name (by simp)).ret.annotatedOr
  call callee args ty hcallee ih _ h := by
    rw [inferType_call hcallee, inferType_call hcallee]
    have hsame := ih fun name hname => h name (List.mem_append_left _ hname)
    exact .annotatedOr (hsame.bind fun _ => .pure _)
  ite cond onTrue onFalse ty _ iht ihf h := by
    rw [inferType, inferType]
    have htrue := iht fun name hname => h name (by simp [hname])
    refine .annotatedOr (htrue.bind fun found => ?_)
    cases found with
    | some ty => exact .pure _
    | none => exact ihf fun name hname => h name (by simp [hname])
  tuple fields ty ihs h := by
    rw [inferType, inferType]
    exact .annotatedOr ((ihs h).bind fun _ => .pure _)
  matchOn data clauses ty _ ihs h := by
    rw [inferType, inferType]
    exact .annotatedOr (ihs fun name hname => h name (List.mem_append_right _ hname))
  construct name fields ty _ _ := by
    rw [inferType, inferType]
    exact .pure _
  nil _ := by
    rw [inferTypes, inferTypes]
    exact .pure _
  cons e es ih ihs h := by
    rw [inferTypes, inferTypes]
    have he := ih fun name hname => h name (List.mem_append_left _ hname)
    refine he.bind fun found => ?_
    cases found with
    | none => exact .pure _
    | some ty => exact (ihs fun name hname => h name (List.mem_append_right _ hname)).bind fun _ => .pure _
  nilClause _ := by
    rw [inferClauses, inferClauses]
    exact .pure _
  consClause p e rest ih ihs h := by
    rw [inferClauses, inferClauses]
    have he := ih fun name hname => h name (List.mem_append_left _ hname)
    refine he.bind fun found => ?_
    cases found with
    | some ty => exact .pure _
    | none => exact ihs fun name hname => h name (List.mem_append_right _ hname)

end

/-! ## Marks -/

theorem whileResolving_apply (name : String) (step : InferM (Option Ty)) (marks : List String) :
    whileResolving name step marks = if name ∈ marks then (none, marks) else
      ((step (name :: marks)).1, (step (name :: marks)).2.erase name) := by
  have hopen : whileResolving name step marks =
      (if marks.contains name = true then pure none else do
        modify (name :: ·)
        let ty ← step
        modify (·.erase name)
        return ty : InferM (Option Ty)) marks := rfl
  by_cases h : name ∈ marks
  · rw [hopen, if_pos (List.contains_iff_mem.mpr h), if_pos h]
    rfl
  · rw [hopen, if_neg (mt List.contains_iff_mem.mp h), if_neg h]
    rfl

/-- A marked global shows no type. -/
theorem whileResolving_of_mem {name : String} {marks : List String} {step : InferM (Option Ty)}
    (h : name ∈ marks) : Finds (whileResolving name step) marks none := by
  rw [Finds, whileResolving_apply, if_pos h]

/-- The mark that is put in front is the one that is taken away afterwards. -/
theorem whileResolving_of_notMem {name : String} {marks : List String} {step : InferM (Option Ty)}
    {ty : Option Ty} (h : name ∉ marks) (hstep : Finds step (name :: marks) ty) :
    Finds (whileResolving name step) marks ty := by
  rw [Finds, whileResolving_apply, if_neg h, hstep, List.erase_cons_head]

section

variable {m : Module} {t : FunctionTable} {marks : List String} {name : String}

/-- Two ways to look at bodies find the same result type if they find the same in the body of the
function, as far as it is looked at. -/
theorem FindSame.functionRet {infer infer' : Expr → InferM (Option Ty)} {f : Source.Function}
    (h : name ∉ marks →
      FindSame (infer f.body) (infer' f.body) (name :: marks) (name :: marks)) :
    FindSame (functionRet infer name f) (functionRet infer' name f) marks marks := by
  apply FindSame.annotatedOr
  by_cases hmarked : name ∈ marks
  · exact ⟨none, whileResolving_of_mem hmarked, whileResolving_of_mem hmarked⟩
  · obtain ⟨ty, hty, hty'⟩ := h hmarked
    exact ⟨ty, whileResolving_of_notMem hmarked hty, whileResolving_of_notMem hmarked hty'⟩

theorem FindSame.globalRetWith {infer infer' : Expr → InferM (Option Ty)}
    (h : ∀ f, m.function? name = some f → name ∉ marks →
      FindSame (infer f.body) (infer' f.body) (name :: marks) (name :: marks)) :
    FindSame (globalRetWith m t infer name) (globalRetWith m t infer' name) marks marks := by
  unfold Lowering.globalRetWith
  split
  · exact .pure _
  · split
    · next f hf => exact .functionRet (h f hf)
    · exact .pure _

/-- Looking up the result type of a global leaves the marks as they are. -/
theorem globalRet_finds (depth : Nat) (name : String) (marks : List String) :
    ∃ ty, Finds (globalRet m t depth name) marks ty := by
  induction depth generalizing name marks with
  | zero =>
    obtain ⟨ty, hty, -⟩ : FindSame (globalRet m t 0 name) (globalRet m t 0 name) marks marks :=
      .globalRetWith fun _ _ _ => .pure none
    exact ⟨ty, hty⟩
  | succ depth ih =>
    obtain ⟨ty, hty, -⟩ : FindSame (globalRet m t (depth + 1) name) (globalRet m t (depth + 1) name)
        marks marks := by
      apply FindSame.globalRetWith
      intro f _ _
      apply inferType_same_cases.expr
      intro global _
      obtain ⟨ty, hty⟩ := ih global (name :: marks)
      exact ⟨rfl, ty, hty, hty⟩
    exact ⟨ty, hty⟩

end

/-! ## Depth -/

/-- How many globals are not marked. -/
def unmarked (m : Module) (marks : List String) : Nat :=
  m.globals.countP fun global => !marks.contains global.1

theorem unmarked_le (m : Module) (marks : List String) : unmarked m marks ≤ m.globals.length :=
  List.countP_le_length

theorem unmarked_anti {m : Module} {marks marks' : List String} (h : marks ⊆ marks') :
    unmarked m marks' ≤ unmarked m marks := by
  apply List.countP_mono_left
  intro global _ hglobal
  simp only [List.contains_eq_mem, Bool.not_eq_true', decide_eq_false_iff_not] at hglobal ⊢
  exact fun hmem => hglobal (h hmem)

/-- Marking a global leaves fewer of them. -/
theorem unmarked_cons_lt {m : Module} {marks : List String} {name : String} {f : Source.Function}
    (hf : m.function? name = some f) (h : name ∉ marks) :
    unmarked m (name :: marks) < unmarked m marks := by
  obtain ⟨before, after, heq, -⟩ := List.lookup_eq_some_iff.mp hf
  have hle : ∀ globals : List (String × Source.Function),
      globals.countP (fun global => !(name :: marks).contains global.1) ≤
        globals.countP fun global => !marks.contains global.1 := by
    intro globals
    apply List.countP_mono_left
    intro global _ hglobal
    simp only [List.contains_cons, Bool.not_or, Bool.and_eq_true] at hglobal
    exact hglobal.2
  have hbefore := hle before
  have hafter := hle after
  have hname : marks.contains name = false := by simpa using h
  simp only [unmarked, heq, List.countP_append, List.countP_cons, hname, List.contains_cons,
    BEq.rfl, Bool.true_or, Bool.not_true, Bool.not_false, if_true] at hbefore hafter ⊢
  simp only [Bool.false_eq_true, if_false]
  omega

/-- The result type of a global with the recursion unfolded `depth` times, over any step for what
lies deeper. -/
def globalRetOver (m : Module) (t : FunctionTable) (deeper : String → InferM (Option Ty)) :
    (depth : Nat) → String → InferM (Option Ty)
  | 0 => deeper
  | depth + 1 => globalRetWith m t (inferType m t (globalRetOver m t deeper depth) fun _ => none)

/-- Nothing lies deeper than the number of globals that are not marked. -/
theorem globalRetOver_same {m : Module} {t : FunctionTable} {deeper : String → InferM (Option Ty)}
    {n depth : Nat} {marks : List String} (hn : unmarked m marks ≤ n) (hdepth : n < depth)
    (name : String) :
    FindSame (globalRetOver m t deeper depth name) (globalRet m t n name) marks marks := by
  induction n generalizing depth marks name with
  | zero =>
    obtain ⟨depth, rfl⟩ := Nat.exists_eq_succ_of_ne_zero (Nat.ne_of_gt hdepth)
    apply FindSame.globalRetWith
    intro f hf hnew
    exact absurd (unmarked_cons_lt hf hnew) (by omega)
  | succ n ih =>
    obtain ⟨depth, rfl⟩ := Nat.exists_eq_succ_of_ne_zero (Nat.ne_of_gt (Nat.zero_lt_of_lt hdepth))
    apply FindSame.globalRetWith
    intro f hf hnew
    have hfewer := unmarked_cons_lt hf hnew
    apply inferType_same_cases.expr
    intro global _
    exact ⟨rfl, ih (by omega) (by omega) global⟩

/-- Inference ends: bodies are looked at inside each other at most as often as there are globals, so
that it makes no difference what would be done deeper. -/
theorem globalRetOver_eq {m : Module} {t : FunctionTable} {deeper : String → InferM (Option Ty)}
    {depth : Nat} (hdepth : m.globals.length < depth) :
    globalRetOver m t deeper depth = globalRet m t m.globals.length := by
  funext name marks
  obtain ⟨ty, hty, hty'⟩ := globalRetOver_same (unmarked_le m marks) hdepth name
  exact hty.trans hty'.symm

/-! ## Units -/

namespace Setting

variable {s s' : Setting} {g g' : Progress}

theorem infer_of_finds {ty : Option Ty} {locals : Var → Option Ty} {e : Expr}
    (h : Finds (inferType s.module g.table (globalRet s.module g.table s.module.globals.length) locals e)
      g.resolving ty) : s.infer locals e g = .ok ty g := by
  have happly : s.infer locals e g =
      let found := inferType s.module g.table
        (globalRet s.module g.table s.module.globals.length) locals e g.resolving
      .ok found.1 { g with resolving := found.2 } := rfl
  rw [happly, h]

theorem retType_of_finds {ty : Option Ty} {name : String} {f : Source.Function}
    (h : Finds (functionRet (inferType s.module g.table
      (globalRet s.module g.table s.module.globals.length) fun _ => none) name f) g.resolving ty) :
    s.retType name f g = .ok ty g := by
  have happly : s.retType name f g =
      let found := functionRet (inferType s.module g.table
        (globalRet s.module g.table s.module.globals.length) fun _ => none) name f g.resolving
      .ok found.1 { g with resolving := found.2 } := rfl
  rw [happly, h]

/-- Inference finds the same type in two units where the globals of the expression show the same
types, and leaves both units as they are. -/
theorem infer_same {locals : Var → Option Ty} {e : Expr} (hmodule : s'.module = s.module)
    (h : ∀ name ∈ e.globals, ShowsSame s.module g.table g'.table
      (globalRet s.module g.table s.module.globals.length)
      (globalRet s.module g'.table s.module.globals.length) g.resolving g'.resolving name) :
    ∃ ty, s.infer locals e g = .ok ty g ∧ s'.infer locals e g' = .ok ty g' := by
  obtain ⟨ty, hty, hty'⟩ : FindSame
      (inferType s.module g.table (globalRet s.module g.table s.module.globals.length) locals e)
      (inferType s.module g'.table (globalRet s.module g'.table s.module.globals.length) locals e)
      g.resolving g'.resolving := inferType_same_cases.expr e h
  rw [← hmodule] at hty'
  exact ⟨ty, infer_of_finds hty, infer_of_finds hty'⟩

theorem infer_leaves (s : Setting) (locals : Var → Option Ty) (e : Expr) (g : Progress) :
    ∃ ty, s.infer locals e g = .ok ty g := by
  have hsame : ∃ ty, s.infer locals e g = .ok ty g ∧ s.infer locals e g = .ok ty g := by
    apply infer_same rfl
    intro name _
    obtain ⟨ty, hty⟩ := globalRet_finds s.module.globals.length name g.resolving
    exact ⟨rfl, ty, hty, hty⟩
  obtain ⟨ty, hty, -⟩ := hsame
  exact ⟨ty, hty⟩

/-- The result type of a function is looked up without changing the unit. -/
theorem retType_leaves (s : Setting) (name : String) (f : Source.Function) (g : Progress) :
    ∃ ty, s.retType name f g = .ok ty g := by
  have hsame : ∀ infer, infer = inferType s.module g.table
        (globalRet s.module g.table s.module.globals.length) (fun _ => none) →
      FindSame (functionRet infer name f) (functionRet infer name f) g.resolving g.resolving := by
    rintro infer rfl
    apply FindSame.functionRet
    intro _
    apply inferType_same_cases.expr
    intro global _
    obtain ⟨ty, hty⟩ := globalRet_finds s.module.globals.length global (name :: g.resolving)
    exact ⟨rfl, ty, hty, hty⟩
  obtain ⟨ty, hty, -⟩ := hsame _ rfl
  exact ⟨ty, retType_of_finds hty⟩

end Setting

end TensorIR.Lowering
