import TensorIR.Proofs.EveryNode
import TensorIR.Proofs.ScopeLeaks
import TensorIR.Proofs.ScopedCode
import TensorIR.Proofs.UnitHistory

/-! The form of lowered code.

All names of variables in lowered code are numbered, and bindings stand together: a list of bindings is
never empty, and the node that it is for has no bindings of its own. -/

namespace TensorIR

open Source Lowered Lowering

/-- The name has been handed out for some hint, with some number. -/
def IsNumbered (x : String) : Prop := ∃ hint n, x = numberedName hint n

theorem isNumbered_numberedName (hint : String) (n : Nat) : IsNumbered (numberedName hint n) :=
  ⟨hint, n, rfl⟩

theorem Lowering.Numbered.isNumbered {i j : Nat} {x : String} (h : Numbered i j x) : IsNumbered x := by
  obtain ⟨hint, n, -, -, rfl⟩ := h
  exact isNumbered_numberedName hint n

namespace Lowered.Node

def isDecl : Node → Bool
  | .decl .. => true
  | _ => false

/-- The names of variables in the node itself are numbered, and its bindings, if it has any, are all of
those that stand there. -/
def NeatHere : Node → Prop
  | .var x => IsNumbered x
  | .decl bindings body => bindings ≠ [] ∧ (∀ b ∈ bindings, IsNumbered b.1) ∧ body.isDecl = false
  | .func name params captures _ _ =>
    (∀ x ∈ name, IsNumbered x) ∧ ∀ p ∈ params ++ captures, IsNumbered p.name
  | .matchOn _ clauses _ => ∀ clause ∈ clauses, ∀ x ∈ clause.1.boundNames, IsNumbered x
  | _ => True

/-- All of the node is neat. -/
abbrev Neat (n : Node) : Prop := n.Everywhere (fun _ => NeatHere) []

/-- The bindings are neat, and may come before any node without bindings. -/
def BindingsNeat (bs : List (String × Node)) : Prop := ∀ b ∈ bs, IsNumbered b.1 ∧ b.2.Neat

section

variable {bs bs' : List (String × Node)} {n : Node}

theorem BindingsNeat.append (h : BindingsNeat bs) (h' : BindingsNeat bs') : BindingsNeat (bs ++ bs') :=
  List.forall_mem_append.mpr ⟨h, h'⟩

theorem Neat.wrapDecl {a : Node} (hbs : BindingsNeat bs) (hdecl : n.isDecl = false) (hn : n.Neat)
    (h : Node.wrapDecl bs n = .ok a) : a.Neat := by
  cases bs with
  | nil =>
    cases h
    exact hn
  | cons b bs =>
    rcases wrapDecl_eq_ok h with ⟨hnil, -⟩ | rfl
    · cases hnil
    · refine ⟨⟨List.cons_ne_nil b bs, fun b' hb' => (hbs b' hb').1, hdecl⟩, ?_, hn.inScope _⟩
      exact bindingsEverywhere_of_forall (fun b' hb' => (hbs b' hb').2) []

end

end Lowered.Node

namespace Lowering

open Lowered.Node

/-- All names that variables stand for are numbered. -/
def Naming.AllNumbered (σ : Naming) : Prop := ∀ ⦃y x⦄, σ y = some x → IsNumbered x

section

variable {σ : Naming} {k : Nat} {mode : Scoping} {L : Linkage}

namespace Naming.AllNumbered

theorem empty : Naming.empty.AllNumbered := by
  intro y x h
  cases h

theorem bind (h : σ.AllNumbered) (id : Nat) {x : String} (hx : IsNumbered x) :
    (σ.bind id x).AllNumbered := by
  intro y z hz
  by_cases hy : y = id
  · rw [hy, Naming.bind_self] at hz
    cases hz
    exact hx
  · rw [Naming.bind_of_ne hy] at hz
    exact h hz

theorem bindVars (h : σ.AllNumbered) (vs : List Var) (k : Nat) : (σ.bindVars vs k).AllNumbered := by
  induction vs generalizing σ k with
  | nil => exact h
  | cons v vs ih => exact ih (h.bind v.id (isNumbered_numberedName v.name k)) (k + 1)

theorem after (h : σ.AllNumbered) (mode : Scoping) (e : Expr) (k : Nat) :
    (mode.after e k σ).AllNumbered := by
  cases mode with
  | lexical => exact h
  | threaded =>
    intro y x hx
    by_cases hy : y ∈ e.exposed
    · obtain ⟨z, hz, hafter⟩ := (leaves_expr e k).named y hy
      cases (hafter σ).symm.trans hx
      exact hz.isNumbered
    · exact h (((leaves_expr e k).other y hy σ).symm.trans hx)

theorem captures (h : σ.AllNumbered) {vs : List Var} {ps : List Param}
    (hps : List.Forall₂ (fun v p => σ v.id = some p.name) vs ps) : ∀ p ∈ ps, IsNumbered p.name := by
  induction hps with
  | nil => exact List.forall_mem_nil _
  | cons hv _ ih => exact List.forall_mem_cons.mpr ⟨h hv, ih⟩

end Naming.AllNumbered

theorem LowersFunction.neat {own : Option (Nat × String)} {params : List Var} {body : Expr}
    {bs : List (String × Node)} {n : Node} {f : Lowered.Function}
    (h : LowersFunction σ k own params body bs n f) (hσ : σ.AllNumbered)
    (hown : ∀ x ∈ own.map Prod.snd, IsNumbered x) (hbs : BindingsNeat bs) (hdecl : n.isDecl = false)
    (hn : n.Neat) : f.toNode.Neat := by
  have hparams : ∀ p ∈ f.params, IsNumbered p.name := by
    intro p hp
    have hmem : p.name ∈ numberedNames params k := h.param_names ▸ List.mem_map_of_mem hp
    exact (numbered_of_mem hmem).isNumbered
  refine ⟨⟨?_, List.forall_mem_append.mpr ⟨hparams, hσ.captures h.capture_names⟩⟩, ?_⟩
  · rw [h.name_eq]
    exact hown
  · exact (Neat.wrapDecl hbs hdecl hn h.body_eq).inScope _

/-- What an expression is lowered to is neat. -/
theorem neat_cases : Lowers.Cases L mode
    (fun σ _ _ bs n => σ.AllNumbered → BindingsNeat bs ∧ n.isDecl = false ∧ n.Neat)
    (fun σ _ _ bs ns => σ.AllNumbered →
      BindingsNeat bs ∧ Node.AllEverywhere (fun _ => NeatHere) [] ns)
    (fun σ _ _ cs => σ.AllNumbered →
      ∀ clause ∈ cs, (∀ x ∈ clause.1.boundNames, IsNumbered x) ∧ clause.2.Neat) where
  var _ hx := fun hσ => ⟨List.forall_mem_nil _, rfl, hσ hx⟩
  const _ := fun _ => ⟨List.forall_mem_nil _, rfl, trivial⟩
  letFunction v params fbody body _ hfunction _ ihf ih := by
    intro hσ
    have hname := isNumbered_numberedName v.name
    obtain ⟨hbs₁, hdecl₁, hn₁⟩ := ihf ((hσ.bind v.id (hname _)).bindVars params _)
    obtain ⟨hbs₂, hdecl₂, hn₂⟩ := ih (hσ.bind v.id (hname _))
    have hnode := hfunction.neat (hσ.bind v.id (hname _))
      (fun x hx => Option.some.inj hx ▸ hname _) hbs₁ hdecl₁ hn₁
    exact ⟨List.forall_mem_cons.mpr ⟨⟨hname _, hnode⟩, hbs₂⟩, hdecl₂, hn₂⟩
  letValue v value body _ _ _ ihv ih := by
    intro hσ
    have hname := isNumbered_numberedName v.name
    obtain ⟨hbs₁, -, hn₁⟩ := ihv hσ
    obtain ⟨hbs₂, hdecl₂, hn₂⟩ := ih ((hσ.after mode value _).bind v.id (hname _))
    exact ⟨hbs₁.append (List.forall_mem_cons.mpr ⟨⟨hname _, hn₁⟩, hbs₂⟩), hdecl₂, hn₂⟩
  func params body _ hfunction ih := by
    intro hσ
    obtain ⟨hbs, hdecl, hn⟩ := ih (hσ.bindVars params _)
    have hnode := hfunction.neat hσ (by intro x hx; cases hx) hbs hdecl hn
    exact ⟨List.forall_mem_nil _, rfl, hnode⟩
  global _ _ := fun _ => ⟨List.forall_mem_nil _, rfl, trivial⟩
  callKernel name args _ _ _ ihs := by
    intro hσ
    obtain ⟨hbs, hns⟩ := ihs hσ
    exact ⟨hbs, rfl, trivial, hns⟩
  callGlobal name args _ _ ihs := by
    intro hσ
    obtain ⟨hbs, hns⟩ := ihs hσ
    exact ⟨hbs, rfl, trivial, hns⟩
  call callee args _ _ _ ih ihs := by
    intro hσ
    obtain ⟨hbs₁, -, hn⟩ := ih hσ
    obtain ⟨hbs₂, hns⟩ := ihs (hσ.after mode callee _)
    exact ⟨hbs₁.append hbs₂, rfl, trivial, hn, hns⟩
  ite cond onTrue onFalse _ _ hwrapTrue _ hwrapFalse ihc iht ihf := by
    intro hσ
    obtain ⟨hbs, -, hn⟩ := ihc hσ
    obtain ⟨hbs₁, hdecl₁, hn₁⟩ := iht (hσ.after mode cond _)
    obtain ⟨hbs₂, hdecl₂, hn₂⟩ := ihf ((hσ.after mode cond _).after mode onTrue _)
    exact ⟨hbs, rfl, trivial, hn, Neat.wrapDecl hbs₁ hdecl₁ hn₁ hwrapTrue,
      Neat.wrapDecl hbs₂ hdecl₂ hn₂ hwrapFalse⟩
  tuple fields _ ihs := by
    intro hσ
    obtain ⟨hbs, hns⟩ := ihs hσ
    exact ⟨hbs, rfl, trivial, hns⟩
  matchOn data clauses _ _ ih ihs := by
    intro hσ
    obtain ⟨hbs, -, hn⟩ := ih hσ
    have hcs := ihs (hσ.after mode data _)
    exact ⟨hbs, rfl, fun clause hclause => (hcs clause hclause).1, hn,
      clausesEverywhere_of_forall (fun clause hclause => (hcs clause hclause).2) []⟩
  construct name fields _ _ ihs := by
    intro hσ
    obtain ⟨hbs, hns⟩ := ihs hσ
    exact ⟨hbs, rfl, trivial, hns⟩
  nil := fun _ => ⟨List.forall_mem_nil _, trivial⟩
  cons e es _ _ ih ihs := by
    intro hσ
    obtain ⟨hbs₁, -, hn⟩ := ih hσ
    obtain ⟨hbs₂, hns⟩ := ihs (hσ.after mode e _)
    exact ⟨hbs₁.append hbs₂, hn, hns⟩
  nilClause := fun _ => List.forall_mem_nil _
  consClause p e rest hp _ hwrap _ ih ihs := by
    intro hσ
    obtain ⟨hbs, hdecl, hn⟩ := ih (hσ.bindVars p.boundVars _)
    refine List.forall_mem_cons.mpr ⟨⟨fun x hx => ?_, Neat.wrapDecl hbs hdecl hn hwrap⟩, ihs hσ⟩
    rw [hp.boundNames_eq] at hx
    exact (numbered_of_mem hx).isNumbered

/-- The function of a whole definition is neat, and so are its parameters. -/
theorem LowersDefinition.neat {f : Source.Function} {f' : Lowered.Function}
    (h : LowersDefinition L mode f f') :
    (∀ p ∈ f'.params, IsNumbered p.name) ∧ f'.body.Neat := by
  constructor
  · intro p hp
    have hmem : p.name ∈ numberedNames f.params 0 := h.param_names ▸ List.mem_map_of_mem hp
    exact (numbered_of_mem hmem).isNumbered
  · obtain ⟨bs, n, hbody, hwrap⟩ := h.body_eq
    obtain ⟨hbs, hdecl, hn⟩ := neat_cases.expr hbody (Naming.AllNumbered.empty.bindVars f.params 0)
    exact Neat.wrapDecl hbs hdecl hn hwrap

theorem Accepts.neat {f : Source.Function} {f' : Lowered.Function} (h : Accepts f f') :
    (∀ p ∈ f'.params, IsNumbered p.name) ∧ f'.body.Neat := by
  obtain ⟨c, ret, s', g, g', hfunction⟩ := h
  exact (function_threaded hfunction).neat

end

end Lowering

end TensorIR
