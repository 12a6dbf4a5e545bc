import TensorIR.Proofs.PlainCode
import TensorIR.Proofs.PrintedLeaves
import TensorIR.Proofs.References

/-! Reading code.

A node can be read off its text together with the shapes of its literals, up to its plain form and the
places of globals, if names are words and constructors have as many fields as their names say
(`Node.LegibleHere`). Each part of the text ends where something follows that cannot go on with it; the
hard case is a callee, which is followed by its arguments in parentheses. -/

namespace TensorIR.Lowered

open Printed

/-! ## Lines and blocks -/

theorem toList_newline_succ (depth : Nat) :
    (newline (depth + 1)).toList = (newline depth).toList ++ [' ', ' '] := by
  rw [newline, String.toList_append]
  rfl

theorem newline_eq_cons (depth : Nat) : ∃ u, (newline depth).toList = '\n' :: u := by
  induction depth with
  | zero => exact ⟨[], rfl⟩
  | succ depth ih =>
    obtain ⟨u, hu⟩ := ih
    exact ⟨u ++ [' ', ' '], by rw [toList_newline_succ, hu, List.cons_append]⟩

theorem partEnds_newline (depth : Nat) (r : List Char) : PartEnds ((newline depth).toList ++ r) := by
  obtain ⟨u, hu⟩ := newline_eq_cons depth
  rw [hu]
  exact partEnds_cons (by decide) (by decide) (by decide)

theorem balanced_newline (depth : Nat) : Balanced (newline depth).toList := by
  induction depth with
  | zero => exact .of_all (by decide)
  | succ depth ih =>
    rw [toList_newline_succ]
    exact ih.append (.of_all (by decide))

theorem toList_block (depth : Nat) (inner : String) (r : List Char) :
    (block depth inner).toList ++ r = '\x7b' :: ((newline (depth + 1)).toList ++
      (inner.toList ++ ((newline depth).toList ++ '\x7d' :: r))) := by
  simp [block]

theorem partEnds_block (depth : Nat) (inner : String) (r : List Char) :
    PartEnds (' ' :: ((block depth inner).toList ++ r)) := by
  rw [toList_block]
  exact partEnds_blank (by decide)

theorem balanced_block {inner : String} (depth : Nat) (h : Balanced inner.toList) :
    Balanced (block depth inner).toList := by
  rw [← List.append_nil (block depth inner).toList, toList_block]
  refine .cons (by decide) (by decide) ((balanced_newline _).append (h.append ?_))
  exact (balanced_newline depth).append (.of_all (by decide))

/-! ## The heads of functions -/

/-- The characters of the name of a function literal. -/
def nameChars : Option String → List Char
  | some name => ' ' :: name.toList
  | none => []

/-- The characters of the captures of a function literal. -/
def captureChars : List Param → List Char
  | [] => []
  | captures => " captures [".toList ++ ((paramTexts captures).toList ++ [']'])

theorem captureChars_cons_append (c : Param) (captures : List Param) (u : List Char) :
    captureChars (c :: captures) ++ u =
      " captures [".toList ++ ((paramTexts (c :: captures)).toList ++ ']' :: u) := by
  rw [captureChars, List.append_assoc, List.append_assoc]
  · rfl
  · exact List.cons_ne_nil c captures

theorem toList_functionHead (name : Option String) (params captures : List Param) (ret : Ty)
    (r : List Char) : (functionHead name params captures ret).toList ++ r =
      "fn".toList ++ (nameChars name ++ '(' :: ((paramTexts params).toList ++ ')' ::
        (captureChars captures ++ (" -> ".toList ++ (ret.text.toList ++ r))))) := by
  cases name with
  | none =>
    cases captures <;> simp [functionHead, nameChars, captureChars]
  | some name =>
    cases captures <;> simp [functionHead, nameChars, captureChars]

/-- What the head of a function literal says can be read: it has words for its names. -/
structure HeadLegible (name : Option String) (params captures : List Param) (ret : Ty) : Prop where
  name : ∀ x ∈ name, IsWord x
  params : ∀ p ∈ params, p.Legible
  captures : ∀ p ∈ captures, p.Legible
  ret : ret.Spelled

theorem nameChars_append_inj {name name' : Option String} {u u' : List Char}
    (h : ∀ x ∈ name, IsWord x) (h' : ∀ x ∈ name', IsWord x)
    (heq : nameChars name ++ '(' :: u = nameChars name' ++ '(' :: u') : name = name' ∧ u = u' := by
  cases name with
  | none =>
    cases name' with
    | none =>
      injection heq with _ hrest
      exact ⟨rfl, hrest⟩
    | some name' =>
      injection heq with hfirst
      exact absurd hfirst (by decide)
  | some name =>
    cases name' with
    | none =>
      injection heq with hfirst
      exact absurd hfirst (by decide)
    | some name' =>
      injection heq with _ heq
      obtain ⟨hname, hrest⟩ := (h name rfl).append_inj (h' name' rfl) (stopsAt_cons.mpr (by decide))
        (stopsAt_cons.mpr (by decide)) heq
      injection hrest with _ hrest
      exact ⟨by rw [hname], hrest⟩

theorem captureChars_append_inj {captures captures' : List Param} {u u' : List Char}
    (h : ∀ p ∈ captures, p.Legible) (h' : ∀ p ∈ captures', p.Legible)
    (heq : captureChars captures ++ (" -> ".toList ++ u) =
      captureChars captures' ++ (" -> ".toList ++ u')) : captures = captures' ∧ u = u' := by
  cases captures with
  | nil =>
    cases captures' with
    | nil => exact ⟨rfl, List.append_cancel_left (List.append_cancel_left heq)⟩
    | cons c' captures' => simp [captureChars] at heq
  | cons c captures =>
    cases captures' with
    | nil => simp [captureChars] at heq
    | cons c' captures' =>
      rw [captureChars_cons_append, captureChars_cons_append] at heq
      obtain ⟨hcaptures, hrest⟩ := paramTexts_append_inj (by decide) (by decide)
        (fun u => partEnds_cons (by decide) (by decide) (by decide)) h h' (List.append_cancel_left heq)
      exact ⟨hcaptures, List.append_cancel_left hrest⟩

theorem functionHead_append_inj {name name' : Option String}
    {params params' captures captures' : List Param} {ret ret' : Ty} {u u' : List Char}
    (h : HeadLegible name params captures ret) (h' : HeadLegible name' params' captures' ret')
    (hu : PartEnds u) (hu' : PartEnds u')
    (heq : (functionHead name params captures ret).toList ++ u =
      (functionHead name' params' captures' ret').toList ++ u') :
    name = name' ∧ params = params' ∧ captures = captures' ∧ ret = ret' ∧ u = u' := by
  rw [toList_functionHead, toList_functionHead] at heq
  obtain ⟨hname, heq⟩ := nameChars_append_inj h.name h'.name (List.append_cancel_left heq)
  obtain ⟨hparams, heq⟩ := paramTexts_append_inj (by decide) (by decide) partEnds_close h.params
    h'.params heq
  obtain ⟨hcaptures, heq⟩ := captureChars_append_inj h.captures h'.captures heq
  obtain ⟨hret, hrest⟩ := Ty.text_append_inj h.ret h'.ret hu hu' heq
  exact ⟨hname, hparams, hcaptures, hret, hrest⟩

theorem balanced_functionHead {name : Option String} {params captures : List Param} {ret : Ty}
    (h : HeadLegible name params captures ret) :
    Balanced (functionHead name params captures ret).toList := by
  have hname : Balanced (nameChars name) := by
    cases name with
    | none => exact .nil
    | some name => exact (h.name name rfl).balanced.cons (by decide) (by decide)
  have hcaptures : Balanced (captureChars captures) := by
    cases captures with
    | nil => exact .nil
    | cons c captures =>
      have hopen : Balanced " captures [".toList := .of_all (by decide)
      have hclose : Balanced "]".toList := .of_all (by decide)
      exact hopen.append ((balanced_paramTexts h.captures).append hclose)
  have hfn : Balanced "fn".toList := .of_all (by decide)
  have harrow : Balanced " -> ".toList := .of_all (by decide)
  have htail := hcaptures.append (harrow.append ((Ty.balanced_text h.ret).append .nil))
  rw [← List.append_nil (functionHead name params captures ret).toList, toList_functionHead]
  exact hfn.append (hname.append ((balanced_paramTexts h.params).parens_append htail))

namespace Node

/-! ## Shapes of literals -/

mutual

/-- The shapes of the literals in the node, in the order in which they are printed. -/
def literalShapes : Node → List Shape
  | .var _ | .global _ => []
  | .literal t => [t.shape]
  | .decl bindings body => bindingShapes bindings ++ body.literalShapes
  | .packed _ _ args _ _ | .invoke _ args => listShapes args
  | .apply callee args => callee.literalShapes ++ listShapes args
  | .func _ _ _ body _ => body.literalShapes
  | .ite cond onTrue onFalse _ =>
    cond.literalShapes ++ (onTrue.literalShapes ++ onFalse.literalShapes)
  | .tuple fields _ | .ctor _ _ fields _ => listShapes fields
  | .matchOn data clauses _ => data.literalShapes ++ clauseShapes clauses

def listShapes : List Node → List Shape
  | [] => []
  | n :: ns => n.literalShapes ++ listShapes ns

def bindingShapes : List (String × Node) → List Shape
  | [] => []
  | (_, n) :: rest => n.literalShapes ++ bindingShapes rest

def clauseShapes : List (Pattern × Node) → List Shape
  | [] => []
  | (_, n) :: rest => n.literalShapes ++ clauseShapes rest

end

theorem listShapes_eq_flatMap (ns : List Node) : listShapes ns = ns.flatMap literalShapes := by
  induction ns with
  | nil => rfl
  | cons n ns ih => rw [listShapes, ih, List.flatMap_cons]

theorem textsAt_eq_map (depth : Nat) (ns : List Node) : textsAt depth ns = ns.map (textAt depth) := by
  induction ns with
  | nil => rfl
  | cons n ns ih => rw [textsAt, ih, List.map_cons]

/-! ## Texts and shapes of plain code -/

mutual

theorem literalShapes_plain : ∀ n : Node, n.plain.literalShapes = n.literalShapes
  | .var _ | .literal _ | .global _ => rfl
  | .decl bindings body => by
    rw [plain, literalShapes, literalShapes, bindingShapes_plain bindings, literalShapes_plain body]
  | .packed _ _ args _ _ => by rw [plain, literalShapes, literalShapes, listShapes_plain args]
  | .invoke _ args => by
    rw [plain, literalShapes, literalShapes, literalShapes, List.nil_append, listShapes_plain args]
  | .apply callee args => by
    rw [plain, literalShapes, literalShapes, literalShapes_plain callee, listShapes_plain args]
  | .func _ _ _ body _ => by rw [plain, literalShapes, literalShapes, literalShapes_plain body]
  | .ite cond onTrue onFalse _ => by
    rw [plain, literalShapes, literalShapes, literalShapes_plain cond, literalShapes_plain onTrue,
      literalShapes_plain onFalse]
  | .tuple fields _ => by rw [plain, literalShapes, literalShapes, listShapes_plain fields]
  | .matchOn data clauses _ => by
    rw [plain, literalShapes, literalShapes, literalShapes_plain data, clauseShapes_plain clauses]
  | .ctor _ _ fields _ => by rw [plain, literalShapes, literalShapes, listShapes_plain fields]

theorem listShapes_plain : ∀ ns : List Node, listShapes (plainAll ns) = listShapes ns
  | [] => rfl
  | n :: ns => by rw [plainAll, listShapes, listShapes, literalShapes_plain n, listShapes_plain ns]

theorem bindingShapes_plain : ∀ bs : List (String × Node),
    bindingShapes (plainBindings bs) = bindingShapes bs
  | [] => rfl
  | (_, n) :: bs => by
    rw [plainBindings, bindingShapes, bindingShapes, literalShapes_plain n, bindingShapes_plain bs]

theorem clauseShapes_plain : ∀ cs : List (Pattern × Node),
    clauseShapes (plainClauses cs) = clauseShapes cs
  | [] => rfl
  | (_, n) :: cs => by
    rw [plainClauses, clauseShapes, clauseShapes, literalShapes_plain n, clauseShapes_plain cs]

end

theorem textAt_apply_global (depth : Nat) (target : GlobalRef) (args : List Node) :
    (Node.apply (.global target) args).textAt depth = (Node.invoke target args).textAt depth := by
  rw [textAt, textAt, textAt, ← String.append_assoc]
  rfl

mutual

theorem textAt_plain : ∀ (n : Node) (depth : Nat), n.plain.textAt depth = n.textAt depth
  | .var _, _ | .literal _, _ | .global _, _ => rfl
  | .decl bindings body, depth => by
    rw [plain, textAt, textAt, bindingsTextAt_plain bindings depth, textAt_plain body depth]
  | .packed _ _ args _ _, depth => by rw [plain, textAt, textAt, textsAt_plain args depth]
  | .invoke target args, depth => by
    rw [plain, textAt_apply_global, textAt, textAt, textsAt_plain args depth]
  | .apply callee args, depth => by
    rw [plain, textAt, textAt, textAt_plain callee depth, textsAt_plain args depth]
  | .func _ _ _ body _, depth => by rw [plain, textAt, textAt, textAt_plain body (depth + 1)]
  | .ite cond onTrue onFalse _, depth => by
    rw [plain, textAt, textAt, textAt_plain cond depth, textAt_plain onTrue (depth + 1),
      textAt_plain onFalse (depth + 1)]
  | .tuple fields _, depth => by rw [plain, textAt, textAt, textsAt_plain fields depth]
  | .matchOn data clauses _, depth => by
    rw [plain, textAt, textAt, textAt_plain data depth, clausesTextAt_plain clauses depth]
  | .ctor _ _ fields _, depth => by rw [plain, textAt, textAt, textsAt_plain fields depth]

theorem textsAt_plain : ∀ (ns : List Node) (depth : Nat),
    textsAt depth (plainAll ns) = textsAt depth ns
  | [], _ => rfl
  | n :: ns, depth => by
    rw [plainAll, textsAt, textsAt, textAt_plain n depth, textsAt_plain ns depth]

theorem bindingsTextAt_plain : ∀ (bs : List (String × Node)) (depth : Nat),
    bindingsTextAt depth (plainBindings bs) = bindingsTextAt depth bs
  | [], _ => rfl
  | (_, n) :: bs, depth => by
    rw [plainBindings, bindingsTextAt, bindingsTextAt, textAt_plain n depth,
      bindingsTextAt_plain bs depth]

theorem clausesTextAt_plain : ∀ (cs : List (Pattern × Node)) (depth : Nat),
    clausesTextAt depth (plainClauses cs) = clausesTextAt depth cs
  | [], _ => rfl
  | (_, n) :: cs, depth => by
    rw [plainClauses, clausesTextAt, clausesTextAt, textAt_plain n (depth + 2),
      clausesTextAt_plain cs depth]

end

/-! ## What can be read -/

/-- The forms of nodes that can be told apart. All calls of functions have one form. -/
inductive Form where
  | var
  | literal
  | global
  | decl
  | packed
  | call
  | func
  | ite
  | tuple
  | matchOn
  | ctor
deriving DecidableEq

def form : Node → Form
  | .var _ => .var
  | .literal _ => .literal
  | .global _ => .global
  | .decl .. => .decl
  | .packed .. => .packed
  | .invoke .. | .apply .. => .call
  | .func .. => .func
  | .ite .. => .ite
  | .tuple .. => .tuple
  | .matchOn .. => .matchOn
  | .ctor .. => .ctor

/-- What is said by the node itself can be read off its text. -/
def LegibleHere (arity : String → Nat) : Node → Prop
  | .var x => IsVarName x
  | .literal t => t.dtype.isDiscrete = true
  | .global target | .invoke target _ => IsWord target.name
  | .decl bindings body => bindings ≠ [] ∧ (∀ b ∈ bindings, IsWord b.1) ∧ body.form ≠ .decl
  | .packed name _ _ ty _ => IsWord name ∧ ty.Spelled
  | .func name params captures _ ret => HeadLegible name params captures ret
  | .ite _ _ _ ty => ty.Spelled
  | .matchOn _ clauses ty => (∀ clause ∈ clauses, clause.1.Legible) ∧ ty.Spelled
  | .ctor _ name fields _ => IsWord name ∧ fields.length = arity name
  | .apply .. | .tuple .. => True

/-- All of the node can be read off its text. -/
abbrev Legible (arity : String → Nat) (scope : List String) (n : Node) : Prop :=
  n.Everywhere (fun _ => LegibleHere arity) scope

section

variable {arity : String → Nat}

/-! ## Parentheses in code -/

mutual

theorem balanced_textAt : ∀ {n : Node} {scope : List String}, n.Legible arity scope →
    ∀ depth, Balanced (n.textAt depth).toList
  | .var _, _, h, _ => h.toIsWord.balanced
  | .literal t, _, h, _ => by
    have hconst : Balanced "const".toList := .of_all (by decide)
    rw [textAt, String.toList_append, String.toList_append, List.append_assoc]
    exact hconst.append (Tensor.balanced_text h).parens
  | .global target, _, h, _ => by
    rw [textAt, String.toList_append]
    exact IsWord.balanced h |>.cons (by decide) (by decide)
  | .decl bindings body, _, h, depth => by
    rw [textAt, String.toList_append]
    exact (balanced_bindingsTextAt h.1.2.1 h.2.1 depth).append (balanced_textAt h.2.2 depth)
  | .packed name ar args ty tupled, _, h, depth => by
    have hhead : Balanced "packed ".toList := .of_all (by decide)
    have hslash : Balanced "/".toList := .of_all (by decide)
    have hmark : Balanced (if tupled then " tuple" else "").toList := by
      cases tupled <;> exact .of_all (by decide)
    have hcolon : Balanced " : ".toList := .of_all (by decide)
    have hargs := (Balanced.commaSeparated (balanced_textsAt h.2 depth)).parens
    simp only [textAt, String.toList_append, toList_parenthesized]
    exact ((((((hhead.append h.1.1.balanced).append hslash).append
      (isWord_toString ar).balanced).append hmark).append hargs).append hcolon).append
        (Ty.balanced_text h.1.2)
  | .invoke target args, _, h, depth => by
    have hhead : Balanced "invoke @".toList := .of_all (by decide)
    have hargs := (Balanced.commaSeparated (balanced_textsAt h.2 depth)).parens
    simp only [textAt, String.toList_append, toList_parenthesized]
    exact (hhead.append (IsWord.balanced h.1)).append hargs
  | .apply callee args, _, h, depth => by
    have hhead : Balanced "invoke ".toList := .of_all (by decide)
    have hargs := (Balanced.commaSeparated (balanced_textsAt h.2.2 depth)).parens
    simp only [textAt, String.toList_append, toList_parenthesized]
    exact (hhead.append (balanced_textAt h.2.1 depth)).append hargs
  | .func _ _ _ body _, _, h, depth => by
    have hblank : Balanced " ".toList := .of_all (by decide)
    simp only [textAt, String.toList_append]
    exact ((balanced_functionHead h.1).append hblank).append
      (balanced_block depth (balanced_textAt h.2 (depth + 1)))
  | .ite cond onTrue onFalse ty, _, h, depth => by
    have hhead : Balanced "if ".toList := .of_all (by decide)
    have hblank : Balanced " ".toList := .of_all (by decide)
    have helse : Balanced " else ".toList := .of_all (by decide)
    have hcolon : Balanced " : ".toList := .of_all (by decide)
    simp only [textAt, String.toList_append]
    exact (((((((hhead.append (balanced_textAt h.2.1 depth)).append hblank).append
      (balanced_block depth (balanced_textAt h.2.2.1 (depth + 1)))).append helse).append
        (balanced_block depth (balanced_textAt h.2.2.2 (depth + 1)))).append hcolon).append
          (Ty.balanced_text h.1))
  | .tuple fields _, _, h, depth => by
    rw [textAt, toList_parenthesized]
    exact (Balanced.commaSeparated (balanced_textsAt h.2 depth)).parens
  | .matchOn data clauses ty, _, h, depth => by
    have hhead : Balanced "match ".toList := .of_all (by decide)
    have hopen : Balanced " \x7b".toList := .of_all (by decide)
    have hclose : Balanced "\x7d : ".toList := .of_all (by decide)
    simp only [textAt, String.toList_append]
    exact (((((hhead.append (balanced_textAt h.2.1 depth)).append hopen).append
      (balanced_clausesTextAt h.1.1 h.2.2 depth)).append (balanced_newline depth)).append
        hclose).append (Ty.balanced_text h.1.2)
  | .ctor tag _ _ _, _, h, depth => balanced_taggedText h.1.1 tag (balanced_textsAt h.2 depth)

theorem balanced_textsAt : ∀ {ns : List Node} {scope : List String},
    Node.AllEverywhere (fun _ => LegibleHere arity) scope ns →
      ∀ depth, ∀ item ∈ textsAt depth ns, Balanced item.toList
  | [], _, _, _ => fun _ hitem => absurd hitem List.not_mem_nil
  | n :: ns, _, h, depth => by
    rw [textsAt, List.forall_mem_cons]
    exact ⟨balanced_textAt h.1 depth, balanced_textsAt h.2 depth⟩

theorem balanced_bindingsTextAt : ∀ {bs : List (String × Node)} {scope : List String},
    (∀ b ∈ bs, IsWord b.1) → Node.BindingsEverywhere (fun _ => LegibleHere arity) scope bs →
      ∀ depth, Balanced (bindingsTextAt depth bs).toList
  | [], _, _, _, _ => .nil
  | (x, n) :: bs, _, hwords, h, depth => by
    rw [List.forall_mem_cons] at hwords
    have hlet : Balanced "let ".toList := .of_all (by decide)
    have heq : Balanced " = ".toList := .of_all (by decide)
    simp only [bindingsTextAt, String.toList_append]
    exact ((((hlet.append hwords.1.balanced).append heq).append (balanced_textAt h.1 depth)).append
      (balanced_newline depth)).append (balanced_bindingsTextAt hwords.2 h.2 depth)

theorem balanced_clausesTextAt : ∀ {cs : List (Pattern × Node)} {scope : List String},
    (∀ clause ∈ cs, clause.1.Legible) →
      Node.ClausesEverywhere (fun _ => LegibleHere arity) scope cs →
        ∀ depth, Balanced (clausesTextAt depth cs).toList
  | [], _, _, _, _ => .nil
  | (p, n) :: cs, _, hpatterns, h, depth => by
    rw [List.forall_mem_cons] at hpatterns
    have harrow : Balanced " =>".toList := .of_all (by decide)
    simp only [clausesTextAt, String.toList_append]
    exact (((((balanced_newline (depth + 1)).append (Pattern.balanced_text hpatterns.1)).append
      harrow).append (balanced_newline (depth + 2))).append (balanced_textAt h.1 (depth + 2))).append
        (balanced_clausesTextAt hpatterns.2 h.2 depth)

end

/-! ## Forms -/

/-- The words that nodes of most forms start with. -/
def keywords : List (String × Form) :=
  [("const", .literal), ("let", .decl), ("packed", .packed), ("invoke", .call), ("fn", .func),
    ("if", .ite), ("match", .matchOn)]

/-- The form of a node that starts with a word, from the word and what follows it. -/
def formOfWord (x : String) (rest : List Char) : Form :=
  if rest.head? = some '#' then .ctor
  else if '_' ∈ x.toList then .var
  else (keywords.lookup x).getD .var

/-- The form of the node at the start of the text. -/
def readForm : List Char → Form
  | '@' :: _ => .global
  | '(' :: _ => .tuple
  | cs => formOfWord (String.ofList (cs.takeWhile wordChar)) (cs.dropWhile wordChar)

theorem readForm_word {x : String} {r : List Char} (hx : IsWord x) (hr : StopsAt wordChar r) :
    readForm (x.toList ++ r) = formOfWord x r := by
  have hat : NotFirst '@' x := hx.notFirst (by decide)
  have hopen : NotFirst '(' x := hx.notFirst (by decide)
  unfold readForm
  split
  · next heq =>
    obtain ⟨c, u, hcu, hne⟩ := hat
    rw [hcu] at heq
    injection heq with hfirst
    exact absurd hfirst hne
  · next heq =>
    obtain ⟨c, u, hcu, hne⟩ := hopen
    rw [hcu] at heq
    injection heq with hfirst
    exact absurd hfirst hne
  · rw [takeWhile_append_of_stopsAt hx.chars hr, dropWhile_append_of_stopsAt hx.chars hr,
      String.ofList_toList]

theorem keywords_words {x : String} {f : Form} (h : keywords.lookup x = some f) :
    IsWord x ∧ '_' ∉ x.toList := by
  have hall : keywords.all (fun keyword => !keyword.1.toList.isEmpty &&
      (keyword.1.toList.all wordChar && !keyword.1.toList.contains '_')) = true := by decide
  obtain ⟨before, after, heq, -⟩ := List.lookup_eq_some_iff.mp h
  have hkeyword := List.all_eq_true.mp hall (x, f) (by rw [heq]; simp)
  simp only [Bool.and_eq_true, Bool.not_eq_true'] at hkeyword
  obtain ⟨hne, hchars, hplain⟩ := hkeyword
  exact ⟨.of_all hne hchars, by simpa using hplain⟩

/-- A text that goes on with a blank or a parenthesis after a keyword has the form of the keyword. -/
theorem readForm_keyword {x : String} {f : Form} {c : Char} {u : List Char}
    (hf : keywords.lookup x = some f) (hc : c = ' ' ∨ c = '(') :
    readForm (x.toList ++ c :: u) = f := by
  obtain ⟨hx, hplain⟩ := keywords_words hf
  have hstop : wordChar c = false ∧ c ≠ '#' := by
    rcases hc with rfl | rfl
    · exact ⟨by decide, by decide⟩
    · exact ⟨by decide, by decide⟩
  have hmark : ¬ (c :: u).head? = some '#' := fun h => hstop.2 (Option.some.inj h)
  rw [readForm_word hx (stopsAt_cons.mpr hstop.1), formOfWord, if_neg hmark, if_neg hplain, hf]
  rfl

theorem readForm_let (u : List Char) : readForm ("let ".toList ++ u) = .decl :=
  readForm_keyword (x := "let") (c := ' ') (u := u) rfl (.inl rfl)

theorem readForm_textAt {n : Node} {depth : Nat} {r : List Char} (h : n.LegibleHere arity)
    (hr : PartEnds r) : readForm ((n.textAt depth).toList ++ r) = n.form := by
  cases n with
  | var x =>
    have hmark : ¬ r.head? = some '#' := hr.stops.head?_ne (by decide)
    rw [textAt, readForm_word (IsVarName.toIsWord h) hr.words, formOfWord, if_neg hmark,
      if_pos h.underscore]
    rfl
  | literal t =>
    rw [textAt, String.toList_append, String.toList_append, List.append_assoc, List.append_assoc]
    exact readForm_keyword (x := "const") rfl (.inr rfl)
  | global target =>
    rw [textAt, String.toList_append]
    rfl
  | decl bindings body =>
    obtain ⟨b, bindings, rfl⟩ := List.exists_cons_of_ne_nil h.1
    simp only [textAt, bindingsTextAt, String.toList_append, List.append_assoc]
    exact readForm_let _
  | packed name ar args ty tupled =>
    simp only [textAt, String.toList_append, List.append_assoc]
    exact readForm_keyword (x := "packed") rfl (.inl rfl)
  | invoke target args | apply callee args =>
    simp only [textAt, String.toList_append, List.append_assoc]
    exact readForm_keyword (x := "invoke") rfl (.inl rfl)
  | func name params captures body ret =>
    simp only [textAt, String.toList_append, List.append_assoc]
    rw [toList_functionHead]
    cases name with
    | none => exact readForm_keyword rfl (.inr rfl)
    | some name => exact readForm_keyword rfl (.inl rfl)
  | ite cond onTrue onFalse ty =>
    simp only [textAt, String.toList_append, List.append_assoc]
    exact readForm_keyword (x := "if") rfl (.inl rfl)
  | tuple fields ty =>
    rw [textAt, toList_parenthesized]
    rfl
  | matchOn data clauses ty =>
    simp only [textAt, String.toList_append, List.append_assoc]
    exact readForm_keyword (x := "match") rfl (.inl rfl)
  | ctor tag name fields ty =>
    rw [textAt, toList_taggedText, List.append_assoc, List.cons_append,
      readForm_word h.1 (stopsAt_cons.mpr (by decide)), formOfWord, List.head?_cons, if_pos rfl]
    rfl

theorem form_eq_of_append_eq {n n' : Node} {depth depth' : Nat} {r r' : List Char}
    (h : n.LegibleHere arity) (h' : n'.LegibleHere arity) (hr : PartEnds r) (hr' : PartEnds r')
    (heq : (n.textAt depth).toList ++ r = (n'.textAt depth').toList ++ r') : n.form = n'.form := by
  rw [← readForm_textAt h hr, ← readForm_textAt h' hr', heq]

theorem notFirst_textAt {n : Node} {depth : Nat} (h : n.LegibleHere arity) :
    NotFirst ')' (n.textAt depth) := by
  cases n with
  | var x => exact (IsVarName.toIsWord h).notFirst (by decide)
  | decl bindings body =>
    obtain ⟨b, bindings, rfl⟩ := List.exists_cons_of_ne_nil h.1
    simp [NotFirst, textAt, bindingsTextAt]
  | func name params captures body ret =>
    have hhead : NotFirst ')' (functionHead name params captures ret) := by
      simp [NotFirst, functionHead]
    have htext : ((func name params captures body ret).textAt depth).toList =
        (functionHead name params captures ret).toList ++
          (" ".toList ++ (block depth (body.textAt (depth + 1))).toList) := by
      rw [textAt, String.toList_append, String.toList_append, List.append_assoc]
    exact hhead.of_append htext
  | tuple fields ty => simp [NotFirst, textAt, toList_parenthesized]
  | ctor tag name fields ty =>
    exact (h.1.notFirst (by decide)).of_append (toList_taggedText name tag (textsAt depth fields))
  | _ => simp [NotFirst, textAt]

end

/-! ## Reading nodes -/

section

variable {φ : GlobalRef → GlobalRef} {arity : String → Nat}

/-- The replacement depends on the names of globals only, which is all that is printed of them. -/
def ByName (φ : GlobalRef → GlobalRef) : Prop :=
  ∀ ⦃target target' : GlobalRef⦄, target.name = target'.name → φ target = φ target'

/-- The plain form of the node with other references. -/
def codeWith (φ : GlobalRef → GlobalRef) (n : Node) : Node := (n.mapRefs φ).plain

theorem codeWith_list (ns : List Node) :
    plainAll (mapRefsAll φ ns) = ns.map (codeWith φ) := by
  induction ns with
  | nil => rfl
  | cons n ns ih => rw [mapRefsAll, plainAll, ih, List.map_cons, codeWith]

theorem codeWith_bindings (bs : List (String × Node)) :
    plainBindings (mapRefsBindings φ bs) = bs.map fun b => (b.1, b.2.codeWith φ) := by
  induction bs with
  | nil => rfl
  | cons b bs ih =>
    obtain ⟨x, n⟩ := b
    rw [mapRefsBindings, plainBindings, ih, List.map_cons, codeWith]

theorem codeWith_clauses (cs : List (Pattern × Node)) :
    plainClauses (mapRefsClauses φ cs) = cs.map fun clause => (clause.1, clause.2.codeWith φ) := by
  induction cs with
  | nil => rfl
  | cons clause cs ih =>
    obtain ⟨p, n⟩ := clause
    rw [mapRefsClauses, plainClauses, ih, List.map_cons, codeWith]

/-- The node can be told from every other one that can be read, at any depth. -/
def ReadsAny (φ : GlobalRef → GlobalRef) (arity : String → Nat) (n : Node) : Prop :=
  ∀ ⦃n' : Node⦄ ⦃scope : List String⦄, n'.Legible arity scope → ∀ depth,
    ReadsOff (textAt depth) literalShapes (codeWith φ) PartEnds n n'

theorem readsOff_list {ns ns' : List Node} {scope scope' : List String} {depth : Nat}
    {r r' : List Char} {s s' : List Shape}
    (h : Node.AllEverywhere (fun _ => LegibleHere arity) scope ns)
    (h' : Node.AllEverywhere (fun _ => LegibleHere arity) scope' ns')
    (hread : ∀ n ∈ ns, n.ReadsAny φ arity)
    (heq : (commaSeparated (textsAt depth ns)).toList ++ ')' :: r =
      (commaSeparated (textsAt depth ns')).toList ++ ')' :: r')
    (hs : listShapes ns ++ s = listShapes ns' ++ s') :
    ns.map (codeWith φ) = ns'.map (codeWith φ) ∧ r = r' ∧ s = s' := by
  have hns := allEverywhere_iff.mp h
  have hns' := allEverywhere_iff.mp h'
  rw [textsAt_eq_map, textsAt_eq_map] at heq
  rw [listShapes_eq_flatMap, listShapes_eq_flatMap] at hs
  exact ReadsOff.list (by decide) partEnds_comma partEnds_close
    (fun n hn => notFirst_textAt (hns n hn).here) (fun n hn => notFirst_textAt (hns' n hn).here)
    (fun n hn n' hn' => hread n hn (hns' n' hn') depth) heq hs

theorem readsOff_block {n n' : Node} {scope : List String} {depth : Nat} {r r' : List Char}
    {s s' : List Shape} (hread : n.ReadsAny φ arity) (h' : n'.Legible arity scope)
    (heq : (block depth (n.textAt (depth + 1))).toList ++ r =
      (block depth (n'.textAt (depth + 1))).toList ++ r')
    (hs : n.literalShapes ++ s = n'.literalShapes ++ s') :
    n.codeWith φ = n'.codeWith φ ∧ r = r' ∧ s = s' := by
  rw [toList_block, toList_block] at heq
  injection heq with _ heq
  obtain ⟨hcode, heq, hs⟩ := hread h' (depth + 1) (partEnds_newline _ _) (partEnds_newline _ _)
    (List.append_cancel_left heq) hs
  have hrest := List.append_cancel_left heq
  injection hrest with _ hrest
  exact ⟨hcode, hrest, hs⟩

/-! ### Leaves -/

theorem ReadsAny.var {x : String} (h : (var x).LegibleHere arity) :
    (Node.var x).ReadsAny φ arity := by
  intro n' scope' h' depth r r' s s' hr hr' heq hs
  have hform := form_eq_of_append_eq h h'.here hr hr' heq
  cases n' with
  | var x' =>
    obtain ⟨hname, hrest⟩ := (IsVarName.toIsWord h).append_inj (IsVarName.toIsWord h') hr.words
      hr'.words heq
    exact ⟨by rw [hname], hrest, hs⟩
  | _ => cases hform

theorem ReadsAny.literal {t : Tensor} (h : (literal t).LegibleHere arity) :
    (Node.literal t).ReadsAny φ arity := by
  intro n' scope' h' depth r r' s s' hr hr' heq hs
  have hform := form_eq_of_append_eq h h'.here hr hr' heq
  cases n' with
  | literal t' =>
    simp only [textAt, String.toList_append, String.reduceToList, List.append_assoc,
      List.cons_append, List.nil_append, List.cons.injEq, true_and] at heq
    injection hs with hshape hs
    obtain ⟨htensor, hrest⟩ := Tensor.text_append_inj h h' hshape heq
    exact ⟨by rw [htensor], hrest, hs⟩
  | _ => cases hform

theorem ReadsAny.global (hφ : ByName φ) {target : GlobalRef}
    (h : (global target).LegibleHere arity) : (Node.global target).ReadsAny φ arity := by
  intro n' scope' h' depth r r' s s' hr hr' heq hs
  have hform := form_eq_of_append_eq h h'.here hr hr' heq
  cases n' with
  | global target' =>
    simp only [textAt, String.toList_append, String.reduceToList, List.cons_append, List.nil_append,
      List.cons.injEq, true_and] at heq
    obtain ⟨hname, hrest⟩ := IsWord.append_inj h h' hr.words hr'.words heq
    exact ⟨by rw [codeWith, codeWith, mapRefs, mapRefs, hφ hname], hrest, hs⟩
  | _ => cases hform

/-! ### Calls -/

theorem readsOff_apply {callee callee' : Node} {args args' : List Node} {scope scope' : List String}
    {depth : Nat} {r r' : List Char} {s s' : List Shape} (hcallee : callee.ReadsAny φ arity)
    (hargs : ∀ n ∈ args, n.ReadsAny φ arity)
    (h : Node.AllEverywhere (fun _ => LegibleHere arity) scope args)
    (h' : (Node.apply callee' args').Legible arity scope') (hr : PartEnds r) (hr' : PartEnds r')
    (heq : ((Node.apply callee args).textAt depth).toList ++ r =
      ((Node.apply callee' args').textAt depth).toList ++ r')
    (hs : (Node.apply callee args).literalShapes ++ s = (Node.apply callee' args').literalShapes ++ s') :
    (Node.apply callee args).codeWith φ = (Node.apply callee' args').codeWith φ ∧ r = r' ∧ s = s' := by
  have hbalanced := Balanced.commaSeparated (balanced_textsAt h depth)
  have hbalanced' := Balanced.commaSeparated (balanced_textsAt h'.2.2 depth)
  simp only [textAt, String.toList_append, String.reduceToList, toList_parenthesized,
    List.append_assoc, List.cons_append, List.nil_append, List.cons.injEq, true_and] at heq
  rw [literalShapes, literalShapes, List.append_assoc, List.append_assoc] at hs
  obtain ⟨hcode, heq, hs⟩ := hcallee h'.2.1 depth (hr.parens hbalanced) (hr'.parens hbalanced') heq hs
  injection heq with _ heq
  obtain ⟨hcodes, hrest, hs⟩ := readsOff_list h h'.2.2 hargs heq hs
  refine ⟨?_, hrest, hs⟩
  simp only [codeWith, mapRefs, plain, codeWith_list, hcodes] at hcode ⊢
  rw [hcode]

theorem ReadsAny.apply {callee : Node} {args : List Node} {scope : List String}
    (h : (apply callee args).Legible arity scope) (hcallee : callee.ReadsAny φ arity)
    (hargs : ∀ n ∈ args, n.ReadsAny φ arity) : (Node.apply callee args).ReadsAny φ arity := by
  intro n' scope' h' depth r r' s s' hr hr' heq hs
  have hform := form_eq_of_append_eq h.here h'.here hr hr' heq
  cases n' with
  | apply callee' args' => exact readsOff_apply hcallee hargs h.2.2 h' hr hr' heq hs
  | invoke target' args' =>
    have happly : (Node.apply (.global target') args').Legible arity scope' := ⟨trivial, h'.1, h'.2⟩
    rw [← textAt_apply_global] at heq
    exact readsOff_apply hcallee hargs h.2.2 happly hr hr' heq hs
  | _ => cases hform

theorem ReadsAny.invoke (hφ : ByName φ) {target : GlobalRef} {args : List Node}
    {scope : List String} (h : (invoke target args).Legible arity scope)
    (hargs : ∀ n ∈ args, n.ReadsAny φ arity) : (Node.invoke target args).ReadsAny φ arity := by
  intro n' scope' h' depth r r' s s' hr hr' heq hs
  have happly : (Node.apply (.global target) args).Legible arity scope := ⟨trivial, h.1, h.2⟩
  rw [← textAt_apply_global] at heq
  exact ReadsAny.apply happly (.global hφ h.1) hargs h' depth hr hr' heq hs

theorem tupleMark_append_inj {tupled tupled' : Bool} {u u' : List Char}
    (heq : (if tupled then " tuple" else "").toList ++ '(' :: u =
      (if tupled' then " tuple" else "").toList ++ '(' :: u') : tupled = tupled' ∧ u = u' := by
  cases tupled with
  | false =>
    cases tupled' with
    | false =>
      injection heq with _ hrest
      exact ⟨rfl, hrest⟩
    | true =>
      injection heq with hfirst
      exact absurd hfirst (by decide)
  | true =>
    cases tupled' with
    | false =>
      injection heq with hfirst
      exact absurd hfirst (by decide)
    | true => exact ⟨rfl, (List.cons.inj (List.append_cancel_left heq)).2⟩

theorem stopsAt_tupleMark (tupled : Bool) (u : List Char) :
    StopsAt Char.isDigit ((if tupled then " tuple" else "").toList ++ '(' :: u) := by
  cases tupled <;> exact stopsAt_cons.mpr (by decide)

theorem ReadsAny.packed {name : String} {ar : Nat} {args : List Node} {ty : Ty} {tupled : Bool}
    {scope : List String} (h : (packed name ar args ty tupled).Legible arity scope)
    (hargs : ∀ n ∈ args, n.ReadsAny φ arity) :
    (Node.packed name ar args ty tupled).ReadsAny φ arity := by
  intro n' scope' h' depth r r' s s' hr hr' heq hs
  have hform := form_eq_of_append_eq h.here h'.here hr hr' heq
  cases n' with
  | packed name' ar' args' ty' tupled' =>
    simp only [textAt, toList_parenthesized, String.toList_append, String.reduceToList,
      List.append_assoc, List.cons_append, List.nil_append, List.cons.injEq, true_and] at heq
    obtain ⟨hname, heq⟩ := h.1.1.append_inj h'.1.1 (stopsAt_cons.mpr (by decide))
      (stopsAt_cons.mpr (by decide)) heq
    injection heq with _ heq
    obtain ⟨har, heq⟩ := number_append_inj (stopsAt_tupleMark tupled _) (stopsAt_tupleMark tupled' _)
      heq
    obtain ⟨htupled, heq⟩ := tupleMark_append_inj heq
    obtain ⟨hcodes, heq, hs⟩ := readsOff_list h.2 h'.2 hargs heq hs
    simp only [List.cons.injEq, true_and] at heq
    obtain ⟨hty, hrest⟩ := Ty.text_append_inj h.1.2 h'.1.2 hr hr' heq
    refine ⟨?_, hrest, hs⟩
    simp only [codeWith, mapRefs, plain, codeWith_list]
    rw [hname, har, hcodes, hty, htupled]
  | _ => cases hform

/-! ### Functions and branches -/

theorem ReadsAny.func {name : Option String} {params captures : List Param} {body : Node} {ret : Ty}
    {scope : List String} (h : (func name params captures body ret).Legible arity scope)
    (hbody : body.ReadsAny φ arity) :
    (Node.func name params captures body ret).ReadsAny φ arity := by
  intro n' scope' h' depth r r' s s' hr hr' heq hs
  have hform := form_eq_of_append_eq h.here h'.here hr hr' heq
  cases n' with
  | func name' params' captures' body' ret' =>
    simp only [textAt, String.toList_append, String.reduceToList, List.append_assoc,
      List.cons_append, List.nil_append] at heq
    obtain ⟨hname, hparams, hcaptures, hret, heq⟩ := functionHead_append_inj h.1 h'.1
      (partEnds_block _ _ _) (partEnds_block _ _ _) heq
    injection heq with _ heq
    obtain ⟨hcode, hrest, hs⟩ := readsOff_block hbody h'.2 heq hs
    refine ⟨?_, hrest, hs⟩
    simp only [codeWith, mapRefs, plain] at hcode ⊢
    rw [hname, hparams, hcaptures, hret, hcode]
  | _ => cases hform

theorem ReadsAny.ite {cond onTrue onFalse : Node} {ty : Ty} {scope : List String}
    (h : (ite cond onTrue onFalse ty).Legible arity scope) (hcond : cond.ReadsAny φ arity)
    (htrue : onTrue.ReadsAny φ arity) (hfalse : onFalse.ReadsAny φ arity) :
    (Node.ite cond onTrue onFalse ty).ReadsAny φ arity := by
  intro n' scope' h' depth r r' s s' hr hr' heq hs
  have hform := form_eq_of_append_eq h.here h'.here hr hr' heq
  cases n' with
  | ite cond' onTrue' onFalse' ty' =>
    simp only [textAt, String.toList_append, String.reduceToList, List.append_assoc,
      List.cons_append, List.nil_append, List.cons.injEq, true_and] at heq
    simp only [literalShapes, List.append_assoc] at hs
    obtain ⟨hcond, heq, hs⟩ := hcond h'.2.1 depth (partEnds_block _ _ _) (partEnds_block _ _ _) heq hs
    injection heq with _ heq
    obtain ⟨htrue, heq, hs⟩ := readsOff_block htrue h'.2.2.1 heq hs
    simp only [List.cons.injEq, true_and] at heq
    obtain ⟨hfalse, heq, hs⟩ := readsOff_block hfalse h'.2.2.2 heq hs
    simp only [List.cons.injEq, true_and] at heq
    obtain ⟨hty, hrest⟩ := Ty.text_append_inj h.1 h'.1 hr hr' heq
    refine ⟨?_, hrest, hs⟩
    simp only [codeWith, mapRefs, plain] at hcond htrue hfalse ⊢
    rw [hcond, htrue, hfalse, hty]
  | _ => cases hform

/-! ### Data -/

theorem ReadsAny.tuple {fields : List Node} {ty : Ty} {scope : List String}
    (h : (tuple fields ty).Legible arity scope) (hfields : ∀ n ∈ fields, n.ReadsAny φ arity) :
    (Node.tuple fields ty).ReadsAny φ arity := by
  intro n' scope' h' depth r r' s s' hr hr' heq hs
  have hform := form_eq_of_append_eq h.here h'.here hr hr' heq
  cases n' with
  | tuple fields' ty' =>
    simp only [textAt, toList_parenthesized, List.append_assoc, List.cons_append, List.nil_append,
      List.cons.injEq, true_and] at heq
    obtain ⟨hcodes, hrest, hs⟩ := readsOff_list h.2 h'.2 hfields heq hs
    refine ⟨?_, hrest, hs⟩
    simp only [codeWith, mapRefs, plain, codeWith_list]
    rw [hcodes]
  | _ => cases hform

/-- Variants of one constructor have as many fields, so that there are fields to read in both texts or
in neither. -/
theorem readsOff_fields {ns ns' : List Node} {scope scope' : List String} {depth : Nat}
    {r r' : List Char} {s s' : List Shape}
    (h : Node.AllEverywhere (fun _ => LegibleHere arity) scope ns)
    (h' : Node.AllEverywhere (fun _ => LegibleHere arity) scope' ns')
    (hread : ∀ n ∈ ns, n.ReadsAny φ arity) (hlength : ns.length = ns'.length)
    (heq : fieldChars (textsAt depth ns) ++ r = fieldChars (textsAt depth ns') ++ r')
    (hs : listShapes ns ++ s = listShapes ns' ++ s') :
    ns.map (codeWith φ) = ns'.map (codeWith φ) ∧ r = r' ∧ s = s' := by
  cases ns with
  | nil =>
    cases ns' with
    | nil => exact ⟨rfl, heq, hs⟩
    | cons n' ns' => cases hlength
  | cons n ns =>
    cases ns' with
    | nil => cases hlength
    | cons n' ns' =>
      have hlists : (commaSeparated (textsAt depth (n :: ns))).toList ++ ')' :: r =
          (commaSeparated (textsAt depth (n' :: ns'))).toList ++ ')' :: r' := by
        simpa [fieldChars, textsAt] using heq
      exact readsOff_list h h' hread hlists hs

theorem ReadsAny.ctor {tag : Nat} {name : String} {fields : List Node} {ty : Ty}
    {scope : List String} (h : (ctor tag name fields ty).Legible arity scope)
    (hfields : ∀ n ∈ fields, n.ReadsAny φ arity) :
    (Node.ctor tag name fields ty).ReadsAny φ arity := by
  intro n' scope' h' depth r r' s s' hr hr' heq hs
  have hform := form_eq_of_append_eq h.here h'.here hr hr' heq
  cases n' with
  | ctor tag' name' fields' ty' =>
    rw [textAt, textAt] at heq
    obtain ⟨hname, htag, heq⟩ := taggedText_append_inj h.1.1 h'.1.1 hr.words hr'.words heq
    have hlength : fields.length = fields'.length := by rw [h.1.2, h'.1.2, hname]
    obtain ⟨hcodes, hrest, hs⟩ := readsOff_fields h.2 h'.2 hfields hlength heq hs
    refine ⟨?_, hrest, hs⟩
    simp only [codeWith, mapRefs, plain, codeWith_list]
    rw [hname, htag, hcodes]
  | _ => cases hform

/-! ### Clauses and bindings -/

theorem partEnds_clauses (depth : Nat) (cs : List (Pattern × Node)) (u : List Char) :
    PartEnds ((clausesTextAt depth cs).toList ++ ((newline depth).toList ++ u)) := by
  cases cs with
  | nil => exact partEnds_newline depth u
  | cons clause cs =>
    simp only [clausesTextAt, String.toList_append, List.append_assoc]
    exact partEnds_newline _ _

/-- A clause starts one level deeper than the end of the clauses. -/
theorem newline_ne_clauses (depth : Nat) (clause : Pattern × Node) (cs : List (Pattern × Node))
    (u u' : List Char) : (newline depth).toList ++ '\x7d' :: u ≠
      (clausesTextAt depth (clause :: cs)).toList ++ u' := by
  intro heq
  simp only [clausesTextAt, String.toList_append, List.append_assoc, toList_newline_succ] at heq
  have hfirst := List.append_cancel_left heq
  injection hfirst with hfirst
  exact absurd hfirst (by decide)

theorem readsOff_clauses {cs cs' : List (Pattern × Node)} {scope : List String} {depth : Nat}
    {u u' : List Char} {s s' : List Shape} (hpatterns : ∀ clause ∈ cs, clause.1.Legible)
    (hpatterns' : ∀ clause ∈ cs', clause.1.Legible)
    (h' : Node.ClausesEverywhere (fun _ => LegibleHere arity) scope cs')
    (hread : ∀ clause ∈ cs, clause.2.ReadsAny φ arity)
    (heq : (clausesTextAt depth cs).toList ++ ((newline depth).toList ++ '\x7d' :: u) =
      (clausesTextAt depth cs').toList ++ ((newline depth).toList ++ '\x7d' :: u'))
    (hs : clauseShapes cs ++ s = clauseShapes cs' ++ s') :
    (cs.map fun clause => (clause.1, clause.2.codeWith φ)) =
      (cs'.map fun clause => (clause.1, clause.2.codeWith φ)) ∧ u = u' ∧ s = s' := by
  induction cs generalizing cs' with
  | nil =>
    cases cs' with
    | nil =>
      have hrest := List.append_cancel_left heq
      injection List.append_cancel_left hrest with _ hrest
      exact ⟨rfl, hrest, hs⟩
    | cons clause' cs' => exact absurd heq (newline_ne_clauses depth clause' cs' _ _)
  | cons clause cs ih =>
    cases cs' with
    | nil => exact absurd heq.symm (newline_ne_clauses depth clause cs _ _)
    | cons clause' cs' =>
      obtain ⟨p, n⟩ := clause
      obtain ⟨p', n'⟩ := clause'
      rw [List.forall_mem_cons] at hpatterns hpatterns' hread
      simp only [clausesTextAt, String.toList_append, String.reduceToList, List.append_assoc,
        List.cons_append, List.nil_append] at heq
      simp only [clauseShapes, List.append_assoc] at hs
      obtain ⟨hp, heq⟩ := readsAlone_iff.mp (Pattern.readsAlone hpatterns.1 hpatterns'.1)
        (stopsAt_cons.mpr (by decide)) (stopsAt_cons.mpr (by decide)) (List.append_cancel_left heq)
      simp only [List.cons.injEq, true_and] at heq
      obtain ⟨hcode, heq, hs⟩ := hread.1 h'.1 (depth + 2) (partEnds_clauses depth cs _)
        (partEnds_clauses depth cs' _) (List.append_cancel_left heq) hs
      obtain ⟨hcodes, hrest, hs⟩ := ih hpatterns.2 hpatterns'.2 h'.2 hread.2 heq hs
      rw [id_eq, id_eq] at hp
      refine ⟨?_, hrest, hs⟩
      rw [List.map_cons, List.map_cons, hcodes, hp, hcode]

theorem ReadsAny.matchOn {data : Node} {clauses : List (Pattern × Node)} {ty : Ty}
    {scope : List String} (h : (matchOn data clauses ty).Legible arity scope)
    (hdata : data.ReadsAny φ arity) (hclauses : ∀ clause ∈ clauses, clause.2.ReadsAny φ arity) :
    (Node.matchOn data clauses ty).ReadsAny φ arity := by
  intro n' scope' h' depth r r' s s' hr hr' heq hs
  have hform := form_eq_of_append_eq h.here h'.here hr hr' heq
  cases n' with
  | matchOn data' clauses' ty' =>
    simp only [textAt, String.toList_append, String.reduceToList, List.append_assoc,
      List.cons_append, List.nil_append, List.cons.injEq, true_and] at heq
    simp only [literalShapes, List.append_assoc] at hs
    obtain ⟨hdata, heq, hs⟩ := hdata h'.2.1 depth (partEnds_blank (by decide))
      (partEnds_blank (by decide)) heq hs
    simp only [List.cons.injEq, true_and] at heq
    obtain ⟨hcodes, heq, hs⟩ := readsOff_clauses h.1.1 h'.1.1 h'.2.2 hclauses heq hs
    simp only [List.cons.injEq, true_and] at heq
    obtain ⟨hty, hrest⟩ := Ty.text_append_inj h.1.2 h'.1.2 hr hr' heq
    refine ⟨?_, hrest, hs⟩
    simp only [codeWith, mapRefs, plain, codeWith_clauses] at hdata hcodes ⊢
    rw [hdata, hcodes, hty]
  | _ => cases hform

/-- Bindings end with a node that is none itself. -/
theorem readsOff_bindings {bs bs' : List (String × Node)} {body body' : Node}
    {scope scope' : List String} {depth : Nat} {r r' : List Char} {s s' : List Shape}
    (hwords : ∀ b ∈ bs, IsWord b.1) (hwords' : ∀ b ∈ bs', IsWord b.1)
    (h' : Node.BindingsEverywhere (fun _ => LegibleHere arity) scope bs')
    (hform : body.form ≠ .decl) (hform' : body'.form ≠ .decl)
    (hlegible : body.LegibleHere arity) (hbody' : body'.Legible arity scope')
    (hread : ∀ b ∈ bs, b.2.ReadsAny φ arity) (hbody : body.ReadsAny φ arity)
    (hr : PartEnds r) (hr' : PartEnds r')
    (heq : (bindingsTextAt depth bs).toList ++ ((body.textAt depth).toList ++ r) =
      (bindingsTextAt depth bs').toList ++ ((body'.textAt depth).toList ++ r'))
    (hs : bindingShapes bs ++ (body.literalShapes ++ s) =
      bindingShapes bs' ++ (body'.literalShapes ++ s')) :
    (bs.map fun b => (b.1, b.2.codeWith φ)) = (bs'.map fun b => (b.1, b.2.codeWith φ)) ∧
      body.codeWith φ = body'.codeWith φ ∧ r = r' ∧ s = s' := by
  induction bs generalizing bs' scope with
  | nil =>
    cases bs' with
    | nil =>
      obtain ⟨hcode, hrest, hs⟩ := hbody hbody' depth hr hr' heq hs
      exact ⟨rfl, hcode, hrest, hs⟩
    | cons b' bs' =>
      have hdecl : readForm ((body.textAt depth).toList ++ r) = .decl := by
        simp only [bindingsTextAt, String.toList_append, List.append_assoc] at heq
        exact (congrArg readForm heq).trans (readForm_let _)
      rw [readForm_textAt hlegible hr] at hdecl
      exact absurd hdecl hform
  | cons b bs ih =>
    cases bs' with
    | nil =>
      have hdecl : readForm ((body'.textAt depth).toList ++ r') = .decl := by
        simp only [bindingsTextAt, String.toList_append, List.append_assoc] at heq
        exact (congrArg readForm heq.symm).trans (readForm_let _)
      rw [readForm_textAt hbody'.here hr'] at hdecl
      exact absurd hdecl hform'
    | cons b' bs' =>
      obtain ⟨x, n⟩ := b
      obtain ⟨x', n'⟩ := b'
      rw [List.forall_mem_cons] at hwords hwords' hread
      simp only [bindingsTextAt, String.toList_append, String.reduceToList, List.append_assoc,
        List.cons_append, List.nil_append, List.cons.injEq, true_and] at heq
      simp only [bindingShapes, List.append_assoc] at hs
      obtain ⟨hx, heq⟩ := hwords.1.append_inj hwords'.1 (stopsAt_cons.mpr (by decide))
        (stopsAt_cons.mpr (by decide)) heq
      simp only [List.cons.injEq, true_and] at heq
      obtain ⟨hcode, heq, hs⟩ := hread.1 h'.1 depth (partEnds_newline _ _) (partEnds_newline _ _) heq hs
      obtain ⟨hcodes, hbodies, hrest, hs⟩ := ih hwords.2 hwords'.2 h'.2 hread.2
        (List.append_cancel_left heq) hs
      refine ⟨?_, hbodies, hrest, hs⟩
      have hname : x = x' := hx
      rw [List.map_cons, List.map_cons, hcodes, hcode, hname]

theorem ReadsAny.decl {bs : List (String × Node)} {body : Node} {scope : List String}
    (h : (decl bs body).Legible arity scope) (hbs : ∀ b ∈ bs, b.2.ReadsAny φ arity)
    (hbody : body.ReadsAny φ arity) : (Node.decl bs body).ReadsAny φ arity := by
  intro n' scope' h' depth r r' s s' hr hr' heq hs
  have hform := form_eq_of_append_eq h.here h'.here hr hr' heq
  cases n' with
  | decl bs' body' =>
    simp only [textAt, String.toList_append, List.append_assoc] at heq
    simp only [literalShapes, List.append_assoc] at hs
    obtain ⟨hcodes, hbodies, hrest, hs⟩ := readsOff_bindings h.1.2.1 h'.1.2.1 h'.2.1 h.1.2.2 h'.1.2.2
      h.2.2.here h'.2.2 hbs hbody hr hr' heq hs
    refine ⟨?_, hrest, hs⟩
    simp only [codeWith, mapRefs, plain, codeWith_bindings] at hcodes hbodies ⊢
    rw [hcodes, hbodies]
  | _ => cases hform

/-! ### All nodes -/

mutual

/-- A node can be read off its text and the shapes of its literals. -/
theorem readsAny (hφ : ByName φ) : ∀ {n : Node} {scope : List String}, n.Legible arity scope →
    n.ReadsAny φ arity
  | .var _, _, h => .var h
  | .literal _, _, h => .literal h
  | .global _, _, h => .global hφ h
  | .decl _ _, _, h => .decl h (readsAny_bindings hφ h.2.1) (readsAny hφ h.2.2)
  | .packed .., _, h => .packed h (readsAny_list hφ h.2)
  | .invoke _ _, _, h => .invoke hφ h (readsAny_list hφ h.2)
  | .apply _ _, _, h => .apply h (readsAny hφ h.2.1) (readsAny_list hφ h.2.2)
  | .func .., _, h => .func h (readsAny hφ h.2)
  | .ite .., _, h => .ite h (readsAny hφ h.2.1) (readsAny hφ h.2.2.1) (readsAny hφ h.2.2.2)
  | .tuple _ _, _, h => .tuple h (readsAny_list hφ h.2)
  | .matchOn .., _, h => .matchOn h (readsAny hφ h.2.1) (readsAny_clauses hφ h.2.2)
  | .ctor .., _, h => .ctor h (readsAny_list hφ h.2)

theorem readsAny_list (hφ : ByName φ) : ∀ {ns : List Node} {scope : List String},
    Node.AllEverywhere (fun _ => LegibleHere arity) scope ns → ∀ n ∈ ns, n.ReadsAny φ arity
  | [], _, _ => fun _ hn => absurd hn List.not_mem_nil
  | _ :: _, _, h => List.forall_mem_cons.mpr ⟨readsAny hφ h.1, readsAny_list hφ h.2⟩

theorem readsAny_bindings (hφ : ByName φ) : ∀ {bs : List (String × Node)} {scope : List String},
    Node.BindingsEverywhere (fun _ => LegibleHere arity) scope bs → ∀ b ∈ bs, b.2.ReadsAny φ arity
  | [], _, _ => fun _ hb => absurd hb List.not_mem_nil
  | (_, _) :: _, _, h => List.forall_mem_cons.mpr ⟨readsAny hφ h.1, readsAny_bindings hφ h.2⟩

theorem readsAny_clauses (hφ : ByName φ) : ∀ {cs : List (Pattern × Node)} {scope : List String},
    Node.ClausesEverywhere (fun _ => LegibleHere arity) scope cs →
      ∀ clause ∈ cs, clause.2.ReadsAny φ arity
  | [], _, _ => fun _ hclause => absurd hclause List.not_mem_nil
  | (_, _) :: _, _, h => List.forall_mem_cons.mpr ⟨readsAny hφ h.1, readsAny_clauses hφ h.2⟩

end

end

end Node

end TensorIR.Lowered
