import TensorIR.Proofs.PrintedTexts
import TensorIR.Ty

/-! Reading types.

The text of a type determines the type, wherever it stands in a longer text, if data types have words
for names. Only one thing has to be known of what follows: a data type could be named `fn`, and must not
be followed by something that makes it look like a function type (`PartEnds`). -/

namespace TensorIR

/-! ## What may follow -/

namespace Printed

/-- The characters that would go on with a part of a program: those of names, the mark before a tag, and
the bracket before an element type. -/
def partChar (c : Char) : Bool := wordChar c || c == '#' || c == '<'

/-- The text goes on with an arrow. -/
def startsArrow (r : List Char) : Bool := [' ', '-'].isPrefixOf r

/-- What may follow a part of a program: nothing that goes on with it, and no arrow, not even after
parentheses. -/
structure PartEnds (r : List Char) : Prop where
  stops : StopsAt partChar r
  noArrow : startsArrow r = false
  noArrowAfter : ∀ u, r = '(' :: u → startsArrow (closing 0 u) = false

section

variable {c : Char} {r u w : List Char}

theorem StopsAt.words (h : StopsAt partChar r) : StopsAt wordChar r :=
  h.mono fun c hc => by rw [partChar, hc]; rfl

theorem PartEnds.words (h : PartEnds r) : StopsAt wordChar r := h.stops.words

theorem partEnds_cons (h : partChar c = false) (hblank : c ≠ ' ') (hopen : c ≠ '(') :
    PartEnds (c :: u) where
  stops := stopsAt_cons.mpr h
  noArrow := by simp [startsArrow, List.isPrefixOf, hblank.symm]
  noArrowAfter v hv := by
    injection hv with hc
    exact absurd hc hopen

theorem partEnds_nil : PartEnds [] where
  stops c hc := by cases hc
  noArrow := rfl
  noArrowAfter u hu := by cases hu

theorem partEnds_comma (u : List Char) : PartEnds (',' :: u) :=
  partEnds_cons (by decide) (by decide) (by decide)

theorem partEnds_close (u : List Char) : PartEnds (')' :: u) :=
  partEnds_cons (by decide) (by decide) (by decide)

theorem partEnds_blank (h : c ≠ '-') : PartEnds (' ' :: c :: u) where
  stops := stopsAt_cons.mpr (by decide)
  noArrow := by simp [startsArrow, List.isPrefixOf, h.symm]
  noArrowAfter v hv := by
    injection hv with hc
    exact absurd hc (by decide)

theorem PartEnds.parens (hw : Balanced w) (hr : PartEnds r) : PartEnds ('(' :: (w ++ ')' :: r)) where
  stops := stopsAt_cons.mpr (by decide)
  noArrow := by simp [startsArrow, List.isPrefixOf]
  noArrowAfter v hv := by
    injection hv with _ hv
    rw [← hv, hw.closing_eq]
    exact hr.noArrow

end

end Printed

open Printed

/-! ## Element types and shapes -/

theorem DType.isWord_text (d : DType) : IsWord d.text := by
  cases d <;> exact .of_all (by decide) (by decide)

theorem DType.text_inj {d d' : DType} (h : d.text = d'.text) : d = d' := by
  revert h
  cases d <;> cases d' <;> decide

theorem readsAlone_number (m n : Nat) :
    ReadsAlone (toString : Nat → String) id (StopsAt Char.isDigit) m n :=
  readsAlone_iff.mpr fun _ _ => number_append_inj

theorem notFirst_number {close : Char} (hclose : close.isDigit = false) (n : Nat) :
    NotFirst close (toString n) :=
  notFirst_of_forall hclose (toString_ne_nil n) (digits_toString n)

theorem Shape.text_append_inj {s s' : Shape} {r r' : List Char}
    (h : s.text.toList ++ r = s'.text.toList ++ r') : s = s' ∧ r = r' := by
  obtain ⟨dims⟩ := s
  obtain ⟨dims'⟩ := s'
  simp only [Shape.text, String.toList_append, String.reduceToList, List.cons_append,
    List.nil_append, List.append_assoc, List.cons.injEq, true_and] at h
  obtain ⟨hdims, hrest⟩ := ReadsOff.list_alone (by decide)
    (fun u => stopsAt_cons.mpr (by decide)) (fun u => stopsAt_cons.mpr (by decide))
    (fun n _ => notFirst_number (by decide) n) (fun n _ => notFirst_number (by decide) n)
    (fun m _ n _ => readsAlone_number m n) h
  rw [List.map_id, List.map_id] at hdims
  exact ⟨by rw [hdims], hrest⟩

theorem Shape.balanced_text (s : Shape) : Balanced s.text.toList := by
  rw [Shape.text, String.toList_append, String.toList_append]
  have hdims : Balanced (commaSeparated (s.dims.map toString)).toList := by
    refine .commaSeparated fun item hitem => ?_
    obtain ⟨n, -, rfl⟩ := List.mem_map.mp hitem
    exact (isWord_toString n).balanced
  exact ((Balanced.of_all (by decide)).append hdims).append (.of_all (by decide))

namespace Ty

/-! ## Spelling -/

mutual

/-- The names of data types in the type are words. -/
def Spelled : Ty → Prop
  | .tensor .. | .infer => True
  | .tuple fields => AllSpelled fields
  | .func params ret => AllSpelled params ∧ ret.Spelled
  | .adt name => IsWord name

def AllSpelled : List Ty → Prop
  | [] => True
  | t :: ts => t.Spelled ∧ AllSpelled ts

end

theorem allSpelled_iff {ts : List Ty} : AllSpelled ts ↔ ∀ t ∈ ts, t.Spelled := by
  induction ts with
  | nil => simp [AllSpelled]
  | cons t ts ih => simp [AllSpelled, ih]

theorem texts_eq_map (ts : List Ty) : texts ts = ts.map text := by
  induction ts with
  | nil => rfl
  | cons t ts ih => rw [texts, ih, List.map_cons]

mutual

theorem balanced_text : ∀ {t : Ty}, t.Spelled → Balanced t.text.toList
  | .tensor d s, _ => by
    simp only [text, String.toList_append]
    have hhead : Balanced "tensor<".toList := .of_all (by decide)
    have hmiddle : Balanced ", ".toList := .of_all (by decide)
    have hend : Balanced ">".toList := .of_all (by decide)
    exact (((hhead.append d.isWord_text.balanced).append hmiddle).append s.balanced_text).append hend
  | .tuple fields, h => by
    rw [text, toList_parenthesized]
    exact (Balanced.commaSeparated (balanced_texts h)).parens
  | .func params ret, h => by
    simp only [text, String.toList_append, toList_parenthesized]
    have hhead : Balanced "fn".toList := .of_all (by decide)
    have hparams := (Balanced.commaSeparated (balanced_texts h.1)).parens
    have harrow : Balanced " -> ".toList := .of_all (by decide)
    exact ((hhead.append hparams).append harrow).append (balanced_text h.2)
  | .adt name, h => IsWord.balanced h
  | .infer, _ => .of_all (by decide)

theorem balanced_texts : ∀ {ts : List Ty}, AllSpelled ts →
    ∀ item ∈ texts ts, Balanced item.toList
  | [], _ => fun _ hitem => absurd hitem List.not_mem_nil
  | t :: ts, h => by
    rw [texts, List.forall_mem_cons]
    exact ⟨balanced_text h.1, balanced_texts h.2⟩

end

/-! ## Forms -/

/-- The forms of types. -/
inductive Form where
  | tensor
  | tuple
  | func
  | adt
  | infer

def form : Ty → Form
  | .tensor .. => .tensor
  | .tuple _ => .tuple
  | .func .. => .func
  | .adt _ => .adt
  | .infer => .infer

/-- The form of a type whose text starts with a word, from what follows the word. -/
def formAfterWord : List Char → Form
  | '<' :: _ => .tensor
  | '(' :: u => if startsArrow (closing 0 u) then .func else .adt
  | _ => .adt

/-- The form of the type at the start of the text. -/
def readForm : List Char → Form
  | '?' :: _ => .infer
  | '(' :: _ => .tuple
  | cs => formAfterWord (cs.dropWhile wordChar)

theorem readForm_word {x : String} {r : List Char} (hx : IsWord x) (hr : StopsAt wordChar r) :
    readForm (x.toList ++ r) = formAfterWord r := by
  have hdrop := dropWhile_append_of_stopsAt hx.chars hr
  obtain ⟨c, u, hcu⟩ := List.exists_cons_of_ne_nil hx.ne_nil
  have hc : wordChar c = true := hx.chars c (by rw [hcu]; exact List.mem_cons_self)
  rw [hcu, List.cons_append] at hdrop ⊢
  unfold readForm
  split
  · next heq =>
    injection heq with hfirst
    rw [hfirst] at hc
    exact absurd hc (by decide)
  · next heq =>
    injection heq with hfirst
    rw [hfirst] at hc
    exact absurd hc (by decide)
  · rw [hdrop]

theorem readForm_text {t : Ty} {r : List Char} (h : t.Spelled) (hr : PartEnds r) :
    readForm (t.text.toList ++ r) = t.form := by
  cases t with
  | tensor d s =>
    have hword : IsWord "tensor" := .of_all (by decide) (by decide)
    have htext : (Ty.tensor d s).text.toList ++ r =
        "tensor".toList ++ '<' :: (d.text.toList ++ (", ".toList ++ (s.text.toList ++ '>' :: r))) := by
      simp [text]
    rw [htext, readForm_word hword (stopsAt_cons.mpr (by decide))]
    rfl
  | tuple fields =>
    rw [text, toList_parenthesized]
    rfl
  | func params ret =>
    have hword : IsWord "fn" := .of_all (by decide) (by decide)
    have htext : (Ty.func params ret).text.toList ++ r = "fn".toList ++
        '(' :: ((commaSeparated (texts params)).toList ++
          ')' :: (" -> ".toList ++ (ret.text.toList ++ r))) := by
      simp [text, toList_parenthesized]
    rw [htext, readForm_word hword (stopsAt_cons.mpr (by decide))]
    rw [formAfterWord, (Balanced.commaSeparated (balanced_texts h.1)).closing_eq]
    rfl
  | adt name =>
    rw [text, readForm_word h hr.words]
    unfold formAfterWord
    split
    · exact absurd (stopsAt_cons.mp hr.stops) (by decide)
    · next u => rw [hr.noArrowAfter u rfl]; rfl
    · rfl
  | infer => rfl

theorem notFirst_text {t : Ty} (h : t.Spelled) : NotFirst ')' t.text := by
  cases t with
  | tensor d s => simp [NotFirst, text]
  | tuple fields => simp [NotFirst, text, toList_parenthesized]
  | func params ret => simp [NotFirst, text]
  | adt name => exact IsWord.notFirst h (by decide)
  | infer => exact ⟨'?', [], rfl, by decide⟩

/-! ## Types -/

theorem readsAlone_list {ts ts' : List Ty} {r r' : List Char} (h : AllSpelled ts)
    (h' : AllSpelled ts')
    (hread : ∀ t ∈ ts, ∀ ⦃t' : Ty⦄, t'.Spelled → ReadsAlone text id PartEnds t t')
    (heq : (commaSeparated (texts ts)).toList ++ ')' :: r =
      (commaSeparated (texts ts')).toList ++ ')' :: r') : ts = ts' ∧ r = r' := by
  have hts := allSpelled_iff.mp h
  have hts' := allSpelled_iff.mp h'
  rw [texts_eq_map, texts_eq_map] at heq
  obtain ⟨hkeys, hrest⟩ := ReadsOff.list_alone (by decide) partEnds_comma partEnds_close
    (fun t ht => notFirst_text (hts t ht)) (fun t ht => notFirst_text (hts' t ht))
    (fun t ht t' ht' => hread t ht (hts' t' ht')) heq
  rw [List.map_id, List.map_id] at hkeys
  exact ⟨hkeys, hrest⟩

theorem form_eq_of_append_eq {t t' : Ty} {r r' : List Char} (h : t.Spelled) (h' : t'.Spelled)
    (hr : PartEnds r) (hr' : PartEnds r') (heq : t.text.toList ++ r = t'.text.toList ++ r') :
    t.form = t'.form := by
  rw [← readForm_text h hr, ← readForm_text h' hr', heq]

mutual

/-- A type can be read off its text. -/
theorem readsAlone : ∀ {t : Ty}, t.Spelled → ∀ ⦃t' : Ty⦄, t'.Spelled →
    ReadsAlone text id PartEnds t t'
  | .tensor d s, h, t', h' => by
    rw [readsAlone_iff]
    intro r r' hr hr' heq
    have hform := form_eq_of_append_eq h h' hr hr' heq
    cases t' with
    | tensor d' s' =>
      simp only [text, String.toList_append, String.reduceToList, List.cons_append,
        List.nil_append, List.append_assoc, List.cons.injEq, true_and] at heq
      obtain ⟨hdtype, heq⟩ := d.isWord_text.append_inj d'.isWord_text
        (stopsAt_cons.mpr (by decide)) (stopsAt_cons.mpr (by decide)) heq
      simp only [List.cons.injEq, true_and] at heq
      obtain ⟨hshape, heq⟩ := Shape.text_append_inj heq
      injection heq with _ hrest
      exact ⟨by rw [DType.text_inj hdtype, hshape], hrest⟩
    | _ => cases hform
  | .tuple fields, h, t', h' => by
    rw [readsAlone_iff]
    intro r r' hr hr' heq
    have hform := form_eq_of_append_eq h h' hr hr' heq
    cases t' with
    | tuple fields' =>
      simp only [text, toList_parenthesized, List.cons_append, List.nil_append,
        List.append_assoc, List.cons.injEq, true_and] at heq
      obtain ⟨hfields, hrest⟩ := readsAlone_list h h' (readsAlone_mem h) heq
      exact ⟨by rw [hfields], hrest⟩
    | _ => cases hform
  | .func params ret, h, t', h' => by
    rw [readsAlone_iff]
    intro r r' hr hr' heq
    have hform := form_eq_of_append_eq h h' hr hr' heq
    cases t' with
    | func params' ret' =>
      simp only [text, String.toList_append, toList_parenthesized, String.reduceToList,
        List.cons_append, List.nil_append, List.append_assoc, List.cons.injEq, true_and] at heq
      obtain ⟨hparams, heq⟩ := readsAlone_list h.1 h'.1 (readsAlone_mem h.1) heq
      simp only [List.cons.injEq, true_and] at heq
      obtain ⟨hret, hrest⟩ := readsAlone_iff.mp (readsAlone h.2 h'.2) hr hr' heq
      rw [id_eq, id_eq] at hret
      exact ⟨by rw [hparams, hret], hrest⟩
    | _ => cases hform
  | .adt name, h, t', h' => by
    rw [readsAlone_iff]
    intro r r' hr hr' heq
    have hform := form_eq_of_append_eq h h' hr hr' heq
    cases t' with
    | adt name' =>
      obtain ⟨hname, hrest⟩ := IsWord.append_inj h h' hr.words hr'.words heq
      exact ⟨by rw [hname], hrest⟩
    | _ => cases hform
  | .infer, h, t', h' => by
    rw [readsAlone_iff]
    intro r r' hr hr' heq
    have hform := form_eq_of_append_eq h h' hr hr' heq
    cases t' with
    | infer => exact ⟨rfl, List.append_cancel_left heq⟩
    | _ => cases hform

theorem readsAlone_mem : ∀ {ts : List Ty}, AllSpelled ts → ∀ t ∈ ts, ∀ ⦃t' : Ty⦄, t'.Spelled →
    ReadsAlone text id PartEnds t t'
  | [], _ => fun _ ht => absurd ht List.not_mem_nil
  | _ :: _, h => List.forall_mem_cons.mpr ⟨readsAlone h.1, readsAlone_mem h.2⟩

end

theorem text_append_inj {t t' : Ty} {r r' : List Char} (h : t.Spelled) (h' : t'.Spelled)
    (hr : PartEnds r) (hr' : PartEnds r') (heq : t.text.toList ++ r = t'.text.toList ++ r') :
    t = t' ∧ r = r' :=
  readsAlone_iff.mp (readsAlone h h') hr hr' heq

/-- The text of a type determines the type, if data types have words for names. -/
theorem text_determines_type {s t : Ty} (hs : s.Spelled) (ht : t.Spelled) (h : s.text = t.text) :
    s = t := by
  have heq : s.text.toList ++ [] = t.text.toList ++ [] := by rw [h]
  exact (text_append_inj hs ht partEnds_nil partEnds_nil heq).1

/-- A function that returns a function, with data types that have the first words of other types for
names. -/
def curried : Ty :=
  .func [.tuple [.adt "fn", .infer], .func [] (.tensor .int32 ⟨[2, 30]⟩)]
    (.func [.adt "tensor"] (.tuple []))

theorem curried_of_text :
    curried.Spelled ∧
      curried.text = "fn((fn, ?), fn() -> tensor<int32, [2, 30]>) -> fn(tensor) -> ()" ∧
      curried = .func [.tuple [.adt "fn", .infer], .func [] (.tensor .int32 ⟨[2, 30]⟩)]
        (.func [.adt "tensor"] (.tuple [])) := by
  have hfn : IsWord "fn" := .of_all (by decide) (by decide)
  have htensor : IsWord "tensor" := .of_all (by decide) (by decide)
  have hspelled : curried.Spelled :=
    ⟨⟨⟨hfn, trivial, trivial⟩, ⟨trivial, trivial⟩, trivial⟩, ⟨htensor, trivial⟩, trivial⟩
  exact ⟨hspelled, rfl, text_determines_type hspelled hspelled rfl⟩

end Ty

end TensorIR
