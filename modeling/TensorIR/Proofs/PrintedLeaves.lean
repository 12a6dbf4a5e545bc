import TensorIR.Lowered.Layout
import TensorIR.Proofs.PrintedTypes

/-! Reading literals, parameters and patterns.

The text of a literal shows its elements and their type, and leaves out its shape: tensors of integers
or booleans can be told apart by their texts if they have the same shape. Parameters and patterns can be
read where their names are words. -/

namespace TensorIR

open Printed

namespace Printed

/-- The name of a variable: a word with an underscore in it that is not all of it. -/
structure IsVarName (x : String) : Prop extends IsWord x where
  underscore : '_' ∈ x.toList
  ne_wildcard : x ≠ "_"

/-! ## Integers -/

theorem toString_int_inj {i j : Int} (h : toString i = toString j) : i = j := by
  have hsign : ∀ m n : Nat, (toString m).toList ≠ '-' :: (toString n).toList := by
    intro m n heq
    have hdigit := digits_toString m '-' (by rw [heq]; exact List.mem_cons_self)
    exact absurd hdigit (by decide)
  cases i with
  | ofNat m =>
    cases j with
    | ofNat n => exact congrArg Int.ofNat (toString_nat_inj (congrArg String.toList h))
    | negSucc n =>
      have heq : (toString m).toList = ("-" ++ toString (n + 1)).toList := congrArg String.toList h
      rw [String.toList_append] at heq
      exact absurd heq (hsign m (n + 1))
  | negSucc m =>
    cases j with
    | ofNat n =>
      have heq : ("-" ++ toString (m + 1)).toList = (toString n).toList := congrArg String.toList h
      rw [String.toList_append] at heq
      exact absurd heq.symm (hsign n (m + 1))
    | negSucc n =>
      have heq : ("-" ++ toString (m + 1)).toList = ("-" ++ toString (n + 1)).toList :=
        congrArg String.toList h
      rw [String.toList_append, String.toList_append] at heq
      have hnumber := toString_nat_inj (List.append_cancel_left heq)
      rw [Nat.add_right_cancel hnumber]

/-- The characters of elements: those of names, and signs. -/
def elementChar (c : Char) : Bool := wordChar c || c == '-'

theorem elementChars_int (i : Int) :
    (toString i).toList ≠ [] ∧ ∀ c ∈ (toString i).toList, elementChar c = true := by
  have hdigits : ∀ n : Nat, ∀ c ∈ (toString n).toList, elementChar c = true := by
    intro n c hc
    rw [elementChar, (isWord_toString n).chars c hc]
    rfl
  cases i with
  | ofNat n => exact ⟨toString_ne_nil n, hdigits n⟩
  | negSucc n =>
    have htext : (toString (Int.negSucc n)).toList = '-' :: (toString (n + 1)).toList := by
      have h : toString (Int.negSucc n) = "-" ++ toString (n + 1) := rfl
      rw [h, String.toList_append]
      rfl
    rw [htext]
    exact ⟨List.cons_ne_nil _ _, List.forall_mem_cons.mpr ⟨rfl, hdigits (n + 1)⟩⟩

end Printed

/-! ## Literals -/

/-- Integers and booleans. -/
def DType.isDiscrete : DType → Bool
  | .float32 | .float64 => false
  | .int32 | .int64 | .bool => true

namespace Buffer

theorem length_texts (b : Buffer) : b.texts.length = b.size := by
  cases b <;> simp [texts, size]

theorem elementChars_texts {b : Buffer} (h : b.dtype.isDiscrete = true) :
    ∀ item ∈ b.texts, item.toList ≠ [] ∧ ∀ c ∈ item.toList, elementChar c = true := by
  intro item hitem
  cases b with
  | float32 data => cases h
  | float64 data => cases h
  | int32 data | int64 data =>
    obtain ⟨x, -, rfl⟩ := List.mem_map.mp hitem
    exact elementChars_int x.toInt
  | bool data =>
    obtain ⟨x, -, rfl⟩ := List.mem_map.mp hitem
    cases x <;> exact ⟨by decide, List.all_eq_true.mp (by decide)⟩

theorem texts_inj {b b' : Buffer} (hb : b.dtype.isDiscrete = true) (hdtype : b.dtype = b'.dtype)
    (h : b.texts = b'.texts) : b = b' := by
  cases b with
  | float32 data => cases hb
  | float64 data => cases hb
  | int32 data =>
    cases b' with
    | int32 data' =>
      have hinj : ∀ x y : Int32, toString x.toInt = toString y.toInt → x = y :=
        fun x y hxy => Int32.toInt_inj.mp (toString_int_inj hxy)
      rw [Array.toList_inj.mp ((List.map_inj_right hinj).mp h)]
    | _ => cases hdtype
  | int64 data =>
    cases b' with
    | int64 data' =>
      have hinj : ∀ x y : Int64, toString x.toInt = toString y.toInt → x = y :=
        fun x y hxy => Int64.toInt_inj.mp (toString_int_inj hxy)
      rw [Array.toList_inj.mp ((List.map_inj_right hinj).mp h)]
    | _ => cases hdtype
  | bool data =>
    cases b' with
    | bool data' =>
      have hinj : ∀ x y : Bool, (if x then "true" else "false") = (if y then "true" else "false") →
          x = y := by decide
      rw [Array.toList_inj.mp ((List.map_inj_right hinj).mp h)]
    | _ => cases hdtype

end Buffer

namespace Tensor

theorem text_of_isScalar {t : Tensor} (h : t.isScalar = true) :
    ∃ item, t.data.texts = [item] ∧ t.text = item ++ ": " ++ t.dtype.text := by
  have hdims : t.shape.dims = [] := List.eq_nil_of_length_eq_zero (eq_of_beq h)
  have hlength : t.data.texts.length = 1 := by
    rw [Buffer.length_texts, t.size_eq, Shape.numel, hdims]
    rfl
  obtain ⟨item, hitem⟩ := List.length_eq_one_iff.mp hlength
  refine ⟨item, hitem, ?_⟩
  simp [text, hitem, h]

theorem text_of_not_isScalar {t : Tensor} (h : t.isScalar = false) :
    t.text = "[" ++ commaSeparated t.data.texts ++ "]: " ++ t.dtype.text := by
  have hbracket : "]: " = "]" ++ ": " := rfl
  rw [hbracket, ← String.append_assoc, text]
  split
  · next item hitem => simp [hitem, h, commaSeparated]
  · rfl

theorem readsAlone_element {item item' : String}
    (h : item.toList ≠ [] ∧ ∀ c ∈ item.toList, elementChar c = true)
    (h' : item'.toList ≠ [] ∧ ∀ c ∈ item'.toList, elementChar c = true) :
    ReadsAlone id id (StopsAt elementChar) item item' := by
  rw [readsAlone_iff]
  intro r r' hr hr' heq
  obtain ⟨hitem, hrest⟩ := append_inj_of_stopsAt h.2 h'.2 hr hr' heq
  exact ⟨String.ext hitem, hrest⟩

/-- A literal of integers or booleans can be read off its text if its shape is known. -/
theorem text_append_inj {t t' : Tensor} {r r' : List Char} (ht : t.dtype.isDiscrete = true)
    (ht' : t'.dtype.isDiscrete = true) (hshape : t.shape = t'.shape)
    (h : t.text.toList ++ ')' :: r = t'.text.toList ++ ')' :: r') : t = t' ∧ r = r' := by
  have hitems := Buffer.elementChars_texts ht
  have hitems' := Buffer.elementChars_texts ht'
  -- It is enough to have the same texts of elements, followed by the element types.
  suffices hparts : t.data.texts = t'.data.texts ∧
      t.dtype.text.toList ++ ')' :: r = t'.dtype.text.toList ++ ')' :: r' by
    obtain ⟨htexts, hdtype⟩ := hparts
    obtain ⟨hdtype, hrest⟩ := t.dtype.isWord_text.append_inj t'.dtype.isWord_text
      (stopsAt_cons.mpr (by decide)) (stopsAt_cons.mpr (by decide)) hdtype
    have hdata := Buffer.texts_inj ht (DType.text_inj hdtype) htexts
    obtain ⟨shape, data, hsize⟩ := t
    obtain ⟨shape', data', hsize'⟩ := t'
    cases hshape
    cases hdata
    injection hrest with _ hrest
    exact ⟨rfl, hrest⟩
  cases hscalar : t.isScalar with
  | true =>
    obtain ⟨item, hitem, htext⟩ := text_of_isScalar hscalar
    have hscalar' : t'.isScalar = true := by rw [isScalar, ← hshape]; exact hscalar
    obtain ⟨item', hitem', htext'⟩ := text_of_isScalar hscalar'
    rw [hitem] at hitems
    rw [hitem'] at hitems'
    simp only [htext, htext', String.toList_append, String.reduceToList, List.append_assoc,
      List.cons_append, List.nil_append] at h
    obtain ⟨hsame, hrest⟩ := readsAlone_iff.mp
      (readsAlone_element (hitems item List.mem_cons_self) (hitems' item' List.mem_cons_self))
      (stopsAt_cons.mpr (by decide)) (stopsAt_cons.mpr (by decide)) h
    simp only [List.cons.injEq, true_and] at hrest
    exact ⟨by rw [hitem, hitem', ← id_eq item, hsame, id_eq], hrest⟩
  | false =>
    have hscalar' : t'.isScalar = false := by rw [isScalar, ← hshape]; exact hscalar
    simp only [text_of_not_isScalar hscalar, text_of_not_isScalar hscalar', String.toList_append,
      String.reduceToList, List.append_assoc, List.cons_append, List.nil_append, List.cons.injEq,
      true_and] at h
    rw [← List.map_id t.data.texts, ← List.map_id t'.data.texts] at h
    obtain ⟨hsame, hrest⟩ := ReadsOff.list_alone (by decide)
      (fun u => stopsAt_cons.mpr (by decide)) (fun u => stopsAt_cons.mpr (by decide))
      (fun item hitem => notFirst_of_forall (by decide) (hitems item hitem).1 (hitems item hitem).2)
      (fun item hitem => notFirst_of_forall (by decide) (hitems' item hitem).1 (hitems' item hitem).2)
      (fun item hitem item' hitem' => readsAlone_element (hitems item hitem) (hitems' item' hitem'))
      h
    simp only [List.cons.injEq, true_and] at hrest
    rw [List.map_id, List.map_id] at hsame
    exact ⟨hsame, hrest⟩

theorem balanced_text {t : Tensor} (h : t.dtype.isDiscrete = true) : Balanced t.text.toList := by
  have hitems : ∀ item ∈ t.data.texts, Balanced item.toList := fun item hitem =>
    .of_class (by decide) (by decide) (Buffer.elementChars_texts h item hitem).2
  have hdtype := t.dtype.isWord_text.balanced
  cases hscalar : t.isScalar with
  | true =>
    obtain ⟨item, hitem, htext⟩ := text_of_isScalar hscalar
    rw [htext, String.toList_append, String.toList_append]
    have hcolon : Balanced ": ".toList := .of_all (by decide)
    exact ((hitems item (by rw [hitem]; exact List.mem_cons_self)).append hcolon).append hdtype
  | false =>
    simp only [text_of_not_isScalar hscalar, String.toList_append]
    have hopen : Balanced "[".toList := .of_all (by decide)
    have hclose : Balanced "]: ".toList := .of_all (by decide)
    exact ((hopen.append (.commaSeparated hitems)).append hclose).append hdtype

end Tensor

namespace Lowered

/-! ## Parameters -/

/-- The parameter has a word for its name, and so have the data types in its type. -/
def Param.Legible (p : Param) : Prop := IsWord p.name ∧ p.ty.Spelled

theorem Param.readsAlone {p p' : Param} (h : p.Legible) (h' : p'.Legible) :
    ReadsAlone Param.text id PartEnds p p' := by
  rw [readsAlone_iff]
  intro r r' hr hr' heq
  simp only [Param.text, String.toList_append, String.reduceToList, List.append_assoc,
    List.cons_append, List.nil_append] at heq
  obtain ⟨hname, heq⟩ := h.1.append_inj h'.1 (stopsAt_cons.mpr (by decide))
    (stopsAt_cons.mpr (by decide)) heq
  simp only [List.cons.injEq, true_and] at heq
  obtain ⟨hty, hrest⟩ := Ty.text_append_inj h.2 h'.2 hr hr' heq
  obtain ⟨name, ty⟩ := p
  obtain ⟨name', ty'⟩ := p'
  cases hname
  cases hty
  exact ⟨rfl, hrest⟩

theorem Param.notFirst_text {p : Param} (h : p.Legible) {close : Char}
    (hclose : wordChar close = false) : NotFirst close p.text := by
  have htext : p.text.toList = p.name.toList ++ (": ".toList ++ p.ty.text.toList) := by
    rw [Param.text, String.toList_append, String.toList_append, List.append_assoc]
  exact (h.1.notFirst hclose).of_append htext

theorem Param.balanced_text {p : Param} (h : p.Legible) : Balanced p.text.toList := by
  rw [Param.text, String.toList_append, String.toList_append]
  have hcolon : Balanced ": ".toList := .of_all (by decide)
  exact (h.1.balanced.append hcolon).append (Ty.balanced_text h.2)

theorem balanced_paramTexts {ps : List Param} (h : ∀ p ∈ ps, p.Legible) :
    Balanced (paramTexts ps).toList := by
  refine .commaSeparated fun item hitem => ?_
  obtain ⟨p, hp, rfl⟩ := List.mem_map.mp hitem
  exact p.balanced_text (h p hp)

theorem paramTexts_append_inj {close : Char} (hclose : close ≠ ',') (hword : wordChar close = false)
    (hend : ∀ u, PartEnds (close :: u)) {ps ps' : List Param} {r r' : List Char}
    (h : ∀ p ∈ ps, p.Legible) (h' : ∀ p ∈ ps', p.Legible)
    (heq : (paramTexts ps).toList ++ close :: r = (paramTexts ps').toList ++ close :: r') :
    ps = ps' ∧ r = r' := by
  obtain ⟨hkeys, hrest⟩ := ReadsOff.list_alone hclose partEnds_comma hend
    (fun p hp => Param.notFirst_text (h p hp) hword) (fun p hp => Param.notFirst_text (h' p hp) hword)
    (fun p hp p' hp' => Param.readsAlone (h p hp) (h' p' hp')) heq
  rw [List.map_id, List.map_id] at hkeys
  exact ⟨hkeys, hrest⟩

/-! ## Tagged names -/

/-- The fields of a variant in parentheses, if there are any. -/
def fieldChars (fields : List String) : List Char :=
  if fields.isEmpty then [] else '(' :: ((commaSeparated fields).toList ++ [')'])

theorem toList_taggedText (name : String) (tag : Nat) (fields : List String) :
    (taggedText name tag fields).toList =
      name.toList ++ '#' :: ((toString tag).toList ++ fieldChars fields) := by
  rw [taggedText, fieldChars]
  cases fields with
  | nil => simp
  | cons field fields => simp [toList_parenthesized]

theorem stopsAt_fieldChars (fields : List String) {r : List Char} (hr : StopsAt wordChar r) :
    StopsAt wordChar (fieldChars fields ++ r) := by
  cases fields with
  | nil => exact hr
  | cons field fields => exact stopsAt_cons.mpr (by decide)

theorem balanced_fieldChars {fields : List String} (h : ∀ item ∈ fields, Balanced item.toList) :
    Balanced (fieldChars fields) := by
  cases fields with
  | nil => exact .nil
  | cons field fields => exact (Balanced.commaSeparated h).parens

theorem balanced_taggedText {name : String} (hname : IsWord name) (tag : Nat) {fields : List String}
    (h : ∀ item ∈ fields, Balanced item.toList) : Balanced (taggedText name tag fields).toList := by
  rw [toList_taggedText]
  have htag := (isWord_toString tag).balanced.append (balanced_fieldChars h)
  exact hname.balanced.append (htag.cons (by decide) (by decide))

theorem taggedText_append_inj {name name' : String} {tag tag' : Nat} {fields fields' : List String}
    {r r' : List Char} (hname : IsWord name) (hname' : IsWord name') (hr : StopsAt wordChar r)
    (hr' : StopsAt wordChar r')
    (heq : (taggedText name tag fields).toList ++ r = (taggedText name' tag' fields').toList ++ r') :
    name = name' ∧ tag = tag' ∧ fieldChars fields ++ r = fieldChars fields' ++ r' := by
  simp only [toList_taggedText, List.append_assoc, List.cons_append] at heq
  obtain ⟨hsame, heq⟩ := hname.append_inj hname' (stopsAt_cons.mpr (by decide))
    (stopsAt_cons.mpr (by decide)) heq
  injection heq with _ heq
  obtain ⟨htag, hrest⟩ := number_append_inj (stopsAt_fieldChars fields hr).digits
    (stopsAt_fieldChars fields' hr').digits heq
  exact ⟨hsame, htag, hrest⟩

/-! ## Patterns -/

namespace Pattern

mutual

/-- The pattern binds variables by their names, and its constructors have words for names. -/
def Legible : Pattern → Prop
  | .wildcard => True
  | .bind x => IsVarName x
  | .ctor _ name fields => IsWord name ∧ AllLegible fields
  | .tuple fields => AllLegible fields

def AllLegible : List Pattern → Prop
  | [] => True
  | p :: ps => p.Legible ∧ AllLegible ps

end

theorem allLegible_iff {ps : List Pattern} : AllLegible ps ↔ ∀ p ∈ ps, p.Legible := by
  induction ps with
  | nil => simp [AllLegible]
  | cons p ps ih => simp [AllLegible, ih]

theorem texts_eq_map (ps : List Pattern) : texts ps = ps.map text := by
  induction ps with
  | nil => rfl
  | cons p ps ih => rw [texts, ih, List.map_cons]

mutual

theorem balanced_text : ∀ {p : Pattern}, p.Legible → Balanced p.text.toList
  | .wildcard, _ => .of_all (by decide)
  | .bind _, h => h.toIsWord.balanced
  | .ctor tag _ _, h => balanced_taggedText h.1 tag (balanced_texts h.2)
  | .tuple fields, h => by
    rw [text, toList_parenthesized]
    exact (Balanced.commaSeparated (balanced_texts h)).parens

theorem balanced_texts : ∀ {ps : List Pattern}, AllLegible ps →
    ∀ item ∈ texts ps, Balanced item.toList
  | [], _ => fun _ hitem => absurd hitem List.not_mem_nil
  | p :: ps, h => by
    rw [texts, List.forall_mem_cons]
    exact ⟨balanced_text h.1, balanced_texts h.2⟩

end

/-- The forms of patterns. -/
inductive Form where
  | wildcard
  | bind
  | ctor
  | tuple

def form : Pattern → Form
  | .wildcard => .wildcard
  | .bind _ => .bind
  | .ctor .. => .ctor
  | .tuple _ => .tuple

/-- The form of the pattern at the start of the text. -/
def readForm : List Char → Form
  | '(' :: _ => .tuple
  | cs =>
    if (cs.dropWhile wordChar).head? = some '#' then .ctor
    else if cs.takeWhile wordChar = ['_'] then .wildcard
    else .bind

theorem readForm_word {x : String} {r : List Char} (hx : IsWord x) (hr : StopsAt wordChar r) :
    readForm (x.toList ++ r) =
      if r.head? = some '#' then .ctor else if x = "_" then .wildcard else .bind := by
  have hdrop := dropWhile_append_of_stopsAt hx.chars hr
  have htake := takeWhile_append_of_stopsAt hx.chars hr
  have hwildcard : x.toList = ['_'] ↔ x = "_" := by
    rw [← String.toList_inj]
    rfl
  have hopen : NotFirst '(' x := hx.notFirst (by decide)
  obtain ⟨c, u, hcu, hne⟩ := hopen
  unfold readForm
  split
  · next heq =>
    rw [hcu] at heq
    injection heq with hfirst
    exact absurd hfirst hne
  · simp only [hdrop, htake, hwildcard]

/-- The characters that would go on with a pattern. -/
def goesOn (c : Char) : Bool := wordChar c || c == '#' || c == '('

theorem words_of_stopsAt_goesOn {r : List Char} (h : StopsAt goesOn r) : StopsAt wordChar r :=
  h.mono fun c hc => by rw [goesOn, hc]; rfl

theorem readForm_text {p : Pattern} {r : List Char} (h : p.Legible) (hr : StopsAt goesOn r) :
    readForm (p.text.toList ++ r) = p.form := by
  have hwords := words_of_stopsAt_goesOn hr
  have hmark : r.head? ≠ some '#' := hr.head?_ne (by decide)
  cases p with
  | wildcard =>
    have hword : IsWord "_" := .of_all (by decide) (by decide)
    rw [text, readForm_word hword hwords, if_neg hmark, if_pos rfl]
    rfl
  | bind x =>
    rw [text, readForm_word h.toIsWord hwords, if_neg hmark, if_neg h.ne_wildcard]
    rfl
  | ctor tag name fields =>
    rw [text, toList_taggedText, List.append_assoc, List.cons_append,
      readForm_word h.1 (stopsAt_cons.mpr (by decide)), List.head?_cons, if_pos rfl]
    rfl
  | tuple fields =>
    rw [text, toList_parenthesized]
    rfl

theorem notFirst_text {p : Pattern} (h : p.Legible) : NotFirst ')' p.text := by
  cases p with
  | wildcard => exact ⟨'_', [], rfl, by decide⟩
  | bind x => exact (IsVarName.toIsWord h).notFirst (by decide)
  | ctor tag name fields =>
    exact (h.1.notFirst (by decide)).of_append (toList_taggedText name tag (texts fields))
  | tuple fields => simp [NotFirst, text, toList_parenthesized]

theorem stopsAt_goesOn_comma (u : List Char) : StopsAt goesOn (',' :: u) :=
  stopsAt_cons.mpr (by decide)

theorem stopsAt_goesOn_close (u : List Char) : StopsAt goesOn (')' :: u) :=
  stopsAt_cons.mpr (by decide)

theorem readsAlone_list {ps ps' : List Pattern} {r r' : List Char} (h : AllLegible ps)
    (h' : AllLegible ps')
    (hread : ∀ p ∈ ps, ∀ ⦃p' : Pattern⦄, p'.Legible → ReadsAlone text id (StopsAt goesOn) p p')
    (heq : (commaSeparated (texts ps)).toList ++ ')' :: r =
      (commaSeparated (texts ps')).toList ++ ')' :: r') : ps = ps' ∧ r = r' := by
  have hps := allLegible_iff.mp h
  have hps' := allLegible_iff.mp h'
  rw [texts_eq_map, texts_eq_map] at heq
  obtain ⟨hkeys, hrest⟩ := ReadsOff.list_alone (by decide) stopsAt_goesOn_comma stopsAt_goesOn_close
    (fun p hp => notFirst_text (hps p hp)) (fun p hp => notFirst_text (hps' p hp))
    (fun p hp p' hp' => hread p hp (hps' p' hp')) heq
  rw [List.map_id, List.map_id] at hkeys
  exact ⟨hkeys, hrest⟩

/-- Fields that can be read are there or not there in both texts, since nothing that follows a pattern
looks like fields. -/
theorem readsAlone_fields {ps ps' : List Pattern} {r r' : List Char} (h : AllLegible ps)
    (h' : AllLegible ps') (hr : StopsAt goesOn r) (hr' : StopsAt goesOn r')
    (hread : ∀ p ∈ ps, ∀ ⦃p' : Pattern⦄, p'.Legible → ReadsAlone text id (StopsAt goesOn) p p')
    (heq : fieldChars (texts ps) ++ r = fieldChars (texts ps') ++ r') : ps = ps' ∧ r = r' := by
  cases ps with
  | nil =>
    cases ps' with
    | nil => exact ⟨rfl, heq⟩
    | cons p' ps' =>
      have hopen : r.head? ≠ some '(' := hr.head?_ne (by decide)
      have hrest : r = fieldChars (texts (p' :: ps')) ++ r' := heq
      rw [hrest] at hopen
      exact absurd rfl hopen
  | cons p ps =>
    cases ps' with
    | nil =>
      have hopen : r'.head? ≠ some '(' := hr'.head?_ne (by decide)
      have hrest : fieldChars (texts (p :: ps)) ++ r = r' := heq
      rw [← hrest] at hopen
      exact absurd rfl hopen
    | cons p' ps' =>
      have hlists : (commaSeparated (texts (p :: ps))).toList ++ ')' :: r =
          (commaSeparated (texts (p' :: ps'))).toList ++ ')' :: r' := by
        simpa [fieldChars, texts] using heq
      exact readsAlone_list h h' hread hlists

theorem form_eq_of_append_eq {p p' : Pattern} {r r' : List Char} (h : p.Legible) (h' : p'.Legible)
    (hr : StopsAt goesOn r) (hr' : StopsAt goesOn r')
    (heq : p.text.toList ++ r = p'.text.toList ++ r') : p.form = p'.form := by
  rw [← readForm_text h hr, ← readForm_text h' hr', heq]

mutual

/-- A pattern can be read off its text. -/
theorem readsAlone : ∀ {p : Pattern}, p.Legible → ∀ ⦃p' : Pattern⦄, p'.Legible →
    ReadsAlone text id (StopsAt goesOn) p p'
  | .wildcard, h, p', h' => by
    rw [readsAlone_iff]
    intro r r' hr hr' heq
    have hform := form_eq_of_append_eq h h' hr hr' heq
    cases p' with
    | wildcard => exact ⟨rfl, List.append_cancel_left heq⟩
    | _ => cases hform
  | .bind x, h, p', h' => by
    rw [readsAlone_iff]
    intro r r' hr hr' heq
    have hform := form_eq_of_append_eq h h' hr hr' heq
    cases p' with
    | bind x' =>
      obtain ⟨hname, hrest⟩ := (IsVarName.toIsWord h).append_inj (IsVarName.toIsWord h')
        (words_of_stopsAt_goesOn hr) (words_of_stopsAt_goesOn hr') heq
      exact ⟨by rw [hname], hrest⟩
    | _ => cases hform
  | .ctor tag name fields, h, p', h' => by
    rw [readsAlone_iff]
    intro r r' hr hr' heq
    have hform := form_eq_of_append_eq h h' hr hr' heq
    cases p' with
    | ctor tag' name' fields' =>
      obtain ⟨hname, htag, heq⟩ := taggedText_append_inj h.1 h'.1 (words_of_stopsAt_goesOn hr)
        (words_of_stopsAt_goesOn hr') heq
      obtain ⟨hfields, hrest⟩ := readsAlone_fields h.2 h'.2 hr hr' (readsAlone_mem h.2) heq
      exact ⟨by rw [hname, htag, hfields], hrest⟩
    | _ => cases hform
  | .tuple fields, h, p', h' => by
    rw [readsAlone_iff]
    intro r r' hr hr' heq
    have hform := form_eq_of_append_eq h h' hr hr' heq
    cases p' with
    | tuple fields' =>
      simp only [text, toList_parenthesized, List.cons_append, List.nil_append,
        List.append_assoc, List.cons.injEq, true_and] at heq
      obtain ⟨hfields, hrest⟩ := readsAlone_list h h' (readsAlone_mem h) heq
      exact ⟨by rw [hfields], hrest⟩
    | _ => cases hform

theorem readsAlone_mem : ∀ {ps : List Pattern}, AllLegible ps → ∀ p ∈ ps, ∀ ⦃p' : Pattern⦄,
    p'.Legible → ReadsAlone text id (StopsAt goesOn) p p'
  | [], _ => fun _ hp => absurd hp List.not_mem_nil
  | _ :: _, h => List.forall_mem_cons.mpr ⟨readsAlone h.1, readsAlone_mem h.2⟩

end

end Pattern

end Lowered

end TensorIR
