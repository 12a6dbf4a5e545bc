import TensorIR.Text

/-! Reading printed texts.

A printed text is made of words, numbers, comma lists and parentheses, one after the other. Where a part
of it ends can be seen from what follows: a word ends before the first character that is not of a word,
and an opening parenthesis has a closing one. So a text determines the parts it was made of, given what
may follow them (`ReadsOff`). -/

namespace TensorIR.Printed

/-! ## Words -/

/-- The text does not go on with a character of the class. -/
def StopsAt (p : Char → Bool) (r : List Char) : Prop := ∀ c ∈ r.head?, p c = false

section

variable {p : Char → Bool} {w w' r r' : List Char} {c : Char}

theorem stopsAt_cons : StopsAt p (c :: r) ↔ p c = false := by
  simp [StopsAt]

theorem StopsAt.mono {q : Char → Bool} (h : StopsAt q r) (hpq : ∀ c, p c = true → q c = true) :
    StopsAt p r := by
  intro c hc
  have hq := h c hc
  cases hp : p c with
  | false => rfl
  | true => rw [hpq c hp] at hq; cases hq

theorem StopsAt.head?_ne (h : StopsAt p r) (hc : p c = true) : r.head? ≠ some c := by
  intro hhead
  have hstop := h c hhead
  rw [hc] at hstop
  cases hstop

theorem takeWhile_append_of_stopsAt (hw : ∀ c ∈ w, p c = true) (hr : StopsAt p r) :
    (w ++ r).takeWhile p = w := by
  rw [List.takeWhile_append_of_pos hw]
  cases r with
  | nil => simp
  | cons c r => simp [stopsAt_cons.mp hr]

theorem dropWhile_append_of_stopsAt (hw : ∀ c ∈ w, p c = true) (hr : StopsAt p r) :
    (w ++ r).dropWhile p = r := by
  rw [List.dropWhile_append_of_pos hw]
  cases r with
  | nil => simp
  | cons c r => simp [stopsAt_cons.mp hr]

/-- Characters of the class are told from what follows them. -/
theorem append_inj_of_stopsAt (hw : ∀ c ∈ w, p c = true) (hw' : ∀ c ∈ w', p c = true)
    (hr : StopsAt p r) (hr' : StopsAt p r') (h : w ++ r = w' ++ r') : w = w' ∧ r = r' := by
  have hwords := congrArg (List.takeWhile p) h
  rw [takeWhile_append_of_stopsAt hw hr, takeWhile_append_of_stopsAt hw' hr'] at hwords
  subst hwords
  exact ⟨rfl, List.append_cancel_left h⟩

end

/-- The characters of names. -/
def wordChar (c : Char) : Bool := c.isAlphanum || c == '_'

/-- The text is a name. -/
structure IsWord (x : String) : Prop where
  ne_nil : x.toList ≠ []
  chars : ∀ c ∈ x.toList, wordChar c = true

theorem IsWord.of_all {x : String} (hne : x.toList.isEmpty = false)
    (h : x.toList.all wordChar = true) : IsWord x :=
  ⟨List.isEmpty_eq_false_iff.mp hne, List.all_eq_true.mp h⟩

theorem IsWord.append_inj {x y : String} {r r' : List Char} (hx : IsWord x) (hy : IsWord y)
    (hr : StopsAt wordChar r) (hr' : StopsAt wordChar r') (h : x.toList ++ r = y.toList ++ r') :
    x = y ∧ r = r' := by
  obtain ⟨hword, hrest⟩ := append_inj_of_stopsAt hx.chars hy.chars hr hr' h
  exact ⟨String.ext hword, hrest⟩

/-! ## Numbers -/

theorem digits_toString (n : Nat) : ∀ c ∈ (toString n).toList, c.isDigit = true := by
  intro c hc
  rw [Nat.toString_eq_ofList_toDigits, String.toList_ofList] at hc
  exact Nat.isDigit_of_mem_toDigits (by decide) (by decide) hc

theorem toString_ne_nil (n : Nat) : (toString n).toList ≠ [] := by
  rw [Nat.toString_eq_ofList_toDigits, String.toList_ofList]
  exact Nat.toDigits_ne_nil

theorem toString_nat_inj {m n : Nat} (h : (toString m).toList = (toString n).toList) : m = n := by
  rw [Nat.toString_eq_ofList_toDigits, Nat.toString_eq_ofList_toDigits, String.toList_ofList,
    String.toList_ofList] at h
  calc
    m = Nat.ofDigitChars 10 (Nat.toDigits 10 m) 0 := Nat.ofDigitChars_ten_toDigits.symm
    _ = Nat.ofDigitChars 10 (Nat.toDigits 10 n) 0 := by rw [h]
    _ = n := Nat.ofDigitChars_ten_toDigits

theorem number_append_inj {m n : Nat} {r r' : List Char} (hr : StopsAt Char.isDigit r)
    (hr' : StopsAt Char.isDigit r') (h : (toString m).toList ++ r = (toString n).toList ++ r') :
    m = n ∧ r = r' := by
  obtain ⟨hdigits, hrest⟩ := append_inj_of_stopsAt (digits_toString m) (digits_toString n) hr hr' h
  exact ⟨toString_nat_inj hdigits, hrest⟩

theorem wordChar_of_isDigit {c : Char} (h : c.isDigit = true) : wordChar c = true := by
  simp [wordChar, Char.isAlphanum, h]

theorem isWord_toString (n : Nat) : IsWord (toString n) :=
  ⟨toString_ne_nil n, fun c hc => wordChar_of_isDigit (digits_toString n c hc)⟩

theorem StopsAt.digits {r : List Char} (h : StopsAt wordChar r) : StopsAt Char.isDigit r :=
  h.mono fun _ => wordChar_of_isDigit

/-! ## Comma lists -/

/-- What stands between an item of a comma list and the end of the list. -/
def moreChars : (items : List String) → List Char
  | [] => []
  | items => ',' :: ' ' :: (commaSeparated items).toList

theorem toList_commaSeparated_cons (item : String) (items : List String) :
    (commaSeparated (item :: items)).toList = item.toList ++ moreChars items := by
  cases items with
  | nil => simp [commaSeparated, moreChars]
  | cons next items => simp [commaSeparated, moreChars, String.toList_intercalate]

theorem toList_parenthesized (items : List String) :
    (parenthesized items).toList = '(' :: ((commaSeparated items).toList ++ [')']) := by
  simp [parenthesized]

section

variable {α β γ : Type} {text : α → String} {extra : α → List β} {key : α → γ}
  {Ends : List Char → Prop} {x y : α} {xs ys : List α} {r r' : List Char} {s s' : List β}

/-- What can be read off the texts of two items, if texts with the given ends follow them: the items
have the same key and the same rests. There may be extra data that is read along with the texts. -/
def ReadsOff (text : α → String) (extra : α → List β) (key : α → γ) (Ends : List Char → Prop)
    (x y : α) : Prop :=
  ∀ ⦃r r' : List Char⦄ ⦃s s' : List β⦄, Ends r → Ends r' →
    (text x).toList ++ r = (text y).toList ++ r' → extra x ++ s = extra y ++ s' →
      key x = key y ∧ r = r' ∧ s = s'

/-- What can be read off the texts alone. -/
abbrev ReadsAlone (text : α → String) (key : α → γ) (Ends : List Char → Prop) (x y : α) : Prop :=
  ReadsOff text (fun _ => ([] : List Empty)) key Ends x y

theorem readsAlone_iff : ReadsAlone text key Ends x y ↔ ∀ ⦃r r' : List Char⦄, Ends r → Ends r' →
    (text x).toList ++ r = (text y).toList ++ r' → key x = key y ∧ r = r' := by
  constructor
  · intro h r r' hr hr' htext
    obtain ⟨hkey, hrest, -⟩ := @h r r' [] [] hr hr' htext rfl
    exact ⟨hkey, hrest⟩
  · intro h r r' s s' hr hr' htext hextra
    obtain ⟨hkey, hrest⟩ := h hr hr' htext
    exact ⟨hkey, hrest, hextra⟩

/-- The text does not start with the character. -/
def NotFirst (close : Char) (text : String) : Prop := ∃ c u, text.toList = c :: u ∧ c ≠ close

/-- A text that is not empty and has only characters of the class starts with one of them. -/
theorem notFirst_of_forall {p : Char → Bool} {close : Char} {x : String} (hclose : p close = false)
    (hne : x.toList ≠ []) (h : ∀ c ∈ x.toList, p c = true) : NotFirst close x := by
  obtain ⟨c, u, hcu⟩ := List.exists_cons_of_ne_nil hne
  refine ⟨c, u, hcu, ?_⟩
  rintro rfl
  have hc := h c (by rw [hcu]; exact List.mem_cons_self)
  rw [hc] at hclose
  cases hclose

theorem IsWord.notFirst {close : Char} {x : String} (hx : IsWord x) (hclose : wordChar close = false) :
    NotFirst close x :=
  notFirst_of_forall hclose hx.ne_nil hx.chars

theorem NotFirst.of_append {close : Char} {x x' : String} {u : List Char} (h : NotFirst close x)
    (heq : x'.toList = x.toList ++ u) : NotFirst close x' := by
  obtain ⟨c, w, hcw, hne⟩ := h
  exact ⟨c, w ++ u, by rw [heq, hcw, List.cons_append], hne⟩

/-- A list whose items can be read can be read up to the character that closes it. -/
theorem ReadsOff.list {close : Char} (hclose : close ≠ ',') (hcomma : ∀ u, Ends (',' :: u))
    (hend : ∀ u, Ends (close :: u)) (hxs : ∀ x ∈ xs, NotFirst close (text x))
    (hys : ∀ y ∈ ys, NotFirst close (text y))
    (h : ∀ x ∈ xs, ∀ y ∈ ys, ReadsOff text extra key Ends x y)
    (htext : (commaSeparated (xs.map text)).toList ++ close :: r =
      (commaSeparated (ys.map text)).toList ++ close :: r')
    (hextra : xs.flatMap extra ++ s = ys.flatMap extra ++ s') :
    xs.map key = ys.map key ∧ r = r' ∧ s = s' := by
  have hmore : ∀ (zs : List α) (u : List Char), Ends (moreChars (zs.map text) ++ close :: u) := by
    intro zs u
    cases zs with
    | nil => exact hend u
    | cons z zs => exact hcomma _
  induction xs generalizing ys with
  | nil =>
    cases ys with
    | nil =>
      cases htext
      exact ⟨rfl, rfl, hextra⟩
    | cons y ys =>
      obtain ⟨c, u, hc, hne⟩ := hys y List.mem_cons_self
      rw [List.map_cons, toList_commaSeparated_cons, hc] at htext
      injection htext with hfirst
      exact absurd hfirst.symm hne
  | cons x xs ih =>
    cases ys with
    | nil =>
      obtain ⟨c, u, hc, hne⟩ := hxs x List.mem_cons_self
      rw [List.map_cons, toList_commaSeparated_cons, hc] at htext
      injection htext with hfirst
      exact absurd hfirst hne
    | cons y ys =>
      rw [List.map_cons, List.map_cons, toList_commaSeparated_cons, toList_commaSeparated_cons,
        List.append_assoc, List.append_assoc] at htext
      rw [List.flatMap_cons, List.flatMap_cons, List.append_assoc, List.append_assoc] at hextra
      obtain ⟨hkey, hrest, hextra⟩ :=
        h x List.mem_cons_self y List.mem_cons_self (hmore xs r) (hmore ys r') htext hextra
      rw [List.map_cons, List.map_cons, hkey]
      cases xs with
      | nil =>
        cases ys with
        | nil =>
          cases hrest
          exact ⟨rfl, rfl, hextra⟩
        | cons y' ys =>
          injection hrest with hfirst
          exact absurd hfirst hclose
      | cons x' xs =>
        cases ys with
        | nil =>
          injection hrest with hfirst
          exact absurd hfirst.symm hclose
        | cons y' ys =>
          injection hrest with _ hrest
          injection hrest with _ hrest
          obtain ⟨hkeys, hr, hs⟩ := ih (fun z hz => hxs z (List.mem_cons_of_mem x hz))
            (fun z hz => hys z (List.mem_cons_of_mem y hz))
            (fun z hz z' hz' => h z (List.mem_cons_of_mem x hz) z' (List.mem_cons_of_mem y hz'))
            hrest hextra
          exact ⟨by rw [hkeys], hr, hs⟩

theorem ReadsOff.list_alone {close : Char} (hclose : close ≠ ',') (hcomma : ∀ u, Ends (',' :: u))
    (hend : ∀ u, Ends (close :: u)) (hxs : ∀ x ∈ xs, NotFirst close (text x))
    (hys : ∀ y ∈ ys, NotFirst close (text y))
    (h : ∀ x ∈ xs, ∀ y ∈ ys, ReadsAlone text key Ends x y)
    (htext : (commaSeparated (xs.map text)).toList ++ close :: r =
      (commaSeparated (ys.map text)).toList ++ close :: r') :
    xs.map key = ys.map key ∧ r = r' := by
  have hnone : ∀ zs : List α, zs.flatMap (fun _ => ([] : List Empty)) ++ [] = [] := by
    intro zs
    rw [List.append_nil, List.flatMap_eq_nil_iff]
    exact fun _ _ => rfl
  have hextra := (hnone xs).trans (hnone ys).symm
  obtain ⟨hkeys, hrest, -⟩ := ReadsOff.list hclose hcomma hend hxs hys h htext hextra
  exact ⟨hkeys, hrest⟩

end

/-! ## Parentheses -/

/-- What follows the parenthesis that closes an open one, when `depth` more are open. -/
def closing : (depth : Nat) → List Char → List Char
  | _, [] => []
  | depth, '(' :: r => closing (depth + 1) r
  | 0, ')' :: r => r
  | depth + 1, ')' :: r => closing depth r
  | depth, _ :: r => closing depth r

/-- All parentheses that are opened in the text are closed in it. -/
def Balanced (w : List Char) : Prop := ∀ depth r, closing depth (w ++ r) = closing depth r

namespace Balanced

variable {w w' : List Char}

theorem nil : Balanced [] := fun _ _ => rfl

theorem append (h : Balanced w) (h' : Balanced w') : Balanced (w ++ w') := by
  intro depth r
  rw [List.append_assoc, h, h']

theorem cons {c : Char} (hopen : c ≠ '(') (hclose : c ≠ ')') (h : Balanced w) :
    Balanced (c :: w) := by
  intro depth r
  rw [List.cons_append, ← h depth r]
  cases depth <;> simp [closing, hclose]

theorem of_forall (h : ∀ c ∈ w, c ≠ '(' ∧ c ≠ ')') : Balanced w := by
  induction w with
  | nil => exact .nil
  | cons c w ih =>
    rw [List.forall_mem_cons] at h
    exact .cons h.1.1 h.1.2 (ih h.2)

theorem of_class {p : Char → Bool} (hopen : p '(' = false) (hclose : p ')' = false)
    (h : ∀ c ∈ w, p c = true) : Balanced w := by
  refine .of_forall fun c hc => ⟨?_, ?_⟩
  · rintro rfl
    exact Bool.false_ne_true (hopen.symm.trans (h _ hc))
  · rintro rfl
    exact Bool.false_ne_true (hclose.symm.trans (h _ hc))

theorem of_all (h : w.all (fun c => c != '(' && c != ')') = true) : Balanced w :=
  .of_class rfl rfl (List.all_eq_true.mp h)

theorem parens (h : Balanced w) : Balanced ('(' :: (w ++ [')'])) := by
  intro depth r
  rw [List.cons_append, List.append_assoc, closing, h]
  rfl

theorem parens_append (h : Balanced w) (h' : Balanced w') : Balanced ('(' :: (w ++ ')' :: w')) := by
  have hboth := h.parens.append h'
  rwa [List.cons_append, List.append_assoc] at hboth

theorem commaSeparated {items : List String} (h : ∀ item ∈ items, Balanced item.toList) :
    Balanced (commaSeparated items).toList := by
  induction items with
  | nil => exact .nil
  | cons item items ih =>
    rw [List.forall_mem_cons] at h
    rw [toList_commaSeparated_cons]
    refine h.1.append ?_
    cases items with
    | nil => exact .nil
    | cons => exact .cons (by decide) (by decide) (.cons (by decide) (by decide) (ih h.2))

theorem closing_eq (h : Balanced w) (r : List Char) : closing 0 (w ++ ')' :: r) = r := by
  rw [h]
  rfl

end Balanced

theorem IsWord.balanced {x : String} (h : IsWord x) : Balanced x.toList :=
  .of_class (by decide) (by decide) h.chars

end TensorIR.Printed
