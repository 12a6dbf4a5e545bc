import TensorIR.Proofs.NeatCode
import TensorIR.Proofs.PlainRuns
import TensorIR.Proofs.PrintedNodes
import TensorIR.Proofs.RequestOrder

/-! Programs with the same text.

All that a run depends on can be read off the text of a lowered program, apart from the shapes of its
literals: a literal is printed as the list of its elements. So two programs with the same text and the
same shapes of literals behave in the same way, and programs that differ in a shape only need not. -/

namespace TensorIR

open Source Lowered Lowering Run Printed

/-! ## Spelling -/

namespace Lowered

mutual

/-- The names of constructors in the pattern are words. -/
def Pattern.Spelled : Lowered.Pattern → Prop
  | .wildcard | .bind _ => True
  | .ctor _ name fields => IsWord name ∧ Pattern.AllSpelled fields
  | .tuple fields => Pattern.AllSpelled fields

def Pattern.AllSpelled : List Lowered.Pattern → Prop
  | [] => True
  | p :: ps => p.Spelled ∧ Pattern.AllSpelled ps

end

/-- The names of kernels, constructors and data types in the node itself are words, and a literal has
integers or truth values for its elements. -/
def Node.SpelledHere : Node → Prop
  | .literal t => t.dtype.isDiscrete = true
  | .packed name _ _ ty _ => IsWord name ∧ ty.Spelled
  | .func _ params captures _ ret => (∀ p ∈ params ++ captures, p.ty.Spelled) ∧ ret.Spelled
  | .ite _ _ _ ty => ty.Spelled
  | .matchOn _ clauses ty => (∀ clause ∈ clauses, clause.1.Spelled) ∧ ty.Spelled
  | .ctor _ name _ _ => IsWord name
  | .var _ | .global _ | .decl .. | .invoke .. | .apply .. | .tuple .. => True

structure Function.Spelled (f : Lowered.Function) : Prop where
  params : ∀ p ∈ f.params, p.ty.Spelled
  ret : f.ret.Spelled
  body : f.body.Everywhere (fun _ => Node.SpelledHere) []

/-- All names that come from the source are words, and no literal has fractions. -/
def Program.Spelled (p : Program) : Prop :=
  ∀ function ∈ p.functions, IsWord function.1 ∧ function.2.Spelled

/-- The shapes of all literals, in the order in which they are printed. -/
def Program.literalShapes (p : Program) : List Shape :=
  p.functions.flatMap fun function => function.2.body.literalShapes

end Lowered

/-! ## Lowered code can be read -/

theorem wordChar_cleanHint (hint : String) : ∀ c ∈ (cleanHint hint).toList, wordChar c = true := by
  intro c hc
  rw [cleanHint, String.toList_ofList] at hc
  obtain ⟨d, -, rfl⟩ := List.mem_map.mp hc
  split
  · next hd => exact hd
  · rfl

theorem IsNumbered.isVarName {x : String} (h : IsNumbered x) : IsVarName x := by
  obtain ⟨hint, n, rfl⟩ := h
  obtain ⟨base, hname, hbase⟩ : ∃ base : List Char,
      (numberedName hint n).toList = base ++ '_' :: (toString n).toList ∧
        ∀ c ∈ base, wordChar c = true := by
    refine ⟨(if (cleanHint hint).isEmpty then "v" else cleanHint hint).toList, ?_, ?_⟩
    · simp [numberedName]
    · split
      · exact List.all_eq_true.mp (by decide)
      · exact wordChar_cleanHint hint
  have hword := isWord_toString n
  constructor
  · constructor
    · simp [hname]
    · rw [hname, List.forall_mem_append, List.forall_mem_cons]
      exact ⟨hbase, rfl, hword.chars⟩
  · simp [hname]
  · intro heq
    have hlength := congrArg List.length (hname.symm.trans (congrArg String.toList heq))
    have hdigits := List.length_pos_iff.mpr hword.ne_nil
    have hone : "_".toList.length = 1 := rfl
    rw [hone, List.length_append, List.length_cons] at hlength
    omega

namespace Lowered

mutual

theorem Pattern.legible_of_isNumbered : ∀ {p : Lowered.Pattern}, p.Spelled →
    (∀ x ∈ p.boundNames, IsNumbered x) → p.Legible
  | .wildcard, _, _ => trivial
  | .bind x, _, hnames => (hnames x (List.mem_singleton_self x)).isVarName
  | .ctor _ _ _, h, hnames => ⟨h.1, Pattern.allLegible_of_isNumbered h.2 hnames⟩
  | .tuple _, h, hnames => Pattern.allLegible_of_isNumbered h hnames

theorem Pattern.allLegible_of_isNumbered : ∀ {ps : List Lowered.Pattern}, Pattern.AllSpelled ps →
    (∀ x ∈ Pattern.boundNamesList ps, IsNumbered x) → Pattern.AllLegible ps
  | [], _, _ => trivial
  | _ :: _, h, hnames => by
    rw [Pattern.boundNamesList, List.forall_mem_append] at hnames
    exact ⟨Pattern.legible_of_isNumbered h.1 hnames.1, Pattern.allLegible_of_isNumbered h.2 hnames.2⟩

end

theorem Node.form_ne_decl {n : Node} (h : n.isDecl = false) : n.form ≠ .decl := by
  cases n with
  | decl => cases h
  | _ => exact Form.noConfusion

end Lowered

/-- The number of fields of the constructor. -/
def Source.Module.fieldCount (m : Module) (name : String) : Nat :=
  (m.ctor? name).elim 0 fun info => info.fields.length

theorem Source.Module.fieldCount_congr {m m' : Module} (h : m'.types = m.types) :
    m'.fieldCount = m.fieldCount := by
  funext name
  rw [fieldCount, fieldCount, ctor?, ctor?, h]

section

variable {s : Setting} {given : String → Source.Function → Prop} {t : FunctionTable} {p : Program}

theorem mem_names_of_directory {id : FunctionId} {name : String} {params : Nat}
    (h : p.directory id = some (name, params)) : name ∈ p.names := by
  obtain ⟨function, hfunction, rfl⟩ := Option.map_eq_some_iff.mp (directory_eq_some h).1
  exact List.mem_map_of_mem (List.mem_of_getElem? hfunction)

/-- Linked and neat code with good names can be read off its text. -/
theorem Lowered.Node.legibleHere (hwords : ∀ name ∈ p.names, IsWord name) {n : Node}
    (hlinked : n.LinkedHere s p.directory) (hneat : n.NeatHere) (hspelled : n.SpelledHere) :
    n.LegibleHere s.module.fieldCount := by
  cases n with
  | var x => exact hneat.isVarName
  | literal | packed | ite => exact hspelled
  | global target =>
    obtain ⟨params, hparams⟩ := hlinked
    exact hwords target.name (mem_names_of_directory hparams)
  | invoke target args => exact hwords target.name (mem_names_of_directory hlinked)
  | decl bindings body =>
    obtain ⟨hne, hnames, hbody⟩ := hneat
    exact ⟨hne, fun b hb => (hnames b hb).isVarName.toIsWord, form_ne_decl hbody⟩
  | func name params captures body ret =>
    have hall : ∀ param ∈ params ++ captures, param.Legible := fun param hparam =>
      ⟨(hneat.2 param hparam).isVarName.toIsWord, hspelled.1 param hparam⟩
    rw [List.forall_mem_append] at hall
    exact ⟨fun x hx => (hneat.1 x hx).isVarName.toIsWord, hall.1, hall.2, hspelled.2⟩
  | matchOn data clauses ty =>
    exact ⟨fun clause hclause => Pattern.legible_of_isNumbered (hspelled.1 clause hclause)
      (hneat clause hclause), hspelled.2⟩
  | ctor tag name fields ty =>
    obtain ⟨info, hinfo, -, hlength, -⟩ := hlinked
    exact ⟨hspelled, by rw [Module.fieldCount, hinfo]; exact hlength⟩
  | apply | tuple => exact trivial

/-- A definition can be read off its text: it is a function without a name and captures. -/
structure Lowered.Function.Legible (arity : String → Nat) (f : Lowered.Function) : Prop where
  name_eq : f.name = none
  captures_eq : f.captures = []
  params : ∀ p ∈ f.params, p.Legible
  ret : f.ret.Spelled
  body : f.body.Legible arity []

/-- All definitions under words for their names can be read. -/
def AllLegible (arity : String → Nat) (functions : List (String × Lowered.Function)) : Prop :=
  ∀ function ∈ functions, IsWord function.1 ∧ function.2.Legible arity

theorem Lowering.Setting.Makes.allLegible (h : s.Makes given t p) (hp : p.Spelled) :
    AllLegible s.module.fieldCount p.functions := by
  intro function hfunction
  obtain ⟨i, hi⟩ := List.mem_iff_getElem?.mp hfunction
  have hf : p.functions[(FunctionId.mk i).index]? = some (function.1, function.2) := hi
  obtain ⟨e, -, -, hinstalled⟩ := h.installed hf
  obtain ⟨source, -, haccepts⟩ := hinstalled.source
  obtain ⟨hparams, hneat⟩ := haccepts.neat
  obtain ⟨hname, hspelled⟩ := hp function hfunction
  have hwords : ∀ name ∈ p.names, IsWord name := by
    intro name hmem
    obtain ⟨other, hother, rfl⟩ := List.mem_map.mp hmem
    exact (hp other hother).1
  have hall := (h.linked hf).and (hneat.and hspelled.body)
  refine ⟨hname, hinstalled.name_eq, hinstalled.captures_eq, ?_, hspelled.ret, ?_⟩
  · exact fun param hparam => ⟨(hparams param hparam).isVarName.toIsWord, hspelled.params param hparam⟩
  · exact hall.mono (fun _ _ _ _ hn => Node.legibleHere hwords hn.1 hn.2.1 hn.2.2)
      (List.Subset.refl [])

end

/-! ## Reading programs -/

namespace Lowered

section

variable {φ : GlobalRef → GlobalRef} {arity : String → Nat}

/-- The definition in its plain form with other references. -/
def codeUnder (φ : GlobalRef → GlobalRef) (function : String × Lowered.Function) :
    String × Lowered.Function := (function.1, (function.2.mapRefs φ).plain)

-- The equations for long texts are not made by `rw` and `simp`, which compute with their characters.
theorem definitionText_eq (id : FunctionId) (name : String) (f : Lowered.Function) :
    f.definitionText id name = "\ndef " ++ id.text ++ " " ++ name ++ "(" ++ paramTexts f.params ++
      ") -> " ++ f.ret.text ++ " " ++ block 0 (f.body.textAt 1) ++ "\n" := by
  delta Function.definitionText
  exact Eq.refl _

theorem toList_definitionText (id : FunctionId) (name : String) (f : Lowered.Function)
    (r : List Char) : (f.definitionText id name).toList ++ r =
      "\ndef ".toList ++ (id.text.toList ++ (' ' :: (name.toList ++ ('(' ::
        ((paramTexts f.params).toList ++ (')' :: (" -> ".toList ++ (f.ret.text.toList ++
          (' ' :: ((block 0 (f.body.textAt 1)).toList ++ '\n' :: r)))))))))) := by
  simp [definitionText_eq]

theorem definitionText_append_inj (hφ : Node.ByName φ) {id : FunctionId} {name name' : String}
    {f f' : Lowered.Function} {r r' : List Char} {shapes shapes' : List Shape} (hname : IsWord name)
    (hname' : IsWord name') (h : f.Legible arity) (h' : f'.Legible arity)
    (heq : (f.definitionText id name).toList ++ r = (f'.definitionText id name').toList ++ r')
    (hshapes : f.body.literalShapes ++ shapes = f'.body.literalShapes ++ shapes') :
    codeUnder φ (name, f) = codeUnder φ (name', f') ∧ r = r' ∧ shapes = shapes' := by
  rw [toList_definitionText, toList_definitionText] at heq
  have heq := List.append_cancel_left (List.append_cancel_left heq)
  injection heq with _ heq
  obtain ⟨hnames, heq⟩ := hname.append_inj hname' (stopsAt_cons.mpr (by decide))
    (stopsAt_cons.mpr (by decide)) heq
  injection heq with _ heq
  obtain ⟨hparams, heq⟩ := paramTexts_append_inj (by decide) (by decide) partEnds_close h.params
    h'.params heq
  obtain ⟨hret, heq⟩ := Ty.text_append_inj h.ret h'.ret (partEnds_block _ _ _) (partEnds_block _ _ _)
    (List.append_cancel_left heq)
  injection heq with _ heq
  obtain ⟨hbody, heq, hshapes⟩ := Node.readsOff_block (Node.readsAny hφ h.body) h'.body heq hshapes
  injection heq with _ heq
  refine ⟨?_, heq, hshapes⟩
  rw [Node.codeWith, Node.codeWith] at hbody
  simp only [codeUnder, Function.mapRefs, Function.plain, hnames, h.name_eq, h'.name_eq,
    h.captures_eq, h'.captures_eq, hparams, hret, hbody]

theorem definitionTexts_inj (hφ : Node.ByName φ) {fs fs' : List (String × Lowered.Function)}
    {index : Nat} (h : AllLegible arity fs) (h' : AllLegible arity fs')
    (heq : (definitionTexts index fs).toList = (definitionTexts index fs').toList)
    (hshapes : (fs.flatMap fun function => function.2.body.literalShapes) =
      fs'.flatMap fun function => function.2.body.literalShapes) :
    fs.map (codeUnder φ) = fs'.map (codeUnder φ) := by
  induction fs generalizing fs' index with
  | nil =>
    cases fs' with
    | nil => rfl
    | cons function fs' =>
      rw [definitionTexts, definitionTexts, String.toList_append, toList_definitionText] at heq
      cases heq
  | cons function fs ih =>
    cases fs' with
    | nil =>
      rw [definitionTexts, definitionTexts, String.toList_append, toList_definitionText] at heq
      cases heq
    | cons function' fs' =>
      rw [definitionTexts, definitionTexts, String.toList_append, String.toList_append] at heq
      rw [List.flatMap_cons, List.flatMap_cons] at hshapes
      rw [AllLegible, List.forall_mem_cons] at h h'
      obtain ⟨hfirst, heq, hshapes⟩ :=
        definitionText_append_inj hφ h.1.1 h'.1.1 h.1.2 h'.1.2 heq hshapes
      rw [List.map_cons, List.map_cons, ih h.2 h'.2 heq hshapes]
      exact congrArg (· :: _) hfirst

theorem definitionText_plain (id : FunctionId) (name : String) (f : Lowered.Function) :
    f.plain.definitionText id name = f.definitionText id name := by
  have hbody : f.plain.body.textAt 1 = f.body.textAt 1 := Node.textAt_plain f.body 1
  have hret : f.plain.ret = f.ret := rfl
  rw [definitionText_eq, definitionText_eq, Function.params_plain, hret, hbody]

theorem definitionTexts_plain (fs : List (String × Lowered.Function)) (index : Nat) :
    definitionTexts index (fs.map fun function => (function.1, function.2.plain)) =
      definitionTexts index fs := by
  induction fs generalizing index with
  | nil => rfl
  | cons function fs ih =>
    obtain ⟨name, f⟩ := function
    rw [List.map_cons, definitionTexts, definitionTexts, ih, definitionText_plain]

end

namespace Program

variable {p q : Program}

theorem byName_place (p : Program) : Node.ByName p.place := by
  intro target target' h
  rw [place, place, h]

theorem place_congr (h : p.names = q.names) : p.place = q.place := by
  have hsize : p.size = q.size := by simpa [names, size] using congrArg List.length h
  have hid : ∀ name, p.idOf? name = q.idOf? name := by
    intro name
    have hfind : ∀ r : Program, r.functions.findIdx? (·.1 == name) = r.names.findIdx? (· == name) :=
      fun r => by rw [names, List.findIdx?_map]; rfl
    rw [idOf?, idOf?, hfind, hfind, h]
  funext target
  rw [place, place, hid, hsize]

theorem names_of_map_codeUnder {φ : GlobalRef → GlobalRef}
    (h : p.functions.map (codeUnder φ) = q.functions.map (codeUnder φ)) : p.names = q.names := by
  simpa [names, codeUnder, Function.comp_def] using congrArg (List.map Prod.fst) h

theorem text_eq (p : Program) : p.text = "// aotc lowered program: " ++ toString p.size ++
    " function(s)\n" ++ definitionTexts 0 p.functions := by
  delta text
  exact Eq.refl _

/-- The definitions can be read off the text of a program together with the shapes of its literals. -/
theorem map_codeUnder_eq {arity : String → Nat} (h : AllLegible arity p.functions)
    (h' : AllLegible arity q.functions) (htext : p.text = q.text)
    (hshapes : p.literalShapes = q.literalShapes) {φ : GlobalRef → GlobalRef}
    (hφ : Node.ByName φ) : p.functions.map (codeUnder φ) = q.functions.map (codeUnder φ) := by
  have heq := congrArg String.toList htext
  simp only [text_eq, String.toList_append, List.append_assoc] at heq
  have hstop : ∀ u, StopsAt Char.isDigit (" function(s)\n".toList ++ u) := by
    intro u
    simp only [String.reduceToList, List.cons_append]
    exact stopsAt_cons.mpr rfl
  obtain ⟨-, heq⟩ := number_append_inj (hstop _) (hstop _) (List.append_cancel_left heq)
  exact definitionTexts_inj hφ h h' (List.append_cancel_left heq) hshapes

theorem text_plain (p : Program) : p.plain.text = p.text := by
  have hsize : p.plain.size = p.size := List.length_map _
  have hfunctions : definitionTexts 0 p.plain.functions = definitionTexts 0 p.functions :=
    definitionTexts_plain p.functions 0
  rw [text_eq, text_eq, hsize, hfunctions]

theorem literalShapes_plain (p : Program) : p.plain.literalShapes = p.literalShapes := by
  simp only [literalShapes, plain, List.flatMap_map, Function.plain, Node.literalShapes_plain]

end Program

end Lowered

/-! ## Places -/

section

variable {s : Setting} {given : String → Source.Function → Prop} {t : FunctionTable} {p : Program}

theorem Lowering.Setting.next_of_ends {g g' : Progress} {r : Request} (h : Ends (s.serve r) g g') :
    s.next g r = g' := by
  rcases h with ⟨id, h⟩ | ⟨e, h⟩
  · exact next_of_ok h
  · exact next_of_error h

/-- The states of a unit are those after some requests. -/
theorem Lowering.Setting.Reached.exists_after {g : Progress} (h : s.Reached given g) :
    ∃ rs, s.after {} rs = g := by
  induction h with
  | start => exact ⟨[], rfl⟩
  | @ensure g g' name requester _ hends ih =>
    obtain ⟨rs, rfl⟩ := ih
    refine ⟨rs ++ [.ensure name requester], ?_⟩
    rw [after_append]
    exact next_of_ends (r := .ensure name requester) hends
  | @lower g g' name f _ _ hends ih =>
    obtain ⟨rs, rfl⟩ := ih
    refine ⟨rs ++ [.lower name f], ?_⟩
    rw [after_append]
    exact next_of_ends (r := .lower name f) hends

theorem Lowering.Setting.Makes.names_nodup (h : s.Makes given t p) : p.names.Nodup := by
  obtain ⟨g, hreached, rfl, hfreeze⟩ := h.exists_reached
  obtain ⟨rs, rfl⟩ := hreached.exists_after
  obtain ⟨new, hadds⟩ := s.after_adds rs {}
  rw [FunctionTable.freeze_names hfreeze]
  exact hadds.nodup List.nodup_nil

/-- A finished program refers to its own places. -/
theorem Lowering.Setting.Makes.map_codeUnder_place (h : s.Makes given t p) :
    p.functions.map (codeUnder p.place) = p.plain.functions := by
  have hrefs : Node.RefsAgree (fun _ => Node.LinkedHere s p.directory) p.place id := by
    constructor
    · exact fun scope target hn => hn.elim fun params => Program.place_of_directory h.names_nodup
    · exact fun scope target args => Program.place_of_directory h.names_nodup
  refine List.map_congr_left fun function hfunction => ?_
  obtain ⟨i, hi⟩ := List.mem_iff_getElem?.mp hfunction
  have hf : p.functions[(FunctionId.mk i).index]? = some (function.1, function.2) := hi
  rw [codeUnder, Function.mapRefs_congr hrefs (h.linked hf), Function.mapRefs_id]

end

/-! ## Outcomes -/

/-- The text of a lowered program and the shapes of its literals say what its plain code is, and nothing
more. So programs with the same text have the same outcomes if their literals have the same shapes, for
kernels that do not look into the code of functions. -/
theorem text_determines_outcomes {s s' : Setting} {given given' : String → Source.Function → Prop}
    {t t' : FunctionTable} {p q : Program} (hp : s.Makes given t p) (hq : s'.Makes given' t' q)
    (hkernels : s'.kernels = s.kernels) (htypes : s'.module.types = s.module.types)
    (hspelled : p.Spelled) (hspelled' : q.Spelled) :
    (p.text = q.text ∧ p.literalShapes = q.literalShapes ↔ p.plain = q.plain) ∧
    (s.kernels.Blind → p.text = q.text → p.literalShapes = q.literalShapes →
      ∀ (limits : EvalOptions) (name : String) (args : List Value) (M : Machine),
        SameOutcome (CompiledUnit.invoke ⟨p, s.kernels, s.module.types, limits⟩ name args M)
          (CompiledUnit.invoke ⟨q, s'.kernels, s'.module.types, limits⟩ name args M)) := by
  have hcode : p.text = q.text ∧ p.literalShapes = q.literalShapes → p.plain = q.plain := by
    rintro ⟨htext, hshapes⟩
    have hlegible := hq.allLegible hspelled'
    rw [Module.fieldCount_congr htypes] at hlegible
    have hmap := Program.map_codeUnder_eq (hp.allLegible hspelled) hlegible htext hshapes p.byName_place
    have hplace := Program.place_congr (Program.names_of_map_codeUnder hmap)
    have hfunctions : p.plain.functions = q.plain.functions := by
      rw [← hp.map_codeUnder_place, ← hq.map_codeUnder_place, ← hplace, hmap]
    exact congrArg Program.mk hfunctions
  refine ⟨⟨hcode, fun h => ?_⟩, fun hblind htext hshapes limits name args M => ?_⟩
  · rw [← p.text_plain, ← q.text_plain, ← p.literalShapes_plain, ← q.literalShapes_plain, h]
    exact ⟨rfl, rfl⟩
  · refine invoke_sameOutcome hblind hkernels ?_ name args M
    rw [CompiledUnit.plain, CompiledUnit.plain, hkernels, htypes, hcode ⟨htext, hshapes⟩]

/-- What the function is compiled to. -/
def Lowering.Setting.compiled? (s : Setting) (f : Source.Function) : Option Program :=
  match s.compile f {} with
  | .ok (_, p) _ => some p
  | .error .. => none

theorem Lowering.Setting.makes_of_compiled? {s : Setting} {f : Source.Function} {p : Program}
    (h : s.compiled? f = some p) :
    ∃ t, s.Makes (fun name f' => name = s.options.entryName ∧ f' = f) t p := by
  unfold compiled? at h
  split at h
  · next entry p' g hcompile =>
    cases h
    exact ⟨g.table, .compile hcompile⟩
  · cases h

/-- A unit with `def keep(x) { x }`. -/
def keepSetting : Setting :=
  ⟨⟨[("keep", ⟨[⟨0, "x", .scalar .bool⟩], .var ⟨0, "x", .scalar .bool⟩, .scalar .bool⟩)], []⟩, .builtin,
    {}⟩

/-- `(let y = true in @keep)(false)` -/
def keepThroughLet : Source.Function where
  params := []
  body := .call (.letIn ⟨0, "y", .scalar .bool⟩ (.const (.scalarBool true)) (.global "keep"))
    [.const (.scalarBool false)] (.scalar .bool)
  ret := .scalar .bool

/-- `let y = true in @keep(false)` -/
def keepUnderLet : Source.Function where
  params := []
  body := .letIn ⟨0, "y", .scalar .bool⟩ (.const (.scalarBool true))
    (.call (.global "keep") [.const (.scalarBool false)] (.scalar .bool))
  ret := .scalar .bool

/-- The program of a function that binds `y` and then calls `keep`. -/
def keepProgram (call : Node) : Program where
  functions :=
    [("main", ⟨none, [], [], .decl [("y_0", .literal (.scalarBool true))] call, .scalar .bool⟩),
      ("keep", ⟨none, [⟨"x_0", .scalar .bool⟩], [], .var "x_0", .scalar .bool⟩)]

theorem compiled?_keep :
    keepSetting.compiled? keepThroughLet = some (keepProgram
      (.apply (.global ⟨⟨1⟩, "keep"⟩) [.literal (.scalarBool false)])) ∧
    keepSetting.compiled? keepUnderLet = some (keepProgram
      (.invoke ⟨⟨1⟩, "keep"⟩ [.literal (.scalarBool false)])) := by
  have hensure : keepSetting.ensureGlobal =
      fun name requester => keepSetting.ensureWithin 1 name requester := rfl
  unfold Setting.compiled? Setting.compile Setting.lowerGlobal
  rw [hensure]
  -- `rfl` does not open the recursion over globals that are still to be lowered.
  unfold Setting.ensureWithin
  exact ⟨rfl, rfl⟩

theorem keepProgram_spelled {call : Node} (h : call.Everywhere (fun _ => Node.SpelledHere) []) :
    (keepProgram call).Spelled := by
  have hmain : IsWord "main" := .of_all (by decide) (by decide)
  have hkeep : IsWord "keep" := .of_all (by decide) (by decide)
  refine List.forall_mem_cons.mpr ⟨⟨hmain, ?_⟩, List.forall_mem_singleton.mpr ⟨hkeep, ?_⟩⟩
  · exact ⟨List.forall_mem_nil _, trivial, trivial, ⟨rfl, trivial⟩, h.inScope _⟩
  · exact ⟨List.forall_mem_singleton.mpr trivial, trivial, trivial⟩

/-- The two ways to call `keep` are compiled to different programs with the same text. -/
theorem keep_same_outcomes : ∃ p q t t',
    keepSetting.Makes (fun name f => name = "main" ∧ f = keepThroughLet) t p ∧
    keepSetting.Makes (fun name f => name = "main" ∧ f = keepUnderLet) t' q ∧
    p ≠ q ∧ p.text = q.text ∧
    ∀ (limits : EvalOptions) (name : String) (args : List Value) (M : Machine),
      SameOutcome (CompiledUnit.invoke ⟨p, .builtin, [], limits⟩ name args M)
        (CompiledUnit.invoke ⟨q, .builtin, [], limits⟩ name args M) := by
  obtain ⟨t, hp⟩ := Setting.makes_of_compiled? compiled?_keep.1
  obtain ⟨t', hq⟩ := Setting.makes_of_compiled? compiled?_keep.2
  obtain ⟨hcode, houtcomes⟩ := text_determines_outcomes hp hq rfl rfl
    (keepProgram_spelled ⟨trivial, trivial, rfl, trivial⟩) (keepProgram_spelled ⟨trivial, rfl, trivial⟩)
  obtain ⟨htext, hshapes⟩ := hcode.mpr rfl
  refine ⟨_, _, t, t', hp, hq, ?_, htext, houtcomes KernelRegistry.builtin_blind htext hshapes⟩
  intro h
  cases h

/-! ## Shapes are not printed -/

def gridTy : Ty := .tensor .int32 ⟨[2, 2]⟩

/-- `fn (x) { add(x, pair) }` -/
def addTo (pair : Tensor) : Source.Function where
  params := [⟨0, "x", gridTy⟩]
  body := .call (.op "add") [.var ⟨0, "x", gridTy⟩, .const pair] gridTy
  ret := gridTy

def addProgram (pair : Tensor) : Program where
  functions := [("main", ⟨none, [⟨"x_0", gridTy⟩], [],
    .packed "add" 2 [.var "x_0", .literal pair] gridTy false, gridTy⟩)]

theorem compiled?_addTo (pair : Tensor) :
    keepSetting.compiled? (addTo pair) = some (addProgram pair) := rfl

theorem addProgram_spelled {pair : Tensor} (h : pair.dtype.isDiscrete = true) :
    (addProgram pair).Spelled := by
  have hmain : IsWord "main" := .of_all (by decide) (by decide)
  have hadd : IsWord "add" := .of_all (by decide) (by decide)
  refine List.forall_mem_singleton.mpr ⟨hmain, List.forall_mem_singleton.mpr trivial, trivial, ?_⟩
  exact ⟨⟨hadd, trivial⟩, trivial, h, trivial⟩

theorem text_addProgram {pair pair' : Tensor} (h : pair.text = pair'.text) :
    (addProgram pair).text = (addProgram pair').text := by
  have hsize : (addProgram pair).size = (addProgram pair').size := rfl
  rw [Program.text_eq, Program.text_eq, hsize]
  simp only [addProgram, definitionTexts, definitionText_eq, Node.textAt, Node.textsAt, h]

def pairRow : Tensor := ⟨⟨[1, 2]⟩, .int32 #[1, 2], rfl⟩

def pairColumn : Tensor := ⟨⟨[2, 1]⟩, .int32 #[1, 2], rfl⟩

def gridValue (a b c d : Int32) : Value := .tensor ⟨⟨[2, 2]⟩, .int32 #[a, b, c, d], rfl⟩

/-- The pair added to a grid of zeros. -/
def addedToZeros (pair : Tensor) : Option Value :=
  match CompiledUnit.invoke ⟨addProgram pair, .builtin, [], {}⟩ "main" [gridValue 0 0 0 0] {} with
  | .ok v _ => some v
  | .error .. => none

theorem exists_of_addedToZeros {pair : Tensor} {v : Value} (h : addedToZeros pair = some v) :
    ∃ M, CompiledUnit.invoke ⟨addProgram pair, .builtin, [], {}⟩ "main" [gridValue 0 0 0 0] {} =
      .ok v M := by
  unfold addedToZeros at h
  split at h
  · next v' M hinvoke =>
    cases h
    exact ⟨M, hinvoke⟩
  · cases h

/-- A row and a column have the same text. Added to a grid, the row is repeated downwards and the column
to the right. -/
theorem row_printed_as_column : ∃ p q t t' M M',
    keepSetting.Makes (fun name f => name = "main" ∧ f = addTo pairRow) t p ∧
    keepSetting.Makes (fun name f => name = "main" ∧ f = addTo pairColumn) t' q ∧
    p.Spelled ∧ q.Spelled ∧ p.text = q.text ∧
    CompiledUnit.invoke ⟨p, .builtin, [], {}⟩ "main" [gridValue 0 0 0 0] {} =
      .ok (gridValue 1 2 1 2) M ∧
    CompiledUnit.invoke ⟨q, .builtin, [], {}⟩ "main" [gridValue 0 0 0 0] {} =
      .ok (gridValue 1 1 2 2) M' ∧
    gridValue 1 2 1 2 ≠ gridValue 1 1 2 2 := by
  obtain ⟨t, hp⟩ := Setting.makes_of_compiled? (compiled?_addTo pairRow)
  obtain ⟨t', hq⟩ := Setting.makes_of_compiled? (compiled?_addTo pairColumn)
  have hrow : addedToZeros pairRow = some (gridValue 1 2 1 2) := rfl
  have hcolumn : addedToZeros pairColumn = some (gridValue 1 1 2 2) := rfl
  have htext : pairRow.text = pairColumn.text := rfl
  obtain ⟨M, hM⟩ := exists_of_addedToZeros hrow
  obtain ⟨M', hM'⟩ := exists_of_addedToZeros hcolumn
  refine ⟨_, _, t, t', M, M', hp, hq, addProgram_spelled rfl, addProgram_spelled rfl,
    text_addProgram htext, hM, hM', ?_⟩
  intro h
  injection h with h
  cases h

end TensorIR
