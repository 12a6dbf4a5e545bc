import TensorIR.Kernel.Builtin
import TensorIR.Matching.Binding
import TensorIR.Proofs.DataValues
import TensorIR.Run.State

/-! Plain code.

Some of what a node holds is neither printed nor looked at when the node is evaluated: the types of
tuples and variants, and whether a call of a global is made as such or as one of a function value. Plain
code is code without these differences. Values hold code as well, in functions, so they have a plain form
too; what can be seen of a value is the same in both forms. -/

namespace TensorIR

open Source Lowered Matching

/-! ## Code -/

namespace Lowered

mutual

/-- The node without the types of tuples and variants, and with all calls of globals made as those of
function values. -/
def Node.plain : Node → Node
  | .var x => .var x
  | .literal t => .literal t
  | .global target => .global target
  | .decl bindings body => .decl (Node.plainBindings bindings) body.plain
  | .packed kernel arity args ty tupled => .packed kernel arity (Node.plainAll args) ty tupled
  | .invoke target args => .apply (.global target) (Node.plainAll args)
  | .apply callee args => .apply callee.plain (Node.plainAll args)
  | .func name params captures body ret => .func name params captures body.plain ret
  | .ite cond onTrue onFalse ty => .ite cond.plain onTrue.plain onFalse.plain ty
  | .tuple fields _ => .tuple (Node.plainAll fields) .infer
  | .matchOn data clauses ty => .matchOn data.plain (Node.plainClauses clauses) ty
  | .ctor tag name fields _ => .ctor tag name (Node.plainAll fields) .infer

def Node.plainAll : List Node → List Node
  | [] => []
  | n :: ns => n.plain :: Node.plainAll ns

def Node.plainBindings : List (String × Node) → List (String × Node)
  | [] => []
  | (x, n) :: rest => (x, n.plain) :: Node.plainBindings rest

def Node.plainClauses : List (Pattern × Node) → List (Pattern × Node)
  | [] => []
  | (p, n) :: rest => (p, n.plain) :: Node.plainClauses rest

end

def Function.plain (f : Function) : Function := { f with body := f.body.plain }

theorem Function.params_plain (f : Function) : f.plain.params = f.params := rfl

def Program.plain (p : Program) : Program :=
  ⟨p.functions.map fun function => (function.1, function.2.plain)⟩

end Lowered

/-! ## Values -/

namespace Value

mutual

/-- The value with plain code in its functions. -/
def plain : Value → Value
  | .tensor t => .tensor t
  | .tuple fields => .tuple (plainAll fields)
  | .adt tag fields => .adt tag (plainAll fields)
  | .global id => .global id
  | .closure f captures => .closure f.plain (plainAll captures)

def plainAll : List Value → List Value
  | [] => []
  | v :: vs => v.plain :: plainAll vs

end

theorem plainAll_eq_map (vs : List Value) : plainAll vs = vs.map plain := by
  induction vs with
  | nil => rfl
  | cons v vs ih => rw [plainAll, ih, List.map_cons]

theorem length_plainAll (vs : List Value) : (plainAll vs).length = vs.length := by
  rw [plainAll_eq_map, List.length_map]

theorem asBool?_plain (v : Value) : v.plain.asBool? = v.asBool? := by
  cases v <;> rfl

mutual

theorem conformsTo_plain (types : TypeTable) : ∀ (v : Value) (ty : Ty),
    v.plain.conformsTo types ty = v.conformsTo types ty
  | .tensor _, _ | .global _, _ => rfl
  | .tuple fields, ty => by
    cases ty with
    | tuple tys => exact allConform_plain types fields tys
    | _ => rfl
  | .adt tag fields, ty => by
    cases ty with
    | adt name =>
      rw [plain, conformsTo, conformsTo]
      cases types.ctorFields? name tag with
      | none => rfl
      | some tys => exact allConform_plain types fields tys
    | _ => rfl
  | .closure _ _, ty => by cases ty <;> rfl

theorem allConform_plain (types : TypeTable) : ∀ (vs : List Value) (tys : List Ty),
    allConform types (plainAll vs) tys = allConform types vs tys
  | [], _ => rfl
  | v :: vs, tys => by
    cases tys with
    | nil => rfl
    | cons ty tys =>
      rw [plainAll, allConform, allConform, conformsTo_plain types v ty, allConform_plain types vs tys]

end

mutual

theorem text_plain : ∀ v : Value, v.plain.text = v.text
  | .tensor _ | .global _ | .closure _ _ => rfl
  | .tuple fields => by rw [plain, text, text, texts_plain fields]
  | .adt _ [] => rfl
  | .adt _ (v :: vs) => by rw [plain, plainAll, text, text, text_plain v, texts_plain vs]

theorem texts_plain : ∀ vs : List Value, texts (plainAll vs) = texts vs
  | [] => rfl
  | v :: vs => by rw [plainAll, texts, texts, text_plain v, texts_plain vs]

end

theorem describe_plain (v : Value) : v.plain.describe = v.describe := by
  have htext := text_plain v
  cases v with
  | tensor t => rfl
  | _ => exact congrArg (_ ++ " " ++ ·) htext

mutual

theorem isData_plain : ∀ v : Value, v.plain.isData = v.isData
  | .tensor _ | .global _ | .closure _ _ => rfl
  | .tuple fields => allData_plain fields
  | .adt _ fields => allData_plain fields

theorem allData_plain : ∀ vs : List Value, allData (plainAll vs) = allData vs
  | [] => rfl
  | v :: vs => by rw [plainAll, allData, allData, isData_plain v, allData_plain vs]

end

mutual

theorem plain_of_isData : ∀ {v : Value}, v.isData = true → v.plain = v
  | .tensor _, _ => rfl
  | .tuple fields, h => by rw [plain, plainAll_of_allData h]
  | .adt _ fields, h => by rw [plain, plainAll_of_allData h]

theorem plainAll_of_allData : ∀ {vs : List Value}, allData vs = true → plainAll vs = vs
  | [], _ => rfl
  | v :: vs, h => by
    rw [allData, Bool.and_eq_true] at h
    rw [plainAll, plain_of_isData h.1, plainAll_of_allData h.2]

end

/-- Values without functions have one form only. -/
theorem eq_of_plain_eq {v v' : Value} (h : v'.plain = v.plain) (hv : v.isData = true) : v' = v := by
  have hv' : v'.isData = true := by rw [← isData_plain, h, isData_plain, hv]
  rw [← plain_of_isData hv', h, plain_of_isData hv]

end Value

/-- Entries of a frame with plain values. -/
def plainEntries (entries : List (String × Value)) : List (String × Value) :=
  entries.map fun entry => (entry.1, entry.2.plain)

theorem plainEntries_append (entries entries' : List (String × Value)) :
    plainEntries (entries ++ entries') = plainEntries entries ++ plainEntries entries' :=
  List.map_append

theorem lookup_plainEntries (entries : List (String × Value)) (x : String) :
    (plainEntries entries).lookup x = (entries.lookup x).map Value.plain := by
  induction entries with
  | nil => rfl
  | cons entry entries ih =>
    obtain ⟨y, v⟩ := entry
    rw [plainEntries, List.map_cons, List.lookup_cons, List.lookup_cons]
    cases x == y with
    | true => rfl
    | false => exact ih

theorem zip_plainAll (names : List String) (vs : List Value) :
    names.zip (Value.plainAll vs) = plainEntries (names.zip vs) := by
  rw [Value.plainAll_eq_map, List.zip_map_right]
  rfl

/-! ## Patterns -/

namespace Matching

mutual

/-- A pattern gives its names the plain values. -/
theorem matchPattern?_plain : ∀ (p : Lowered.Pattern) (v : Value),
    matchPattern? p v.plain = (matchPattern? p v).map plainEntries
  | .wildcard, _ => rfl
  | .bind _, _ => rfl
  | .ctor tag _ ps, v => by
    cases v with
    | adt t vs =>
      rw [Value.plain, matchPattern?, matchPattern?]
      split
      · exact matchPatterns?_plain ps vs
      · rfl
    | _ => rfl
  | .tuple ps, v => by
    cases v with
    | tuple vs => exact matchPatterns?_plain ps vs
    | _ => rfl

theorem matchPatterns?_plain : ∀ (ps : List Lowered.Pattern) (vs : List Value),
    matchPatterns? ps (Value.plainAll vs) = (matchPatterns? ps vs).map plainEntries
  | [], vs => by cases vs <;> rfl
  | p :: ps, vs => by
    cases vs with
    | nil => rfl
    | cons v vs =>
      rw [Value.plainAll, matchPatterns?, matchPatterns?, matchPattern?_plain p v,
        matchPatterns?_plain ps vs]
      cases matchPattern? p v with
      | none => rfl
      | some xs =>
        cases matchPatterns? ps vs with
        | none => rfl
        | some ys => exact congrArg some (plainEntries_append xs ys).symm

end

end Matching

/-! ## Kernels -/

/-- The kernel does not look into the code of functions that it is given: plain code gives the same
result, up to the code in it. -/
def Kernel.Blind (k : Kernel) : Prop :=
  ∀ args, (k.body (Value.plainAll args)).map Value.plain = (k.body args).map Value.plain

/-- No kernel of the registry looks into the code of functions. -/
def KernelRegistry.Blind (r : KernelRegistry) : Prop :=
  ∀ ⦃name k⦄, r.get? name = some k → k.Blind

/-- The kernel with plain code in its results. -/
def Kernel.plain (k : Kernel) : Kernel := { k with body := fun args => (k.body args).map Value.plain }

def KernelRegistry.plain (r : KernelRegistry) : KernelRegistry := ⟨r.kernels.map Kernel.plain⟩

theorem KernelRegistry.get?_plain (r : KernelRegistry) (name : String) :
    r.plain.get? name = (r.get? name).map Kernel.plain :=
  List.find?_map

theorem tensorAt_plain (index : Nat) (v : Value) : tensorAt index v.plain = tensorAt index v := by
  cases v <;> rfl

theorem tensorArg_plain (args : List Value) (index : Nat) :
    tensorArg (Value.plainAll args) index = tensorArg args index := by
  rw [tensorArg, tensorArg, Value.length_plainAll, Value.plainAll_eq_map, List.getElem?_map]
  cases args[index]? with
  | none => rfl
  | some v => exact tensorAt_plain index v

theorem tail_plainAll (args : List Value) : (Value.plainAll args).tail = Value.plainAll args.tail := by
  cases args <;> rfl

namespace Tensor

theorem joinRows_plain (first : Tensor) (tail : List Nat) (vs : List Value) (index lead : Nat)
    (data : Buffer) : joinRows first tail index lead data (Value.plainAll vs) =
      joinRows first tail index lead data vs := by
  induction vs generalizing index lead data with
  | nil => rfl
  | cons v vs ih => simp only [Value.plainAll, joinRows, tensorAt_plain, ih]

theorem addRemaining_plain (vs : List Value) (index : Nat) (sum : Tensor) :
    addRemaining index sum (Value.plainAll vs) = addRemaining index sum vs := by
  induction vs generalizing index sum with
  | nil => rfl
  | cons v vs ih => simp only [Value.plainAll, addRemaining, tensorAt_plain, ih]

theorem concatenate_plain (args : List Value) :
    concatenate (Value.plainAll args) = concatenate args := by
  simp only [concatenate, tensorArg_plain, tail_plainAll, joinRows_plain]

theorem addN_plain (args : List Value) : addN (Value.plainAll args) = addN args := by
  simp only [addN, tensorArg_plain, tail_plainAll, addRemaining_plain]

end Tensor

namespace Kernel

variable {name : String}

theorem ofUnary_blind (f : Tensor → Except KernelError Tensor) : (ofUnary name f).Blind := by
  intro args
  simp only [ofUnary, tensorArg_plain]

theorem ofBinary_blind (f : Tensor → Tensor → Except KernelError Tensor) :
    (ofBinary name f).Blind := by
  intro args
  simp only [ofBinary, tensorArg_plain]

theorem ofPacked_blind {f : List Value → Except KernelError Tensor}
    (hf : ∀ args, f (Value.plainAll args) = f args) : (ofPacked name f).Blind := by
  intro args
  simp only [ofPacked, hf]

theorem builtins_blind : ∀ k ∈ builtins, k.Blind := by
  simp only [builtins, List.forall_mem_cons, List.not_mem_nil, false_imp_iff, implies_true, and_true,
    ofFloat, ofUnary_blind, ofBinary_blind, true_and]
  exact ⟨ofPacked_blind Tensor.concatenate_plain, ofPacked_blind Tensor.addN_plain⟩

end Kernel

theorem KernelRegistry.builtin_blind : KernelRegistry.builtin.Blind :=
  fun _ k hk => Kernel.builtins_blind k (List.mem_of_find?_eq_some hk)

end TensorIR
