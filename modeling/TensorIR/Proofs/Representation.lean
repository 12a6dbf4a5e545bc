import TensorIR.Matching.Binding
import TensorIR.Proofs.BindOnce
import TensorIR.Proofs.Frames
import TensorIR.Proofs.KernelMeanings
import TensorIR.Proofs.OperandLets

/-! Run-time values and frames that stand for source values and environments.

A function value stands for a source function when its code is the translation of the source
function in lexical scope, with a body that the order of kernel calls admits, and its captures stand
for the variables that the source function finds in its environment. A frame mirrors an environment
at the variables that occur in an expression. The names in a frame have numbers, and the evaluation
of a node changes only names with the numbers that its expression got. -/

namespace TensorIR

open Source Lowered Lowering

/-! ## Binders that get names -/

/-- The binders can be named with numbers from `k` on: all names in use have smaller numbers, and the
binders are all different and not named yet. -/
structure Placed (σ : Naming) (k : Nat) (binders : List Nat) : Prop where
  below : σ.Below k
  nodup : binders.Nodup
  unnamed : ∀ y ∈ binders, σ y = none

namespace Placed

variable {σ : Naming} {k : Nat} {ids ids' : List Nat}

theorem left (h : Placed σ k (ids ++ ids')) : Placed σ k ids :=
  ⟨h.below, h.nodup.of_append_left, fun y hy => h.unnamed y (List.mem_append_left _ hy)⟩

theorem right (h : Placed σ k (ids ++ ids')) : Placed σ (k + ids.length) ids' :=
  ⟨h.below.mono (Nat.le_add_right _ _), h.nodup.of_append_right,
    fun y hy => h.unnamed y (List.mem_append_right _ hy)⟩

theorem bind {v : Var} (h : Placed σ k (v.id :: ids)) :
    Placed (σ.bind v.id (numberedName v.name k)) (k + 1) ids := by
  obtain ⟨hv, hnodup⟩ := List.nodup_cons.mp h.nodup
  refine ⟨h.below.bind v.id v.name, hnodup, fun y hy => ?_⟩
  have hne : y ≠ v.id := fun heq => hv (heq ▸ hy)
  rw [Naming.bind_of_ne hne]
  exact h.unnamed y (List.mem_cons_of_mem _ hy)

theorem bindVars {vs : List Var} (h : Placed σ k (vs.map Var.id ++ ids)) :
    Placed (σ.bindVars vs k) (k + vs.length) ids := by
  refine ⟨h.below.bindVars vs, h.nodup.of_append_right, fun y hy => ?_⟩
  have hnot : y ∉ vs.map Var.id := fun hy' => (List.nodup_append'.mp h.nodup).2.2 hy' hy
  rw [Naming.bindVars_of_notMem hnot]
  exact h.unnamed y (List.mem_append_right _ hy)

end Placed

/-! ## Values -/

/-- The code is the translation of a function literal in lexical scope. The literal may be bound to a
variable, which then has a name. -/
inductive TranslatesLiteral (L : Linkage) :
    (own : Option Nat) → List Var → Expr → Lowered.Function → Prop
  | intro {σ : Naming} {k : Nat} {own : Option (Nat × String)} {params : List Var} {body : Expr}
    {bs : List (String × Node)} {n : Node} {f : Lowered.Function} :
    (∀ p ∈ own, σ p.1 = some p.2) → Placed σ k (params.map Var.id ++ body.binders) →
    Lowers L .lexical (σ.bindVars params k) (k + params.length) body bs n →
    LowersFunction σ k own params body bs n f →
      TranslatesLiteral L (own.map Prod.fst) params body f

mutual

/-- The run-time value stands for the source value. -/
inductive Represents (L : Linkage) (order : CallOrder) : Value → Val → Prop
  | tensor {t : Tensor} : Represents L order (.tensor t) (.tensor t)
  | tuple {us : List Value} {ws : List Val} :
    RepresentsAll L order us ws → Represents L order (.tuple us) (.tuple ws)
  | adt {tag : Nat} {us : List Value} {ws : List Val} :
    RepresentsAll L order us ws → Represents L order (.adt tag us) (.adt tag ws)
  | global {id : FunctionId} {name : String} :
    L.place name id → Represents L order (.global id) (.global name)
  | closure {own : Option Nat} {params : List Var} {body : Expr} {f : Lowered.Function}
    {us : List Value} {env : ValEnv} : order.Admits body → TranslatesLiteral L own params body f →
    RepresentsCaptures L order env (captured own params body) us →
      Represents L order (.closure f us) (.closure own params body env)

inductive RepresentsAll (L : Linkage) (order : CallOrder) : List Value → List Val → Prop
  | nil : RepresentsAll L order [] []
  | cons {u : Value} {w : Val} {us : List Value} {ws : List Val} :
    Represents L order u w → RepresentsAll L order us ws → RepresentsAll L order (u :: us) (w :: ws)

/-- The values stand for those that the environment gives to the variables. -/
inductive RepresentsCaptures (L : Linkage) (order : CallOrder) :
    ValEnv → List Var → List Value → Prop
  | nil {env : ValEnv} : RepresentsCaptures L order env [] []
  | cons {env : ValEnv} {v : Var} {w : Val} {u : Value} {vs : List Var} {us : List Value} :
    env.lookup v.id = some w → Represents L order u w → RepresentsCaptures L order env vs us →
      RepresentsCaptures L order env (v :: vs) (u :: us)

end

section

variable {L : Linkage} {order : CallOrder}

theorem RepresentsAll.length_eq : ∀ {us : List Value} {ws : List Val}, RepresentsAll L order us ws →
    us.length = ws.length
  | _, _, .nil => rfl
  | _, _, .cons _ hs => congrArg Nat.succ hs.length_eq

mutual

theorem Represents.alike : ∀ {u : Value} {w : Val}, Represents L order u w →
    Alike (Represents L order) u w
  | _, _, .tensor => .tensor
  | _, _, .tuple h => .tuple h.alike
  | _, _, .adt h => .adt h.alike
  | _, _, .global h => .function rfl rfl (.global h)
  | _, _, .closure h h' h'' => .function rfl rfl (.closure h h' h'')

theorem RepresentsAll.alike : ∀ {us : List Value} {ws : List Val}, RepresentsAll L order us ws →
    AllAlike (Represents L order) us ws
  | _, _, .nil => .nil
  | _, _, .cons h hs => .cons h.alike hs.alike

end

mutual

theorem Represents.of_alike : ∀ {u : Value} {w : Val}, Alike (Represents L order) u w →
    Represents L order u w
  | _, _, .tensor => .tensor
  | _, _, .tuple h => .tuple (.of_alike h)
  | _, _, .adt h => .adt (.of_alike h)
  | _, _, .function _ _ h => h

theorem RepresentsAll.of_alike : ∀ {us : List Value} {ws : List Val},
    AllAlike (Represents L order) us ws → RepresentsAll L order us ws
  | _, _, .nil => .nil
  | _, _, .cons h hs => .cons (.of_alike h) (.of_alike hs)

end

/-- A value without functions stands for its own data only, and one with functions for no data. -/
theorem Represents.toValue? {u : Value} {w : Val} (h : Represents L order u w) :
    w.toValue? = if u.isData then some u else none :=
  h.alike.toValue?

theorem exists_representsAll (us : List Value) (h : Value.allData us = true) :
    ∃ ws, Val.ofValues? us = some ws ∧ RepresentsAll L order us ws := by
  obtain ⟨ws, hws, halike⟩ := exists_allAlike us h
  exact ⟨ws, hws, .of_alike halike⟩

theorem RepresentsCaptures.exists_of_mem {σ : Naming} {env : ValEnv} {vs : List Var}
    {captures : List Param} {us : List Value}
    (h : RepresentsCaptures L order env vs us)
    (hnames : List.Forall₂ (fun v p => σ v.id = some p.name) vs captures) {v : Var} (hv : v ∈ vs) :
    ∃ x u w, σ v.id = some x ∧ (x, u) ∈ (captures.map Param.name).zip us ∧
      env.lookup v.id = some w ∧ Represents L order u w := by
  induction hnames generalizing us with
  | nil => cases hv
  | @cons v' p vs captures hp _ ih =>
    cases h with
    | @cons _ _ w u _ us hw hrep hreps =>
      rcases List.mem_cons.mp hv with rfl | hv
      · exact ⟨p.name, u, w, hp, List.mem_cons_self, hw, hrep⟩
      · obtain ⟨x, u', w', hx, hmem, hw', hrep'⟩ := ih hreps hv
        exact ⟨x, u', w', hx, List.mem_cons_of_mem _ hmem, hw', hrep'⟩

theorem RepresentsCaptures.length_eq {env : ValEnv} {vs : List Var} {us : List Value}
    (h : RepresentsCaptures L order env vs us) : us.length = vs.length := by
  induction vs generalizing us with
  | nil =>
    cases h
    rfl
  | cons v vs ih =>
    cases h with
    | cons _ _ hreps => exact congrArg Nat.succ (ih hreps)

theorem Represents.asBool? {u : Value} {w : Val} (h : Represents L order u w) :
    u.asBool? = w.asBool? := by
  cases h <;> rfl

end

/-! ## Frames -/

namespace Run.Frame

/-- Only names with numbers from `i` on and below `j` have got other values. -/
def ChangesWithin (i j : Nat) (F F' : Frame) : Prop :=
  ∀ x, ¬ Numbered i j x → F'.lookup x = F.lookup x

/-- All names of the naming have kept their values. -/
def SameAt (σ : Naming) (F F' : Frame) : Prop := ∀ y x, σ y = some x → F'.lookup x = F.lookup x

/-- The names of the naming and those with numbers from `i` on and below `j` have kept their
values. -/
structure Stable (σ : Naming) (i j : Nat) (F F' : Frame) : Prop where
  named : SameAt σ F F'
  numbered : ∀ x, Numbered i j x → F'.lookup x = F.lookup x

variable {σ : Naming} {i j k l : Nat} {F F' F'' : Frame}

namespace ChangesWithin

theorem refl (i j : Nat) (F : Frame) : ChangesWithin i j F F := fun _ _ => rfl

theorem trans (h : ChangesWithin i j F F') (h' : ChangesWithin i j F' F'') :
    ChangesWithin i j F F'' := fun x hx => (h' x hx).trans (h x hx)

theorem mono (h : ChangesWithin i j F F') (hi : k ≤ i) (hj : j ≤ l) : ChangesWithin k l F F' :=
  fun x hx => h x fun hx' => hx (hx'.mono hi hj)

theorem sameAt (h : ChangesWithin i j F F') (hσ : σ.Below i) : SameAt σ F F' :=
  fun y x hx => h x ((hσ y x hx).not_of_le (Nat.le_refl i))

/-- Names with other numbers are stable. -/
theorem stable (h : ChangesWithin i j F F') (hσ : σ.Below i) (hother : l ≤ i ∨ j ≤ k) :
    Stable σ k l F F' where
  named := h.sameAt hσ
  numbered x hx := h x fun hx' => hother.elim (fun hle => hx.not_of_le hle hx')
    fun hle => hx'.not_of_le hle hx

end ChangesWithin

theorem SameAt.trans (h : SameAt σ F F') (h' : SameAt σ F' F'') : SameAt σ F F'' :=
  fun y x hx => (h' y x hx).trans (h y x hx)

namespace Stable

theorem refl (σ : Naming) (i j : Nat) (F : Frame) : Stable σ i j F F :=
  ⟨fun _ _ _ => rfl, fun _ _ => rfl⟩

theorem trans (h : Stable σ i j F F') (h' : Stable σ i j F' F'') : Stable σ i j F F'' :=
  ⟨h.named.trans h'.named, fun x hx => (h'.numbered x hx).trans (h.numbered x hx)⟩

theorem mono (h : Stable σ i j F F') (hk : i ≤ k) (hl : l ≤ j) : Stable σ k l F F' :=
  ⟨h.named, fun x hx => h.numbered x (hx.mono hk hl)⟩

end Stable

end Run.Frame

/-! ## Environments -/

open Run Run.Frame

/-- The frame mirrors the environment: whatever occurs has a name, and its values in both stand for
each other. -/
def Mirrors (L : Linkage) (order : CallOrder) (occ : Nat → Bool) (σ : Naming) (env : ValEnv)
    (F : Frame) : Prop :=
  ∀ y, occ y = true → ∃ x u w, σ y = some x ∧ F.lookup x = some u ∧ env.lookup y = some w ∧
    Represents L order u w

/-- Entries that bind variables, named with numbers from `k` on, to values that stand for each
other. -/
inductive RepresentsEntries (L : Linkage) (order : CallOrder) :
    (k : Nat) → List Var → List (String × Value) → List (Nat × Val) → Prop
  | nil {k : Nat} : RepresentsEntries L order k [] [] []
  | cons {k : Nat} {v : Var} {u : Value} {w : Val} {vs : List Var} {us : List (String × Value)}
    {ws : List (Nat × Val)} : Represents L order u w → RepresentsEntries L order (k + 1) vs us ws →
      RepresentsEntries L order k (v :: vs) ((numberedName v.name k, u) :: us) ((v.id, w) :: ws)

section

variable {L : Linkage} {order : CallOrder} {occ occ' : Nat → Bool} {σ : Naming} {env : ValEnv}
  {F F' : Frame} {k : Nat}

theorem mirrors_or : Mirrors L order (fun y => occ y || occ' y) σ env F ↔
    Mirrors L order occ σ env F ∧ Mirrors L order occ' σ env F := by
  simp only [Mirrors, Bool.or_eq_true, or_imp, forall_and]

theorem Mirrors.mono (h : Mirrors L order occ σ env F) (hocc : ∀ y, occ' y = true → occ y = true) :
    Mirrors L order occ' σ env F := fun y hy => h y (hocc y hy)

theorem Mirrors.sameAt (h : Mirrors L order occ σ env F) (hsame : SameAt σ F F') :
    Mirrors L order occ σ env F' := by
  intro y hy
  obtain ⟨x, u, w, hx, hu, hw, hrep⟩ := h y hy
  exact ⟨x, u, w, hx, (hsame y x hx).trans hu, hw, hrep⟩

theorem Mirrors.bind {id : Nat} {x : String} {u : Value} {w : Val}
    (h : Mirrors L order (fun y => id != y && occ y) σ env F) (hx : F.lookup x = some u)
    (hrep : Represents L order u w) : Mirrors L order occ (σ.bind id x) ((id, w) :: env) F := by
  intro y hy
  by_cases hid : y = id
  · subst hid
    exact ⟨x, u, w, Naming.bind_self _ _, hx, by simp, hrep⟩
  · obtain ⟨x', u', w', hx', hu', hw', hrep'⟩ := h y (by simp [hy, Ne.symm hid])
    refine ⟨x', u', w', by rw [Naming.bind_of_ne hid, hx'], hu', ?_, hrep'⟩
    rw [List.lookup_cons, beq_false_of_ne hid]
    exact hw'

namespace RepresentsEntries

variable {vs vs' : List Var} {us us' : List (String × Value)} {ws ws' : List (Nat × Val)}

theorem append (h : RepresentsEntries L order k vs us ws)
    (h' : RepresentsEntries L order (k + vs.length) vs' us' ws') :
    RepresentsEntries L order k (vs ++ vs') (us ++ us') (ws ++ ws') := by
  induction h with
  | nil => exact h'
  | cons hrep _ ih =>
    refine .cons hrep (ih ?_)
    rwa [List.length_cons, Nat.add_comm _ 1, ← Nat.add_assoc] at h'

theorem rel_append {a a' : Option (List (String × Value))} {b b' : Option (List (Nat × Val))}
    (h : Option.Rel (RepresentsEntries L order k vs) a b)
    (h' : Option.Rel (RepresentsEntries L order (k + vs.length) vs') a' b') :
    Option.Rel (RepresentsEntries L order k (vs ++ vs'))
      (do
        let xs ← a
        let ys ← a'
        return xs ++ ys)
      (do
        let xs ← b
        let ys ← b'
        return xs ++ ys) := by
  cases h with
  | none => exact .none
  | some hx =>
    cases h' with
    | none => exact .none
    | some hy => exact .some (hx.append hy)

theorem of_zip {us : List Value} {ws : List Val} (h : RepresentsAll L order us ws)
    (hlen : us.length = vs.length) :
    RepresentsEntries L order k vs ((numberedNames vs k).zip us) ((vs.map Var.id).zip ws) := by
  induction vs generalizing us ws k with
  | nil => exact .nil
  | cons v vs ih =>
    cases h with
    | nil => cases hlen
    | cons hrep hreps => exact .cons hrep (ih hreps (Nat.succ.inj hlen))

theorem changesWithin (h : RepresentsEntries L order k vs us ws) (F : Frame) :
    ChangesWithin k (k + vs.length) F (F.extend us) := by
  intro x hx
  refine lookup_extend_of_notMem fun hmem => hx ?_
  clear hx
  induction h with
  | nil => cases hmem
  | @cons k v u w vs us ws _ _ ih =>
    rw [List.length_cons]
    rcases List.mem_cons.mp hmem with rfl | hmem
    · exact ⟨v.name, k, Nat.le_refl k, by omega, rfl⟩
    · exact (ih hmem).mono (by omega) (by omega)

/-- Entries that are added to both sides keep the frame a mirror. -/
theorem mirrors (h : RepresentsEntries L order k vs us ws) (hσ : σ.Below k)
    (hmirrors : Mirrors L order (fun y => !(vs.map Var.id).contains y && occ y) σ env F) :
    Mirrors L order occ (σ.bindVars vs k) (env.extend ws) (F.extend us) := by
  induction h generalizing σ env F with
  | nil => exact hmirrors.mono fun y hy => by simpa using hy
  | @cons k v u w vs us ws hrep _ ih =>
    have hsame : SameAt σ F ((numberedName v.name k, u) :: F) := by
      intro y x hx
      refine lookup_cons_of_ne fun heq => ?_
      exact (hσ y x hx).not_of_le (Nat.le_refl k) ⟨v.name, k, Nat.le_refl k, Nat.lt_succ_self k, heq⟩
    have hvs : Mirrors L order (fun y => !(vs.map Var.id).contains y && occ y)
        (σ.bind v.id (numberedName v.name k)) ((v.id, w) :: env)
        ((numberedName v.name k, u) :: F) := by
      refine ((hmirrors.mono fun y hy => ?_).sameAt hsame).bind lookup_cons_self hrep
      simp only [Bool.and_eq_true, bne_iff_ne, Bool.not_eq_true', List.contains_eq_mem,
        decide_eq_false_iff_not, List.map_cons, List.mem_cons, not_or] at hy ⊢
      exact ⟨⟨Ne.symm hy.1, hy.2.1⟩, hy.2.2⟩
    have hext := ih (hσ.bind v.id v.name) hvs
    simpa [Frame.extend, ValEnv.extend, Naming.bindVars] using hext

end RepresentsEntries

end

/-! ## Patterns -/

section

variable {L : Linkage} {order : CallOrder} {m : Module}

mutual

/-- A lowered pattern accepts a value exactly when the source pattern accepts what it stands for, and
both bind the same. -/
theorem matchPattern?_represents (hctor : ∀ name, m.ctor? name = L.module.ctor? name) :
    ∀ {k : Nat} {p : Source.Pattern} {q : Lowered.Pattern}, LowersPattern L.module k p q →
      ∀ {u : Value} {w : Val}, Represents L order u w →
        Option.Rel (RepresentsEntries L order k p.boundVars) (Matching.matchPattern? q u)
          (m.matches? p w)
  | _, _, _, .wildcard, _, _, _ => by
    simp only [Matching.matchPattern?, Module.matches?]
    exact .some .nil
  | _, _, _, .var, _, _, h => by
    simp only [Matching.matchPattern?, Module.matches?]
    exact .some (.cons h .nil)
  | _, _, _, .ctor hinfo hps, _, _, h => by
    cases h with
    | @adt tag us ws hrep =>
      simp only [Matching.matchPattern?, Module.matches?, hctor, hinfo]
      split
      · exact matchPatterns?_represents hctor hps hrep
      · exact .none
    | _ => exact .none
  | _, _, _, .tuple hps, _, _, h => by
    cases h with
    | tuple hrep => exact matchPatterns?_represents hctor hps hrep
    | _ => exact .none

theorem matchPatterns?_represents (hctor : ∀ name, m.ctor? name = L.module.ctor? name) :
    ∀ {k : Nat} {ps : List Source.Pattern} {qs : List Lowered.Pattern},
      LowersPatterns L.module k ps qs → ∀ {us : List Value} {ws : List Val},
        RepresentsAll L order us ws →
          Option.Rel (RepresentsEntries L order k (Pattern.boundVarsList ps))
            (Matching.matchPatterns? qs us) (m.matchesAll? ps ws)
  | _, _, _, .nil, _, _, h => by
    cases h with
    | nil => exact .some .nil
    | cons => exact .none
  | _, _, _, .cons hp hps, _, _, h => by
    cases h with
    | nil => exact .none
    | cons hrep hreps =>
      exact RepresentsEntries.rel_append (matchPattern?_represents hctor hp hrep)
        (matchPatterns?_represents hctor hps hreps)

end

end

end TensorIR
