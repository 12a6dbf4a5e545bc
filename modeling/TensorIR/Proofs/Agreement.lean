import TensorIR.Proofs.Representation
import TensorIR.Proofs.RunOutcomes

/-! What it means that a run follows an evaluation in the source.

A run that succeeds has started the kernels that the evaluation has called, on arguments that stand
for each other, and its result stands for that of the evaluation. If it fails, it has failed against a
declared type, which evaluation does not look at, or the evaluation fails as well. The order of the
calls is either kept, and then a failure comes after the same calls too, or free. -/

namespace TensorIR.Run

open Source Lowered Lowering Run.Frame

/-! ## Failures -/

/-- Failures against declared types, which evaluation in the source does not look at: of an argument,
a result or a kernel call, and of the width of the tuple for a kernel. -/
def RunError.Declared : RunError → Prop
  | .typeMismatch site _ _ => site = .argument ∨ site = .returnValue ∨ site = .kernelCall
  | .arityMismatch callee _ _ => ∃ kernel, callee = "kernel '" ++ kernel ++ "'"
  | _ => False

/-- The run and the evaluation have failed for the same reason. -/
def RunError.SameKind : RunError → EvalError → Prop
  | .arityMismatch _ expected found, .arityMismatch expected' found' =>
    expected = expected' ∧ found = found'
  | .typeMismatch site _ _, .notAFunction => site = .application
  | .typeMismatch site _ _, .notACondition => site = .condition
  | .nonExhaustiveMatch _, .nonExhaustiveMatch => True
  | .kernel name _, .kernel name' _ => name = name'
  | .depthExceeded _, .depthExceeded => True
  | _, _ => False

/-- The failure is no other than one against a declared type if the evaluation succeeds. -/
def Excuses {β : Type} (r : Except EvalError β) (e : RunError) : Prop := ∀ b, r = .ok b → e.Declared

theorem Excuses.bind {β δ : Type} {r : Except EvalError β} {e : RunError} (h : Excuses r e)
    (g : β → Except EvalError δ) : Excuses (r >>= g) e := by
  intro d hd
  obtain ⟨b, hb, -⟩ := except_bind_eq_ok.mp hd
  exact h b hb

/-- The run succeeds only if the evaluation does, with results that belong together, and if only the
evaluation succeeds, the run has failed against a declared type. -/
def Agrees {α β : Type} (R : α → β → Prop) (x : EStateM.Result RunError Machine α)
    (r : Except EvalError β) : Prop :=
  Settles (Excuses r) (fun a => ∃ b, r = .ok b ∧ R a b) x

/-! ## Calls of kernels -/

/-- The kernel has started on arguments that stand for those of the call. -/
structure SameCall (L : Linkage) (order : CallOrder) (s : KernelStart) (c : KernelCall) : Prop where
  kernel : s.kernel = c.kernel
  args : RepresentsAll L order s.args c.args

/-- The kernels have started that are called, in the same order if it is kept. -/
def SameCalls (L : Linkage) (order : CallOrder) (cs : List KernelStart) (ks : List KernelCall) :
    Prop :=
  ∃ cs', List.Forall₂ (SameCall L order) cs' ks ∧ cs'.Perm cs ∧ (order = .kept → cs' = cs)

namespace SameCalls

variable {L : Linkage} {order : CallOrder} {cs cs' ds ds' : List KernelStart}
  {ks ks' : List KernelCall}

theorem nil : SameCalls L order [] [] := ⟨[], .nil, .refl _, fun _ => rfl⟩

theorem single {s : KernelStart} {c : KernelCall} (h : SameCall L order s c) :
    SameCalls L order [s] [c] := ⟨[s], .cons h .nil, .refl _, fun _ => rfl⟩

theorem append (h : SameCalls L order cs ks) (h' : SameCalls L order cs' ks') :
    SameCalls L order (cs ++ cs') (ks ++ ks') := by
  obtain ⟨as, hall, hperm, hkept⟩ := h
  obtain ⟨as', hall', hperm', hkept'⟩ := h'
  exact ⟨as ++ as', List.rel_append hall hall', hperm.append hperm',
    fun ho => by rw [hkept ho, hkept' ho]⟩

/-- What two evaluations call may start in two phases, where in a kept order the first phase of the
second one starts nothing. -/
theorem interleave (h : SameCalls L order (cs ++ ds) ks) (h' : SameCalls L order (cs' ++ ds') ks')
    (hnone : order = .kept → cs' = []) :
    SameCalls L order (cs ++ cs' ++ (ds ++ ds')) (ks ++ ks') := by
  obtain ⟨as, hall, hperm, hkept⟩ := h.append h'
  refine ⟨as, hall, hperm.trans ?_, fun ho => ?_⟩
  · rw [List.append_assoc, List.append_assoc]
    exact (List.perm_append_comm_assoc ds cs' ds').append_left cs
  · rw [hkept ho, hnone ho, List.append_nil, List.nil_append, List.append_assoc]

end SameCalls

section

variable {L : Linkage} {order : CallOrder} {α β γ δ : Type}

/-- The failure, after the kernels that have started, is one that the evaluation allows for. If the
order is kept, it is one against a declared type on the way of the evaluation, or the evaluation fails
there for the same reason. -/
structure Fails (L : Linkage) (order : CallOrder) (o : Outcome β) (cs : List KernelStart)
    (e : RunError) : Prop where
  excused : Excuses o.result e
  kept : order = .kept →
    (e.Declared ∧ ∃ ks, ks <+: o.calls ∧ List.Forall₂ (SameCall L order) cs ks) ∨
      ∃ e', o.result = .error e' ∧ e.SameKind e' ∧ List.Forall₂ (SameCall L order) cs o.calls

namespace Fails

variable {o : Outcome β} {cs cs' ds ds' : List KernelStart} {ks : List KernelCall} {e : RunError}

theorem declared (h : e.Declared) : Fails L order o [] e :=
  ⟨fun _ _ => h, fun _ => .inl ⟨h, [], List.nil_prefix, .nil⟩⟩

theorem declared_after (h : e.Declared) (hsame : SameCalls L order cs o.calls) :
    Fails L order o cs e := by
  refine ⟨fun _ _ => h, fun ho => .inl ⟨h, o.calls, List.prefix_refl _, ?_⟩⟩
  obtain ⟨as, hall, -, hkept⟩ := hsame
  rwa [← hkept ho]

theorem failed {e' : EvalError} (h : e.SameKind e') : Fails L order (.fail e' : Outcome β) [] e :=
  ⟨nofun, fun _ => .inr ⟨e', rfl, h, .nil⟩⟩

theorem bind (h : Fails L order o cs e) (g : β → Outcome δ) : Fails L order (o >>= g) cs e where
  excused := by
    rw [Outcome.result_bind]
    exact h.excused.bind _
  kept ho := by
    rcases h.kept ho with ⟨hdeclared, ks, hks, hall⟩ | ⟨e', he', hkind, hall⟩
    · exact .inl ⟨hdeclared, ks, hks.trans (o.calls_prefix_bind g), hall⟩
    · rw [Outcome.bind_of_error he']
      exact .inr ⟨e', rfl, hkind, hall⟩

/-- The failure of what comes after some calls. -/
theorem prepend (h : Fails L order o cs' e) (hsame : SameCalls L order cs ks) :
    Fails L order (⟨ks ++ o.calls, o.result⟩ : Outcome β) (cs ++ cs') e where
  excused := h.excused
  kept ho := by
    obtain ⟨as, hall, -, hkept⟩ := hsame
    cases hkept ho
    rcases h.kept ho with ⟨hdeclared, ks', hks, hall'⟩ | ⟨e', he', hkind, hall'⟩
    · refine .inl ⟨hdeclared, ks ++ ks', ?_, List.rel_append hall hall'⟩
      exact (List.prefix_append_right_inj ks).mpr hks
    · exact .inr ⟨e', he', hkind, List.rel_append hall hall'⟩

/-- In a kept order, nothing has started in between. -/
theorem insert (h : Fails L order o (cs ++ ds) e) (hnone : order = .kept → cs' = []) :
    Fails L order o (cs ++ cs' ++ ds) e where
  excused := h.excused
  kept ho := by
    rw [hnone ho, List.append_nil]
    exact h.kept ho

theorem interleave (h : Fails L order o (cs' ++ ds') e) (hsame : SameCalls L order (cs ++ ds) ks)
    (hnone : order = .kept → cs' = []) :
    Fails L order (⟨ks ++ o.calls, o.result⟩ : Outcome β) (cs ++ cs' ++ (ds ++ ds')) e where
  excused := h.excused
  kept ho := by
    rw [hnone ho] at h ⊢
    rw [List.append_nil, ← List.append_assoc]
    exact (h.prepend hsame).kept ho

end Fails

/-- The run follows the evaluation, after kernels that have started before and count as its own. -/
def Follows (L : Linkage) (order : CallOrder) (before : List KernelStart) (R : α → β → Prop)
    (M : Machine) (x : EStateM.Result RunError Machine α) (o : Outcome β) : Prop :=
  Traces (fun cs => Fails L order o (before ++ cs))
    (fun cs a => ∃ b, o.result = .ok b ∧ R a b ∧ SameCalls L order (before ++ cs) o.calls) M x

namespace Follows

variable {R : α → β → Prop} {S : γ → δ → Prop} {o : Outcome β} {g : β → Outcome δ}
  {before : List KernelStart} {F : Frame} {M : Machine}

theorem ok {a : α} {b : β} (h : R a b) : Follows L order [] R M (.ok a M) (pure b) :=
  Traces.ok ⟨b, rfl, h, .nil⟩

theorem failed {e : RunError} {e' : EvalError} (h : e.SameKind e') :
    Follows L order [] R M (.error e M) (.fail e') :=
  Traces.error (.failed h)

theorem declared {e : RunError} (h : e.Declared) : Follows L order [] R M (.error e M) o :=
  Traces.error (.declared h)

theorem imp {R' : α → β → Prop} {x : EStateM.Result RunError Machine α}
    (h : Follows L order before R M x o) (himp : ∀ a b, R a b → R' a b) :
    Follows L order before R' M x o := by
  refine Traces.imp h (fun _ _ he => he) ?_
  rintro cs a ⟨b, hb, hab, hsame⟩
  exact ⟨b, hb, himp a b hab, hsame⟩

theorem of_starts_eq {M' : Machine} {x : EStateM.Result RunError Machine α}
    (hM : M'.starts = M.starts) (h : Follows L order before R M' x o) :
    Follows L order before R M x o := by
  rw [← List.append_nil M.starts] at hM
  exact Traces.after hM h

/-- Events that are no starts of kernels do not matter. -/
theorem record_bind {e : Event} (he : e.start? = none) {f : Unit → RunM α}
    (h : ∀ M', Follows L order before R M' (f () M') o) (M : Machine) :
    Follows L order before R M ((record e >>= f) M) o :=
  of_starts_eq (M.starts_push_of_none he) (h _)

theorem prepend {cs : List KernelStart} {ks : List KernelCall}
    {x : EStateM.Result RunError Machine α} (h : Follows L order before R M x o)
    (hsame : SameCalls L order cs ks) :
    Follows L order (cs ++ before) R M x ⟨ks ++ o.calls, o.result⟩ := by
  refine Traces.imp h (fun cs' e he => ?_) ?_
  · rw [List.append_assoc]
    exact he.prepend hsame
  · rintro cs' a ⟨b, hb, hab, hsame'⟩
    rw [List.append_assoc]
    exact ⟨b, hb, hab, hsame.append hsame'⟩

/-- What follows the rest of an evaluation follows the whole of it. -/
theorem rest {b : β} {cs : List KernelStart} {x : EStateM.Result RunError Machine γ}
    (h : Follows L order [] S M x (g b)) (hb : o.result = .ok b)
    (hsame : SameCalls L order cs o.calls) : Follows L order cs S M x (o >>= g) := by
  rw [Outcome.bind_of_ok hb, ← List.append_nil cs]
  exact h.prepend hsame

theorem bind {R : α × Frame → β → Prop} {x : CallM α} {f : α → CallM γ} {S : γ × Frame → δ → Prop}
    (h : Follows L order before R M (x F M) o)
    (hf : ∀ a F' M' b, R (a, F') b → Follows L order [] S M' (f a F' M') (g b)) :
    Follows L order before S M ((x >>= f) F M) (o >>= g) := by
  refine Traces.bind h (fun cs e he => he.bind g) ?_
  rintro cs a F' M' ⟨b, hb, hab, hsame⟩
  simpa only [Follows, List.append_assoc] using (hf a F' M' b hab).rest hb hsame

theorem shared_bind {x : RunM α} {f : α → RunM γ} (h : Follows L order before R M (x M) o)
    (hf : ∀ a M' b, R a b → Follows L order [] S M' (f a M') (g b)) :
    Follows L order before S M ((x >>= f) M) (o >>= g) := by
  refine Traces.shared_bind h (fun cs e he => he.bind g) ?_
  rintro cs a M' ⟨b, hb, hab, hsame⟩
  simpa only [Follows, List.append_assoc] using (hf a M' b hab).rest hb hsame

theorem lift {x : RunM α} (h : Follows L order before R M (x M) o) :
    Follows L order before (fun p b => R p.1 b ∧ p.2 = F) M ((liftM x : CallM α) F M) o := by
  refine (Traces.lift h).imp (fun _ _ he => he) ?_
  rintro cs p ⟨⟨b, hb, hab, hsame⟩, hp⟩
  exact ⟨b, hb, ⟨hab, hp⟩, hsame⟩

theorem agrees {x : EStateM.Result RunError Machine α} (h : Follows L order before R M x o) :
    Agrees R x o.result := by
  refine (Traces.imp h (fun cs e he => he.excused) ?_).settles
  rintro cs a ⟨b, hb, hab, -⟩
  exact ⟨b, hb, hab⟩

end Follows

end

/-! ## Expressions in two phases -/

/-- Bindings and the step after them do what an evaluation does. The step may run in any frame that
has the names of the bindings and of the naming as they were after the bindings; both phases change
only names with numbers from `i` on and below `j`. -/
def Realizes (L : Linkage) (order : CallOrder) (u : CompiledUnit) (call : Call) {α β : Type}
    (R : α → β → Prop) (σ : Naming) (i j : Nat) (F : Frame) (bs : List (String × Node))
    (x : CallM α) (o : Outcome β) : Prop :=
  ∀ M, Traces (Fails L order o)
    (fun cs p => ChangesWithin i j F p.2 ∧ ∀ F₁ M₁, Stable σ i j p.2 F₁ →
      Follows L order cs (fun q b => R q.1 b ∧ ChangesWithin i j F₁ q.2) M₁ (x F₁ M₁) o)
    M (u.evalBindings call bs F M)

variable {u : CompiledUnit} {call : Call}

theorem evalBindings_append (bs bs' : List (String × Node)) :
    u.evalBindings call (bs ++ bs') =
      (do
        u.evalBindings call bs
        u.evalBindings call bs') := by
  induction bs with
  | nil => simp [CompiledUnit.evalBindings]
  | cons b bs ih =>
    obtain ⟨name, n⟩ := b
    simp only [List.cons_append, CompiledUnit.evalBindings, ih, bind_assoc]

namespace Realizes

variable {L : Linkage} {order : CallOrder} {α β γ δ α' β' : Type} {R : α → β → Prop}
  {R' : α' → β' → Prop} {S : γ → δ → Prop} {σ : Naming} {i j l : Nat} {F : Frame}
  {bs bs' : List (String × Node)} {x : CallM α} {o : Outcome β} {y : CallM α'} {o' : Outcome β'}

theorem of_follows (h : ∀ F₁ M₁, Stable σ i j F F₁ →
      Follows L order [] (fun p b => R p.1 b ∧ ChangesWithin i j F₁ p.2) M₁ (x F₁ M₁) o) :
    Realizes L order u call R σ i j F [] x o := fun _ => Traces.ok ⟨.refl i j F, h⟩

/-- The step may run right after the bindings. -/
theorem follows (h : Realizes L order u call R σ i j F bs x o) (M : Machine) :
    Follows L order [] (fun p b => R p.1 b ∧ ChangesWithin i j F p.2) M
      ((do
        u.evalBindings call bs
        x) F M) o := by
  refine (h M).bind (fun _ _ he => he) ?_
  rintro cs _ F' M' ⟨hchanges, hfollows⟩
  exact (hfollows F' M' (.refl σ i j F')).imp fun q b hq => ⟨hq.1, hchanges.trans hq.2⟩

/-- A step that depends on the first one. -/
theorem bind {f : α → CallM γ} {g : β → Outcome δ} (hσ : σ.Below i) (hjl : j ≤ l)
    (h : Realizes L order u call R σ i j F bs x o)
    (hf : ∀ a b F₁ M₁, R a b → SameAt σ F F₁ →
      Follows L order [] (fun p c => S p.1 c ∧ ChangesWithin i l F₁ p.2) M₁ (f a F₁ M₁) (g b)) :
    Realizes L order u call S σ i l F bs (x >>= f) (o >>= g) := by
  intro M
  refine (h M).imp (fun cs e he => he.bind g) ?_
  rintro cs ⟨_, F'⟩ ⟨hchanges, hfollows⟩
  refine ⟨hchanges.mono (Nat.le_refl i) hjl, fun F₁ M₁ hstable => ?_⟩
  refine (hfollows F₁ M₁ (hstable.mono (Nat.le_refl i) hjl)).bind ?_
  rintro a F₂ M₂ b ⟨hab, hchanges₂⟩
  have hsame : SameAt σ F F₂ :=
    ((hchanges.sameAt hσ).trans hstable.named).trans (hchanges₂.sameAt hσ)
  refine (hf a b F₂ M₂ hab hsame).imp fun p c hp => ⟨hp.1, ?_⟩
  exact (hchanges₂.mono (Nat.le_refl i) hjl).trans hp.2

/-- Bindings that come before a step that is not theirs: in a kept order there are none. -/
theorem early (h : Realizes L order u call R σ i j F bs x o) (hnone : order = .kept → bs = [])
    (M : Machine) :
    Traces (fun _ e => order ≠ .kept ∧ Excuses o.result e)
      (fun cs p => (order = .kept → cs = []) ∧ ChangesWithin i j F p.2 ∧
        ∀ F₁ M₁, Stable σ i j p.2 F₁ →
          Follows L order cs (fun q b => R q.1 b ∧ ChangesWithin i j F₁ q.2) M₁ (x F₁ M₁) o)
      M (u.evalBindings call bs F M) := by
  by_cases ho : order = .kept
  · cases hnone ho
    obtain ⟨cs, hcs, hchanges, hfollows⟩ := h M
    obtain rfl := List.self_eq_append_right.mp hcs
    exact Traces.ok ⟨fun _ => rfl, hchanges, hfollows⟩
  · exact (h M).imp (fun cs e he => ⟨ho, he.excused⟩) fun cs p hp => ⟨fun ho' => absurd ho' ho, hp⟩

/-- Two parts side by side: the bindings of both come first. -/
theorem seq {f : α → α' → CallM γ} {g : β → β' → Outcome δ} (hσ : σ.Below i) (hij : i ≤ j)
    (hjl : j ≤ l) (hnone : order = .kept → bs' = []) (h : Realizes L order u call R σ i j F bs x o)
    (h' : ∀ F', SameAt σ F F' → Realizes L order u call R' σ j l F' bs' y o')
    (hf : ∀ a b a' b', R a b → R' a' b' → ∀ F₁ M₁,
      Follows L order [] (fun p c => S p.1 c ∧ p.2 = F₁) M₁ (f a a' F₁ M₁) (g b b')) :
    Realizes L order u call S σ i l F (bs ++ bs')
      (do
        let a ← x
        let a' ← y
        f a a')
      (do
        let b ← o
        let b' ← o'
        g b b') := by
  intro M
  rw [evalBindings_append]
  refine (h M).bind (fun cs e he => he.bind _) ?_
  rintro cs _ F' M' ⟨hchanges, hfollows⟩
  refine ((h' F' (hchanges.sameAt hσ)).early hnone M').imp ?_ ?_
  · rintro cs' e ⟨ho, he⟩
    refine ⟨?_, fun ho' => absurd ho' ho⟩
    intro d hd
    rw [Outcome.result_bind] at hd
    obtain ⟨b, -, hd⟩ := except_bind_eq_ok.mp hd
    rw [Outcome.result_bind] at hd
    exact he.bind _ d hd
  rintro cs' ⟨_, F''⟩ ⟨hcs', hchanges', hfollows'⟩
  have hσ' : σ.Below j := hσ.mono hij
  refine ⟨(hchanges.mono (Nat.le_refl i) hjl).trans (hchanges'.mono hij (Nat.le_refl l)), ?_⟩
  intro F₁ M₁ hstable
  -- The second bindings leave the first step alone, and the first step the second bindings.
  have hfirst : Stable σ i j F' F₁ :=
    (hchanges'.stable hσ' (.inl (Nat.le_refl j))).trans (hstable.mono (Nat.le_refl i) hjl)
  refine Traces.bind (hfollows F₁ M₁ hfirst) (fun ds e he => (he.insert hcs').bind _) ?_
  rintro ds a F₂ M₂ ⟨b, hb, ⟨hab, hchanges₂⟩, hsame⟩
  have hsecond : Stable σ j l F'' F₂ :=
    (hstable.mono hij (Nat.le_refl l)).trans (hchanges₂.stable hσ (.inr (Nat.le_refl j)))
  rw [Outcome.bind_of_ok hb]
  refine Traces.bind (hfollows' F₂ M₂ hsecond) (fun ds' e he => (he.bind _).interleave hsame hcs') ?_
  rintro ds' a' F₃ M₃ ⟨b', hb', ⟨hab', hchanges₃⟩, hsame'⟩
  have hrest := (hf a b a' b' hab hab' F₃ M₃).prepend (hsame.interleave hsame' hcs')
  rw [Outcome.bind_of_ok hb', ← List.append_assoc]
  refine Traces.imp hrest (fun _ _ he => by simpa using he) ?_
  rintro ds'' ⟨c, F₄⟩ ⟨d, hd, ⟨hcd, rfl⟩, hsame''⟩
  refine ⟨d, hd, ⟨hcd, ?_⟩, by simpa using hsame''⟩
  exact (hchanges₂.mono (Nat.le_refl i) hjl).trans (hchanges₃.mono hij (Nat.le_refl l))

/-- A binding whose value is the first part. -/
theorem letIn {o : Outcome Val} {g : Val → Outcome β'} {n : Node} {v : Var} (hσ : σ.Below i)
    (hij : i + 1 ≤ j) (hjl : j ≤ l)
    (h : Realizes L order u call (Represents L order) σ (i + 1) j F bs (u.eval call n) o)
    (hbody : ∀ value w F', Represents L order value w → SameAt σ F F' →
      F'.lookup (numberedName v.name i) = some value →
        Realizes L order u call R' (σ.bind v.id (numberedName v.name i)) j l F' bs' y (g w)) :
    Realizes L order u call R' σ i l F (bs ++ (numberedName v.name i, n) :: bs') y (o >>= g) := by
  have hnew : Numbered i (i + 1) (numberedName v.name i) :=
    ⟨v.name, i, Nat.le_refl i, Nat.lt_succ_self i, rfl⟩
  intro M
  rw [evalBindings_append, CompiledUnit.evalBindings]
  refine (h M).bind (fun cs e he => he.bind g) ?_
  rintro cs _ F₁ M₁ ⟨hchanges₁, hfollows⟩
  refine Traces.bind (hfollows F₁ M₁ (.refl σ (i + 1) j F₁)) (fun ds e he => he.bind g) ?_
  rintro ds value F₂ M₂ ⟨w, hw, ⟨hrep, hchanges₂⟩, hsame⟩
  have hchanges : ChangesWithin i j F ((numberedName v.name i, value) :: F₂) := by
    refine ((hchanges₁.trans hchanges₂).mono (Nat.le_succ i) (Nat.le_refl j)).trans fun x hx => ?_
    exact lookup_cons_of_ne fun heq => hx (heq ▸ hnew.mono (Nat.le_refl i) hij)
  rw [Outcome.bind_of_ok hw]
  refine (hbody value w _ hrep (hchanges.sameAt hσ) lookup_cons_self M₂).imp (fun cs' e he => ?_) ?_
  · rw [← List.append_assoc]
    exact he.prepend hsame
  rintro cs' ⟨_, F'⟩ ⟨hchanges', hfollows'⟩
  refine ⟨(hchanges.mono (Nat.le_refl i) hjl).trans (hchanges'.mono (by omega) (Nat.le_refl l)), ?_⟩
  intro F₃ M₃ hstable
  have hbound : Stable (σ.bind v.id (numberedName v.name i)) j l F' F₃ := by
    refine ⟨fun z x hx => ?_, fun x hx => hstable.numbered x (hx.mono (by omega) (Nat.le_refl l))⟩
    by_cases hz : z = v.id
    · rw [hz, Naming.bind_self] at hx
      cases hx
      exact hstable.numbered _ (hnew.mono (Nat.le_refl i) (by omega))
    · rw [Naming.bind_of_ne hz] at hx
      exact hstable.named z x hx
  rw [← List.append_assoc]
  refine ((hfollows' F₃ M₃ hbound).prepend hsame).imp fun _ _ hp => ⟨hp.1, ?_⟩
  exact hp.2.mono (by omega) (Nat.le_refl l)

end Realizes

end TensorIR.Run
