import TensorIR.Proofs.TwinRuns

/-! Calls inside calls, and the limit on their depth.

A machine counts the calls that are open, and refuses to open more than the limit allows. A call leaves
the count as it was, however it ends, so the count at a call tells how many calls can still be opened
inside it. Hence evaluation ends, and a greater limit changes nothing but refusals. -/

namespace TensorIR.Run

open Lowered

namespace CompiledUnit

variable (u : CompiledUnit)

/-- One call: it is refused if as many calls are open as the limit allows. Otherwise the body is
evaluated as an open call, and the calls inside it are made in the given way. -/
def guardedCall (call : Call) : Call := fun f label bound args M =>
  if args.length = f.params.length then
    if M.depth < u.options.maxCallDepth then
      opened ((u.eval call f.body).run' (Frame.extend bound ((f.params.map Param.name).zip args))) M
    else .error (.depthExceeded u.options.maxCallDepth) M
  else .error (.arityMismatch ("function '" ++ label ++ "'") f.params.length args.length) M

/-- Guarded calls with the recursion unfolded so many times, over any way to make the calls that lie
deeper. -/
def unfoldedCall (deeper : Call) : Nat → Call
  | 0 => deeper
  | n + 1 => u.guardedCall (unfoldedCall deeper n)

/-- A call by a machine, with as much room as its open calls leave. -/
def machineCall : Call := fun f label bound args M =>
  u.callWithin (u.options.maxCallDepth - M.depth) f label bound args M

end CompiledUnit

/-! ## The number of open calls -/

/-- So many calls are open, and no more than the bound have ever been. -/
structure Machine.Within (depth bound : Nat) (M : Machine) : Prop where
  depth : M.depth = depth
  peak : M.peak ≤ bound

section

variable {u : CompiledUnit} {call : Call}

theorem within_recordable (depth bound : Nat) : Recordable (Machine.Within depth bound) :=
  fun _ _ h => ⟨h.depth, h.peak⟩

/-- A call with room inside the bound leaves the number of open calls as it is. -/
theorem callWithin_keeps {room depth bound : Nat} (h : depth + room ≤ bound) (f : Function)
    (label : String) (entries : Frame) (args : List Value) {M : Machine} (hM : M.Within depth bound) :
    Concludes (fun _ => Machine.Within depth bound) (fun _ => Machine.Within depth bound)
      (u.callWithin room f label entries args M) := by
  induction room generalizing depth f label entries args M with
  | zero =>
    rw [CompiledUnit.callWithin]
    split
    · exact hM
    · exact hM
  | succ room ih =>
    rw [CompiledUnit.callWithin]
    split
    · have hinside : Twins (fun _ => False) (Machine.Within (depth + 1) bound) u u
          (u.callWithin room) (u.callWithin room) :=
        .of_calls rfl rfl rfl rfl (within_recordable _ _) fun f label entries args M hM' =>
          .self (ih (by omega) f label entries args hM')
      have hopen : Machine.Within (depth + 1) bound
          { M with depth := M.depth + 1, peak := max M.peak (M.depth + 1) } := by
        refine ⟨congrArg Nat.succ hM.depth, Nat.max_le.mpr ⟨hM.peak, ?_⟩⟩
        rw [hM.depth]
        omega
      refine (hinside.opened_repeats f.body _ hopen fun M' hM' => ?_).concludes
      exact ⟨congrArg Nat.pred hM'.depth, hM'.peak⟩
    · exact hM

theorem callWithin_balanced (room : Nat) (f : Function) (label : String) (entries : Frame)
    (args : List Value) (M : Machine) :
    Concludes (fun _ M' => M'.depth = M.depth) (fun _ M' => M'.depth = M.depth)
      (u.callWithin room f label entries args M) := by
  have hM : M.Within M.depth (max M.peak (M.depth + room)) := ⟨rfl, Nat.le_max_left _ _⟩
  exact (callWithin_keeps (Nat.le_max_right _ _) f label entries args hM).imp
    (fun _ _ h => h.depth) fun _ _ h => h.depth

/-! ## Guarded calls -/

/-- Where the room is used up, a guarded call is a call without room. -/
theorem guardedCall_of_le (f : Function) (label : String) (entries : Frame) (args : List Value)
    {M : Machine} (h : u.options.maxCallDepth ≤ M.depth) :
    u.guardedCall call f label entries args M = u.machineCall f label entries args M := by
  rw [CompiledUnit.guardedCall, CompiledUnit.machineCall, Nat.sub_eq_zero_of_le h,
    CompiledUnit.callWithin, if_neg (Nat.not_lt.mpr h)]
  split
  · rfl
  · rfl

/-- Where room is left, a guarded call is a call with that room, if the calls inside it are. -/
theorem guardedCall_of_lt (f : Function) (label : String) (entries : Frame) (args : List Value)
    {M : Machine} (h : M.depth < u.options.maxCallDepth)
    (hinside : ∀ f label entries args M', M'.depth = M.depth + 1 →
      call f label entries args M' = u.machineCall f label entries args M') :
    u.guardedCall call f label entries args M = u.machineCall f label entries args M := by
  obtain ⟨room, hroom⟩ := Nat.exists_eq_add_of_lt h
  have hleft : u.options.maxCallDepth - M.depth = room + 1 := by omega
  rw [CompiledUnit.guardedCall, CompiledUnit.machineCall, hleft, CompiledUnit.callWithin, if_pos h]
  split
  · -- inside the call one more call is open, and calls there leave it at that
    have htwins : Twins (fun _ => False) (fun M' => M'.depth = M.depth + 1) u u
        (u.callWithin room) call := by
      apply Twins.of_calls rfl rfl rfl rfl (fun _ _ hM' => hM')
      intro f label entries args M' hM'
      have hless : u.options.maxCallDepth - M'.depth = room := by omega
      have hcall := hinside f label entries args M' hM'
      rw [CompiledUnit.machineCall, hless] at hcall
      rw [hcall, ← hM']
      exact .self (callWithin_balanced room f label entries args M')
    exact (htwins.opened_repeats (I := fun _ => True) f.body _ rfl fun _ _ => trivial).eq
  · rfl

/-- Guarded calls, unfolded often enough for the room that is left, are calls with that room. -/
theorem unfoldedCall_eq (deeper : Call) {n : Nat} (f : Function) (label : String)
    (entries : Frame) (args : List Value) {M : Machine}
    (h : u.options.maxCallDepth ≤ M.depth + n) :
    u.unfoldedCall deeper (n + 1) f label entries args M =
      u.machineCall f label entries args M := by
  induction n generalizing f label entries args M with
  | zero => exact guardedCall_of_le f label entries args h
  | succ n ih =>
    rcases Nat.lt_or_ge M.depth u.options.maxCallDepth with hlt | hge
    · apply guardedCall_of_lt f label entries args hlt
      exact fun f label entries args M' hM' => ih f label entries args (by omega)
    · exact guardedCall_of_le f label entries args hge

/-- The calls of a machine are guarded calls all the way down. -/
theorem guardedCall_machineCall (u : CompiledUnit) : u.guardedCall u.machineCall = u.machineCall := by
  funext f label entries args M
  rcases Nat.lt_or_ge M.depth u.options.maxCallDepth with hlt | hge
  · exact guardedCall_of_lt f label entries args hlt fun _ _ _ _ _ _ => rfl
  · exact guardedCall_of_le f label entries args hge

/-- An invocation starts with all its room. -/
theorem invoke_eq_through (u : CompiledUnit) (name : String) (args : List Value) {M : Machine}
    (hM : M.depth = 0) : u.invoke name args M = u.invokeThrough u.machineCall name args M := by
  rw [u.invoke_eq]
  have htwins : Twins (fun _ => False) (fun M' => M'.depth = 0) u u
      (u.callWithin u.options.maxCallDepth) u.machineCall := by
    apply Twins.of_calls rfl rfl rfl rfl (fun _ _ hM' => hM')
    intro f label entries args M' hM'
    rw [CompiledUnit.machineCall, hM', Nat.sub_zero, ← hM']
    exact .self (callWithin_balanced _ f label entries args M')
  exact (htwins.invokeThrough_repeats name args hM).eq.symm

theorem invoke_keeps (u : CompiledUnit) (name : String) (args : List Value) {M : Machine}
    (hM : M.Within 0 u.options.maxCallDepth) :
    Concludes (fun _ => Machine.Within 0 u.options.maxCallDepth)
      (fun _ => Machine.Within 0 u.options.maxCallDepth) (u.invoke name args M) := by
  rw [u.invoke_eq]
  have htwins : Twins (fun _ => False) (Machine.Within 0 u.options.maxCallDepth) u u
      (u.callWithin u.options.maxCallDepth) (u.callWithin u.options.maxCallDepth) := by
    apply Twins.of_calls rfl rfl rfl rfl (within_recordable _ _)
    intro f label entries args M' hM'
    exact .self (callWithin_keeps (Nat.le_of_eq (Nat.zero_add _)) f label entries args hM')
  exact (htwins.invokeThrough_repeats name args hM).concludes

end

/-- Evaluation ends within the limit. The calls of a machine follow the guarded recursion, and they do
not depend on what is done in place of the calls that lie deeper than the limit: unfolding the
recursion once more often than the limit allows gives them whole. An invocation, which makes its calls
in this way, ends with a value or a failure, without any call left open and without more calls open at
once than the limit allows. And every call leaves the number of open calls as it was, whether it
returns or fails. -/
theorem evaluation_ends_within_limit (u : CompiledUnit) :
    u.guardedCall u.machineCall = u.machineCall ∧
    (∀ deeper, u.unfoldedCall deeper (u.options.maxCallDepth + 1) = u.machineCall) ∧
    (∀ name args, u.invoke name args {} = u.invokeThrough u.machineCall name args {} ∧
      Concludes (fun _ M => M.depth = 0 ∧ M.peak ≤ u.options.maxCallDepth)
        (fun _ M => M.depth = 0 ∧ M.peak ≤ u.options.maxCallDepth) (u.invoke name args {})) ∧
    ∀ f label bound args M, Concludes (fun _ M' => M'.depth = M.depth)
      (fun _ M' => M'.depth = M.depth) (u.machineCall f label bound args M) := by
  refine ⟨guardedCall_machineCall u, fun deeper => ?_, fun name args => ⟨?_, ?_⟩, ?_⟩
  · funext f label bound args M
    exact unfoldedCall_eq deeper f label bound args (Nat.le_add_left _ _)
  · exact invoke_eq_through u name args rfl
  · have hstart : Machine.Within 0 u.options.maxCallDepth {} := ⟨rfl, Nat.zero_le _⟩
    exact (invoke_keeps u name args hstart).imp (fun _ _ h => ⟨h.depth, h.peak⟩)
      fun _ _ h => ⟨h.depth, h.peak⟩
  · exact fun f label bound args M => callWithin_balanced _ f label bound args M

/-! ## Other limits -/

/-- The unit with another limit on the depth of calls. -/
def CompiledUnit.limited (u : CompiledUnit) (limit : Nat) : CompiledUnit :=
  { u with options := { u.options with maxCallDepth := limit } }

section

variable {u : CompiledUnit} {limit limit' : Nat}

theorem Twins.limited {call call' : Call}
    (hcall : ∀ f label bound args M, Repeats (· = .depthExceeded limit) (fun _ => True)
      (call f label bound args M) (call' f label bound args M)) :
    Twins (· = .depthExceeded limit) (fun _ => True) (u.limited limit) (u.limited limit') call
      call' :=
  .of_calls rfl rfl rfl rfl (fun _ _ _ => trivial) fun f label bound args M _ =>
    hcall f label bound args M

/-- A call with more room ends as the call with less room does, unless this runs out of room. -/
theorem callWithin_limited {room room' : Nat} (h : room ≤ room') (f : Function) (label : String)
    (bound : Frame) (args : List Value) (M : Machine) :
    Repeats (· = .depthExceeded limit) (fun _ => True)
      ((u.limited limit).callWithin room f label bound args M)
      ((u.limited limit').callWithin room' f label bound args M) := by
  induction room generalizing room' f label bound args M with
  | zero =>
    unfold CompiledUnit.callWithin
    split
    · exact .inl rfl
    · exact .error trivial
  | succ room ih =>
    obtain ⟨room', rfl⟩ := Nat.exists_eq_add_of_lt h
    rw [CompiledUnit.callWithin, CompiledUnit.callWithin]
    split
    · have htwins : Twins (· = .depthExceeded limit) (fun _ => True) (u.limited limit)
          (u.limited limit') ((u.limited limit).callWithin room)
          ((u.limited limit').callWithin (room + room')) :=
        .limited fun f label bound args M => ih (Nat.le_add_right _ _) f label bound args M
      exact htwins.opened_repeats f.body _ trivial fun _ _ => trivial
    · exact .error trivial

end

/-- Under a greater limit a thread needs no less stack. -/
theorem threadStack_limited_le (u : CompiledUnit) {limit limit' : Nat} (h : limit ≤ limit') :
    (u.limited limit).options.threadStack ≤ (u.limited limit').options.threadStack := by
  have hcalls : limit * stackPerCall ≤ limit' * stackPerCall := Nat.mul_le_mul_right _ h
  simp only [EvalOptions.threadStack, CompiledUnit.limited]
  omega

theorem invoke_limited (u : CompiledUnit) {limit limit' : Nat} (h : limit ≤ limit') (name : String)
    (args : List Value) (M : Machine) :
    (∃ M', (u.limited limit).invoke name args M = .error (.depthExceeded limit) M') ∨
      (u.limited limit').invoke name args M = (u.limited limit).invoke name args M := by
  rw [CompiledUnit.invoke_eq, CompiledUnit.invoke_eq]
  have htwins : Twins (· = .depthExceeded limit) (fun _ => True) (u.limited limit)
      (u.limited limit') ((u.limited limit).callWithin limit)
      ((u.limited limit').callWithin limit') := .limited (callWithin_limited h)
  rcases (htwins.invokeThrough_repeats name args (M := M) trivial).lost_or_eq with
    ⟨e, M', rfl, hlost⟩ | hsame
  · exact .inl ⟨M', hlost⟩
  · exact .inr hsame

/-- The host starts every thread whose stack has at most so many bytes. -/
def Host.Grants (host : Host) (bytes : Nat) : Prop := ∀ stack ≤ bytes, host.refusal? stack = none

/-- Raising the limit never changes an answer: an invocation under the greater limit ends exactly as
the one under the smaller limit, unless this one is refused a call. The stack of a thread grows with
the limit, so the host has to grant the one for the greater limit. -/
theorem raised_limit_keeps_outcome (u : CompiledUnit) (host : Host) {limit limit' : Nat}
    (h : limit ≤ limit') (hhost : host.Grants (u.limited limit').options.threadStack)
    (name : String) (args : List Value) (M : Machine) :
    (∃ M', (u.limited limit).invokeOn host name args M = .error (.depthExceeded limit) M') ∨
      (u.limited limit').invokeOn host name args M =
        (u.limited limit).invokeOn host name args M := by
  rw [CompiledUnit.invokeOn_eq (hhost _ (Nat.le_refl _)),
    CompiledUnit.invokeOn_eq (hhost _ (threadStack_limited_le u h))]
  exact invoke_limited u h name args M

/-- Goes down a chain of links, with one call for each of them and one for the end. -/
def descend : Function where
  name := none
  params := [⟨"links_0", .adt "Links"⟩]
  captures := []
  body := .matchOn (.var "links_0")
    [(.ctor 0 "End" [], .literal (.scalarBool true)),
      (.ctor 1 "Link" [.bind "next_1"], .invoke ⟨⟨0⟩, "descend"⟩ [.var "next_1"])]
    (.scalar .bool)
  ret := .scalar .bool

def descendUnit : CompiledUnit where
  program := ⟨[("descend", descend)]⟩
  kernels := ⟨[]⟩
  types := [⟨"Links", [⟨"End", []⟩, ⟨"Link", [.adt "Links"]⟩]⟩]
  options := {}

/-- A host that starts threads with a stack of up to 64 MiB. -/
def modestHost : Host := ⟨fun stack => if stack ≤ 67108864 then none else some "out of memory"⟩

/-- Two links take three calls. So a limit of two refuses one of them, while a limit of three is enough
and no other one above it makes a difference, as long as the thread is started: the host has no stack
for 600 calls. -/
theorem descend_two_links :
    (∃ M, (descendUnit.limited 2).invokeOn modestHost "descend" [.adt 1 [.adt 1 [.adt 0 []]]] {} =
      .error (.depthExceeded 2) M) ∧
    3 ≤ 500 ∧ modestHost.Grants (descendUnit.limited 500).options.threadStack ∧
    (∃ M, (descendUnit.limited 500).invokeOn modestHost "descend"
      [.adt 1 [.adt 1 [.adt 0 []]]] {} = .ok (.tensor (.scalarBool true)) M) ∧
    ∃ M, (descendUnit.limited 600).invokeOn modestHost "descend" [.adt 1 [.adt 1 [.adt 0 []]]] {} =
      .error (.executor "out of memory") M := by
  have hthree : ∃ M, (descendUnit.limited 3).invokeOn modestHost "descend"
      [.adt 1 [.adt 1 [.adt 0 []]]] {} = .ok (.tensor (.scalarBool true)) M := ⟨_, rfl⟩
  obtain ⟨M, hM⟩ := hthree
  have hle : 3 ≤ 500 := by decide
  have hstack : (descendUnit.limited 500).options.threadStack = 67108864 := by decide
  have hhost : modestHost.Grants (descendUnit.limited 500).options.threadStack :=
    fun stack h => if_pos (hstack ▸ h)
  refine ⟨⟨_, rfl⟩, hle, hhost, ⟨M, ?_⟩, _, rfl⟩
  rcases raised_limit_keeps_outcome descendUnit modestHost hle hhost "descend"
    [.adt 1 [.adt 1 [.adt 0 []]]] {} with ⟨M', hlost⟩ | hsame
  · cases hM.symm.trans hlost
  · exact hsame.trans hM

end TensorIR.Run
