import TensorIR.Value.Basic

/-! Kernels and registries of kernels.

The compiler knows a kernel by name and arity only. A kernel is a pure function of its argument
values, which may refuse them. -/

namespace TensorIR

/-- Why a kernel refuses its arguments. -/
inductive KernelError where
  | arity (expected found : Nat)
  | notATensor (index : Nat)
  | dtype (detail : String)
  | broadcast (lhs rhs : String)
  | invalid (detail : String)
deriving DecidableEq

def KernelError.message : KernelError → String
  | .arity expected found => s!"expected {expected} input(s), got {found}"
  | .notATensor index => s!"input {index} is not a tensor"
  | .dtype detail => "dtype mismatch — " ++ detail
  | .broadcast lhs rhs => s!"shapes {lhs} and {rhs} cannot be broadcast together"
  | .invalid detail => detail

/-- How a kernel takes its arguments: a fixed number of them, or the fields of one tuple. -/
inductive KernelArity where
  | fixed (count : Nat)
  | packed
deriving DecidableEq

structure Kernel where
  name : String
  arity : KernelArity
  body : List Value → Except KernelError Value

namespace Kernel

/-- The first check of every call: a fixed arity has to be met. -/
def checkArity (k : Kernel) (args : List Value) : Except KernelError Unit :=
  match k.arity with
  | .fixed n => if args.length = n then .ok () else .error (.arity n args.length)
  | .packed => .ok ()

/-- Calls the kernel. A packed kernel gets the fields of its tuple. -/
def call (k : Kernel) (args : List Value) : Except KernelError Value := do
  k.checkArity args
  k.body args

/-- A kernel that always returns the same value. -/
def const (name : String) (arity : KernelArity) (v : Value) : Kernel :=
  ⟨name, arity, fun _ => .ok v⟩

/-- A kernel that returns one of its arguments. -/
def pick (name : String) (arity : KernelArity) (index : Nat) : Kernel where
  name
  arity
  body args :=
    match args[index]? with
    | some v => .ok v
    | none => .error (.arity (index + 1) args.length)

/-- A kernel that returns the tuple of its arguments. -/
def pack (name : String) (arity : KernelArity) : Kernel :=
  ⟨name, arity, fun args => .ok (.tuple args)⟩

/-- A kernel that refuses all arguments. -/
def fail (name : String) (arity : KernelArity) (e : KernelError) : Kernel :=
  ⟨name, arity, fun _ => .error e⟩

/-- A kernel that hands its arguments on to another one. -/
def forward (name : String) (arity : KernelArity) (target : Kernel) : Kernel :=
  ⟨name, arity, target.call⟩

end Kernel

/-- Kernels, one for each name. -/
structure KernelRegistry where
  kernels : List Kernel := []

namespace KernelRegistry

def get? (r : KernelRegistry) (name : String) : Option Kernel := r.kernels.find? (·.name == name)

/-- Adds a kernel, in place of the one with the same name if there is one. -/
def register (r : KernelRegistry) (k : Kernel) : KernelRegistry :=
  ⟨r.kernels.filter (·.name != k.name) ++ [k]⟩

/-- The registered names in increasing order. -/
def names (r : KernelRegistry) : List String :=
  (r.kernels.map Kernel.name).mergeSort fun a b => a ≤ b

end KernelRegistry

end TensorIR
