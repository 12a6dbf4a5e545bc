import TensorIR.Kernel.Joining

/-! The built-in kernels. -/

namespace TensorIR

namespace Kernel

def ofUnary (name : String) (f : Tensor → Except KernelError Tensor) : Kernel where
  name
  arity := .fixed 1
  body args := do
    let t ← tensorArg args 0
    Value.tensor <$> f t

def ofBinary (name : String) (f : Tensor → Tensor → Except KernelError Tensor) : Kernel where
  name
  arity := .fixed 2
  body args := do
    let a ← tensorArg args 0
    let b ← tensorArg args 1
    Value.tensor <$> f a b

def ofPacked (name : String) (f : List Value → Except KernelError Tensor) : Kernel where
  name
  arity := .packed
  body args := Value.tensor <$> f args

def ofFloat (name : String) (f : FloatFunction) : Kernel := ofUnary name (Tensor.mapFloat name f)

/-- All built-in kernels. -/
def builtins : List Kernel :=
  [ofBinary "add" (Tensor.arithmetic .add),
    ofBinary "subtract" (Tensor.arithmetic .subtract),
    ofBinary "multiply" (Tensor.arithmetic .multiply),
    ofBinary "divide" (Tensor.arithmetic .divide),
    ofBinary "less" (Tensor.compare .less),
    ofBinary "less_equal" (Tensor.compare .lessEqual),
    ofBinary "greater" (Tensor.compare .greater),
    ofBinary "greater_equal" (Tensor.compare .greaterEqual),
    ofBinary "equal" (Tensor.compare .equal),
    ofBinary "not_equal" (Tensor.compare .notEqual),
    ofFloat "exp" .exp,
    ofFloat "log" .log,
    ofFloat "sqrt" .sqrt,
    ofFloat "tanh" .tanh,
    ofFloat "sigmoid" .sigmoid,
    ofUnary "negative" (Tensor.mapNumeric "negative" NumericElement.neg),
    ofUnary "relu" (Tensor.mapNumeric "relu" rectify),
    ofPacked "concatenate" Tensor.concatenate,
    ofPacked "add_n" Tensor.addN]

end Kernel

/-- The registry that holds exactly the built-in kernels. -/
def KernelRegistry.builtin : KernelRegistry := ⟨Kernel.builtins⟩

end TensorIR
