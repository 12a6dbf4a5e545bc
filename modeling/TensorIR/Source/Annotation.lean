import TensorIR.Source.Syntax

/-! Type annotations: the types written on expressions, and builders that stamp a new expression
with the type its operands show.

Elementwise kernels broadcast their operands. Operands that cannot be combined leave the type of
the call open. -/

namespace TensorIR.Source

/-- The type that is written on the expression, without looking at any definition. -/
def Expr.ty : Expr → Ty
  | .var v => v.ty
  | .const value => value.ty
  | .letIn _ _ body => body.ty
  | .func params body ret => .func (params.map Var.ty) (if ret.isResolved then ret else body.ty)
  | .global _ | .op _ => .infer
  | .call _ _ ty | .ite _ _ _ ty | .tuple _ ty | .matchOn _ _ ty | .construct _ _ ty => ty

namespace Function

/-- The declared result type, or else the type written on the body. -/
def resultType (f : Function) : Ty := if f.ret.isResolved then f.ret else f.body.ty

def fnType (f : Function) : Ty := .func (f.params.map Var.ty) f.resultType

end Function

/-- The type of an elementwise result, with element type `out` if one is given. An operand of open
type is taken to have the type of the other one. -/
def elementwiseType (out : Option DType) : Ty → Ty → Ty
  | .tensor d s, .tensor e t =>
    if d = e then
      match s.broadcast? t with
      | some shape => .tensor (out.getD d) shape
      | none => .infer
    else .infer
  | .tensor d s, .infer | .infer, .tensor d s => .tensor (out.getD d) s
  | _, _ => .infer

/-- The type of what is joined so far, `lead` rows of shape `tail`, with the remaining tensors
joined to it. -/
def joinTypes (dtype : DType) (lead : Nat) (tail : List Nat) : List Ty → Ty
  | [] => .tensor dtype ⟨lead :: tail⟩
  | .tensor d ⟨n :: dims⟩ :: rest =>
    if d = dtype ∧ dims = tail then joinTypes dtype (lead + n) tail rest else .infer
  | _ => .infer

/-- The type of the concatenation of tensors of the given types. -/
def concatenateType : List Ty → Ty
  | .tensor d ⟨n :: dims⟩ :: rest => joinTypes d n dims rest
  | _ => .infer

/-- The type of the sum of tensors of the given types. -/
def sumType : List Ty → Ty
  | [] => .infer
  | t :: rest => rest.foldl (elementwiseType none) t

/-- The built-in kernels of two operands that return elements of the operand type. -/
def arithmeticNames : List String := ["add", "subtract", "multiply", "divide"]

/-- The built-in kernels of two operands that return truth values. -/
def comparisonNames : List String :=
  ["less", "less_equal", "greater", "greater_equal", "equal", "not_equal"]

/-- The built-in kernels of one operand. -/
def unaryNames : List String := ["exp", "log", "sqrt", "tanh", "sigmoid", "relu", "negative"]

namespace Expr

/-- Applies a function value. The result type is that of the callee's type. -/
def apply (callee : Expr) (args : List Expr) : Expr :=
  match callee.ty with
  | .func _ ret => .call callee args ret
  | _ => .call callee args .infer

/-- Applies a global function. Its definition decides the result type. -/
def callGlobal (name : String) (args : List Expr) : Expr := .call (.global name) args .infer

/-- A conditional of the type of its first branch that shows one. -/
def cond (c onTrue onFalse : Expr) : Expr :=
  .ite c onTrue onFalse (if onTrue.ty.isResolved then onTrue.ty else onFalse.ty)

def tupleOf (fields : List Expr) : Expr := .tuple fields (.tuple (fields.map ty))

/-- Applies a constructor of the named algebraic data type. -/
def constructOf (ctor : String) (fields : List Expr) (adt : String) : Expr :=
  .construct ctor fields (.adt adt)

def arithmetic (name : String) (a b : Expr) : Expr :=
  .call (.op name) [a, b] (elementwiseType none a.ty b.ty)

def comparison (name : String) (a b : Expr) : Expr :=
  .call (.op name) [a, b] (elementwiseType (some .bool) a.ty b.ty)

def unary (name : String) (x : Expr) : Expr := .call (.op name) [x] x.ty

/-- Joins the tensors of a tuple along the first axis. -/
def concatenate (tensors : Expr) : Expr :=
  .call (.op "concatenate") [tensors] <|
    match tensors.ty with
    | .tuple fields => concatenateType fields
    | _ => .infer

/-- Adds up the tensors of a tuple. -/
def addN (tensors : Expr) : Expr :=
  .call (.op "add_n") [tensors] <|
    match tensors.ty with
    | .tuple fields => sumType fields
    | _ => .infer

/-- The call of the built-in kernel with this name, if it takes as many operands as are given. -/
def kernelCall? (name : String) : List Expr → Option Expr
  | [x] =>
    if unaryNames.contains name then some (unary name x)
    else if name = "concatenate" then some (concatenate x)
    else if name = "add_n" then some (addN x)
    else none
  | [a, b] =>
    if arithmeticNames.contains name then some (arithmetic name a b)
    else if comparisonNames.contains name then some (comparison name a b)
    else none
  | _ => none

end Expr

end TensorIR.Source
