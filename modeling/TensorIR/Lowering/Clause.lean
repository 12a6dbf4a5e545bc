import TensorIR.Lowering.Inference

/-! Lowering of match clauses, and the check that they cover their type. -/

namespace TensorIR.Lowering

open Source Lowered Matching

namespace BodyContext

/-- The constructor with the given name. -/
def ctorInfo (c : BodyContext) (name : String) : BodyM CtorInfo :=
  match c.setting.module.ctor? name with
  | some info => pure info
  | none => throw (.unknownConstructor c.func name)

/-- A constructor pattern may only meet values of the constructor's own type, as far as that is
known. -/
def checkCtorPattern (c : BodyContext) (name : String) (info : CtorInfo) (ty : Option Ty) :
    BodyM Unit :=
  match ty with
  | none => pure ()
  | some ty =>
    if ty = .adt info.adt.name then pure ()
    else throw (.typeMismatch c.func "match pattern" ("constructor '" ++ name ++ "' belongs to '"
      ++ info.adt.name ++ "', but the scrutinee has type '" ++ ty.text ++ "'"))

/-- The field types that the parts of a tuple pattern meet, or none if they are not known. -/
def tuplePatternFields (c : BodyContext) (width : Nat) (ty : Option Ty) : BodyM (List Ty) :=
  match ty with
  | none => pure []
  | some (.tuple tys) => do
    c.checkArity "tuple pattern" tys.length width
    return tys
  | some ty => throw (.typeMismatch c.func "match pattern"
      ("tuple pattern used on a value of type '" ++ ty.text ++ "'"))

end BodyContext

mutual

/-- Lowers a pattern that meets values of type `ty`, as far as that is known. Each variable gets a
new name. -/
def lowerPattern (c : BodyContext) : Source.Pattern → (ty : Option Ty) → BodyM Lowered.Pattern
  | .wildcard, _ => return .wildcard
  | .var v, ty => do
    let name ← fresh v.name
    let known := if v.ty.isResolved then v.ty else (ty.bind Ty.resolved?).getD .infer
    bindVar v ⟨name, known⟩
    return .bind name
  | .ctor name fields, ty => do
    let info ← c.ctorInfo name
    c.checkCtorPattern name info (ty.bind Ty.resolved?)
    c.checkArity ("constructor pattern '" ++ name ++ "'") info.fields.length fields.length
    let fields ← lowerPatterns c fields info.fields
    return .ctor info.tag name fields
  | .tuple fields, ty => do
    let tys ← c.tuplePatternFields fields.length (ty.bind Ty.resolved?)
    let fields ← lowerPatterns c fields tys
    return .tuple fields

/-- Lowers patterns side by side. A missing type is not known. -/
def lowerPatterns (c : BodyContext) : List Source.Pattern → List Ty → BodyM (List Lowered.Pattern)
  | [], _ => return []
  | p :: ps, tys => do
    let q ← lowerPattern c p tys.head?
    let qs ← lowerPatterns c ps tys.tail
    return q :: qs

end

namespace BodyContext

/-- Lowers a clause whose body is lowered by `lowerBody`. Along with it comes the type of the match,
which is `result` or else the type of this body. -/
def clause (c : BodyContext) (scrutinee result : Option Ty) (p : Source.Pattern) (e : Expr)
    (lowerBody : BodyM Node) : BodyM ((Lowered.Pattern × Node) × Option Ty) :=
  restoringEnv do
    let q ← lowerPattern c p scrutinee
    let body ← c.closeScope lowerBody
    let result ← match result with
      | some ty => pure (some ty)
      | none => c.typeOf e
    return ((q, body), result)

/-- Refuses patterns that leave values of the scrutinee's type uncovered, if the options ask for it.
Without a type there is nothing to check, which is reported. -/
def checkCoverage (c : BodyContext) (scrutinee : Option Ty)
    (patterns : List Lowered.Pattern) : BodyM Unit :=
  if c.setting.options.checkExhaustiveness then
    match scrutinee with
    | none => record (.uncheckedMatch c.func)
    | some ty =>
      match missingPattern? c.setting.module.types patterns ty with
      | none => pure ()
      | some missing => throw (.nonExhaustiveMatch c.func ty missing)
  else pure ()

end BodyContext

end TensorIR.Lowering
