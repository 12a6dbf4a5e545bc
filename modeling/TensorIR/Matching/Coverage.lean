import TensorIR.Lowered.Syntax
import TensorIR.Source.DataType

/-! Coverage of pattern matches.

The clauses of a match form a matrix of patterns with one column for each type of a list. The search
looks for a row of value shapes that no row of the matrix accepts. A column whose head constructors
are all the constructors of its type is split by constructor; any other column is skipped along with
the rows that ask for a constructor there. -/

namespace TensorIR.Matching

open Source

/-- The part of a pattern that coverage looks at. A tuple has the one constructor of tag zero. -/
inductive Skeleton where
  | any
  | ctor (tag : Nat) (fields : List Skeleton)

mutual

def Skeleton.ofPattern : Lowered.Pattern → Skeleton
  | .wildcard | .bind _ => .any
  | .ctor tag _ fields => .ctor tag (Skeleton.ofPatterns fields)
  | .tuple fields => .ctor 0 (Skeleton.ofPatterns fields)

def Skeleton.ofPatterns : List Lowered.Pattern → List Skeleton
  | [] => []
  | p :: ps => Skeleton.ofPattern p :: Skeleton.ofPatterns ps

end

def Skeleton.isAny : Skeleton → Bool
  | .any => true
  | .ctor .. => false

mutual

/-- The number of constructors in a skeleton. -/
def Skeleton.ctorCount : Skeleton → Nat
  | .any => 0
  | .ctor _ fields => 1 + Skeleton.ctorCountRow fields

def Skeleton.ctorCountRow : List Skeleton → Nat
  | [] => 0
  | s :: ss => s.ctorCount + Skeleton.ctorCountRow ss

end

/-- The shape of values that no clause accepts. -/
inductive Witness where
  | any
  | ctor (name : String) (fields : List Witness)
  | tuple (fields : List Witness)

mutual

def Witness.text : Witness → String
  | .any => "_"
  | .ctor name [] => name
  | .ctor name (w :: ws) => name ++ parenthesized (w.text :: Witness.texts ws)
  | .tuple fields => parenthesized (Witness.texts fields)

def Witness.texts : List Witness → List String
  | [] => []
  | w :: ws => w.text :: Witness.texts ws

end

/-- All constructors of a type. -/
inductive CtorSet where
  | variants (ctors : List CtorDef)
  | tuple (fields : List Ty)

namespace CtorSet

/-- Only data types that are defined and tuples can be split by constructor. -/
def of? (types : TypeTable) : Ty → Option CtorSet
  | .adt name => (types.get? name).map fun data => .variants data.ctors
  | .tuple fields => some (.tuple fields)
  | _ => none

/-- The field types of each constructor, in the order of the tags. -/
def fieldTypes : CtorSet → List (List Ty)
  | .variants ctors => ctors.map CtorDef.fields
  | .tuple fields => [fields]

def witness (set : CtorSet) (tag : Nat) (fields : List Witness) : Witness :=
  match set with
  | .variants ctors => .ctor ((ctors[tag]?.map CtorDef.name).getD "") fields
  | .tuple _ => .tuple fields

end CtorSet

abbrev Row := List Skeleton

namespace Row

/-- The tag of the constructor that a row asks for in its first column. -/
def headTag? : Row → Option Nat
  | .ctor tag _ :: _ => some tag
  | _ => none

/-- What remains of a row for values whose first column is the given constructor. -/
def specialize? (tag arity : Nat) : Row → Option Row
  | [] => none
  | .any :: rest => some (List.replicate arity .any ++ rest)
  | .ctor t fields :: rest => if t = tag then some (fields ++ rest) else none

/-- What remains of a row that accepts anything in its first column. -/
def default? : Row → Option Row
  | .any :: rest => some rest
  | _ => none

def ctorCount (row : Row) : Nat := Skeleton.ctorCountRow row

end Row

def headTags (rows : List Row) : List Nat := rows.filterMap Row.headTag?

def anyWitnesses (n : Nat) : List Witness := List.replicate n .any

/-- Tries one constructor after the other, the first of which has tag `tag`. The search among the
specialized rows is left to `search`. -/
def missingVariant (search : List Row → List Ty → Option (List Witness)) (set : CtorSet)
    (rows : List Row) (rest : List Ty) : (tag : Nat) → List (List Ty) → Option (List Witness)
  | _, [] => none
  | tag, fields :: more =>
    match search (rows.filterMap (Row.specialize? tag fields.length)) (fields ++ rest) with
    | some ws => some (set.witness tag (ws.take fields.length) :: ws.drop fields.length)
    | none => missingVariant search set rows rest (tag + 1) more

/-- A shape for the first column that none of the tags in `heads` has. -/
def uncoveredHead (set : Option CtorSet) (heads : List Nat) : Witness :=
  match set with
  | none => .any
  | some set =>
    match (List.range set.fieldTypes.length).find? fun tag => !heads.contains tag with
    | none => .any
    | some tag => set.witness tag (anyWitnesses ((set.fieldTypes[tag]?.map List.length).getD 0))

/-- All constructors of the set occur among the tags. -/
def CtorSet.coveredBy (set : CtorSet) (heads : List Nat) : Bool :=
  (List.range set.fieldTypes.length).all heads.contains

/-- Works through the columns from the left, leaving split columns to `split`. -/
def missingFrom (types : TypeTable) (split : List Row → List Ty → Option (List Witness)) :
    List Ty → List Row → Option (List Witness)
  | tys, [] => some (anyWitnesses tys.length)
  | [], _ :: _ => none
  | ty :: rest, rows =>
    if rows.any (·.all Skeleton.isAny) then none
    else
      let set := CtorSet.of? types ty
      let heads := headTags rows
      match set.filter (·.coveredBy heads) with
      | some set => missingVariant split set rows rest 0 set.fieldTypes
      | none =>
        (missingFrom types split rest (rows.filterMap Row.default?)).map
          (uncoveredHead set heads :: ·)

/-- Splits columns at most `splits` times on the way to any one witness. Every split removes a
constructor from the rows. -/
def missingWithin (types : TypeTable) : (splits : Nat) → List Row → List Ty → Option (List Witness)
  | 0, rows, tys => missingFrom types (fun _ _ => none) tys rows
  | splits + 1, rows, tys => missingFrom types (missingWithin types splits) tys rows

/-- The number of constructors in all rows. -/
def totalCtorCount : List Row → Nat
  | [] => 0
  | row :: rows => row.ctorCount + totalCtorCount rows

/-- One witness for each type such that no row accepts them all, if there are such. -/
def missingRow? (types : TypeTable) (rows : List Row) (tys : List Ty) : Option (List Witness) :=
  missingWithin types (totalCtorCount rows) rows tys

/-- A shape of values of the type that no pattern accepts, if there is one. -/
def missingPattern? (types : TypeTable) (patterns : List Lowered.Pattern) (ty : Ty) :
    Option Witness :=
  (missingRow? types (patterns.map fun p => [Skeleton.ofPattern p]) [ty]).bind List.head?

end TensorIR.Matching
