import TensorIR.Lowered.Table

/-! The printed form of lowered nodes and programs.

Functions appear in the order of their places, bindings in evaluation order, clauses in the order
in which they are tried. -/

namespace TensorIR.Lowered

def Param.text (p : Param) : String := p.name ++ ": " ++ p.ty.text

def paramTexts (ps : List Param) : String := commaSeparated (ps.map Param.text)

/-- A name and a tag with the texts of the fields, if there are any. -/
def taggedText (name : String) (tag : Nat) (fields : List String) : String :=
  name ++ "#" ++ toString tag ++ if fields.isEmpty then "" else parenthesized fields

mutual

def Pattern.text : Pattern → String
  | .wildcard => "_"
  | .bind name => name
  | .ctor tag name fields => taggedText name tag (Pattern.texts fields)
  | .tuple fields => parenthesized (Pattern.texts fields)

def Pattern.texts : List Pattern → List String
  | [] => []
  | p :: ps => p.text :: Pattern.texts ps

end

/-- The head of a function literal, up to its result type. -/
def functionHead (name : Option String) (params captures : List Param) (ret : Ty) : String :=
  "fn" ++ (match name with | some n => " " ++ n | none => "")
    ++ "(" ++ paramTexts params ++ ")"
    ++ (if captures.isEmpty then "" else " captures [" ++ paramTexts captures ++ "]")
    ++ " -> " ++ ret.text

/-- A text in braces on lines of its own, one level deeper than `depth`. -/
def block (depth : Nat) (inner : String) : String :=
  "\x7b" ++ newline (depth + 1) ++ inner ++ newline depth ++ "\x7d"

mutual

/-- The text of a node that stands at indentation `depth`. -/
def Node.textAt (depth : Nat) : Node → String
  | .var name => name
  | .literal value => "const(" ++ value.text ++ ")"
  | .global target => "@" ++ target.name
  | .decl bindings body => Node.bindingsTextAt depth bindings ++ body.textAt depth
  | .packed kernel arity args ty tupled =>
    "packed " ++ kernel ++ "/" ++ toString arity ++ (if tupled then " tuple" else "")
      ++ parenthesized (Node.textsAt depth args) ++ " : " ++ ty.text
  | .invoke target args => "invoke @" ++ target.name ++ parenthesized (Node.textsAt depth args)
  | .apply callee args =>
    "invoke " ++ callee.textAt depth ++ parenthesized (Node.textsAt depth args)
  | .func name params captures body ret =>
    functionHead name params captures ret ++ " " ++ block depth (body.textAt (depth + 1))
  | .ite cond onTrue onFalse ty =>
    "if " ++ cond.textAt depth ++ " " ++ block depth (onTrue.textAt (depth + 1))
      ++ " else " ++ block depth (onFalse.textAt (depth + 1)) ++ " : " ++ ty.text
  | .tuple fields _ => parenthesized (Node.textsAt depth fields)
  | .matchOn data clauses ty =>
    "match " ++ data.textAt depth ++ " \x7b" ++ Node.clausesTextAt depth clauses
      ++ newline depth ++ "\x7d : " ++ ty.text
  | .ctor tag name fields _ => taggedText name tag (Node.textsAt depth fields)

def Node.textsAt (depth : Nat) : List Node → List String
  | [] => []
  | n :: ns => n.textAt depth :: Node.textsAt depth ns

/-- One line for each binding, with the break after it. -/
def Node.bindingsTextAt (depth : Nat) : List (String × Node) → String
  | [] => ""
  | (name, value) :: rest =>
    "let " ++ name ++ " = " ++ value.textAt depth ++ newline depth
      ++ Node.bindingsTextAt depth rest

/-- Each pattern on a line of its own, with the break before it, and its body below. -/
def Node.clausesTextAt (depth : Nat) : List (Pattern × Node) → String
  | [] => ""
  | (p, body) :: rest =>
    newline (depth + 1) ++ p.text ++ " =>" ++ newline (depth + 2) ++ body.textAt (depth + 2)
      ++ Node.clausesTextAt depth rest

end

/-- The text of a node by itself. -/
def Node.text (n : Node) : String := n.textAt 0

/-- A function definition, on lines of its own after an empty one. -/
def Function.definitionText (id : FunctionId) (name : String) (f : Function) : String :=
  "\ndef " ++ id.text ++ " " ++ name ++ "(" ++ paramTexts f.params ++ ") -> " ++ f.ret.text
    ++ " " ++ block 0 (f.body.textAt 1) ++ "\n"

/-- The definitions of the functions, whose places start at `index`. -/
def definitionTexts : (index : Nat) → List (String × Function) → String
  | _, [] => ""
  | index, (name, f) :: rest => f.definitionText ⟨index⟩ name ++ definitionTexts (index + 1) rest

def Program.text (p : Program) : String :=
  "// aotc lowered program: " ++ toString p.size ++ " function(s)\n"
    ++ definitionTexts 0 p.functions

end TensorIR.Lowered
