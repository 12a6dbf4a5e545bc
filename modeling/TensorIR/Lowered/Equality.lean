import TensorIR.Lowered.Syntax

/-! Equality of lowered code, with the elements of literals compared as numbers. -/

namespace TensorIR.Lowered

namespace Pattern

mutual

protected def beq : Pattern → Pattern → Bool
  | .wildcard, .wildcard => true
  | .bind x, .bind y => x == y
  | .ctor t n ps, .ctor u m qs => t == u && n == m && Pattern.beqList ps qs
  | .tuple ps, .tuple qs => Pattern.beqList ps qs
  | _, _ => false

protected def beqList : List Pattern → List Pattern → Bool
  | [], [] => true
  | p :: ps, q :: qs => Pattern.beq p q && Pattern.beqList ps qs
  | _, _ => false

end

instance : BEq Pattern := ⟨Pattern.beq⟩

end Pattern

namespace Node

mutual

protected def beq : Node → Node → Bool
  | .var x, .var y => x == y
  | .literal s, .literal t => s == t
  | .global f, .global g => f == g
  | .decl bs b, .decl cs c => Node.beqBindings bs cs && Node.beq b c
  | .packed k n as t p, .packed l m bs u q =>
    k == l && n == m && Node.beqList as bs && t == u && p == q
  | .invoke f as, .invoke g bs => f == g && Node.beqList as bs
  | .apply f as, .apply g bs => Node.beq f g && Node.beqList as bs
  | .func f ps cs b t, .func g qs ds c u =>
    f == g && ps == qs && cs == ds && Node.beq b c && t == u
  | .ite a b c t, .ite a' b' c' u => Node.beq a a' && Node.beq b b' && Node.beq c c' && t == u
  | .tuple as t, .tuple bs u => Node.beqList as bs && t == u
  | .matchOn d cs t, .matchOn e ds u => Node.beq d e && Node.beqClauses cs ds && t == u
  | .ctor i n as t, .ctor j m bs u => i == j && n == m && Node.beqList as bs && t == u
  | _, _ => false

protected def beqList : List Node → List Node → Bool
  | [], [] => true
  | a :: as, b :: bs => Node.beq a b && Node.beqList as bs
  | _, _ => false

protected def beqBindings : List (String × Node) → List (String × Node) → Bool
  | [], [] => true
  | (x, a) :: as, (y, b) :: bs => x == y && Node.beq a b && Node.beqBindings as bs
  | _, _ => false

protected def beqClauses : List (Pattern × Node) → List (Pattern × Node) → Bool
  | [], [] => true
  | (p, a) :: as, (q, b) :: bs => p == q && Node.beq a b && Node.beqClauses as bs
  | _, _ => false

end

instance : BEq Node := ⟨Node.beq⟩

end Node

protected def Function.beq (f g : Function) : Bool := f.toNode == g.toNode

instance : BEq Function := ⟨Function.beq⟩

end TensorIR.Lowered
