import Parvar.Model.Basic

/-! Which declaration stands for which, and when two expressions say the same. -/

namespace Parvar.Model

section

variable (m : Model)

-- At most `steps` links from a declaration to the one that stands in for it.
def follow : Nat → DeclId → DeclId
  | 0, d => d
  | steps + 1, d =>
    match (m.decl d).flat with
    | some next => if next = d then d else follow steps next
    | none => d

-- The end of the chain of stand-ins. A chain without a circle has fewer links than there are
-- declarations.
def followFlat (d : DeclId) : DeclId := m.follow m.decls.size d

-- Lists of the same length whose members agree one by one.
def allEqual (eq : ExprId → ExprId → Bool) : List ExprId → List ExprId → Bool
  | [], [] => true
  | a :: as, b :: bs => eq a b && allEqual eq as bs
  | _, _ => false

-- Equality of two nodes by their kinds, given equality of their parts. What binds names is equal
-- only to itself, and so is an anonymous variable.
def kindEqual (eq : ExprId → ExprId → Bool) : ExprKind → ExprKind → Bool
  | .int x, .int y => x = y
  | .float x, .float y => x == y
  | .bool x, .bool y => x = y
  | .string x, .string y => x = y
  | .intSet x, .intSet y => x = y
  | .setLit x, .setLit y => allEqual eq x y
  | .absent, .absent => true
  | .typeVar x, .typeVar y => x = y
  | .ident _ (some d), .ident _ (some c) => m.followFlat d = m.followFlat c
  | .ident x _, .ident y _ => x = y
  | .arrayLit x ds, .arrayLit y cs => ds = cs && allEqual eq x y
  | .access a is, .access b js => eq a b && allEqual eq is js
  | .ite bs x, .ite cs y =>
    allEqual eq (bs.map (·.1)) (cs.map (·.1)) && allEqual eq (bs.map (·.2)) (cs.map (·.2)) && eq x y
  | .bin o l r _, .bin p l' r' _ => o = p && eq l l' && eq r r'
  | .un o x _, .un p y _ => o = p && eq x y
  | .call f xs _, .call g ys _ => f = g && allEqual eq xs ys
  | _, _ => false

-- Equality of expressions that are at most `depth` nodes deep.
def equalTo : Nat → ExprId → ExprId → Bool
  | 0, a, b => a = b
  | depth + 1, a, b => a = b || m.kindEqual (equalTo depth) (m.kind a) (m.kind b)

-- The same node, or nodes of one shape with equal parts.
def exprEqual (a b : ExprId) : Bool := m.equalTo m.exprs.size a b

end
end Parvar.Model
