import Parvar.Checked
import Parvar.Eval.Basic

/-! The builtin operators on values. -/

namespace Parvar.Eval

open EvalError

def overflowing {α : Type} : Option α → Except Cause α
  | some a => .ok a
  | none => .error .overflow

def intOp (op : BinOp) (a b : Int64) : Except Cause Int64 :=
  match op with
  | .add => overflowing (Checked.add a b)
  | .sub => overflowing (Checked.sub a b)
  | .mul => overflowing (Checked.mul a b)
  | .idiv => if b = 0 then .error .divisionByZero else overflowing (Checked.div a b)
  | .mod => if b = 0 then .error .divisionByZero else overflowing (Checked.mod a b)
  | _ => .error (.notOf .int)

def floatOp (op : BinOp) (a b : Float) : Except Cause Float :=
  match op with
  | .add => .ok (a + b)
  | .sub => .ok (a - b)
  | .mul => .ok (a * b)
  | .div => if b == 0 then .error .divisionByZero else .ok (a / b)
  | _ => .error (.notOf .float)

def setOp (kind : ValueKind) (op : BinOp) (a b : IntSet) : Except Cause IntSet :=
  match op with
  | .union => .ok (a.union b)
  | .inter => .ok (a.inter b)
  | .diff => .ok (a.diff b)
  | .symdiff => .ok (a.symdiff b)
  | _ => .error (.notOf kind)

-- A number that is not one is neither below, nor above, nor equal to any.
def floatCmp (a b : Float) : Option Ordering :=
  if a < b then some .lt
  else if b < a then some .gt
  else if a == b then some .eq
  else none

def relation (op : BinOp) (o : Option Ordering) : Except Cause Bool :=
  match op with
  | .lt => .ok (o = some .lt)
  | .le => .ok (o = some .lt || o = some .eq)
  | .gt => .ok (o = some .gt)
  | .ge => .ok (o = some .gt || o = some .eq)
  | .eq => .ok (o = some .eq)
  | .ne => .ok (o ≠ some .eq)
  | _ => .error (.notOf .bool)

def boolOp (op : BinOp) (a b : Bool) : Except Cause Bool :=
  match op with
  | .iff => .ok (a = b)
  | .xor => .ok (a ≠ b)
  | .and => .ok (a && b)
  | .or => .ok (a || b)
  | .imp => .ok (!a || b)
  | .revImp => .ok (!b || a)
  | _ => relation op (some (compare a b))

def setRelation (op : BinOp) (a b : IntSet) : Except Cause Bool :=
  match op with
  | .subset => .ok (a.subset b)
  | .superset => .ok (b.subset a)
  | _ => relation op (some (a.cmp b))

-- Equality and its negation of what has no order.
def equality (op : BinOp) (equal : Bool) : Except Cause Bool :=
  match op with
  | .eq => .ok equal
  | .ne => .ok !equal
  | _ => .error (.notOf .bool)

-- The truth of an operator on two expressions that have been evaluated. Annotations are compared as
-- expressions.
def truth (m : Model) (isAnn : Bool) (op : BinOp) (l r : ExprId) : Except Cause Bool :=
  let byNodes := if isAnn then equality op (m.exprEqual l r) else .error (.notOf .bool)
  let (lk, rk) := (m.kind l, m.kind r)
  if (op = .eq || op = .ne) && (lk.isAbsent || rk.isAbsent) then
    equality op (lk.isAbsent && rk.isAbsent)
  else match lk, rk with
    | .bool a, .bool b => boolOp op a b
    | .int a, .int b => relation op (some (compare a b))
    | .float a, .float b => relation op (floatCmp a b)
    | .string a, .string b => relation op (some (compare a b))
    | .int v, .intSet s => if op = .mem then .ok (s.contains v) else byNodes
    | .bool v, .intSet s => if op = .mem then .ok (s.contains v.toInt64) else byNodes
    | .intSet a, .intSet b => setRelation op a b
    | .arrayLit a _, .arrayLit b _ => equality op (Model.allEqual m.exprEqual a b)
    | _, _ => byNodes

end Parvar.Eval
