import Parvar.Checked
import Parvar.Operator

/-!
Intervals of integers with ends that may be infinite. An end that does not fit into 64 bits becomes
the infinity of its sign.
-/

namespace Parvar

inductive Bound where
  | negInf
  | finite (v : Int64)
  | posInf
deriving DecidableEq, Repr, Inhabited

namespace Bound

def finite? : Bound → Option Int64
  | finite v => some v
  | _ => none

def isFinite (b : Bound) : Bool := b.finite?.isSome

def le : Bound → Bound → Bool
  | negInf, _ => true
  | _, posInf => true
  | finite a, finite b => a ≤ b
  | _, _ => false

def min (a b : Bound) : Bound := if a.le b then a else b

def max (a b : Bound) : Bound := if a.le b then b else a

def infinity (negative : Bool) : Bound := if negative then negInf else posInf

def neg : Bound → Bound
  | negInf => posInf
  | posInf => negInf
  | finite v => (Checked.neg v).elim posInf finite

-- Zero times an infinity is zero.
def scale (k : Int64) (b : Bound) : Bound :=
  if k = 0 then finite 0
  else match b with
    | finite v => (Checked.mul v k).elim (infinity ((v < 0) != (k < 0))) finite
    | posInf => infinity (k < 0)
    | negInf => infinity (k > 0)

-- Opposite infinities have no sum.
def add? : Bound → Bound → Option Bound
  | finite a, finite b => some ((Checked.add a b).elim (infinity (a < 0)) finite)
  | posInf, negInf | negInf, posInf => none
  | finite _, b => some b
  | b, _ => some b

def text : Bound → String
  | negInf => "-infinity"
  | finite v => toString v
  | posInf => "infinity"

end Bound

structure Interval where
  lo : Bound
  hi : Bound
deriving DecidableEq, Repr, Inhabited

namespace Interval

def ofInts (lo hi : Int64) : Interval := ⟨.finite lo, .finite hi⟩

def finite? (i : Interval) : Option (Int64 × Int64) := do
  return (← i.lo.finite?, ← i.hi.finite?)

-- Holds nothing, and every union with it is the other interval.
def empty : Interval := ⟨.posInf, .negInf⟩

def hull (i j : Interval) : Interval := ⟨i.lo.min j.lo, i.hi.max j.hi⟩

def neg (i : Interval) : Interval := ⟨i.hi.neg, i.lo.neg⟩

def abs (i : Interval) : Interval :=
  let zero := Bound.finite 0
  if zero.le i.lo then i
  else if !zero.le i.hi then i.neg
  else ⟨zero, i.lo.neg.max i.hi⟩

def min (i j : Interval) : Interval := ⟨i.lo.min j.lo, i.hi.min j.hi⟩

def max (i j : Interval) : Interval := ⟨i.lo.max j.lo, i.hi.max j.hi⟩

-- The sum with `k` times an interval.
def addScaled? (i : Interval) (k : Int64) (j : Interval) : Option Interval := do
  let (l, h) := (j.lo.scale k, j.hi.scale k)
  return ⟨← i.lo.add? (l.min h), ← i.hi.add? (l.max h)⟩

-- The least and the greatest of some values.
def spanning? : List Int64 → Option (Int64 × Int64)
  | [] => none
  | v :: vs => some (vs.foldl Min.min v, vs.foldl Max.max v)

-- The extremes of an operation over all pairs, if none of them overflows.
def corners? (op : Int64 → Int64 → Option Int64) (xs ys : List Int64) : Option (Int64 × Int64) := do
  let values ← (xs.flatMap fun x => ys.map fun y => (x, y)).mapM fun (x, y) => op x y
  spanning? values

-- Quotients are extreme where the divisor is at an end of its negative or of its positive part.
def divisors (lo hi : Int64) : List Int64 :=
  [lo, hi, -1, 1].filter fun v => v ≠ 0 && lo ≤ v && v ≤ hi

-- A remainder has the sign of the dividend, is not larger than it, and is smaller than the divisor.
def mod? (a0 a1 b0 b1 : Int64) : Option (Int64 × Int64) :=
  let widest := Max.max b0.toInt.natAbs b1.toInt.natAbs
  if widest = 0 then none
  else
    let m := Int64.ofNat (widest - 1)
    some (if 0 ≤ a0 then 0 else Max.max a0 (-m), if a1 ≤ 0 then 0 else Min.min a1 m)

def ends? (op : BinOp) (a0 a1 b0 b1 : Int64) : Option (Int64 × Int64) :=
  match op with
  | .add => do return (← Checked.add a0 b0, ← Checked.add a1 b1)
  | .sub => do return (← Checked.sub a0 b1, ← Checked.sub a1 b0)
  | .mul => corners? Checked.mul [a0, a1] [b0, b1]
  | .idiv => corners? Checked.div [a0, a1] (divisors b0 b1)
  | .mod => mod? a0 a1 b0 b1
  | _ => none

-- Arithmetic is on finite intervals only.
def bin? (op : BinOp) (a b : Interval) : Option Interval := do
  let (a0, a1) ← a.finite?
  let (b0, b1) ← b.finite?
  let (lo, hi) ← ends? op a0 a1 b0 b1
  return ofInts lo hi

end Interval
end Parvar
