import Parvar.Eval.Builtin

/-! Intervals of floats. -/

namespace Parvar

structure FloatInterval where
  lo : Float
  hi : Float
deriving Repr, Inhabited

namespace FloatInterval

open Eval (floatMin floatMax)

-- The hull of nothing.
def empty : FloatInterval := ⟨1 / 0, -1 / 0⟩

def hull (i j : FloatInterval) : FloatInterval := ⟨floatMin i.lo j.lo, floatMax i.hi j.hi⟩

def ofValues (vs : List Float) : FloatInterval := vs.foldl (fun i v => i.hull ⟨v, v⟩) empty

def neg (i : FloatInterval) : FloatInterval := ⟨-i.hi, -i.lo⟩

def abs (i : FloatInterval) : FloatInterval :=
  if 0 ≤ i.lo then i
  else if i.hi < 0 then i.neg
  else ⟨0, floatMax (-i.lo) i.hi⟩

-- Zero divides nothing, so a divisor that may be zero has no bounds for its quotients.
def bin? (op : BinOp) (a b : FloatInterval) : Option FloatInterval :=
  match op with
  | .add => some ⟨a.lo + b.lo, a.hi + b.hi⟩
  | .sub => some ⟨a.lo - b.hi, a.hi - b.lo⟩
  | .mul => some (ofValues [a.lo * b.lo, a.lo * b.hi, a.hi * b.lo, a.hi * b.hi])
  | .div =>
    if 0 < b.lo || b.hi < 0 then
      some (ofValues [a.lo / b.lo, a.lo / b.hi, a.hi / b.lo, a.hi / b.hi])
    else none
  | _ => none

-- The sum with `k` times an interval, where zero times an infinity is zero.
def addScaled (i : FloatInterval) (k : Float) (j : FloatInterval) : FloatInterval :=
  if k == 0 then i
  else
    let (l, h) := (k * j.lo, k * j.hi)
    ⟨i.lo + floatMin l h, i.hi + floatMax l h⟩

-- An end that is no number comes from opposite infinities.
def proper? (i : FloatInterval) : Option FloatInterval :=
  if i.lo.isNaN || i.hi.isNaN then none else some i

end FloatInterval
end Parvar
