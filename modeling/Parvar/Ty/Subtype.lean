import Parvar.Ty.Basic

/-! Where a value of one type may stand for a value of another. -/

namespace Parvar

-- Numbers widen from `bool` to `int` to `float`.
def Base.sub : Base → Base → Bool
  | bool, int | bool, float | int, float => true
  | b, c => b = c

namespace Ty

section Rules

variable (t u : Ty)

-- What may be absent needs a place that allows for it.
def optFits : Bool := !t.isOpt || u.isOpt

-- A fixed set may stand for an array of its elements.
def setAsArray : Bool :=
  t.dim = 0 && u.dim ≠ 0 && t.isSet && !u.isSet
    && (t.base = .bot || t.base.sub u.base || u.base = .top) && t.isPar && optFits t u

-- Only an array fits an array of any rank.
def dimFits : Bool := t.dim = u.dim || (t.dim ≠ 0 && u.dim = -1)

def instFits : Bool := t.isPar || t.inst = u.inst

-- The rules for two types of fitting dimension, the first that applies decides.
def elemSub : Bool :=
  if instFits t u && t.base.sub u.base && t.isSet = u.isSet then optFits t u
  else if t.isPar && u.base = .bot then true
  else if instFits t u && t.base = .bot && (t.isSet = u.isSet || !t.isSet) then optFits t u
  else u.base = .top && optFits t u && (!u.isSet || t.isSet = u.isSet) && (t.isPar || u.isVar)

def sub : Bool := setAsArray t u || (dimFits t u && elemSub t u)

end Rules
end Ty
end Parvar
