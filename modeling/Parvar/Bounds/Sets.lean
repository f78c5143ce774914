import Parvar.Bounds.Basic

/-! Supersets of the values that set expressions can take. -/

namespace Parvar.Bounds.Sets

open EvalM

variable (ev : Eval) (bounds : Analysis)

def ofDomain (domain : ExprId) : EvalM (Option IntSet) := attempt? (ev.intSet domain)

-- The values that the elements of a set literal can take, up to the first without bounds.
def elems (es : List ExprId) : EvalM (Option IntSet) := OptionT.run do
  let ranges ← es.mapM fun e => do
    let i ← OptionT.mk (bounds .int e)
    let (lo, hi) ← OptionT.mk (return Interval.finite? i)
    return (⟨lo, hi⟩ : Range)
  return .ofRanges ranges

def range (l r : ExprId) : EvalM (Option IntSet) := do
  let a ← bounds .int l
  let b ← bounds .int r
  return do
    let (a, b) : Interval × Interval := (← a, ← b)
    return .range (← a.lo.finite?) (← b.hi.finite?)

-- The operands have bounds from above only, so an intersection is bounded as a union is.
def bin? (op : BinOp) (a b : IntSet) : Option IntSet :=
  match op with
  | .union | .inter => some (a.union b)
  | .diff => some a
  | _ => none

def call (name : String) (args : List ExprId) : EvalM (Option IntSet) := do
  match name, args with
  | "set_union", [a, b] | "set_intersect", [a, b] => both (bounds .intSet) a b (bin? .union)
  | "set_diff", [a, _] => bounds .intSet a
  | _, _ => return none

def node (kind : ExprKind) : EvalM (Option IntSet) := do
  match kind with
  | .setLit es => elems bounds es
  | .ident _ (some d) => ofDecl (bounds .intSet) (ofDomain ev) d
  | .access array indices => ofAccess ev (bounds .intSet) (ofDomain ev) array indices
  | .bin .range l r _ => range bounds l r
  | .bin op l r _ => both (bounds .intSet) l r (bin? op)
  | .call name args _ => call bounds name args
  | _ => return none

def rule (e : ExprId) : EvalM (Option IntSet) := do
  let x := (← model).expr e
  if !isBounded x.ty || !x.ty.isIntSet then return none
  else if x.ty.isPar then attempt? (ev.intSet e)
  else node ev bounds x.kind

end Parvar.Bounds.Sets
