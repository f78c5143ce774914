import Parvar.Bounds.Basic

/-! Bounds of float expressions. -/

namespace Parvar.Bounds.Floats

open EvalM

variable (ev : Eval) (bounds : Analysis)

def ofDomain (domain : ExprId) : EvalM (Option FloatInterval) := do
  match (← model).kind domain with
  | .bin .range l r _ =>
    attempt? do return ⟨← ev.float l, ← ev.float r⟩
  | _ => return none

def linear (coefficients : Option ExprId) (unknowns : ExprId) (constant : Option ExprId) :
    EvalM (Option FloatInterval) := do
  match ← linear? ev .float (1 : Float) (0 : Float) coefficients unknowns constant with
  | some l =>
    let sum ← OptionT.run <| l.terms.foldlM (fun (i : FloatInterval) (a, x) => do
      let b ← OptionT.mk (bounds .float x)
      return i.addScaled a b) ⟨l.constant, l.constant⟩
    return sum.bind FloatInterval.proper?
  | none => return none

def call (name : String) (args : List ExprId) : EvalM (Option FloatInterval) := do
  match name, args with
  | "int2float", [x] =>
    let i ← bounds .int x
    return do
      let (lo, hi) ← Interval.finite? (← i)
      return ⟨lo.toFloat, hi.toFloat⟩
  | "bool2float", [_] => return some ⟨0, 1⟩
  | "abs", [x] => return (← bounds .float x).map FloatInterval.abs
  | "lin_exp", [as, xs, c] => linear ev bounds (some as) xs (some c)
  | "sum", [xs] => linear ev bounds none xs none
  | _, _ => return none

def node (kind : ExprKind) : EvalM (Option FloatInterval) := do
  match kind with
  | .ident _ (some d) => ofDecl (bounds .float) (ofDomain ev) d
  | .access array indices => ofAccess ev (bounds .float) (ofDomain ev) array indices
  | .bin op l r _ => both (bounds .float) l r (FloatInterval.bin? op)
  | .un op a _ =>
    let i ← bounds .float a
    return match op with
      | .minus => i.map FloatInterval.neg
      | .plus => i
      | .not => none
  | .call name args _ => call ev bounds name args
  | _ => return none

def rule (e : ExprId) : EvalM (Option FloatInterval) := do
  let x := (← model).expr e
  if !isBounded x.ty then return none
  else if x.ty.isPar then
    if !x.ty.isFloat && !x.ty.isInt then return none
    return (← attempt? (ev.float e)).map fun v => ⟨v, v⟩
  else match x.kind with
    | .ite bs otherwise =>
      branches ev (bounds .float) FloatInterval.hull otherwise (some .empty) bs
    | kind => if x.ty.isFloat then node ev bounds kind else return none

end Parvar.Bounds.Floats
