import Parvar.Bounds.Basic

/-! Bounds of integer expressions. -/

namespace Parvar.Bounds.Integers

open EvalM

variable (ev : Eval) (bounds : Analysis)

def ofDomain (domain : ExprId) : EvalM (Option Interval) := do
  let s ← attempt? (ev.intSet domain)
  return do
    let s ← s
    return .ofInts (← s.min?) (← s.max?)

def linear (coefficients : Option ExprId) (unknowns : ExprId) (constant : Option ExprId) :
    EvalM (Option Interval) := do
  match ← linear? ev .int (1 : Int64) (0 : Int64) coefficients unknowns constant with
  | some l =>
    OptionT.run <| l.terms.foldlM (fun (i : Interval) (a, x) => do
      let b ← OptionT.mk (bounds .int x)
      OptionT.mk (return i.addScaled? a b)) (Interval.ofInts l.constant l.constant)
  | none => return none

def call (name : String) (args : List ExprId) : EvalM (Option Interval) := do
  match name, args with
  | "lin_exp", [as, xs, c] => linear ev bounds (some as) xs (some c)
  | "sum", [xs] => linear ev bounds none xs none
  | "card", [set] =>
    let s ← bounds .intSet set
    return s.map fun (s : IntSet) => ⟨.finite 0, (Checked.ofInt? s.card).elim .posInf .finite⟩
  | "int_times", [a, b] => both (bounds .int) a b (Interval.bin? .mul)
  | "bool2int", [_] => return some (.ofInts 0 1)
  | "abs", [x] => return (← bounds .int x).map Interval.abs
  | "min", [a, b] => both (bounds .int) a b fun i j => some (i.min j)
  | "max", [a, b] => both (bounds .int) a b fun i j => some (i.max j)
  | _, _ => return none

-- An index without bounds leaves the access without bounds too.
def access (array : ExprId) (indices : List ExprId) : EvalM (Option Interval) := do
  let is ← indices.mapM (bounds .int)
  let r ← ofAccess ev (bounds .int) (ofDomain ev) array indices
  return if is.all Option.isSome then r else none

def node (kind : ExprKind) : EvalM (Option Interval) := do
  match kind with
  | .ident _ (some d) => ofDecl (bounds .int) (ofDomain ev) d
  | .access array indices => access ev bounds array indices
  | .bin op l r _ => both (bounds .int) l r (Interval.bin? op)
  | .un op a _ =>
    let i ← bounds .int a
    return match op with
      | .minus => i.map Interval.neg
      | .plus => i
      | .not => none
  | .call name args _ => call ev bounds name args
  | _ => return none

def rule (e : ExprId) : EvalM (Option Interval) := do
  let x := (← model).expr e
  if !isBounded x.ty then return none
  else if x.ty.isPar then
    if !x.ty.isInt then return none
    return (← attempt? (ev.int e)).map fun (v : Int64) => .ofInts v v
  else match x.kind with
    | .ite bs otherwise => branches ev (bounds .int) Interval.hull otherwise (some .empty) bs
    | kind => if x.ty.isInt then node ev bounds kind else return none

end Parvar.Bounds.Integers
