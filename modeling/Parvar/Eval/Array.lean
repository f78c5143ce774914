import Parvar.Checked
import Parvar.Eval.Basic

/-! Arrays: literals, their elements, and access by indices. -/

namespace Parvar.Eval

abbrev Dims := List (Int64 × Int64)

-- The place of an index tuple in row-major order, counted on from `pos`. There is none if an index
-- is outside its range, or if there are not as many indices as ranges.
def position? : Dims → List Int64 → Int64 → Option Int64
  | [], [], pos => some pos
  | (lo, hi) :: dims, i :: indices, pos =>
    if i < lo || hi < i then none
    else do
      let row ← Checked.mul pos (hi - lo + 1)
      position? dims indices (← Checked.add row (i - lo))
  | _, _, _ => none

def element? (elems : List ExprId) (dims : Dims) (indices : List Int64) : Option ExprId := do
  let pos ← position? dims indices 0
  if pos < 0 then none else elems[pos.toInt.toNat]?

variable (ev : Eval)

def arrayLit (elems : List ExprId) (dims : Dims) (ty : Ty) (span : Span) : EvalM ExprId :=
  EvalM.build (Build.expr (.arrayLit elems dims) ty span)

def arrayElems (e : ExprId) : EvalM (List ExprId × Dims) := do
  let a ← ev.array e
  let m ← EvalM.model
  match m.kind a with
  | .arrayLit elems dims => return (elems, dims)
  | _ => EvalM.fail (.notOf .array) (m.spanOf e)

def access (array : ExprId) (indices : List ExprId) (span : Span) : EvalM ExprId := do
  let a ← ev.array array
  let indices ← indices.mapM ev.int
  match (← EvalM.model).kind a with
  | .arrayLit elems dims => match element? elems dims indices with
    | some e => return e
    | none => EvalM.fail .outOfBounds span
  | _ => EvalM.fail .outOfBounds span

-- An array literal with the residuals of the elements of an array.
def residualArray (e : ExprId) : EvalM ExprId := do
  let m ← EvalM.model
  let (ty, span) := (m.ty e, m.spanOf e)
  let (elems, dims) ← arrayElems ev e
  let elems ← elems.mapM ev.residual
  arrayLit elems dims ty span

end Parvar.Eval
