import Parvar.Eval.Array
import Parvar.Eval.Binding

/-!
Calls of functions with bodies. Arguments are evaluated first, bound to the parameters for the time
of the body, and checked against the domains of these.
-/

namespace Parvar.Eval

variable (ev : Eval)

-- The values to be checked against a domain: an array's elements one by one.
def domainValues (ty : Ty) (value : ExprId) : EvalM (List ExprId) := do
  if 0 < ty.dim then return (← arrayElems ev value).1
  return [value]

-- All values are evaluated, also after one that is outside.
def allOf (values : List ExprId) (test : ExprId → EvalM Bool) : EvalM Bool :=
  values.foldlM (fun ok v => return (← test v) && ok) true

def insideInts (ty : Ty) (domain : ExprId) (values : List ExprId) : EvalM Bool := do
  let s ← ev.intSet domain
  allOf values fun v => do
    if ty.isSetTy then return (← ev.intSet v).subset s
    return s.contains (← ev.int v)

def insideFloats (lhs rhs : ExprId) (values : List ExprId) : EvalM Bool := do
  let lo ← ev.float lhs
  let hi ← ev.float rhs
  allOf values fun v => do
    let v ← ev.float v
    return lo ≤ v && v ≤ hi

def inside (ty : Ty) (domain : ExprId) (values : List ExprId) : EvalM Bool := do
  match ty.base, (← EvalM.model).kind domain with
  | .int, _ => insideInts ev ty domain values
  | .float, .bin .range lhs rhs _ => insideFloats ev lhs rhs values
  | _, _ => return true

-- A fixed and present value must lie in the domain of its parameter.
def checkParam (span : Span) (p : DeclId) : EvalM Unit := do
  let m ← EvalM.model
  let x := m.decl p
  match m.domain p, x.init with
  | some domain, some value =>
    if x.ty.isPar && !(m.kind domain).isTypeVar && !(m.kind value).isAbsent then
      let values ← domainValues ev x.ty value
      if !(← inside ev x.ty domain values) then EvalM.fail (.outOfDomain x.name) span
  | _, _ => return

-- The elements of an array may mention parameters, so they are evaluated while these are bound.
def detach (body : ExprId) : EvalM ExprId := do
  if 0 < ((← EvalM.model).ty body).dim then residualArray ev body else return body

def call {α : Type} (limit : Nat) (f : FuncId) (args : List ExprId) (span : Span)
    (run : ExprId → EvalM α) : EvalM α := do
  let x := (← EvalM.model).func f
  match x.body with
  | none => EvalM.fail (.noBuiltin x.name) span
  | some body =>
    if x.params.length ≠ args.length then
      EvalM.fail (.arity x.name x.params.length args.length) span
    if limit ≤ (← get).depth then EvalM.fail (.tooDeep limit x.name) span
    let values ← args.mapM ev.residual
    let saved ← (x.params.zip values).mapM fun (p, v) => bind p (some v)
    restoring saved <| deeper do
      x.params.forM (checkParam ev span)
      run (← detach ev body)

end Parvar.Eval
