import Parvar.Eval.Value

/-!
The residual of an expression: a literal where all of it is fixed, and otherwise the expression
around the residuals of its parts.
-/

namespace Parvar.Eval

open EvalM

variable (ev : Eval)

-- The kind of the literal that a present and fixed value of a type can be written as.
def literalKind? (ty : Ty) : Option ValueKind :=
  if !ty.isPar || !ty.isPresent then none
  else if 0 < ty.dim then some .array
  else if ty.isIntSet then some .intSet
  else if ty.isBoolSet then some .boolSet
  else if ty.isInt then some .int
  else if ty.isBool then some .bool
  else if ty.isFloat then some .float
  else if ty.isString then some .string
  else none

-- The only value in the domain of a declaration: an integer, or a literal at both ends of a range.
def only? (m : Model) (d : DeclId) : Option (Int64 ⊕ ExprId) :=
  if (m.decl d).ty.dim ≠ 0 then none
  else match (m.domain d).map m.kind with
    | some (.intSet s) => if s.card = 1 then s.min?.map .inl else none
    | some (.bin .range l r _) =>
      match m.kind l, m.kind r with
      | .int a, .int b => if a = b then some (.inr l) else none
      | .float a, .float b => if a == b then some (.inr l) else none
      | _, _ => none
    | _ => none

def onlyValue? (d : DeclId) : EvalM (Option ExprId) := do
  match only? (← model) d with
  | some (.inl v) => return some (← build (Build.int v))
  | some (.inr l) => return some l
  | none => return none

def stored (k : ValueKind) (e : ExprId) : EvalM ExprId := do
  let v ← ev.value k e
  build (k.store v)

def rebuild (x : Expr) (kind : ExprKind) : EvalM ExprId := build (Build.expr kind x.ty x.span)

variable (limit : Nat)

-- Branches up to the first condition that is not fixed are decided at once. The result is a branch
-- that was decided on, or else what remains of the conditional.
def residualBranches (kept : List (ExprId × ExprId)) :
    List (ExprId × ExprId) → EvalM (ExprId ⊕ List (ExprId × ExprId))
  | [] => return .inr kept
  | (cond, branch) :: rest => do
    if kept.isEmpty && ((← model).ty cond).isPar then
      if ← ev.bool cond then return .inl branch
      residualBranches kept rest
    else
      let c ← ev.residual cond
      let b ← ev.residual branch
      residualBranches (kept ++ [(c, b)]) rest

-- What is not fixed as a whole.
def residualNode (e : ExprId) (x : Expr) : EvalM ExprId := do
  match x.kind with
  | .ite branches otherwise =>
    match ← residualBranches ev [] branches with
    | .inl taken => ev.residual taken
    | .inr kept =>
      let o ← ev.residual otherwise
      if kept.isEmpty then return o else rebuild x (.ite kept o)
  | .call name args fn =>
    match (← model).withBody? fn with
    | some f => within x.span (.call name) (call ev limit f args x.span ev.residual)
    | none => rebuild x (.call name (← args.mapM ev.residual) fn)
  | .bin op l r fn =>
    match (← model).withBody? fn with
    | some f => call ev limit f [l, r] x.span ev.residual
    | none => rebuild x (.bin op (← ev.residual l) (← ev.residual r) fn)
  | .un op a fn =>
    match (← model).withBody? fn with
    | some f => call ev limit f [a] x.span ev.residual
    | none => rebuild x (.un op (← ev.residual a) fn)
  | .access array indices =>
    let m ← model
    if indices.all fun i => (m.ty i).isPar then
      ev.residual (← access ev array indices x.span)
    else
      let array ← ev.residual array
      rebuild x (.access array (← indices.mapM ev.residual))
  | .setLit elems => rebuild x (.setLit (← elems.mapM ev.residual))
  | .letIn l => withLet l (ev.residual l.body)
  | _ => return e

-- A fixed value, an array of residuals, or else what its parts make it.
def residualByType (e : ExprId) (x : Expr) : EvalM ExprId := do
  let isArray := match x.kind with
    | .arrayLit _ _ | .comp _ => true
    | _ => false
  if 0 < x.ty.dim && (x.ty.isPar || isArray) then residualArray ev e
  else match literalKind? x.ty with
    | some k => stored ev k e
    | none => residualNode ev limit e x

def residualStep (e : ExprId) : EvalM ExprId := do
  let x := (← model).expr e
  match x.kind with
  | .anon | .typeVar _ | .absent | .string _ => return e
  | .ident name decl => do
    let d ← declared name x.span decl
    match ← onlyValue? d, ((← model).decl d).init with
    | some v, _ => return v
    | none, none => return e
    | none, some init =>
      if (literalKind? x.ty).isSome then residualByType ev limit e x
      else within x.span (.ident name) (ev.residual init)
  | .comp c =>
    if !c.isSet then residualByType ev limit e x
    else if x.ty.base = .bool then stored ev .boolSet e
    else stored ev .intSet e
  | _ => residualByType ev limit e x

end Parvar.Eval
