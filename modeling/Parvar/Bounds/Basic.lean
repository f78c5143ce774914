import Parvar.Bounds.FloatInterval
import Parvar.Bounds.Interval
import Parvar.Eval.Run

/-!
Bounds of expressions over decision variables. There are bounds for integers, floats and sets of
integers, and the three lean on each other. An analysis that has no rule for a part has no answer
for the whole, but goes on through the other parts: evaluating these may store values in the model.
-/

namespace Parvar.Bounds

open EvalM

inductive Kind where
  | int
  | float
  | intSet
deriving DecidableEq, Repr, Inhabited

def Kind.Answer : Kind → Type
  | int => Interval
  | float => FloatInterval
  | intSet => IntSet

-- How the parts of an expression are bounded, given to the rules for the whole.
abbrev Analysis := (k : Kind) → ExprId → EvalM (Option k.Answer)

section

variable (ev : Eval)

-- Annotations and arrays have no bounds.
def isBounded (ty : Ty) : Bool := !ty.isAnn && ty.dim ≤ 0

-- The declaration at the end of a chain of identifiers that hold one array, at most `steps` links
-- long.
def arraySource (m : Model) : Nat → DeclId → DeclId
  | 0, d => d
  | steps + 1, d =>
    match (m.decl d).init.bind m.declOf? with
    | some next => arraySource m steps (m.followFlat next)
    | none => d

def arrayDecl? (m : Model) (array : ExprId) : Option DeclId :=
  (m.declOf? array).map fun d => arraySource m m.decls.size (m.followFlat d)

-- The values of fixed expressions, up to the first that has none.
def valuesOf? (k : ValueKind) (es : List ExprId) : EvalM (Option (List k.Val)) :=
  attempt? (es.mapM (ev.value k))

-- The element of an array literal at fixed indices.
def fixedElement? (d : DeclId) (indices : List ExprId) : EvalM (Option ExprId) := do
  let m ← model
  if !indices.all fun i => (m.ty i).isPar then return none
  match (m.decl d).init.map m.kind with
  | some (.arrayLit elems dims) =>
    match ← valuesOf? ev .int indices with
    | some indices => return Eval.element? elems dims indices
    | none => return none
  | _ => return none

def elemsOf? (array : ExprId) : EvalM (Option (List ExprId)) := do
  return (← attempt? (Eval.arrayElems ev array)).map (·.1)

-- What a linear expression consists of: coefficients, variables, and what is added.
structure Linear (α : Type) where
  terms : List (α × ExprId)
  constant : α

-- Without coefficients, each variable counts once.
def coefficientsOf (k : ValueKind) (one : k.Val) (xs : List ExprId) :
    Option ExprId → OptionT EvalM (List k.Val)
  | some array => do OptionT.mk (valuesOf? ev k (← OptionT.mk (elemsOf? ev array)))
  | none => return xs.map fun _ => one

def constantOf (k : ValueKind) (zero : k.Val) : Option ExprId → OptionT EvalM k.Val
  | some e => OptionT.mk (attempt? (ev.value k e))
  | none => return zero

-- The parts of a linear expression. There are none for optional variables, nor where the
-- coefficients are not as many as the variables.
def linear? (k : ValueKind) (one zero : k.Val) (coefficients : Option ExprId) (unknowns : ExprId)
    (constant : Option ExprId) : EvalM (Option (Linear k.Val)) := OptionT.run do
  guard !((← model).ty unknowns).isOpt
  let xs ← OptionT.mk (elemsOf? ev unknowns)
  let as ← coefficientsOf ev k one xs coefficients
  let c ← constantOf ev k zero constant
  guard (as.length = xs.length)
  return ⟨as.zip xs, c⟩

end

section

variable {α : Type} (ev : Eval) (bound : ExprId → EvalM (Option α)) (hull : α → α → α)

-- Bounds of the branches that can be taken: a fixed condition decides for or against its branch.
-- `acc` holds the bounds of the branches before, and none once one of them has no bounds.
def branches (otherwise : ExprId) (acc : Option α) : List (ExprId × ExprId) → EvalM (Option α)
  | [] => do return (← bound otherwise).bind fun b => acc.map (hull · b)
  | (cond, branch) :: rest => do
    let ty := (← model).ty cond
    let join := do return (← bound branch).bind fun b => acc.map (hull · b)
    if ty.isPar && !ty.cv then
      match ← attempt? (ev.bool cond) with
      | some true => join
      | some false => branches otherwise acc rest
      | none => return none
    else branches otherwise (← join) rest

-- Bounds of a variable are those of its domain, or else of its initializer.
def ofDecl (ofDomain : ExprId → EvalM (Option α)) (d : DeclId) : EvalM (Option α) := do
  let m ← model
  let d := m.followFlat d
  match m.domain d, (m.decl d).init with
  | some domain, _ => ofDomain domain
  | none, some init => bound init
  | none, none => return none

-- Bounds of an array access are those of the element, if it is known, or else of the domain.
def ofAccess (ofDomain : ExprId → EvalM (Option α)) (array : ExprId) (indices : List ExprId) :
    EvalM (Option α) := do
  match arrayDecl? (← model) array with
  | none => return none
  | some d =>
    match ← fixedElement? ev d indices with
    | some e => bound e
    | none => match (← model).domain d with
      | some domain => ofDomain domain
      | none => return none

-- Both operands are bounded, also if the first has no bounds.
def both (l r : ExprId) (f : α → α → Option α) : EvalM (Option α) := do
  let a ← bound l
  let b ← bound r
  return do f (← a) (← b)

end
end Parvar.Bounds
