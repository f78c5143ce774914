import Parvar.Eval.Error
import Parvar.Halt
import Parvar.Model.Build
import Parvar.Model.Equal

/-!
The setting of evaluation. Values are bound to names by giving them to the declarations of these
names as initializers, so the model changes while it is evaluated.
-/

namespace Parvar

def ValueKind.Val : ValueKind → Type
  | int => Int64
  | bool => Bool
  | float => Float
  | string => String
  | intSet | boolSet => IntSet
  | array => ExprId

-- A residual is an expression whose fixed parts have been evaluated.
inductive Target where
  | value (kind : ValueKind)
  | residual
deriving DecidableEq, Repr, Inhabited

def Target.Out : Target → Type
  | value k => k.Val
  | residual => ExprId

-- `depth` counts the calls of functions with bodies that are under way.
structure Machine where
  model : Model
  depth : Nat := 0
deriving Inhabited

abbrev EvalM := EStateM (Halt EvalError) Machine

namespace EvalM

def fail {α : Type} (cause : EvalError.Cause) (span : Span) : EvalM α :=
  throw (.failed { cause, span })

def ofCause {α : Type} (span : Span) : Except EvalError.Cause α → EvalM α
  | .ok a => pure a
  | .error c => fail c span

def model : EvalM Model := return (← get).model

def changeModel (f : Model → Model) : EvalM Unit := modify fun s => { s with model := f s.model }

def build {α : Type} (x : Build α) : EvalM α := modifyGet fun ⟨m, depth⟩ =>
  let (a, m) := x m
  (a, ⟨m, depth⟩)

-- An error that passes through leaves a frame in its trace.
def within {α : Type} (span : Span) (context : EvalError.Context) (x : EvalM α) : EvalM α :=
  fun s =>
    match x s with
    | .ok a s => .ok a s
    | .error h s => .error (h.map (·.within ⟨span, context⟩)) s

-- No value in place of an error.
def attempt? {α : Type} (x : EvalM α) : EvalM (Option α) := fun s =>
  match x s with
  | .ok a s => .ok (some a) s
  | .error (.failed _) s => .ok none s
  | .error .outOfFuel s => .error .outOfFuel s

end EvalM

-- How the parts of an expression are evaluated, given to the rules for the whole.
abbrev Eval := (t : Target) → ExprId → EvalM t.Out

namespace Eval

variable (ev : Eval)

def value (k : ValueKind) (e : ExprId) : EvalM k.Val := ev (.value k) e

def int (e : ExprId) : EvalM Int64 := ev (.value .int) e

def bool (e : ExprId) : EvalM Bool := ev (.value .bool) e

def float (e : ExprId) : EvalM Float := ev (.value .float) e

def string (e : ExprId) : EvalM String := ev (.value .string) e

def intSet (e : ExprId) : EvalM IntSet := ev (.value .intSet) e

def boolSet (e : ExprId) : EvalM IntSet := ev (.value .boolSet) e

def array (e : ExprId) : EvalM ExprId := ev (.value .array) e

def residual (e : ExprId) : EvalM ExprId := ev .residual e

end Eval

namespace ValueKind

-- The value of a literal of this kind.
def literal? : (k : ValueKind) → ExprId → ExprKind → Option k.Val
  | .int, _, .int v => some v
  | .bool, _, .bool v => some v
  | .float, _, .float v => some v
  | .string, _, .string v => some v
  | .intSet, _, .intSet s => some s
  | .boolSet, _, .intSet s => some s
  | .array, e, .arrayLit _ _ => some e
  | _, _, _ => none

-- A literal with the given value.
def store : (k : ValueKind) → k.Val → Build ExprId
  | .int, v => Build.int v
  | .bool, v => Build.bool v
  | .float, v => Build.float v
  | .string, v => Build.string v
  | .intSet, s => Build.intSet s
  | .boolSet, s => Build.expr (.intSet s) .parSetBool
  | .array, e => pure e

end ValueKind
end Parvar
