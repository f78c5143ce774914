import Parvar.Eval.Array
import Parvar.Eval.Operator
import Parvar.Eval.Show

/-! Functions without bodies, by name and number of arguments. -/

namespace Parvar.Eval

open EvalM

-- Where one operand is no number, the other one is the answer.
def floatMin (a b : Float) : Float := if a.isNaN then b else if b < a then b else a

def floatMax (a b : Float) : Float := if a.isNaN then b else if a < b then b else a

-- The result of combining all values from the left; there is none without values.
def reduce? {α : Type} (f : α → α → α) : List α → Option α
  | [] => none
  | a :: as => some (as.foldl f a)

-- `c + a₁ x₁ + a₂ x₂ + …`, unless some step of it overflows.
def intLinear (c : Int64) (terms : List (Int64 × Int64)) : Option Int64 :=
  terms.foldlM (fun sum (a, x) => do Checked.add sum (← Checked.mul a x)) c

def floatLinear (c : Float) (terms : List (Float × Float)) : Float :=
  terms.foldl (fun sum (a, x) => sum + a * x) c

variable (ev : Eval)

def intValues (array : ExprId) : EvalM (List Int64) := do
  (← arrayElems ev array).1.mapM ev.int

def floatValues (array : ExprId) : EvalM (List Float) := do
  (← arrayElems ev array).1.mapM ev.float

def checkLengths (coefficients unknowns : Nat) (span : Span) : EvalM Unit :=
  if coefficients = unknowns then pure () else fail (.lengths coefficients unknowns) span

def nonempty {α : Type} (name : String) (span : Span) : Option α → EvalM α
  | some a => pure a
  | none => fail (.emptyArray name) span

def card (set : ExprId) : EvalM Nat := do
  if ((← model).ty set).base = .bool then return (← ev.boolSet set).card
  return (← ev.intSet set).card

def intBuiltin (name : String) (args : List ExprId) (span : Span) : EvalM Int64 := do
  match name, args with
  | "bool2int", [b] => return (← ev.bool b).toInt64
  | "abs", [x] => ofCause span (overflowing (Checked.abs (← ev.int x)))
  | "min", [a, b] => return min (← ev.int a) (← ev.int b)
  | "max", [a, b] => return max (← ev.int a) (← ev.int b)
  | "min", [array] => nonempty name span (reduce? min (← intValues ev array))
  | "max", [array] => nonempty name span (reduce? max (← intValues ev array))
  | "sum", [array] =>
    ofCause span (overflowing ((← intValues ev array).foldlM Checked.add 0))
  | "product", [array] =>
    ofCause span (overflowing ((← intValues ev array).foldlM Checked.mul 1))
  | "lin_exp", [coefficients, unknowns, c] =>
    let as ← intValues ev coefficients
    let xs ← intValues ev unknowns
    checkLengths as.length xs.length span
    ofCause span (overflowing (intLinear (← ev.int c) (as.zip xs)))
  | "int_times", [a, b] => ofCause span (intOp .mul (← ev.int a) (← ev.int b))
  | "card", [set] => ofCause span (overflowing (Checked.ofInt? (← card ev set)))
  | "length", [array] =>
    ofCause span (overflowing (Checked.ofInt? (← arrayElems ev array).1.length))
  | _, _ => fail (.noBuiltin name) span

-- An empty sum is negative zero, which changes no number it is added to.
def floatBuiltin (name : String) (args : List ExprId) (span : Span) : EvalM Float := do
  match name, args with
  | "int2float", [x] => return (← ev.int x).toFloat
  | "bool2float", [b] => return if ← ev.bool b then 1 else 0
  | "abs", [x] => return (← ev.float x).abs
  | "min", [a, b] => return floatMin (← ev.float a) (← ev.float b)
  | "max", [a, b] => return floatMax (← ev.float a) (← ev.float b)
  | "min", [array] => nonempty name span (reduce? floatMin (← floatValues ev array))
  | "max", [array] => nonempty name span (reduce? floatMax (← floatValues ev array))
  | "sum", [array] => return (← floatValues ev array).foldl (· + ·) (-0.0)
  | "product", [array] => return (← floatValues ev array).foldl (· * ·) 1
  | "lin_exp", [coefficients, unknowns, c] =>
    let as ← floatValues ev coefficients
    let xs ← floatValues ev unknowns
    checkLengths as.length xs.length span
    return floatLinear (← ev.float c) (as.zip xs)
  | _, _ => fail (.noBuiltin name) span

-- Whether all members are `b`. Nothing after the first other one is evaluated.
def allAre (b : Bool) : List ExprId → EvalM Bool
  | [] => return true
  | e :: es => do if (← ev.bool e) = b then allAre b es else return false

def boolBuiltin (name : String) (args : List ExprId) (span : Span) : EvalM Bool := do
  match name, args with
  | "forall", [array] => allAre ev true (← arrayElems ev array).1
  | "exists", [array] => return !(← allAre ev false (← arrayElems ev array).1)
  | _, _ => fail (.noBuiltin name) span

def stringBuiltin (name : String) (args : List ExprId) (span : Span) : EvalM String := do
  match name, args with
  | "show", [x] =>
    let v ← ev.residual x
    match text? (← model) v with
    | some s => return s
    | none => fail .notFixed span
  | "concat", [array] =>
    return String.join (← (← arrayElems ev array).1.mapM ev.string)
  | _, _ => fail (.noBuiltin name) span

def intSetBuiltin (name : String) (args : List ExprId) (span : Span) : EvalM IntSet := do
  match name, args with
  | "set_union", [a, b] => return (← ev.intSet a).union (← ev.intSet b)
  | "set_intersect", [a, b] => return (← ev.intSet a).inter (← ev.intSet b)
  | "set_diff", [a, b] => return (← ev.intSet a).diff (← ev.intSet b)
  | _, _ => fail (.noBuiltin name) span

def arrayBuiltin (name : String) (args : List ExprId) (span : Span) : EvalM ExprId := do
  match name, args with
  | "set2array", [set] =>
    let elems ← (← ev.intSet set).values.mapM fun v => build (Build.int v)
    arrayLit elems (Build.countedFromOne elems) (Ty.parInt.withDim 1) span
  | _, _ => fail (.noBuiltin name) span

def builtin : (k : ValueKind) → String → List ExprId → Span → EvalM k.Val
  | .int => intBuiltin ev
  | .bool => boolBuiltin ev
  | .float => floatBuiltin ev
  | .string => stringBuiltin ev
  | .intSet => intSetBuiltin ev
  | .boolSet => fun name _ span => fail (.noBuiltin name) span
  | .array => arrayBuiltin ev

end Parvar.Eval
