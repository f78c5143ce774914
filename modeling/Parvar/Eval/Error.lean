import Parvar.Span

/-! What can go wrong when an expression is evaluated, and the trail that leads there. -/

namespace Parvar

-- The kinds of values that expressions are evaluated to. Sets of truth values are sets of 0 and 1,
-- and an array is given by an array literal whose elements need not be evaluated.
inductive ValueKind where
  | int
  | bool
  | float
  | string
  | intSet
  | boolSet
  | array
deriving DecidableEq, Repr, Inhabited

def ValueKind.described : ValueKind → String
  | int => "an integer"
  | bool => "a bool"
  | float => "a float"
  | string => "a string"
  | intSet => "a set of int"
  | boolSet => "a set of bool"
  | array => "an array"

namespace EvalError

inductive Cause where
  | undeclared (name : String)
  | noValue (name : String)
  | arity (name : String) (params args : Nat)
  | emptyArray (name : String)
  | lengths (coefficients unknowns : Nat)
  | notFixed
  | notOf (kind : ValueKind)
  | divisionByZero
  | overflow
  | outOfBounds
  | outOfDomain (name : String)
  | tooDeep (limit : Nat) (name : String)
  | noBuiltin (name : String)
deriving DecidableEq, Repr, Inhabited

def Cause.message : Cause → String
  | undeclared n => "undeclared identifier `" ++ n ++ "'"
  | noValue n => "cannot evaluate expression `" ++ n ++ "'"
  | arity n params args =>
    "`" ++ n ++ "' expects " ++ toString params ++ " arguments, got " ++ toString args
  | emptyArray n => "`" ++ n ++ "' of an empty array"
  | lengths cs xs =>
    "`lin_exp' with " ++ toString cs ++ " coefficients for " ++ toString xs ++ " variables"
  | notFixed => "cannot show a value that is not fixed"
  | notOf k => "not " ++ k.described ++ " expression"
  | divisionByZero => "division by zero"
  | overflow => "integer overflow"
  | outOfBounds => "array access out of bounds"
  | outOfDomain n => "value for argument `" ++ n ++ "' out of bounds"
  | tooDeep limit n => "call depth limit of " ++ toString limit ++ " exceeded in `" ++ n ++ "'"
  | noBuiltin n => "internal error: missing builtin `" ++ n ++ "'"

-- What was being evaluated when an error came up inside it.
inductive Context where
  | ident (name : String)
  | letIn
  | call (name : String)
  | operator (name : String)
deriving DecidableEq, Repr, Inhabited

def Context.text : Context → String
  | ident n => "evaluating `" ++ n ++ "'"
  | letIn => "let expression"
  | call n => "call to `" ++ n ++ "'"
  | operator n => "operator `" ++ n ++ "'"

structure Frame where
  span : Span
  context : Context
deriving DecidableEq, Repr, Inhabited

def Frame.text (f : Frame) : String := f.span.text ++ " " ++ f.context.text

end EvalError

-- The trace leads from the inside out.
structure EvalError where
  cause : EvalError.Cause
  span : Span
  trace : Array EvalError.Frame := #[]
deriving DecidableEq, Repr, Inhabited

namespace EvalError

def message (e : EvalError) : String := e.cause.message

def text (e : EvalError) : String := e.span.text ++ " " ++ e.message

def within (e : EvalError) (f : Frame) : EvalError := { e with trace := e.trace.push f }

-- The error and, on a line each, the frames of its trace.
def report (e : EvalError) : String :=
  e.trace.foldl (fun s f => s ++ "\n  in " ++ f.text) e.text

end EvalError
end Parvar
