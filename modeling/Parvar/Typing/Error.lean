import Parvar.Operator
import Parvar.Span
import Parvar.Ty.Text

/-! What can be wrong with a model before any of it is evaluated, and how it is said. -/

namespace Parvar

namespace TypeError

-- The first three concern names and end the checking of a model.
inductive Cause where
  | duplicate (name : String)
  | undefined (name : String)
  | circular (name : String)
  | secondSolve
  | secondOutput
  | secondAssignment
  | notAssignment
  | noValue (name : String)
  | assigned (name : String) (declared actual : Ty)
  | initialised (name : String) (declared actual : Ty)
  | constraintTy (actual : Ty)
  | objectiveTy (actual : Ty)
  | outputTy (actual : Ty)
  | bodyTy (declared actual : Ty)
  | annotationTy (actual : Ty)
  | typeVarInDecl (name : String)
  | typeVarInLet (name : String)
  | typeVarUnbound (name : String)
  | infiniteSet (name : String)
  | secondTypeVarIndex
  | indexDomain (actual : Ty)
  | domainNotParSet
  | domainArray
  | domainBase
  | varSetBase
  | undetermined (name : String)
  | arrayInSet
  | mixedSet
  | setElemNotInt
  | arrayInArray
  | mixedArray
  | onlyAnonymous
  | arrayElemNotIntSet
  | notArray
  | rankMismatch
  | indexTy (actual : Ty)
  | sourceTy (actual : Ty)
  | guardTy (actual : Ty)
  | setBodyTy (actual : Ty)
  | arrayBody
  | elseUnknown
  | thenUnknown
  | notCombinator
  | combinatorTy
  | conditionTy (actual : Ty)
  | branchTys (thenTy elseTy : Ty)
  | varConditionArray
  | noBinary (op : BinOp) (lhs rhs : Ty)
  | noUnary (op : UnOp) (arg : Ty)
  | noOverload (name : String) (args : List Ty)
  | letNoValue (name : String)
  | varSetAsArray
  | noCoercion (source target : Ty)
deriving DecidableEq, Repr, Inhabited

namespace Cause

-- The name that an error of resolution is about.
def ident? : Cause → Option String
  | duplicate n | undefined n | circular n => some n
  | _ => none

def isStructural (c : Cause) : Bool := c.ident?.isSome

def quote (s : String) : String := "`" ++ s ++ "'"

def message : Cause → String
  | duplicate n => "identifier " ++ quote n ++ " already defined"
  | undefined n => "undefined identifier " ++ quote n
  | circular n => "circular definition of " ++ quote n
  | secondSolve => "Only one solve item allowed"
  | secondOutput => "Only one output item allowed"
  | secondAssignment => "multiple assignment to the same variable"
  | notAssignment => "not an assignment item"
  | noValue n =>
    "symbol error: variable " ++ quote n
      ++ " must be defined (did you forget to specify a data file?)"
  | assigned n t u =>
    "assignment value for " ++ quote n ++ " has invalid type-inst: expected " ++ quote t.text
      ++ ", actual " ++ quote u.text
  | initialised n t u =>
    "initialisation value for " ++ quote n ++ " has invalid type-inst: expected " ++ quote t.text
      ++ ", actual " ++ quote u.text
  | constraintTy t =>
    "invalid type of constraint, expected " ++ quote Ty.varBool.text ++ ", actual " ++ quote t.text
  | objectiveTy t =>
    "objective has invalid type, expected int or float, actual " ++ quote t.text
  | outputTy t =>
    "invalid type in output item, expected " ++ quote (Ty.parString.withDim 1).text ++ ", actual "
      ++ quote t.text
  | bodyTy t u =>
    "return type of function does not match body, declared type is " ++ quote t.text
      ++ ", body type is " ++ quote u.text
  | annotationTy t => "expected annotation, got " ++ quote t.text
  | typeVarInDecl n => "type-inst variables not allowed in type-inst for " ++ quote n
  | typeVarInLet n => "type-inst variables not allowed in type-inst for let variable " ++ quote n
  | typeVarUnbound n => "type-inst variable $" ++ n ++ " used but not defined"
  | infiniteSet n => "set element type for " ++ quote n ++ " is not finite"
  | secondTypeVarIndex => "only one type-inst variable allowed in array index"
  | indexDomain t =>
    "invalid type in array index, expected " ++ quote "set of int" ++ ", actual " ++ quote t.text
  | domainNotParSet => "type-inst must be par set"
  | domainArray => "type-inst cannot be an array"
  | domainBase => "type-inst must be int or float"
  | varSetBase => "var set element types other than " ++ quote "int" ++ " not allowed"
  | undetermined n => "cannot determine type of " ++ quote n
  | arrayInSet => "set literals cannot contain arrays"
  | mixedSet => "non-uniform set literal"
  | setElemNotInt => "cannot coerce set literal element to var int"
  | arrayInArray => "arrays cannot be elements of arrays"
  | mixedArray => "non-uniform array literal"
  | onlyAnonymous => "array literal must contain at least one non-anonymous variable"
  | arrayElemNotIntSet => "cannot coerce array element to var set of int"
  | notArray => "not an array in array access"
  | rankMismatch => "array dimensions do not match"
  | indexTy t => "array index must be " ++ quote "int" ++ ", but is " ++ quote t.text
  | sourceTy t =>
    "generator expression must be (par or var) set of int or one-dimensional array, but is "
      ++ quote t.text
  | guardTy t => "where clause must be bool, but is " ++ quote t.text
  | setBodyTy t => "set comprehension expression must be scalar, but is " ++ quote t.text
  | arrayBody => "array comprehension expression cannot be an array"
  | elseUnknown => "cannot infer type of expression in else branch of conditional"
  | thenUnknown => "cannot infer type of expression in then branch of conditional"
  | notCombinator => "expected combinator condition"
  | combinatorTy => "combinator conditional must have type ann"
  | conditionTy t => "expected bool conditional expression, got " ++ quote t.text
  | branchTys t u =>
    "type mismatch in branches of conditional. Then-branch has type " ++ quote t.text
      ++ ", but else branch has type " ++ quote u.text
  | varConditionArray => "conditional with var condition cannot have array type"
  | noBinary op t u =>
    "type error in operator application for " ++ quote op.name
      ++ ". No matching operator found with left-hand side type " ++ quote t.text
      ++ " and right-hand side type " ++ quote u.text
  | noUnary op t =>
    "type error in operator application for " ++ quote op.name
      ++ ". No matching operator found with type " ++ quote t.text
  | noOverload n ts =>
    "no function or predicate with this signature found: "
      ++ quote (n ++ "(" ++ ",".intercalate (ts.map Ty.text) ++ ")")
  | letNoValue n => "let variable " ++ quote n ++ " must be initialised"
  | varSetAsArray => "cannot coerce var set into array"
  | noCoercion t u => "cannot determine coercion from type " ++ t.text ++ " to type " ++ u.text

end Cause
end TypeError

structure TypeError where
  cause : TypeError.Cause
  span : Span
deriving DecidableEq, Repr, Inhabited

namespace TypeError

def message (e : TypeError) : String := e.cause.message

def text (e : TypeError) : String := e.span.text ++ " " ++ e.message

end TypeError
end Parvar
