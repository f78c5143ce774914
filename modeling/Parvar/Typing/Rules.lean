import Parvar.Ty.Code
import Parvar.Typing.Basic

/-!
The types of literals, comprehensions and conditionals as functions of the types of their parts.
-/

namespace Parvar.Rules

def raise {α : Type} (cause : TypeError.Cause) (span : Span) : Except TypeError α :=
  throw ⟨cause, span⟩

-- A part that contains a variable makes the whole contain one.
def markedBy (t part : Ty) : Ty := if part.cv then t.withCv true else t

section SetLiteral

-- One more element of a set: bases widen to a common one.
def setElem (whole : Span) (t : Ty) (x : Operand) : Except TypeError Ty := do
  if 0 < x.ty.dim then raise .arrayInSet x.span
  let t := markedBy (if x.ty.isVar then t.withInst .var else t) x.ty
  if x.ty.base.sub t.base then return t
  if t.base = .unknown || t.base.sub x.ty.base then return t.withBase x.ty.base
  raise .mixedSet whole

-- The base is unknown if no element has one.
def setElems (whole : Span) (xs : List Operand) : Except TypeError Ty :=
  xs.foldlM (setElem whole) (Ty.unknown.withSet true)

-- Free sets are sets of integers.
def setLit (whole : Span) (t : Ty) : Except TypeError Ty :=
  if t.isVar && t.base ≠ .int then
    if t.base = .bool then pure (t.withBase .int) else raise .setElemNotInt whole
  else pure t

end SetLiteral

section ArrayLiteral

-- One more element of an array: bases do not widen, and `bot` agrees with all. The flag says that
-- some element has set whether the elements are sets.
def arrayElem (whole : Span) : Ty × Bool → Operand → Except TypeError (Ty × Bool)
  | (t, inferred), x => do
    if 0 < x.ty.dim then raise .arrayInArray x.span
    let t := markedBy (if x.isAnon || x.ty.isVar then t.withInst .var else t) x.ty
    let t := if x.ty.isOpt then t.withOpt true else t
    if x.isAnon then return (t, inferred)
    if t.base = .unknown then
      if inferred && t.isSet ≠ x.ty.isSet then raise .mixedArray whole
      let t := t.withSet x.ty.isSet
      return (if x.ty.base = .bot then t else t.withBase x.ty.base, true)
    if (x.ty.base ≠ .bot && x.ty.base ≠ t.base) || x.ty.isSet ≠ t.isSet then
      raise .mixedArray whole
    return (t, inferred)

def arrayElems (whole : Span) (rank : Nat) (xs : List Operand) : Except TypeError Ty := do
  let (t, _) ← xs.foldlM (arrayElem whole) (Ty.unknown.withDim rank, false)
  return t

-- Arrays of free sets are arrays of sets of integers.
def arrayLit (whole : Span) (t : Ty) : Except TypeError Ty :=
  if t.isVar && t.isSet && t.base ≠ .int then
    if t.base = .bool then pure (t.withBase .int) else raise .arrayElemNotIntSet whole
  else pure t

end ArrayLiteral

section Comprehensions

-- What a name of a generator stands for.
def generated (source : Operand) : Except TypeError Ty :=
  if !source.ty.same .varSetInt && !source.ty.same .parSetInt && source.ty.dim ≠ 1 then
    raise (.sourceTy source.ty) source.span
  else if source.ty.dim = 0 then pure .parInt
  else pure source.ty.elem

-- Whether an element is there at all is then for the solver to decide.
def uncertain (t : Ty) : Ty := (t.withOpt true).withInst .var

def comp (isSet : Bool) (body : Operand) (sources : List Ty) (guard : Option Operand) :
    Except TypeError Ty := do
  let t := sources.foldl
    (fun t s => markedBy (if s.same .varSetInt then uncertain t else t) s) body.ty
  let t ← match guard with
    | none => pure t
    | some g =>
      if g.ty.same .varBool then pure (markedBy (uncertain t) g.ty)
      else if g.ty.same .parBool then pure (markedBy t g.ty)
      else raise (.guardTy g.ty) g.span
  if isSet then
    if body.ty.dim ≠ 0 || body.ty.isSet then raise (.setBodyTy body.ty) body.span
    return t.withSet true
  else
    if body.ty.dim ≠ 0 then raise .arrayBody body.span
    return t.withDim 1

end Comprehensions

section Conditionals

-- What is known of a conditional after some of its branches.
structure Conditional where
  ty : Ty
  allPar : Bool
  allPresent : Bool
  varCondition : Bool := false
  allAnn : Bool := true
  anons : List ExprId := []
deriving Inhabited

def otherwise (x : Operand) : Except TypeError Conditional := do
  if x.ty.isUnknown && !x.isAnon then raise .elseUnknown x.span
  return {
    ty := x.ty
    allPar := !x.ty.isVar && !x.ty.isUnknown
    allPresent := !x.ty.isOpt
    anons := if x.ty.isUnknown then [x.id] else [] }

-- Combinators come before all other conditions, in conditionals of annotations only.
def condition (c : Conditional) (x : Operand) : Except TypeError Conditional := do
  let marked := { c with
    ty := markedBy c.ty x.ty
    varCondition := c.varCondition || x.ty.same .varBool }
  if x.ty.same .ann then
    if !c.allAnn then raise .notCombinator x.span
    if !c.ty.same .ann then raise .combinatorTy x.span
    return marked
  if !x.ty.same .parBool && !x.ty.same .varBool then raise (.conditionTy x.ty) x.span
  return { marked with allAnn := false }

-- One of the two bases must widen into the other.
def branch (c : Conditional) (x : Operand) : Except TypeError Conditional := do
  if x.ty.isUnknown then
    if !x.isAnon then raise .thenUnknown x.span
    return { c with allPar := false, anons := c.anons ++ [x.id] }
  let t := if c.ty.isBot || c.ty.isUnknown then c.ty.withBase x.ty.base else c.ty
  let widens := x.ty.base.sub t.base || t.base.sub x.ty.base
  if (!x.ty.isBot && !widens) || x.ty.isSet ≠ t.isSet || x.ty.dim ≠ t.dim then
    raise (.branchTys x.ty t) x.span
  let t := if t.base.sub x.ty.base then t.withBase x.ty.base else t
  return { c with
    ty := markedBy t x.ty
    allPar := c.allPar && !x.ty.isVar
    allPresent := c.allPresent && !x.ty.isOpt }

def conditional (branches : List (Operand × Operand)) (last : Operand) :
    Except TypeError Conditional := do
  branches.foldlM (fun c (cond, value) => do branch (← condition c cond) value) (← otherwise last)

-- The type of the whole: free if it is not known which branch is taken or some branch is free.
def Conditional.result (c : Conditional) : Ty :=
  let t := if c.varCondition || !c.allPar then c.ty.withInst .var else c.ty
  if c.allPresent then t else t.withOpt true

end Conditionals

section TypeInsts

-- The rank of an array by its indices, of which one may be a type variable.
def rank (t : Ty) (indices : List (Ty × Span)) : Except TypeError Ty := do
  if indices.isEmpty then return t
  let (t, generic) ← indices.foldlM (fun (t, generic) (index, span) => do
    let t := markedBy t index
    if index.same .top then
      if generic then raise .secondTypeVarIndex span
      return (t, true)
    if !index.same .parInt then raise (.indexDomain index) span
    return (t, generic)) (t, false)
  return t.withDim (if generic then -1 else indices.length)

-- A domain is a fixed set, unless it is a type variable.
def domain (t : Ty) (x : Operand) (isTypeVar : Bool) : Except TypeError Ty := do
  if !isTypeVar then
    if !x.ty.isPar || !x.ty.isSet then raise .domainNotParSet x.span
    if x.ty.dim ≠ 0 then raise .domainArray x.span
  return markedBy t x.ty

-- A base that was left open is that of the domain, whose empty set then is one of integers.
def domainBase (x : Operand) : Except TypeError Base :=
  match x.ty.base with
  | .int | .bot => pure .int
  | .float => pure .float
  | _ => raise .domainBase x.span

def elemBase (t : Ty) (span : Span) : Except TypeError Unit := do
  if t.isSet && t.isVar && t.base ≠ .int && t.base ≠ .top then raise .varSetBase span

end TypeInsts
end Parvar.Rules
