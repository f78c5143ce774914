import Parvar.Overload

/-!
Turning an expression into one of a wider type, by a call to a builtin around it. This is how sets
become arrays and how numbers widen.
-/

namespace Parvar.Model

section

variable (m : Model)

-- A call of a builtin with one argument, chosen and typed.
def wrap (name : String) (arg : ExprId) : Except TypeError (ExprId × Model) := do
  let x := m.expr arg
  match m.matchOverload? name [x.ty] with
  | none => throw ⟨.noOverload name [x.ty], x.span⟩
  | some f =>
    let ty ← m.returnTy f [x.ty] x.span
    return m.addExpr
      { kind := .call name [arg] (some f), ty := ty.withCv x.ty.cv, span := x.span }

-- The builtin that widens numbers of one base into those of another.
def widening? : Base → Base → Option String
  | .bool, .int => some "bool2int"
  | .bool, .float => some "bool2float"
  | .int, .float => some "int2float"
  | _, _ => none

-- The base needs no change; what has no elements fits every base.
def baseAgrees (source target : Ty) : Bool :=
  target.base = .top || source.base = target.base || source.base = .bot

-- A fixed set stands for the array of its elements.
def asArray (e : ExprId) (target : Ty) : Except TypeError (ExprId × Model) :=
  let x := m.expr e
  if x.ty.dim = 0 && target.dim ≠ 0 then
    if x.ty.isVar then throw ⟨.varSetAsArray, x.span⟩ else m.wrap "set2array" e
  else pure (e, m)

def widen (e : ExprId) (target : Ty) (span : Span) : Except TypeError (ExprId × Model) :=
  let ty := m.ty e
  if baseAgrees ty target then pure (e, m)
  else match widening? ty.base target.base with
    | some name => m.wrap name e
    | none => throw ⟨.noCoercion ty target, span⟩

-- An expression to put in the place of `e` where a value of type `target` is expected.
def coerce (e : ExprId) (target : Ty) : Except TypeError (ExprId × Model) :=
  let x := m.expr e
  if x.ty.dim = target.dim && (target.base = .bot || baseAgrees x.ty target) then pure (e, m)
  else do
    let (e, m) ← m.asArray e target
    m.widen e target x.span

end
end Parvar.Model
