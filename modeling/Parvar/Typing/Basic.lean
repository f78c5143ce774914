import Parvar.Coercion
import Parvar.Halt

/-!
The state of type checking. An error either ends the checking of an item or is put on record, and
checking goes on.
-/

namespace Parvar

-- Declarations first take their types; only then are their values checked against these.
inductive Pass where
  | declare
  | check
deriving DecidableEq, Repr, Inhabited

structure Checking where
  model : Model
  errors : Array TypeError := #[]
deriving Inhabited

abbrev CheckM := EStateM (Halt TypeError) Checking

namespace CheckM

def fail {α : Type} (cause : TypeError.Cause) (span : Span) : CheckM α :=
  throw (.failed ⟨cause, span⟩)

def report (cause : TypeError.Cause) (span : Span) : CheckM Unit :=
  modify fun s => { s with errors := s.errors.push ⟨cause, span⟩ }

def model : CheckM Model := return (← get).model

def changeModel (f : Model → Model) : CheckM Unit :=
  modify fun s => { s with model := f s.model }

def ofExcept {α : Type} : Except TypeError α → CheckM α
  | .ok a => pure a
  | .error e => throw (.failed e)

def setTy (e : ExprId) (ty : Ty) : CheckM Unit := changeModel (·.setTy e ty)

def setKind (e : ExprId) (kind : ExprKind) : CheckM Unit := changeModel (·.setKind e kind)

-- Puts a coercion around an expression where it needs one.
def coerce (e : ExprId) (target : Ty) : CheckM ExprId := do
  let (e, m) ← ofExcept ((← model).coerce e target)
  modify fun s => { s with model := m }
  return e

-- An error that would end the checking is put on record instead.
def attempt (x : CheckM Unit) : CheckM Unit := fun s =>
  match x s with
  | .error (.failed e) s => .ok () { s with errors := s.errors.push e }
  | r => r

end CheckM

-- What the rules need to know of a part of an expression.
structure Operand where
  id : ExprId
  ty : Ty
  span : Span
  isAnon : Bool
deriving Inhabited

def Model.operand (m : Model) (e : ExprId) : Operand :=
  let x := m.expr e
  ⟨e, x.ty, x.span, x.kind.isAnon⟩

def CheckM.operand (e : ExprId) : CheckM Operand := return (← model).operand e

end Parvar
