import Parvar.Halt
import Parvar.Model.Basic
import Parvar.Typing.Error

/-!
The state of name resolution: the names in scope, the declarations that are being resolved, and
those that are done, each after all that it depends on.
-/

namespace Parvar

structure Resolution where
  model : Model
  -- Inner names come first and hide outer ones.
  scope : List (String × DeclId) := []
  active : List DeclId := []
  order : Array DeclId := #[]
deriving Inhabited

abbrev ResolveM := EStateM (Halt TypeError) Resolution

namespace Resolution

section

variable (r : Resolution)

def lookup? (name : String) : Option DeclId := r.scope.lookup name

def push (d : DeclId) : Resolution :=
  { r with scope := ((r.model.decl d).name, d) :: r.scope }

-- The innermost declaration of the name goes, whichever it is.
def pop (d : DeclId) : Resolution :=
  let name := (r.model.decl d).name
  { r with scope := r.scope.eraseP (·.1 = name) }

def position? (d : DeclId) : Option Nat := r.order.idxOf? d

-- What has no position comes after all that have one.
def rank (d : DeclId) : Nat := (r.position? d).getD r.order.size

def enter (d : DeclId) : Resolution := { r with active := d :: r.active }

def leave (d : DeclId) : Resolution :=
  { r with active := r.active.erase d, order := r.order.push d }

end
end Resolution

namespace ResolveM

def fail {α : Type} (cause : TypeError.Cause) (span : Span) : ResolveM α :=
  throw (.failed ⟨cause, span⟩)

-- The innermost declaration of a name.
def lookup (name : String) (span : Span) : ResolveM DeclId := do
  match (← get).lookup? name with
  | some d => return d
  | none => fail (.undefined name) span

def push (d : DeclId) : ResolveM Unit := modify (·.push d)

def pop (d : DeclId) : ResolveM Unit := modify (·.pop d)

-- Brings a declaration into scope whose name must not be there yet.
def pushNew (d : DeclId) : ResolveM Unit := do
  let decl := (← get).model.decl d
  if ((← get).lookup? decl.name).isSome then fail (.duplicate decl.name) decl.span
  push d

def changeModel (f : Model → Model) : ResolveM Unit :=
  modify fun r => { r with model := f r.model }

end ResolveM
end Parvar
