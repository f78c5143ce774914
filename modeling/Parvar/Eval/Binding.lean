import Parvar.Eval.Basic

/-! Binding declarations to values for a time, and putting back what they held before. -/

namespace Parvar.Eval

structure Saved where
  decl : DeclId
  init : Option ExprId
  flat : Option DeclId
  evaluated : Bool
deriving DecidableEq, Inhabited

-- A declaration with a new value, of which nothing has been computed yet.
def bind (d : DeclId) (value : Option ExprId) : EvalM Saved := do
  let x := (← EvalM.model).decl d
  EvalM.changeModel (·.modifyDecl d ({ · with init := value, flat := none, evaluated := false }))
  return ⟨d, x.init, x.flat, x.evaluated⟩

def Saved.restore (s : Saved) (m : Model) : Model :=
  m.modifyDecl s.decl ({ · with init := s.init, flat := s.flat, evaluated := s.evaluated })

-- The last binding is undone first.
def restoreAll (saved : List Saved) (s : Machine) : Machine :=
  { s with model := saved.foldr Saved.restore s.model }

-- Undoes bindings after a step, however it ends.
def restoring {α : Type} (saved : List Saved) (x : EvalM α) : EvalM α := fun s =>
  match x s with
  | .ok a s => .ok a (restoreAll saved s)
  | .error h s => .error h (restoreAll saved s)

-- A step inside one more call.
def deeper {α : Type} (x : EvalM α) : EvalM α := fun s =>
  match x { s with depth := s.depth + 1 } with
  | .ok a s => .ok a { s with depth := s.depth - 1 }
  | .error h s => .error h { s with depth := s.depth - 1 }

-- Let variables start from their first initializers.
def bindItem (l : Let) : LetItem × Nat → EvalM (Option Saved)
  | (.decl d, i) => do
    let now := ((← EvalM.model).decl d).init
    return some (← bind d ((l.origin[i]?.getD none) <|> now))
  | (.constraint _, _) => return none

def bindLet (l : Let) : EvalM (List Saved) := do
  return (← l.items.zipIdx.mapM (bindItem l)).filterMap id

def withLet {α : Type} (l : Let) (x : EvalM α) : EvalM α := do
  let saved ← bindLet l
  restoring saved x

end Parvar.Eval
