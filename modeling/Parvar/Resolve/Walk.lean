import Parvar.Resolve.Basic

/-!
Binding every identifier below a node to its declaration. A declaration is resolved where it is
first needed: its type and its initializer come before it in the order, its annotations need not.
-/

namespace Parvar.Resolve

abbrev Visit := Site → ResolveM Unit

section

variable (visit : Visit)

def exprs (es : List ExprId) : ResolveM Unit := es.forM fun e => visit (.expr e)

-- A declaration that is still being resolved cannot be referred to.
def refer (d : DeclId) (name : String) (span : Span) : ResolveM Unit := do
  let r ← get
  if r.order.contains d then pure ()
  else if d ∈ r.active then ResolveM.fail (.circular name) span
  else visit (.decl d)

def ident (e : ExprId) (name : String) (span : Span) : ResolveM Unit := do
  let d ← ResolveM.lookup name span
  refer visit d name span
  ResolveM.changeModel (·.setKind e (.ident name (some d)))

-- The names of a generator are in scope after its source.
def comp (c : Comprehension) : ResolveM Unit := do
  c.generators.forM fun g => do
    visit (.expr g.source)
    g.decls.forM ResolveM.push
  exprs visit c.guard.toList
  visit (.expr c.body)
  c.generators.forM fun g => g.decls.forM ResolveM.pop

def letItem : LetItem → ResolveM Unit
  | .decl d => do
    visit (.decl d)
    ResolveM.push d
  | .constraint e => visit (.expr e)

def leaveItem : LetItem → ResolveM Unit
  | .decl d => ResolveM.pop d
  | .constraint _ => pure ()

-- Declarations first, in the order of their resolution, then the constraints as they stand.
def sortLetItems (r : Resolution) (items : List LetItem) : List LetItem :=
  let key : LetItem → Nat × Nat
    | .decl d => (0, r.rank d)
    | .constraint _ => (1, 0)
  items.mergeSort fun a b => (key a).1 < (key b).1 || ((key a).1 = (key b).1 && (key a).2 ≤ (key b).2)

def origin (m : Model) : LetItem → Option ExprId
  | .decl d => (m.decl d).init
  | .constraint _ => none

def letIn (e : ExprId) (l : Let) : ResolveM Unit := do
  l.items.forM (letItem visit)
  visit (.expr l.body)
  let r ← get
  let items := sortLetItems r l.items
  let resolved := ⟨items, l.body, items.map (origin r.model)⟩
  items.forM leaveItem
  ResolveM.changeModel (·.setKind e (.letIn resolved))

def node (e : ExprId) (span : Span) : ExprKind → ResolveM Unit
  | .int _ | .float _ | .bool _ | .string _ | .intSet _ | .absent | .anon | .typeVar _ => pure ()
  | .setLit elems | .arrayLit elems _ => exprs visit elems
  | .ident name _ => ident visit e name span
  | .access array indices => exprs visit (array :: indices)
  | .comp c => comp visit c
  | .ite branches otherwise => do
    branches.forM fun (cond, then') => exprs visit [cond, then']
    visit (.expr otherwise)
  | .bin _ lhs rhs _ => exprs visit [lhs, rhs]
  | .un _ arg _ => visit (.expr arg)
  | .call _ args _ => exprs visit args
  | .letIn l => letIn visit e l

def expr (e : ExprId) : ResolveM Unit := do
  let x := (← get).model.expr e
  node visit e x.span x.kind
  exprs visit x.ann

def typeInst (t : TypeInstId) : ResolveM Unit := do
  let x := (← get).model.typeInst t
  x.ranges.forM fun t => visit (.typeInst t)
  exprs visit x.domain.toList

def decl (d : DeclId) : ResolveM Unit := do
  let r ← get
  if d ∈ r.active || r.order.contains d then return
  let x := r.model.decl d
  modify (·.enter d)
  visit (.typeInst x.ti)
  exprs visit x.init.toList
  modify (·.leave d)
  exprs visit x.ann

def site : Site → ResolveM Unit
  | .expr e => expr visit e
  | .decl d => decl visit d
  | .typeInst t => typeInst visit t

end

-- Resolution of nodes that are at most `fuel` links deep.
def walk : Nat → Visit
  | 0, _ => throw .outOfFuel
  | fuel + 1, s => site (walk fuel) s

end Parvar.Resolve

namespace Parvar

-- Binds the identifiers of a node, and puts the declarations that it needs into the order.
def resolve (s : Site) : ResolveM Unit := fun r => Resolve.walk r.model.walkFuel s r

end Parvar
