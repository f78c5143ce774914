import Parvar.Model.Node

/-! Models: the nodes, the items, and the overloads of each function name. -/

namespace Parvar

-- Submodels share the nodes of the model they belong to. Items stay in place for as long as one of
-- the `pauses` lasts.
structure Model where
  items : Array Slot := #[]
  submodels : Array Submodel := #[]
  exprs : Array Expr := #[]
  decls : Array Decl := #[]
  typeInsts : Array TypeInst := #[]
  funcs : Array Func := #[]
  overloads : List (String × List FuncId) := []
  pauses : Nat := 0
deriving Inhabited

namespace Model

section Look

variable (m : Model)

def expr (e : ExprId) : Expr := m.exprs[e.index]?.getD default

def decl (d : DeclId) : Decl := m.decls[d.index]?.getD default

def typeInst (t : TypeInstId) : TypeInst := m.typeInsts[t.index]?.getD default

def func (f : FuncId) : Func := m.funcs[f.index]?.getD default

def kind (e : ExprId) : ExprKind := (m.expr e).kind

def ty (e : ExprId) : Ty := (m.expr e).ty

def spanOf (e : ExprId) : Span := (m.expr e).span

-- The domain of a declaration's type.
def domain (d : DeclId) : Option ExprId := (m.typeInst (m.decl d).ti).domain

-- The declaration that an identifier is bound to.
def declOf? (e : ExprId) : Option DeclId :=
  match m.kind e with
  | .ident _ d => d
  | _ => none

-- A function that has a body.
def withBody? (fn : Option FuncId) : Option FuncId := fn.filter fun f => (m.func f).body.isSome

-- The number of nodes.
def size : Nat := m.exprs.size + m.decls.size + m.typeInsts.size + m.funcs.size

-- Enough for a walk that enters each declaration once and goes in no circle between two of them.
def walkFuel : Nat := (m.size + 2) * (m.size + 2)

end Look

section Change

variable (m : Model)

def modifyExpr (e : ExprId) (f : Expr → Expr) : Model :=
  { m with exprs := m.exprs.modify e.index f }

def modifyDecl (d : DeclId) (f : Decl → Decl) : Model :=
  { m with decls := m.decls.modify d.index f }

def modifyTypeInst (t : TypeInstId) (f : TypeInst → TypeInst) : Model :=
  { m with typeInsts := m.typeInsts.modify t.index f }

def modifyFunc (f : FuncId) (g : Func → Func) : Model :=
  { m with funcs := m.funcs.modify f.index g }

def setKind (e : ExprId) (kind : ExprKind) : Model := m.modifyExpr e ({ · with kind := kind })

def setTy (e : ExprId) (ty : Ty) : Model := m.modifyExpr e ({ · with ty := ty })

def setInit (d : DeclId) (init : Option ExprId) : Model := m.modifyDecl d ({ · with init := init })

def setDeclTy (d : DeclId) (ty : Ty) : Model := m.modifyDecl d ({ · with ty := ty })

def setTypeInstTy (t : TypeInstId) (ty : Ty) : Model :=
  m.modifyTypeInst t ({ · with ty := ty })

end Change

section Add

variable (m : Model)

def addExpr (e : Expr) : ExprId × Model :=
  (⟨m.exprs.size⟩, { m with exprs := m.exprs.push e })

def addDecl (d : Decl) : DeclId × Model :=
  (⟨m.decls.size⟩, { m with decls := m.decls.push d })

def addTypeInst (t : TypeInst) : TypeInstId × Model :=
  (⟨m.typeInsts.size⟩, { m with typeInsts := m.typeInsts.push t })

def addFunc (f : Func) : FuncId × Model :=
  (⟨m.funcs.size⟩, { m with funcs := m.funcs.push f })

-- The items of the root or of a submodel; there are none where there is no such submodel.
def itemsOf : Option Nat → Array Slot
  | none => m.items
  | some i => (m.submodels[i]?.map (·.items)).getD #[]

def slot? (p : ItemPath) : Option Slot := (m.itemsOf p.submodel)[p.index]?

def modifySlot (p : ItemPath) (f : Slot → Slot) : Model :=
  match p.submodel with
  | none => { m with items := m.items.modify p.index f }
  | some i =>
    { m with submodels := m.submodels.modify i fun s =>
        { s with items := s.items.modify p.index f } }

def addItem (item : Item) : ItemPath × Model :=
  (⟨none, m.items.size⟩, { m with items := m.items.push { item } })

end Add
end Model
end Parvar
