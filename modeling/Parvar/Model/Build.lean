import Parvar.Model.Basic

/-!
Building a model node by node. Literals have their types from the start; all else is untyped until
it has been checked.
-/

namespace Parvar

-- A step that builds part of a model and names what it built.
abbrev Build := StateM Model

namespace Build

def expr (kind : ExprKind) (ty : Ty := .unknown) (span : Span := {}) : Build ExprId :=
  fun m => m.addExpr { kind, ty, span }

def int (v : Int64) : Build ExprId := expr (.int v) .parInt

def float (v : Float) : Build ExprId := expr (.float v) .parFloat

def bool (v : Bool) : Build ExprId := expr (.bool v) .parBool

def string (v : String) : Build ExprId := expr (.string v) .parString

def intSet (s : IntSet) : Build ExprId := expr (.intSet s) .parSetInt

def absent : Build ExprId := expr .absent (Ty.bot.withOpt true)

def anon : Build ExprId := expr .anon

def ident (name : String) : Build ExprId := expr (.ident name none)

-- An identifier already bound to its declaration.
def identOf (d : DeclId) : Build ExprId := fun m =>
  m.addExpr { kind := .ident (m.decl d).name (some d), ty := (m.decl d).ty }

def typeVar (name : String) : Build ExprId := expr (.typeVar name) .top

def setLit (elems : List ExprId) : Build ExprId := expr (.setLit elems)

def arrayWith (elems : List ExprId) (dims : List (Int64 × Int64)) : Build ExprId :=
  expr (.arrayLit elems dims)

-- The index range of an array of one dimension that counts from 1.
def countedFromOne (elems : List ExprId) : List (Int64 × Int64) :=
  [(1, Int64.ofNat elems.length)]

def array (elems : List ExprId) : Build ExprId := arrayWith elems (countedFromOne elems)

def access (array : ExprId) (indices : List ExprId) : Build ExprId := expr (.access array indices)

def ite (branches : List (ExprId × ExprId)) (otherwise : ExprId) : Build ExprId :=
  expr (.ite branches otherwise)

def bin (lhs : ExprId) (op : BinOp) (rhs : ExprId) : Build ExprId := expr (.bin op lhs rhs none)

def un (op : UnOp) (arg : ExprId) : Build ExprId := expr (.un op arg none)

def call (name : String) (args : List ExprId) : Build ExprId := expr (.call name args none)

def letIn (items : List LetItem) (body : ExprId) : Build ExprId :=
  expr (.letIn ⟨items, body, items.map fun _ => none⟩)

def comp (c : Comprehension) : Build ExprId := expr (.comp c)

def annotate (e ann : ExprId) : Build Unit :=
  modify (·.modifyExpr e fun x => { x with ann := x.ann ++ [ann] })

def typeInst (ty : Ty) (domain : Option ExprId := none) (ranges : List TypeInstId := []) :
    Build TypeInstId :=
  fun m => m.addTypeInst { ty, ranges, domain }

-- The base of the type is that of the domain.
def domainTypeInst (inst : Inst) (domain : ExprId) : Build TypeInstId :=
  typeInst (Ty.unknown.withInst inst) domain

-- `int` as the index of an array.
def indexInt : Build TypeInstId := typeInst .parInt

-- `$_` as the index of an array: its rank is any.
def indexAny : Build TypeInstId := do
  typeInst .top (← typeVar "_")

def decl (name : String) (ti : TypeInstId) (init : Option ExprId := none) : Build DeclId :=
  fun m => m.addDecl { name, ti, init }

def generator (names : List String) (source : ExprId) : Build Generator := do
  let decls ← names.mapM fun name => do decl name (← typeInst .parInt)
  return ⟨decls, source⟩

def item (i : Item) : Build ItemPath := fun m => m.addItem i

def toplevel (name : String) (ti : TypeInstId) (init : Option ExprId := none) : Build DeclId := do
  let d ← decl name ti init
  modify (·.modifyDecl d ({ · with toplevel := true }))
  let _ ← item (.decl d)
  return d

-- Parameters are given by name and type.
def func (name : String) (params : List (String × TypeInstId)) (ret : TypeInstId)
    (body : Option ExprId := none) : Build FuncId := do
  let params ← params.mapM fun (p, ti) => decl p ti
  fun m => m.addFunc { name, params, ret, body }

def toplevelFunc (name : String) (params : List (String × TypeInstId)) (ret : TypeInstId)
    (body : Option ExprId := none) : Build FuncId := do
  let f ← func name params ret body
  let _ ← item (.func f)
  return f

-- Declarations of a submodel are toplevel ones.
def submodel (name : String) (items : List Item) : Build Nat := do
  items.forM fun
    | .decl d => modify (·.modifyDecl d ({ · with toplevel := true }))
    | _ => pure ()
  let index := (← get).submodels.size
  modify fun m =>
    { m with submodels := m.submodels.push ⟨name, (items.map fun item => { item }).toArray⟩ }
  let _ ← item (.submodel index)
  return index

end Build
end Parvar
