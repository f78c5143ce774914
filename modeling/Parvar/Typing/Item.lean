import Parvar.Typing.Walk

/-! The checks on the items of a model. -/

namespace Parvar.Typing

open CheckM

variable (pass : Pass)

def annotationList (es : List ExprId) : CheckM Unit := annotations (assignTypes pass) es

-- A declaration takes the type it is written with.
def declare (d : DeclId) : CheckM Unit := do
  let ti := ((← model).decl d).ti
  assignTypes pass (.typeInst ti)
  let t := ((← model).typeInst ti).ty
  changeModel (·.setDeclTy d t)

def declareFunc (f : FuncId) : CheckM Unit := do
  let x := (← model).func f
  assignTypes pass (.typeInst x.ret)
  x.params.forM fun p => assignTypes pass (.decl p)

def declItem (d : DeclId) : CheckM Unit := do
  assignTypes pass (.decl d)
  let m ← model
  let x := m.decl d
  if hasTypeVar m x.ti then report (.typeVarInDecl x.name) x.span
  finiteSet d

def constraint (e : ExprId) : CheckM Unit := do
  assignTypes pass (.expr e)
  let x ← operand e
  if !x.ty.sub .varBool then fail (.constraintTy x.ty) x.span

def solve (goal : Goal) (ann : List ExprId) : CheckM Unit := do
  annotationList pass ann
  goal.objective?.toList.forM fun e => do
    assignTypes pass (.expr e)
    let x ← operand e
    if !x.ty.sub .varInt && !x.ty.sub .varFloat then fail (.objectiveTy x.ty) x.span

def output (e : ExprId) : CheckM Unit := do
  assignTypes pass (.expr e)
  let x ← operand e
  if !x.ty.same (Ty.parString.withDim 1) && !x.ty.same (Ty.bot.withDim 1) then
    fail (.outputTy x.ty) x.span

-- The body of a function is widened to the type it is declared to return.
def func (f : FuncId) : CheckM Unit := do
  let x := (← model).func f
  annotationList pass x.ann
  assignTypes pass (.typeInst x.ret)
  x.body.toList.forM fun e => do
    assignTypes pass (.expr e)
    let declared := ((← model).typeInst x.ret).ty
    let body ← operand e
    if !body.ty.sub declared then fail (.bodyTy declared body.ty) body.span
    let e ← coerce e declared
    changeModel (·.modifyFunc f ({ · with body := some e }))

def item : Item → CheckM Unit
  | .submodel _ | .assign _ => pure ()
  | .decl d => declItem pass d
  | .constraint e => constraint pass e
  | .solve goal ann => solve pass goal ann
  | .output e => output pass e
  | .func f => func pass f

end Parvar.Typing
