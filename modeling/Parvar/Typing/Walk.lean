import Parvar.Typing.Rules

/-!
Typing every node below a given one, the parts before the whole. Where a part has to be widened it
is replaced by a coercion of it.
-/

namespace Parvar.Typing

open CheckM

abbrev Visit := Site → CheckM Unit

section Parts

variable (visit : Visit)

def exprs (es : List ExprId) : CheckM Unit := es.forM fun e => visit (.expr e)

def annotations (es : List ExprId) : CheckM Unit :=
  es.forM fun e => do
    visit (.expr e)
    let x ← operand e
    if !x.ty.isAnn then fail (.annotationTy x.ty) x.span

end Parts

section Literals

def setLit (e : ExprId) (elems : List ExprId) : CheckM Unit := do
  let m ← model
  let whole := m.spanOf e
  let t ← ofExcept (Rules.setElems whole (elems.map m.operand))
  if t.isUnknown then
    setTy e (t.withBase .bot)
  else
    let t ← ofExcept (Rules.setLit whole t)
    setKind e (.setLit (← elems.mapM (coerce · t)))
    setTy e t

def arrayLit (e : ExprId) (elems : List ExprId) (dims : List (Int64 × Int64)) : CheckM Unit := do
  let m ← model
  let whole := m.spanOf e
  let xs := elems.map m.operand
  let anons := xs.filter (·.isAnon)
  let t ← ofExcept (Rules.arrayElems whole dims.length xs)
  if t.isUnknown then
    if !anons.isEmpty then fail .onlyAnonymous whole
    setTy e (t.withBase .bot)
  else
    let t ← ofExcept (Rules.arrayLit whole t)
    anons.forM fun x => setTy x.id t.elem
    setKind e (.arrayLit (← elems.mapM (coerce · t.elem)) dims)
    setTy e t

end Literals

section Access

-- An index, widened to an integer, and the type of the access so far.
def index (t : Ty) (e : ExprId) : CheckM (ExprId × Ty) := do
  if (← operand e).isAnon then setTy e .varInt
  let x ← operand e
  if x.ty.isSetTy || (x.ty.base ≠ .int && x.ty.base ≠ .bool) || x.ty.dim ≠ 0 then
    fail (.indexTy x.ty) x.span
  let e ← coerce e .varInt
  let t := if x.ty.isOpt then t.withOpt true else t
  let t := if x.ty.isVar then t.withInst .var else t
  return (e, Rules.markedBy t x.ty)

-- What is accessed; a set as an array of its elements.
def accessed (e : ExprId) : CheckM ExprId := do
  let x ← operand e
  if x.ty.dim = 0 then
    if !x.ty.isSet then fail .notArray x.span
    coerce e ((x.ty.withSet false).withDim 1)
  else pure e

def access (e array : ExprId) (indices : List ExprId) : CheckM Unit := do
  let array ← accessed array
  let x ← operand array
  if x.ty.dim ≠ indices.length then fail .rankMismatch x.span
  let (indices, t) ← indices.foldlM (fun (done, t) i => do
    let (i, t) ← index t i
    return (done ++ [i], t)) ([], x.ty.elem)
  setKind e (.access array indices)
  setTy e t

end Access

section Comprehensions

variable (visit : Visit)

-- The names of a generator take the type of what it runs through.
def generator (g : Generator) : CheckM Unit := do
  visit (.expr g.source)
  let t ← ofExcept (Rules.generated (← operand g.source))
  g.decls.forM fun d => do
    changeModel (·.setDeclTy d t)
    let ti := ((← model).decl d).ti
    changeModel (·.setTypeInstTy ti t)

def comp (e : ExprId) (c : Comprehension) : CheckM Unit := do
  c.generators.forM (generator visit)
  exprs visit c.guard.toList
  visit (.expr c.body)
  let m ← model
  setTy e (← ofExcept (Rules.comp c.isSet (m.operand c.body)
    (c.generators.map fun g => m.ty g.source) (c.guard.map m.operand)))

end Comprehensions

section Conditionals

def ite (e : ExprId) (branches : List (ExprId × ExprId)) (otherwise : ExprId) : CheckM Unit := do
  let m ← model
  let c ← ofExcept (Rules.conditional
    (branches.map fun (cond, value) => (m.operand cond, m.operand value)) (m.operand otherwise))
  c.anons.forM fun a => setTy a (c.ty.withInst .var)
  let branches ← branches.mapM fun (cond, value) => return (cond, ← coerce value c.ty)
  let otherwise ← coerce otherwise c.ty
  setKind e (.ite branches otherwise)
  if c.varCondition && 0 < c.ty.dim then fail .varConditionArray ((← model).spanOf e)
  setTy e c.result

end Conditionals

section Calls

-- The arguments as the overload takes them, and the type of the call.
def applied (e : ExprId) (f : FuncId) (args : List ExprId) (tys : List Ty) :
    CheckM (List ExprId × Ty) := do
  let targets := (← model).argTys f tys
  let args ← (args.zip targets).mapM fun (a, t) => coerce a t
  let m ← model
  let tys := args.map m.ty
  let t ← ofExcept (m.returnTy f tys (m.spanOf e))
  return (args, t.withCv (tys.any (·.cv)))

-- Operators that are builtins are known by their symbols.
def bin (e : ExprId) (op : BinOp) (lhs rhs : ExprId) : CheckM Unit := do
  let m ← model
  match m.matchOverload? op.name [m.ty lhs, m.ty rhs] with
  | none => fail (.noBinary op (m.ty lhs) (m.ty rhs)) (m.spanOf e)
  | some f =>
    let (args, t) ← applied e f [lhs, rhs] [m.ty lhs, m.ty rhs]
    match args with
    | [lhs, rhs] => setKind e (.bin op lhs rhs ((← model).withBody? (some f)))
    | _ => pure ()
    setTy e t

def un (e : ExprId) (op : UnOp) (arg : ExprId) : CheckM Unit := do
  let m ← model
  match m.matchOverload? op.name [m.ty arg] with
  | none => fail (.noUnary op (m.ty arg)) (m.spanOf e)
  | some f =>
    let (args, t) ← applied e f [arg] [m.ty arg]
    match args with
    | [arg] => setKind e (.un op arg ((← model).withBody? (some f)))
    | _ => pure ()
    setTy e t

def call (e : ExprId) (name : String) (args : List ExprId) : CheckM Unit := do
  let m ← model
  let tys := args.map m.ty
  match m.matchOverload? name tys with
  | none => fail (.noOverload name tys) (m.spanOf e)
  | some f =>
    let (args, t) ← applied e f args tys
    setKind e (.call name args (some f))
    setTy e t

end Calls

section Declarations

-- `depth` bounds how far array indices nest.
def mentionsTypeVar (m : Model) : Nat → TypeInstId → Bool
  | 0, _ => false
  | depth + 1, t =>
    let x := m.typeInst t
    x.domain.any (fun e => (m.kind e).isTypeVar) || x.ranges.any (mentionsTypeVar m depth)

def hasTypeVar (m : Model) (t : TypeInstId) : Bool := mentionsTypeVar m m.typeInsts.size t

-- A free set with neither a value nor a domain could have any elements.
def finiteSet (d : DeclId) : CheckM Unit := do
  let m ← model
  let x := m.decl d
  if x.init.isNone && x.ty.isSetTy && x.ty.isVar && (m.domain d).isNone then
    report (.infiniteSet x.name) x.span

variable (pass : Pass) (visit : Visit)

-- A value is checked against the type it was declared with.
def initial (d : DeclId) (declared : Ty) (e : ExprId) : CheckM Unit := do
  let x ← operand e
  if x.ty.sub declared then
    let e ← coerce e declared
    changeModel (·.setInit d (some e))
  else
    report (.initialised ((← model).decl d).name declared x.ty) x.span

def decl (d : DeclId) : CheckM Unit := do
  let x := (← model).decl d
  visit (.typeInst x.ti)
  exprs visit x.init.toList
  annotations visit x.ann
  let m ← model
  let declared := (m.typeInst x.ti).ty
  match pass with
  | .declare => changeModel (·.setDeclTy d declared)
  | .check =>
    if (m.decl d).ty.isUnknown then changeModel (·.setDeclTy d declared)
    x.init.toList.forM (initial d declared)

-- The type with what its domain says about it, and with the base of its domain if it has none.
def typeIn (ty : Ty) (span : Span) : Option ExprId → CheckM Ty
  | none => do
    if ty.isUnknown then fail .domainBase span
    return ty
  | some e => do
    let m ← model
    let ty ← ofExcept (Rules.domain ty (m.operand e) (m.kind e).isTypeVar)
    if ty.isUnknown then
      let base ← ofExcept (Rules.domainBase (m.operand e))
      setTy e ((m.ty e).withBase base)
      return ty.withBase base
    else return ty

def typeInst (t : TypeInstId) : CheckM Unit := do
  let x := (← model).typeInst t
  x.ranges.forM fun r => visit (.typeInst r)
  exprs visit x.domain.toList
  let m ← model
  let ty ← ofExcept (Rules.rank x.ty
    (x.ranges.map fun r => ((m.typeInst r).ty, (m.typeInst r).span)))
  let ty ← typeIn ty x.span x.domain
  ofExcept (Rules.elemBase ty x.span)
  changeModel (·.setTypeInstTy t ty)

end Declarations

section Lets

variable (visit : Visit)

def letItem : LetItem → CheckM Unit
  | .decl d => visit (.decl d)
  | .constraint e => visit (.expr e)

-- The checks on a let item, and its initializer as it now stands; a constraint keeps what is noted
-- for it.
def letOrigin (item : LetItem) (old : Option ExprId) : CheckM (Option ExprId) := do
  match item with
  | .decl d =>
    let x := (← model).decl d
    finiteSet d
    if x.ty.isPar && x.init.isNone then fail (.letNoValue x.name) x.span
    if hasTypeVar (← model) x.ti then report (.typeVarInLet x.name) x.span
    return x.init
  | .constraint _ => return old

def letItemCv (m : Model) : LetItem → Bool
  | .decl d => (m.decl d).ty.cv
  | .constraint e => (m.ty e).cv

def letIn (e : ExprId) (l : Let) : CheckM Unit := do
  l.items.forM (letItem visit)
  visit (.expr l.body)
  let origin ← l.items.zipIdx.mapM fun (item, i) => letOrigin item (l.origin[i]?.getD none)
  setKind e (.letIn { l with origin })
  let m ← model
  let t := m.ty l.body
  setTy e (t.withCv (t.cv || l.items.any (letItemCv m)))

end Lets

section Walk

variable (pass : Pass) (visit : Visit)

def ident (e : ExprId) (name : String) : Option DeclId → CheckM Unit
  | none => do fail (.undefined name) ((← model).spanOf e)
  | some d => do
    let m ← model
    let t := (m.decl d).ty
    if t.isUnknown then fail (.undetermined name) (m.spanOf e)
    setTy e t

def node (e : ExprId) : ExprKind → CheckM Unit
  | .int _ | .float _ | .bool _ | .string _ | .intSet _ | .absent | .anon | .typeVar _ => pure ()
  | .setLit elems => do
    exprs visit elems
    setLit e elems
  | .ident name d => ident e name d
  | .arrayLit elems dims => do
    exprs visit elems
    arrayLit e elems dims
  | .access array indices => do
    exprs visit (array :: indices)
    access e array indices
  | .comp c => comp visit e c
  | .ite branches otherwise => do
    branches.forM fun (cond, value) => exprs visit [cond, value]
    visit (.expr otherwise)
    ite e branches otherwise
  | .bin op lhs rhs _ => do
    exprs visit [lhs, rhs]
    bin e op lhs rhs
  | .un op arg _ => do
    visit (.expr arg)
    un e op arg
  | .call name args _ => do
    exprs visit args
    call e name args
  | .letIn l => letIn visit e l

def expr (e : ExprId) : CheckM Unit := do
  node visit e ((← model).kind e)
  annotations visit ((← model).expr e).ann

def site : Site → CheckM Unit
  | .expr e => expr visit e
  | .decl d => decl pass visit d
  | .typeInst t => typeInst visit t

-- Typing of nodes that are at most `fuel` links deep.
def walk (pass : Pass) : Nat → Visit
  | 0, _ => throw .outOfFuel
  | fuel + 1, s => site pass (walk pass fuel) s

end Walk
end Parvar.Typing

namespace Parvar

-- Gives types to a node and to all that it is made of.
def assignTypes (pass : Pass) (s : Site) : CheckM Unit :=
  fun c => Typing.walk pass c.model.walkFuel s c

end Parvar
