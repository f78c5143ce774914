import Parvar.Library
import Parvar.Model.Items
import Parvar.Resolve.Walk
import Parvar.Typing.Item

/-!
Checking a model: names are resolved, declarations put in order, and every item typed. An error of
resolution ends it; errors of typing are collected.
-/

namespace Parvar

structure CheckOptions where
  allowUndefined : Bool := false
  library : Bool := true
deriving DecidableEq, Repr, Inhabited

structure Report where
  errors : List TypeError
  order : List DeclId
deriving Inhabited

def Report.isOk (r : Report) : Bool := r.errors.isEmpty

-- A step that changes a model and may fail; what it changed before it failed stays.
abbrev ModelM := EStateM (Halt TypeError) Model

namespace ModelM

def fail {α : Type} (cause : TypeError.Cause) (span : Span) : ModelM α :=
  throw (.failed ⟨cause, span⟩)

-- Resolution that starts with nothing in scope, and the order that it found.
def resolving {α : Type} (x : ResolveM α) : ModelM (α × List DeclId) := fun m =>
  match x { model := m } with
  | .ok a r => .ok (a, r.order.toList) r.model
  | .error h r => .error h r.model

-- Checking that starts with no errors on record.
def checking (x : CheckM Unit) : ModelM (List TypeError) := fun m =>
  match x { model := m } with
  | .ok () c => .ok c.errors.toList c.model
  | .error h c => .error h c.model

end ModelM

namespace Check

section Resolution

-- Declarations must have different names, functions join the overloads of theirs.
def collect : Item → ResolveM Unit
  | .decl d => ResolveM.pushNew d
  | .func f => ResolveM.changeModel (·.register f)
  | _ => pure ()

def setAssigned (p : ItemPath) (d : DeclId) (value : ExprId) (m : Model) : Model :=
  (m.setInit d (some value)).modifySlot p fun s =>
    { s with
      removed := true
      item := match s.item with
        | .assign a => .assign { a with decl := some d }
        | i => i }

-- The value of an assignment becomes the initializer of the declaration it names.
def mergeAssignment (p : ItemPath) (s : Slot) : ResolveM Unit := do
  match s.item with
  | .assign a =>
    let d ← ResolveM.lookup a.name s.span
    if ((← get).model.decl d).init.isSome then ResolveM.fail .secondAssignment s.span
    ResolveM.changeModel (setAssigned p d a.value)
  | _ => pure ()

def resolveExprs (es : List ExprId) : ResolveM Unit := es.forM fun e => resolve (.expr e)

-- Declarations that are in scope for one step, and leave it even if that step fails.
def withScope (ds : List DeclId) (x : ResolveM Unit) : ResolveM Unit := fun r =>
  match x (ds.foldl Resolution.push r) with
  | .ok () r => .ok () (ds.foldl Resolution.pop r)
  | .error h r => .error h (ds.foldl Resolution.pop r)

def resolveFunc (f : FuncId) : ResolveM Unit := do
  let x := (← get).model.func f
  resolve (.typeInst x.ret)
  x.params.forM fun p => resolve (.decl p)
  resolveExprs x.ann
  withScope x.params (resolveExprs x.body.toList)

def resolveItem : Item → ResolveM Unit
  | .decl d => resolve (.decl d)
  | .constraint e | .output e => resolve (.expr e)
  | .solve goal ann => do
    resolveExprs ann
    resolveExprs goal.objective?.toList
  | .func f => resolveFunc f
  | .submodel _ | .assign _ => pure ()

-- Items that were merged away since the paths were taken are passed over.
def atSlot (f : ItemPath → Slot → ResolveM Unit) (p : ItemPath) : ResolveM Unit := do
  match (← get).model.slot? p with
  | some s => if s.removed then pure () else f p s
  | none => pure ()

def eachSlot (paths : List ItemPath) (f : ItemPath → Slot → ResolveM Unit) : ResolveM Unit :=
  paths.forM (atSlot f)

def resolveItems (paths : List ItemPath) : ResolveM Unit := do
  eachSlot paths fun _ s => collect s.item
  eachSlot paths mergeAssignment
  eachSlot paths fun _ s => resolveItem s.item

end Resolution

section Order

-- Submodels first, then the declarations in their order, then all else as it stands.
def itemKey (order : List DeclId) (s : Slot) : Nat × Nat :=
  match s.item with
  | .submodel _ => (0, 0)
  | .decl d => (1, order.idxOf d)
  | _ => (2, 0)

def slotLe (order : List DeclId) (a b : Slot) : Bool :=
  let (a, b) := (itemKey order a, itemKey order b)
  a.1 < b.1 || (a.1 = b.1 && a.2 ≤ b.2)

def sortItems (order : List DeclId) (m : Model) : Model :=
  { m with items := (m.items.toList.mergeSort (slotLe order)).toArray }

end Order

section Items

-- Of solve items and of output items there may be one each.
def repeated (cause : TypeError.Cause) (is : Item → Bool) (m : Model) (paths : List ItemPath) :
    List (Nat × TypeError) :=
  let found := (paths.zipIdx.filterMap fun (p, i) => (m.slot? p).bind fun s =>
    if is s.item then some (i, s.span) else none)
  found.tail.map fun (i, span) => (i, ⟨cause, span⟩)

-- The errors about repeated items, in the order of these items.
def repeatedItems (m : Model) (paths : List ItemPath) : List TypeError :=
  let solves := repeated .secondSolve (· matches .solve _ _) m paths
  let outputs := repeated .secondOutput (· matches .output _) m paths
  ((solves ++ outputs).mergeSort fun a b => a.1 ≤ b.1).map (·.2)

def funcs (m : Model) (paths : List ItemPath) : List FuncId :=
  paths.filterMap fun p => (m.slot? p).bind fun s =>
    match s.item with
    | .func f => some f
    | _ => none

def declareAll (order : List DeclId) (fs : List FuncId) : CheckM Unit := do
  order.forM fun d => CheckM.attempt (Typing.declare .declare d)
  fs.forM fun f => CheckM.attempt (Typing.declareFunc .declare f)

def checkAll : CheckM Unit := do
  let m ← CheckM.model
  m.itemPaths.forM fun p => do
    match (← CheckM.model).slot? p with
    | some s => CheckM.attempt (Typing.item .check s.item)
    | none => pure ()

-- Fixed toplevel declarations need values; an optional one is absent if it has none.
def defined (allowUndefined : Bool) (d : DeclId) : CheckM Unit := do
  let x := (← CheckM.model).decl d
  if !x.toplevel || !x.ty.isPar || x.ty.isAnn || x.init.isSome then return
  if x.ty.isOpt then
    CheckM.changeModel fun m =>
      let (e, m) := Build.absent m
      m.setInit d (some e)
  else if !allowUndefined then
    CheckM.report (.noValue x.name) x.span

end Items

-- Resolves, orders and types all items of a model.
def items (allowUndefined : Bool) : ModelM Report := do
  let m ← get
  let paths := m.itemPaths
  let repeatedErrors := repeatedItems m paths
  let fs := funcs m paths
  let ((), order) ← ModelM.resolving (resolveItems paths)
  modify fun m => sortItems order m.sortOverloads
  let declareErrors ← ModelM.checking (declareAll order fs)
  let checkErrors ← ModelM.checking checkAll
  let undefinedErrors ← ModelM.checking (order.forM (defined allowUndefined))
  return { errors := repeatedErrors ++ declareErrors ++ checkErrors ++ undefinedErrors, order }

end Check

def check (opts : CheckOptions := {}) : ModelM Report := do
  if opts.library then modify (·.withLibrary)
  Check.items opts.allowUndefined

namespace Check

def declareItem (m : Model) (p : ItemPath) : ResolveM Unit :=
  match m.slot? p with
  | some { item := .decl d, .. } => ResolveM.pushNew d
  | _ => pure ()

-- Resolution with the toplevel declarations of a checked model in scope.
def toplevel {α : Type} (x : ResolveM α) : ModelM (α × List DeclId) := do
  modify fun m => m.withLibrary.sortOverloads
  let m ← get
  ModelM.resolving do
    m.itemPaths.forM (declareItem m)
    x

-- The declaration that an assignment is to, after its value was resolved.
def resolveAssigned (a : Assignment) (span : Span) : ResolveM DeclId := do
  let d ← match a.decl with
    | some d => pure d
    | none => ResolveM.lookup a.name span
  resolve (.expr a.value)
  return d

-- Declares what has no type yet, then types an expression. The first error counts.
def fresh (order : List DeclId) (e : ExprId) : ModelM Unit := do
  let _ ← ModelM.checking (order.forM fun d => do
    if ((← CheckM.model).decl d).ty.isUnknown then Typing.declare .declare d)
  match ← ModelM.checking (assignTypes .check (.expr e)) with
  | error :: _ => throw (.failed error)
  | [] => pure ()

end Check

-- Types an expression that refers to the declarations of a checked model.
def checkExpr (e : ExprId) : ModelM Ty := do
  let ((), order) ← Check.toplevel (resolve (.expr e))
  Check.fresh order e
  return (← get).ty e

-- Checks an assignment that comes after its model was checked, and merges it.
def checkAssignment (p : ItemPath) : ModelM Unit := do
  match (← get).slot? p with
  | some { item := .assign a, span, .. } =>
    let (d, order) ← Check.toplevel (Check.resolveAssigned a span)
    Check.fresh order a.value
    let m ← get
    let x := m.decl d
    let value := m.expr a.value
    if !value.ty.sub x.ty then ModelM.fail (.assigned a.name x.ty value.ty) value.span
    if x.init.isSome then ModelM.fail .secondAssignment span
    match m.coerce a.value x.ty with
    | .error error => throw (.failed error)
    | .ok (e, m) => set (Check.setAssigned p d e m)
  | some s => ModelM.fail .notAssignment s.span
  | none => ModelM.fail .notAssignment {}

end Parvar
