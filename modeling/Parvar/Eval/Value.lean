import Parvar.Eval.Builtin
import Parvar.Eval.Call
import Parvar.Eval.Comprehension

/-!
The value of an expression. Identifiers, conditionals, accesses, lets and calls are evaluated alike
for every kind of value; operators and literals have rules by kind.
-/

namespace Parvar.Eval

open EvalM

variable (ev : Eval)

section Nodes

def intNode (kind : ExprKind) (span : Span) : EvalM Int64 := do
  match kind with
  | .bin op l r _ => ofCause span (intOp op (← ev.int l) (← ev.int r))
  | .un .plus e _ => ev.int e
  | .un .minus e _ => ofCause span (overflowing (Checked.neg (← ev.int e)))
  | _ => fail (.notOf .int) span

def floatNode (kind : ExprKind) (span : Span) : EvalM Float := do
  match kind with
  | .bin op l r _ => ofCause span (floatOp op (← ev.float l) (← ev.float r))
  | .un .plus e _ => ev.float e
  | .un .minus e _ => return -(← ev.float e)
  | _ => fail (.notOf .float) span

-- Connectives of two present truth values look at the second one only when they must.
def boolBin (op : BinOp) (l r : ExprId) (span : Span) : EvalM Bool := do
  let m ← model
  let present (e : ExprId) := (m.ty e).isBool && !(m.ty e).isOpt
  let isAnn := (m.ty l).isAnn
  match present l && present r, op with
  | true, .and => do if ← ev.bool l then ev.bool r else return false
  | true, .or => do if ← ev.bool l then return true else ev.bool r
  | true, .imp => do if ← ev.bool l then ev.bool r else return true
  | true, .revImp => do if ← ev.bool r then ev.bool l else return true
  | _, _ =>
    let a ← ev.residual l
    let b ← ev.residual r
    ofCause span (truth (← model) isAnn op a b)

def boolNode (kind : ExprKind) (span : Span) : EvalM Bool := do
  match kind with
  | .bin op l r _ => boolBin ev op l r span
  | .un .not e _ => return !(← ev.bool e)
  | _ => fail (.notOf .bool) span

def stringNode (kind : ExprKind) (span : Span) : EvalM String := do
  match kind with
  | .bin .append l r _ => return (← ev.string l) ++ (← ev.string r)
  | _ => fail (.notOf .string) span

def intSetNode (kind : ExprKind) (span : Span) : EvalM IntSet := do
  match kind with
  | .setLit elems | .arrayLit elems _ => return .ofValues (← elems.mapM ev.int)
  | .comp c => return .ofValues (← comprehension ev c ev.int)
  | .bin .range l r _ => return .range (← ev.int l) (← ev.int r)
  | .bin op l r _ => ofCause span (setOp .intSet op (← ev.intSet l) (← ev.intSet r))
  | _ => fail (.notOf .intSet) span

def boolSetNode (kind : ExprKind) (span : Span) : EvalM IntSet := do
  match kind with
  | .setLit elems | .arrayLit elems _ =>
    return .ofValues ((← elems.mapM ev.bool).map Bool.toInt64)
  | .comp c => return .ofValues ((← comprehension ev c ev.bool).map Bool.toInt64)
  | .bin op l r _ => ofCause span (setOp .boolSet op (← ev.boolSet l) (← ev.boolSet r))
  | _ => fail (.notOf .boolSet) span

def arrayNode (kind : ExprKind) (ty : Ty) (span : Span) : EvalM ExprId := do
  let lit (elems : List ExprId) := arrayLit elems (Build.countedFromOne elems) ty span
  match kind with
  | .comp c => do
    if c.isSet then fail (.notOf .array) span
    lit (← comprehension ev c ev.residual)
  | .bin .append l r _ => do
    let (front, _) ← arrayElems ev l
    let (back, _) ← arrayElems ev r
    lit (front ++ back)
  | _ => fail (.notOf .array) span

def node : (k : ValueKind) → Expr → EvalM k.Val
  | .int, x => intNode ev x.kind x.span
  | .bool, x => boolNode ev x.kind x.span
  | .float, x => floatNode ev x.kind x.span
  | .string, x => stringNode ev x.kind x.span
  | .intSet, x => intSetNode ev x.kind x.span
  | .boolSet, x => boolSetNode ev x.kind x.span
  | .array, x => arrayNode ev x.kind x.ty x.span

end Nodes

-- A truth value counts as 0 or 1, and an integer as a float.
def fromSmaller? : (k : ValueKind) → Ty → ExprId → Option (EvalM k.Val)
  | .int, ty, e =>
    if ty.isBool then some do return (← ev.bool e).toInt64 else none
  | .float, ty, e =>
    if ty.isInt then some do return (← ev.int e).toFloat
    else if ty.isBool then some do return if ← ev.bool e then (1 : Float) else (0 : Float)
    else none
  | _, _, _ => none

def declared (name : String) (span : Span) : Option DeclId → EvalM DeclId
  | some d => return (← model).followFlat d
  | none => fail (.undeclared name) span

-- The values of toplevel declarations and of arrays are kept, the first time they are computed.
def remember (k : ValueKind) (d : DeclId) (v : k.Val) : EvalM Unit := do
  let x := (← model).decl d
  if !x.evaluated && (x.toplevel || 0 < x.ty.dim) then
    let lit ← build (k.store v)
    changeModel (·.modifyDecl d ({ · with init := some lit, evaluated := true }))

def identValue (k : ValueKind) (name : String) (decl : Option DeclId) (span : Span) :
    EvalM k.Val := do
  let d ← declared name span decl
  match ((← model).decl d).init with
  | none => fail (.noValue name) span
  | some init => do
    let v ← ev.value k init
    remember k d v
    return v

def selectBranch (otherwise : ExprId) : List (ExprId × ExprId) → EvalM ExprId
  | [] => return otherwise
  | (cond, branch) :: rest => do if ← ev.bool cond then return branch else selectBranch otherwise rest

variable (limit : Nat)

-- Neither a literal nor of a smaller type.
def compound (k : ValueKind) (x : Expr) : EvalM k.Val := do
  match x.kind with
  | .ident name d => within x.span (.ident name) (identValue ev k name d x.span)
  | .ite branches otherwise => ev.value k (← selectBranch ev otherwise branches)
  | .access array indices => ev.value k (← access ev array indices x.span)
  | .letIn l => within x.span .letIn (withLet l (ev.value k l.body))
  | .call name args fn =>
    within x.span (.call name) <|
      match (← model).withBody? fn with
      | some f => call ev limit f args x.span (ev.value k)
      | none => builtin ev k name args x.span
  | .bin op l r (some f) =>
    within x.span (.operator op.name) (call ev limit f [l, r] x.span (ev.value k))
  | .un op a (some f) =>
    within x.span (.operator op.name) (call ev limit f [a] x.span (ev.value k))
  | _ => node ev k x

def valueStep (k : ValueKind) (e : ExprId) : EvalM k.Val := do
  let x := (← model).expr e
  match fromSmaller? ev k x.ty e with
  | some v => v
  | none => match k.literal? e x.kind with
    | some v => return v
    | none => compound ev limit k x

end Parvar.Eval
