import Parvar.IntSet.Basic
import Parvar.Operator
import Parvar.Span
import Parvar.Ty.Basic

/-!
The nodes a model is made of. Nodes refer to each other by identifiers: one expression may occur in
several places, and what is learnt about it is then known in all of them.
-/

namespace Parvar

structure ExprId where
  index : Nat
deriving DecidableEq, Repr, Inhabited

structure DeclId where
  index : Nat
deriving DecidableEq, Repr, Inhabited

structure TypeInstId where
  index : Nat
deriving DecidableEq, Repr, Inhabited

structure FuncId where
  index : Nat
deriving DecidableEq, Repr, Inhabited

-- `i, j in source`: all names range over the same values.
structure Generator where
  decls : List DeclId
  source : ExprId
deriving Inhabited

-- `[body | generators where guard]`, or the same in braces for a set.
structure Comprehension where
  body : ExprId
  generators : List Generator
  guard : Option ExprId
  isSet : Bool
deriving Inhabited

inductive LetItem where
  | decl (d : DeclId)
  | constraint (e : ExprId)
deriving DecidableEq, Inhabited

-- `origin` holds the initializer of each item as it was before any evaluation.
structure Let where
  items : List LetItem
  body : ExprId
  origin : List (Option ExprId)
deriving Inhabited

-- The `fn` of an operator is set only where it is a function with a body; that of a call is the
-- chosen overload.
inductive ExprKind where
  | int (v : Int64)
  | float (v : Float)
  | bool (v : Bool)
  | string (v : String)
  | setLit (elems : List ExprId)
  | intSet (s : IntSet)
  | absent
  | anon
  | ident (name : String) (decl : Option DeclId)
  | typeVar (name : String)
  | arrayLit (elems : List ExprId) (dims : List (Int64 × Int64))
  | access (array : ExprId) (indices : List ExprId)
  | comp (c : Comprehension)
  | ite (branches : List (ExprId × ExprId)) (otherwise : ExprId)
  | bin (op : BinOp) (lhs rhs : ExprId) (fn : Option FuncId)
  | un (op : UnOp) (arg : ExprId) (fn : Option FuncId)
  | call (name : String) (args : List ExprId) (fn : Option FuncId)
  | letIn (l : Let)

namespace ExprKind

-- A reference to no node reads as an anonymous variable.
instance : Inhabited ExprKind := ⟨anon⟩

def isAnon : ExprKind → Bool
  | anon => true
  | _ => false

def isAbsent : ExprKind → Bool
  | absent => true
  | _ => false

def isTypeVar : ExprKind → Bool
  | typeVar _ => true
  | _ => false

def isArrayLit : ExprKind → Bool
  | arrayLit _ _ => true
  | _ => false

end ExprKind

structure Expr where
  kind : ExprKind
  ty : Ty := .unknown
  span : Span := {}
  ann : List ExprId := []
deriving Inhabited

-- `toplevel` declarations are items of a model, `evaluated` ones hold a computed value, and `flat`
-- leads to a declaration that stands in for this one.
structure Decl where
  name : String
  ti : TypeInstId
  init : Option ExprId := none
  ty : Ty := .unknown
  span : Span := {}
  ann : List ExprId := []
  toplevel : Bool := false
  introduced : Bool := false
  defined : Bool := false
  evaluated : Bool := false
  flat : Option DeclId := none
deriving Inhabited

-- `array[ranges] of domain`; the base of `ty` may be unknown until the domain has a type.
structure TypeInst where
  ty : Ty
  ranges : List TypeInstId := []
  domain : Option ExprId := none
  span : Span := {}
deriving Inhabited

-- A builtin has no body.
structure Func where
  name : String
  params : List DeclId
  ret : TypeInstId
  body : Option ExprId := none
  ann : List ExprId := []
  span : Span := {}
deriving Inhabited

inductive Goal where
  | satisfy
  | minimize (e : ExprId)
  | maximize (e : ExprId)
deriving DecidableEq, Inhabited

-- The expression to be made small or large.
def Goal.objective? : Goal → Option ExprId
  | satisfy => none
  | minimize e | maximize e => some e

-- `name = value`, apart from the declaration of the name.
structure Assignment where
  name : String
  value : ExprId
  decl : Option DeclId := none
deriving Inhabited

inductive Item where
  | submodel (index : Nat)
  | decl (d : DeclId)
  | assign (a : Assignment)
  | constraint (e : ExprId)
  | solve (goal : Goal) (ann : List ExprId)
  | output (e : ExprId)
  | func (f : FuncId)
deriving Inhabited

-- An item whose content has moved elsewhere is marked as removed.
structure Slot where
  item : Item
  span : Span := {}
  removed : Bool := false
deriving Inhabited

structure Submodel where
  name : String
  items : Array Slot
deriving Inhabited

-- The place of an item, in the root of a model or in one of its submodels.
structure ItemPath where
  submodel : Option Nat := none
  index : Nat
deriving DecidableEq, Repr, Inhabited

-- A node that a walk over a model can be at.
inductive Site where
  | expr (e : ExprId)
  | decl (d : DeclId)
  | typeInst (t : TypeInstId)
deriving DecidableEq, Repr, Inhabited

end Parvar
