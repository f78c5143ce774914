import Parvar.Model.Basic
import Parvar.Typing.Error
import Parvar.Ty.Subtype

/-!
Overloads: functions of one name, told apart by the types of their parameters. They are kept with
the more specific first, so that the first that accepts its arguments is the one to call.
-/

namespace Parvar

namespace Base

-- From the narrowest to the widest.
def breadth : Base → Int
  | bot => 0
  | bool => 1
  | int => 2
  | float => 3
  | string => 4
  | ann => 5
  | top => 6
  | unknown => 7

end Base

namespace Ty

-- Fixed before free, narrow before wide, plain before set, present before optional, small rank
-- before large; any rank comes with the largest.
def specificity (t : Ty) : List Int :=
  [if t.isPar then 0 else 1, t.base.breadth, t.isSet.toInt, t.isOpt.toInt,
    if t.dim < 0 then 0x7fffffff else t.dim]

end Ty

-- The order in which overloads are kept, the first difference deciding.
abbrev Library.Precedes (a b : List Int) : Prop := @LE.le (List Int) List.instLE a b

namespace Model

section

variable (m : Model)

def overloadsOf? (name : String) : Option (List FuncId) := m.overloads.lookup name

-- Adds a function to the overloads of its name, unless it is there.
def register (f : FuncId) : Model :=
  let name := (m.func f).name
  match m.overloadsOf? name with
  | none => { m with overloads := m.overloads ++ [(name, [f])] }
  | some fs =>
    if f ∈ fs then m
    else
      { m with overloads := m.overloads.map fun (n, gs) =>
          (n, if n = name then gs ++ [f] else gs) }

-- A parameter that has not been typed yet has the type it was written with.
def paramTy (p : DeclId) : Ty :=
  let d := m.decl p
  if d.ty.isUnknown then (m.typeInst d.ti).ty else d.ty

-- Fewer parameters first, then the more specific, the first difference deciding.
def specificity (f : FuncId) : List Int :=
  let params := (m.func f).params
  params.length :: params.flatMap fun p => (m.paramTy p).specificity

-- Functions of one specificity keep their order.
def sortBySpecificity (fs : List FuncId) : List FuncId :=
  ((fs.map fun f => (m.specificity f, f)).mergeSort fun a b => Library.Precedes a.1 b.1).map (·.2)

def sortOverloads : Model :=
  { m with overloads := m.overloads.map fun (name, fs) => (name, m.sortBySpecificity fs) }

-- Every argument fits its parameter, and there are as many of one as of the other.
def accepts (f : FuncId) (args : List Ty) : Bool :=
  let params := (m.func f).params
  params.length = args.length && (params.zip args).all fun (p, a) => a.sub (m.paramTy p)

def matchOverload? (name : String) (args : List Ty) : Option FuncId :=
  (m.overloadsOf? name).bind (·.find? (m.accepts · args))

-- The type variable that a type is written with.
def typeVar? (t : TypeInstId) : Option String :=
  (m.typeInst t).domain.bind fun e =>
    match m.kind e with
    | .typeVar name => some name
    | _ => none

-- What an argument is turned into for a parameter: a type variable takes its base from the
-- argument, and any rank takes its rank.
def argTy (p : DeclId) (arg : Ty) : Ty :=
  let t := m.paramTy p
  let dim := if t.dim = -1 then arg.dim else t.dim
  if (m.typeVar? (m.decl p).ti).isSome || t.base = .top then (arg.withSet t.isSet).withDim dim
  else t.withDim dim

-- The types for all parameters of a function.
def argTys (f : FuncId) (args : List Ty) : List Ty :=
  ((m.func f).params.zip args).map fun (p, a) => m.argTy p a

-- What the arguments of a call say about the type variables of its function.
structure Binding where
  vars : List (String × Ty) := []
  rank : Option Int := none
deriving Inhabited

-- A second argument for a type variable can widen its base and free its value.
def Binding.widen (old elem : Ty) : Ty :=
  let t := if old.base.sub elem.base then old.withBase elem.base else old
  if elem.isVar then t.withInst .var else t

def Binding.bind (vars : List (String × Ty)) (name : String) (elem : Ty) : List (String × Ty) :=
  match vars.lookup name with
  | none => vars ++ [(name, elem)]
  | some old => vars.map fun (n, t) => (n, if n = name then Binding.widen old elem else t)

-- The first parameter of any rank sets the rank.
def Binding.add (b : Binding) (p : DeclId) (arg : Ty) : Binding :=
  let t := m.paramTy p
  let vars := match m.typeVar? (m.decl p).ti with
    | none => b.vars
    | some name => Binding.bind b.vars name (if t.isSet then arg.elem.withSet false else arg.elem)
  { vars, rank := if t.dim = -1 && b.rank.isNone then some arg.dim else b.rank }

def bindings (f : FuncId) (args : List Ty) : Binding :=
  ((m.func f).params.zip args).foldl (fun b (p, a) => b.add m p a) {}

-- A returned type variable takes the base of what it is bound to.
def instantiate (ret bound : Ty) : Ty :=
  let t := ret.withBase bound.base
  let t := if t.isSet then t else t.withSet bound.isSet
  if bound.isVar && t.dim = 0 then t.withInst .var else t

-- The type of a call with arguments of the given types.
def returnTy (f : FuncId) (args : List Ty) (span : Span) : Except TypeError Ty := do
  let ret := (m.func f).ret
  let b := m.bindings f args
  let t := (m.typeInst ret).ty
  let t ← match m.typeVar? ret with
    | none => pure t
    | some name => match b.vars.lookup name with
      | some bound => pure (instantiate t bound)
      | none => throw ⟨.typeVarUnbound name, span⟩
  return if t.dim = -1 then t.withDim (b.rank.getD 1) else t

end
end Model
end Parvar
