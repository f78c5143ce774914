import Parvar.Model.Build
import Parvar.Overload

/-! The builtin operators and functions, by name and type; they have no bodies. -/

namespace Parvar.Library

structure Signature where
  name : String
  params : List Ty
  ret : Ty
deriving Inhabited

-- Arithmetic and comparison of one kind of number.
def numeric (num truth : Ty) : List Signature :=
  ["+", "-", "*", "min", "max"].map (⟨·, [num, num], num⟩)
    ++ ["+", "-", "abs"].map (⟨·, [num], num⟩)
    ++ ["<", "<=", ">", ">=", "=", "!="].map (⟨·, [num, num], truth⟩)
    ++ ["sum", "product", "min", "max"].map (⟨·, [num.withDim (-1)], num⟩)

-- What there is once for fixed and once for free values.
def forInst (inst : Inst) : List Signature :=
  let b := Ty.parBool.withInst inst
  let i := Ty.parInt.withInst inst
  let f := Ty.parFloat.withInst inst
  let s := Ty.parSetInt.withInst inst
  let elem := Ty.top.withInst inst
  let any := elem.withOpt true
  numeric i b ++ numeric f b
    ++ [⟨"div", [i, i], i⟩, ⟨"mod", [i, i], i⟩, ⟨"/", [f, f], f⟩]
    ++ ["/\\", "\\/", "->", "<-", "<->", "xor", "=", "!=", "<", "<=", ">", ">="].map
      (⟨·, [b, b], b⟩)
    ++ [⟨"not", [b], b⟩, ⟨"forall", [b.withDim (-1)], b⟩, ⟨"exists", [b.withDim (-1)], b⟩,
      ⟨"bool2int", [b], i⟩, ⟨"bool2float", [b], f⟩, ⟨"int2float", [i], f⟩]
    ++ ["union", "intersect", "diff", "symdiff"].map (⟨·, [s, s], s⟩)
    ++ ["subset", "superset", "=", "!="].map (⟨·, [s, s], b⟩)
    ++ [⟨"in", [i, s], b⟩, ⟨"card", [s], i⟩,
      ⟨"++", [elem.withDim 1, elem.withDim 1], elem.withDim 1⟩,
      ⟨"=", [any.withDim (-1), any.withDim (-1)], b⟩,
      ⟨"!=", [any.withDim (-1), any.withDim (-1)], b⟩,
      ⟨"=", [any, any], b⟩,
      ⟨"!=", [any, any], b⟩]

-- What there is in one form only.
def single : List Signature :=
  let string := Ty.parString
  [⟨"in", [.varInt, .parSetInt], .varBool⟩,
    ⟨"..", [.parInt, .parInt], .parSetInt⟩,
    ⟨"..", [.parFloat, .parFloat], .parSetFloat⟩,
    ⟨"set2array", [Ty.top.withSet true], Ty.top.withDim 1⟩,
    ⟨"++", [string, string], string⟩]
    ++ ["<", "<=", ">", ">=", "=", "!="].map (⟨·, [string, string], .parBool⟩)
    ++ [⟨"concat", [string.withDim (-1)], string⟩,
      ⟨"show", [.top], string⟩,
      ⟨"=", [.ann, .ann], .parBool⟩,
      ⟨"length", [Ty.optVarTop.withDim (-1)], .parInt⟩,
      ⟨"lin_exp", [Ty.parInt.withDim 1, Ty.varInt.withDim 1, .parInt], .varInt⟩,
      ⟨"lin_exp", [Ty.parFloat.withDim 1, Ty.varFloat.withDim 1, .parFloat], .varFloat⟩,
      ⟨"int_times", [.varInt, .varInt], .varInt⟩]
    ++ ["set_union", "set_intersect", "set_diff"].map
      (⟨·, [.varSetInt, .varSetInt], .varSetInt⟩)

def signatures : List Signature := forInst .par ++ forInst .var ++ single

-- The indices of an array, by its rank.
def ranges (t : Ty) : Build (List TypeInstId) :=
  if t.dim = -1 then do return [← Build.indexAny]
  else (List.range t.dim.toNat).mapM fun _ => Build.indexInt

-- The base `top` is written as a type variable.
def domain (t : Ty) : Build (Option ExprId) :=
  if t.base = .top then do return some (← Build.typeVar "T") else return none

-- A type as it would be written.
def typeInst (t : Ty) : Build TypeInstId := do
  let ranges ← ranges t
  let domain ← domain t
  Build.typeInst t domain ranges

-- Parameters are called `x0`, `x1` and so on.
def param (t : Ty) (i : Nat) : Build DeclId := do
  let ti ← typeInst t
  fun m => m.addDecl { name := "x" ++ toString i, ti, ty := t }

def declare (s : Signature) : Build Unit := do
  let params ← s.params.zipIdx.mapM fun (t, i) => param t i
  let ret ← typeInst s.ret
  let f ← fun m => m.addFunc { name := s.name, params, ret }
  modify (·.register f)

end Library

-- Declares all builtins, unless that was done before.
def Model.withLibrary (m : Model) : Model :=
  if (m.overloadsOf? "int2float").isSome then m
  else (Library.signatures.forM Library.declare m).2

end Parvar
