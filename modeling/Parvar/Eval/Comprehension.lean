import Parvar.Eval.Array
import Parvar.Eval.Binding

/-!
Comprehensions run through their generators as nested loops do: the last name of the last generator
changes fastest, and each source is evaluated anew under the values of the names before it.
-/

namespace Parvar.Eval

variable (ev : Eval)

-- The values that the names of a generator run through.
def sourceValues (source : ExprId) : EvalM (List ExprId) := do
  if ((← EvalM.model).ty source).isSetTy then
    let s ← ev.intSet source
    s.values.mapM fun v => EvalM.build (Build.int v)
  else
    return (← arrayElems ev source).1

def assignName (d : DeclId) (v : ExprId) : EvalM Unit :=
  EvalM.changeModel (·.modifyDecl d ({ · with init := some v, evaluated := false }))

-- Every way to give values to names, the first name slowest.
def eachAssignment {α : Type} (values : List ExprId) (next : Array α → EvalM (Array α)) :
    List DeclId → Array α → EvalM (Array α)
  | [], out => next out
  | d :: names, out =>
    values.foldlM (fun out v => do
      assignName d v
      eachAssignment values next names out) out

variable {α : Type} (guard : Option ExprId) (each : EvalM α)

-- The results of the body, where the guard holds.
def eachBinding : List Generator → Array α → EvalM (Array α)
  | [], out => do
    let holds ← match guard with
      | none => pure true
      | some g => ev.bool g
    if holds then return out.push (← each) else return out
  | g :: generators, out => do
    let values ← sourceValues ev g.source
    eachAssignment values (eachBinding generators) g.decls out

def comprehension (c : Comprehension) (each : ExprId → EvalM α) : EvalM (List α) := do
  let names := c.generators.flatMap (·.decls)
  let saved ← names.mapM fun d => bind d none
  let out ← restoring saved (eachBinding ev c.guard (each c.body) c.generators #[])
  return out.toList

end Parvar.Eval
