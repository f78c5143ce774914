import Parvar.Bounds.Floats
import Parvar.Bounds.Integers
import Parvar.Bounds.Sets

/-! The analyses of bounds, tied together. -/

namespace Parvar

namespace Bounds

def step (ev : Eval) (bounds : Analysis) : Analysis
  | .int, e => Integers.rule ev bounds e
  | .float, e => Floats.rule ev bounds e
  | .intSet, e => Sets.rule ev bounds e

def run (ev : Eval) : Nat → Analysis
  | 0, _, _ => throw .outOfFuel
  | fuel + 1, k, e => step ev (run ev fuel) k e

end Bounds

-- Bounds of an expression, none where the analysis has no answer, and the model after it.
def Model.bounds (m : Model) (k : Bounds.Kind) (e : ExprId) :
    Except (Halt EvalError) (Option k.Answer) × Model :=
  let fuel := Eval.fuelFor Eval.defaultLimit m
  m.runEval (Bounds.run (Eval.run Eval.defaultLimit fuel) fuel k e)

end Parvar
