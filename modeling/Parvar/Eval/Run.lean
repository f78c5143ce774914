import Parvar.Eval.Residual

/-!
Evaluation. The rules give the result for an expression from the results for others, and `run` ties
them together. A body may call its own function, so the depth of calls is limited; fuel bounds the
depth of everything else.
-/

namespace Parvar

namespace Eval

def step (limit : Nat) (ev : Eval) : Eval
  | .value k, e => valueStep ev limit k e
  | .residual, e => residualStep ev limit e

def run (limit : Nat) : Nat → Eval
  | 0, _, _ => throw .outOfFuel
  | fuel + 1, t, e => step limit (run limit fuel) t e

-- The depth of calls that is allowed unless another one is asked for.
def defaultLimit : Nat := 256

-- Enough for calls nested up to the limit, each of which walks the model.
def fuelFor (limit : Nat) (m : Model) : Nat := (limit + 2) * (limit + 2) * m.walkFuel

end Eval

-- The outcome of an evaluation and the model after it.
def Model.runEval {α : Type} (m : Model) (x : EvalM α) : Except (Halt EvalError) α × Model :=
  match x { model := m } with
  | .ok a s => (.ok a, s.model)
  | .error h s => (.error h, s.model)

-- The value or the residual of an expression.
def Model.evaluate (m : Model) (t : Target) (e : ExprId) (limit : Nat := Eval.defaultLimit) :
    Except (Halt EvalError) t.Out × Model :=
  m.runEval (Eval.run limit (Eval.fuelFor limit m) t e)

end Parvar
