import Parvar.Proofs.Bounds.Reached
import Parvar.Proofs.Eval.Framing

/-!
Evaluation binds a name by giving a value to its declaration, and so does every analysis of bounds
that evaluates parts of an expression. When they are over, in a value or in an error, all these
bindings are undone. What stays is the value of a declaration that lasts, in place of the expression
that it was computed from.
-/

namespace Parvar

-- The second model differs from the first at most in values that were computed meanwhile.
structure Model.Restored (m m' : Model) : Prop where
  flat : ∀ d, (m'.decl d).flat = (m.decl d).flat
  passing : ∀ d, (m.decl d).toplevel = false → (m.decl d).ty.dim ≤ 0 →
    (m'.decl d).init = (m.decl d).init ∧ (m'.decl d).evaluated = (m.decl d).evaluated
  lasting : ∀ d,
    ((m'.decl d).init = (m.decl d).init ∧ (m'.decl d).evaluated = (m.decl d).evaluated) ∨
      ((m.decl d).evaluated = false ∧ (m'.decl d).evaluated = true ∧
        ∃ e, (m'.decl d).init = some e ∧ m'.IsLiteral e)

-- What a step leaves behind, however it ends.
def EvalM.Restores {α : Type} (x : EvalM α) : Prop :=
  Keeps (fun s t => s.model.Restored t.model ∧ t.depth = s.depth) x

open Machine

section Frames

variable {m : Model} {x y : Decl} {s t : Machine}

theorem Decl.Kept.same_or_stored (h : x.Kept m y) :
    (y.init = x.init ∧ y.evaluated = x.evaluated) ∨
      (x.evaluated = false ∧ y.evaluated = true ∧ ∃ e, y.init = some e ∧ m.IsLiteral e) := by
  cases h with
  | same => exact .inl ⟨rfl, rfl⟩
  | stored e new _ _ lit => exact .inr ⟨new, rfl, e, rfl, lit⟩

-- Nothing is bound any more.
theorem Machine.Framed.restored (h : Framed [] s t) : s.model.Restored t.model where
  flat d := (h.kept d List.not_mem_nil).flat_eq
  passing d := (h.kept d List.not_mem_nil).same_of_passing
  lasting d := (h.kept d List.not_mem_nil).same_or_stored

end Frames

section Runs

variable {α : Type} {x : EvalM α}

theorem Keeps.restores (h : Keeps (Framed []) x) : x.Restores :=
  h.mono fun _ _ hf => ⟨hf.restored, hf.depth⟩

theorem EvalM.Restores.runEval (h : x.Restores) (m : Model) : m.Restored (m.runEval x).2 := by
  have hm := (h { model := m }).1
  unfold Model.runEval
  cases e : x { model := m } with
  | ok a s => rwa [final_of_ok e] at hm
  | error h s => rwa [final_of_error e] at hm

theorem Eval.restores_run (limit fuel : Nat) (t : Target) (e : ExprId) :
    (Eval.run limit fuel t e).Restores :=
  Keeps.restores (framing_run limit fuel [] t e)

theorem Bounds.restores_run (limit fuel steps : Nat) (k : Kind) (e : ExprId) :
    (run (Eval.run limit fuel) steps k e).Restores :=
  Keeps.restores (keeps_run (Eval.framing_run limit fuel []) steps k e)

end Runs
end Parvar
