import Parvar.Proofs.Bounds.Reached

/-!
Bounds do not depend on fuel: an analysis that comes to an answer comes to the same one, by the same
steps, with more fuel.
-/

namespace Parvar

namespace Lasts

variable {ε σ α β : Type}

theorem optional_bind {x y : OptionT (EStateM ε σ) α} {f g : α → OptionT (EStateM ε σ) β} (h : Lasts x.run y.run)
    (hf : ∀ a, Lasts (f a).run (g a).run) : Lasts (x >>= f).run (y >>= g).run := by
  refine bind h fun a => ?_
  cases a with
  | none => exact refl _
  | some a => exact hf a

theorem optional_mapM {f g : α → OptionT (EStateM ε σ) β} (h : ∀ a, Lasts (f a).run (g a).run) (as : List α) :
    Lasts (as.mapM f).run (as.mapM g).run := by
  induction as with
  | nil => exact refl _
  | cons a as ih =>
    rw [List.mapM_cons, List.mapM_cons]
    exact optional_bind (h a) fun _ => optional_bind ih fun _ => refl _

theorem optional_foldlM {f g : β → α → OptionT (EStateM ε σ) β} (h : ∀ b a, Lasts (f b a).run (g b a).run)
    (as : List α) (b : β) : Lasts (as.foldlM f b).run (as.foldlM g b).run := by
  induction as generalizing b with
  | nil => exact refl _
  | cons a as ih =>
    rw [List.foldlM_cons, List.foldlM_cons]
    exact optional_bind (h b a) ih

end Lasts

namespace Bounds

open EvalM

section Parts

variable {ev : Eval} {α : Type} {bound bound' : ExprId → EvalM (Option α)} (h : ∀ e, Lasts (bound e) (bound' e))
  {ofDomain : ExprId → EvalM (Option α)}
include h

theorem lasts_both (l r : ExprId) (f : α → α → Option α) : Lasts (both bound l r f) (both bound' l r f) :=
  .bind (h l) fun _ => .bind (h r) fun _ => .refl _

theorem lasts_branches {hull : α → α → α} (otherwise : ExprId) (acc : Option α) (bs : List (ExprId × ExprId)) :
    Lasts (branches ev bound hull otherwise acc bs) (branches ev bound' hull otherwise acc bs) := by
  induction bs generalizing acc with
  | nil => exact .bind (h otherwise) fun _ => .refl _
  | cons b rest ih =>
    obtain ⟨cond, branch⟩ := b
    have hjoin : Lasts (do return (← bound branch).bind fun b => acc.map (hull · b))
        (do return (← bound' branch).bind fun b => acc.map (hull · b)) := .bind (h branch) fun _ => .refl _
    rw [branches, branches]
    refine .bind (.refl _) fun m => ?_
    dsimp only
    by_cases hpar : (m.ty cond).isPar && !(m.ty cond).cv
    · rw [if_pos hpar, if_pos hpar]
      refine .bind (.refl _) fun c => ?_
      rcases c with _ | _ | _
      · exact .refl _
      · exact ih acc
      · exact hjoin
    · rw [if_neg hpar, if_neg hpar]
      exact .bind hjoin ih

theorem lasts_ofDecl (d : DeclId) : Lasts (ofDecl bound ofDomain d) (ofDecl bound' ofDomain d) := by
  refine .bind (.refl _) fun m => ?_
  dsimp only
  cases m.domain (m.followFlat d) with
  | some domain => exact .refl _
  | none =>
    cases (m.decl (m.followFlat d)).init with
    | none => exact .refl _
    | some init => exact h init

theorem lasts_ofAccess (array : ExprId) (indices : List ExprId) :
    Lasts (ofAccess ev bound ofDomain array indices) (ofAccess ev bound' ofDomain array indices) := by
  refine .bind (.refl _) fun m => ?_
  cases arrayDecl? m array with
  | none => exact .refl _
  | some d =>
    refine .bind (.refl _) fun e => ?_
    cases e with
    | none => exact .refl _
    | some e => exact h e

end Parts

section Rules

variable {ev : Eval} {bounds bounds' : Analysis} (h : ∀ k e, Lasts (bounds k e) (bounds' k e))
include h

namespace Integers

theorem lasts_linear (coefficients : Option ExprId) (array : ExprId) (constant : Option ExprId) :
    Lasts (linear ev bounds coefficients array constant) (linear ev bounds' coefficients array constant) := by
  refine .bind (.refl _) fun l => ?_
  cases l with
  | none => exact .refl _
  | some l => exact .optional_foldlM (fun _ _ => .optional_bind (h _ _) fun _ => .refl _) _ _

theorem lasts_call (name : String) (args : List ExprId) :
    Lasts (call ev bounds name args) (call ev bounds' name args) := by
  fun_cases call ev bounds name args <;> rw [call]
  · exact lasts_linear h _ _ _
  · exact lasts_linear h _ _ _
  · exact .bind (h _ _) fun _ => .refl _
  · exact lasts_both (h _) _ _ _
  · exact .refl _
  · exact .bind (h _ _) fun _ => .refl _
  · exact lasts_both (h _) _ _ _
  · exact lasts_both (h _) _ _ _
  all_goals first | exact .refl _ | assumption

theorem lasts_node (kind : ExprKind) : Lasts (node ev bounds kind) (node ev bounds' kind) := by
  fun_cases node ev bounds kind <;> rw [node]
  · exact lasts_ofDecl (h _) _
  · exact .bind (.mapM (h _) _) fun _ => .bind (lasts_ofAccess (h _) _ _) fun _ => .refl _
  · exact lasts_both (h _) _ _ _
  · exact .bind (h _ _) fun _ => .refl _
  · exact lasts_call h _ _
  all_goals first | exact .refl _ | assumption

theorem lasts_rule (e : ExprId) : Lasts (rule ev bounds e) (rule ev bounds' e) := by
  refine .bind (.refl _) fun m => ?_
  dsimp only
  split
  · exact .refl _
  · split
    · exact .refl _
    · split
      · exact lasts_branches (h _) _ _ _
      · split
        · exact lasts_node h _
        · exact .refl _

end Integers

namespace Floats

theorem lasts_linear (coefficients : Option ExprId) (array : ExprId) (constant : Option ExprId) :
    Lasts (linear ev bounds coefficients array constant) (linear ev bounds' coefficients array constant) := by
  refine .bind (.refl _) fun l => ?_
  cases l with
  | none => exact .refl _
  | some l => exact .bind (.optional_foldlM (fun _ _ => .optional_bind (h _ _) fun _ => .refl _) _ _) fun _ => .refl _

theorem lasts_call (name : String) (args : List ExprId) :
    Lasts (call ev bounds name args) (call ev bounds' name args) := by
  fun_cases call ev bounds name args <;> rw [call]
  · exact .bind (h _ _) fun _ => .refl _
  · exact .refl _
  · exact .bind (h _ _) fun _ => .refl _
  · exact lasts_linear h _ _ _
  · exact lasts_linear h _ _ _
  all_goals first | exact .refl _ | assumption

theorem lasts_node (kind : ExprKind) : Lasts (node ev bounds kind) (node ev bounds' kind) := by
  fun_cases node ev bounds kind <;> rw [node]
  · exact lasts_ofDecl (h _) _
  · exact lasts_ofAccess (h _) _ _
  · exact lasts_both (h _) _ _ _
  · exact .bind (h _ _) fun _ => .refl _
  · exact lasts_call h _ _
  all_goals first | exact .refl _ | assumption

theorem lasts_rule (e : ExprId) : Lasts (rule ev bounds e) (rule ev bounds' e) := by
  refine .bind (.refl _) fun m => ?_
  dsimp only
  split
  · exact .refl _
  · split
    · exact .refl _
    · split
      · exact lasts_branches (h _) _ _ _
      · split
        · exact lasts_node h _
        · exact .refl _

end Floats

namespace Sets

theorem lasts_elems (es : List ExprId) : Lasts (elems bounds es) (elems bounds' es) :=
  .optional_bind (.optional_mapM (fun _ => .optional_bind (h _ _) fun _ => .refl _) _) fun _ => .refl _

theorem lasts_range (l r : ExprId) : Lasts (range bounds l r) (range bounds' l r) :=
  .bind (h _ _) fun _ => .bind (h _ _) fun _ => .refl _

theorem lasts_call (name : String) (args : List ExprId) : Lasts (call bounds name args) (call bounds' name args) := by
  fun_cases call bounds name args
  · exact lasts_both (h _) _ _ _
  · exact lasts_both (h _) _ _ _
  · exact h _ _
  · fun_cases call bounds' name args
    · simp_all
    · simp_all
    · simp_all
    · exact .refl _

theorem lasts_node (kind : ExprKind) : Lasts (node ev bounds kind) (node ev bounds' kind) := by
  fun_cases node ev bounds kind <;> rw [node]
  · exact lasts_elems h _
  · exact lasts_ofDecl (h _) _
  · exact lasts_ofAccess (h _) _ _
  · exact lasts_range h _ _
  · exact lasts_both (h _) _ _ _
  · assumption
  · exact lasts_call h _ _
  all_goals first | exact .refl _ | assumption

theorem lasts_rule (e : ExprId) : Lasts (rule ev bounds e) (rule ev bounds' e) := by
  refine .bind (.refl _) fun m => ?_
  dsimp only
  split
  · exact .refl _
  · split
    · exact .refl _
    · exact lasts_node h _

end Sets

theorem lasts_step (k : Kind) (e : ExprId) : Lasts (step ev bounds k e) (step ev bounds' k e) := by
  cases k with
  | int => exact Integers.lasts_rule h e
  | float => exact Floats.lasts_rule h e
  | intSet => exact Sets.lasts_rule h e

end Rules

-- An answer remains the answer with one more step.
theorem lasts_run (ev : Eval) (fuel : Nat) (k : Kind) (e : ExprId) : Lasts (run ev fuel k e) (run ev (fuel + 1) k e) := by
  induction fuel generalizing k e with
  | zero => exact fun _ _ _ h => nomatch h
  | succ fuel ih => exact lasts_step ih k e

end Bounds
end Parvar
