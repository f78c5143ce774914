import Parvar.Bounds.Run
import Parvar.Proofs.Eval.Frame

/-!
An analysis of bounds changes a model only by evaluating expressions of it, one after the other.
-/

namespace Parvar

-- The states that evaluating expressions leads to, whether they have values or not.
inductive Eval.Reached (ev : Eval) (m : Model) : Machine → Prop
  | start : Reached ev m { model := m }
  | next {s} (t : Target) (e : ExprId) : Reached ev m s → Reached ev m (final (ev t e) s)

namespace Bounds

open EvalM Eval

variable {ev : Eval} {bounds : Analysis} {R : Machine → Machine → Prop} [Std.Refl R]
  [IsTrans Machine R] {α β : Type}

section Optional

theorem keeps_optional_bind {x : OptionT EvalM α} {f : α → OptionT EvalM β} (hx : Keeps R x.run)
    (hf : ∀ a, Keeps R (f a).run) : Keeps R (x >>= f).run := by
  refine Keeps.bind hx fun a => ?_
  cases a with
  | none => exact .pure _
  | some a => exact hf a

omit [IsTrans Machine R] in
theorem keeps_optional_pure (a : α) : Keeps R (pure a : OptionT EvalM α).run := Keeps.pure _

theorem keeps_optional_mapM {f : α → OptionT EvalM β} (hf : ∀ a, Keeps R (f a).run) :
    ∀ as : List α, Keeps R (as.mapM f).run
  | [] => keeps_optional_pure _
  | a :: as => by
    rw [List.mapM_cons]
    refine keeps_optional_bind (hf a) fun _ => ?_
    exact keeps_optional_bind (keeps_optional_mapM hf as) fun _ => keeps_optional_pure _

theorem keeps_optional_foldlM {f : β → α → OptionT EvalM β} (hf : ∀ b a, Keeps R (f b a).run) :
    ∀ (as : List α) (b : β), Keeps R (as.foldlM f b).run
  | [], b => keeps_optional_pure b
  | a :: as, b => by
    rw [List.foldlM_cons]
    exact keeps_optional_bind (hf b a) fun b => keeps_optional_foldlM hf as b

theorem keeps_optional_model : Keeps R (liftM model : OptionT EvalM Model).run :=
  .bind keeps_model fun _ => .pure _

omit [IsTrans Machine R] in
theorem keeps_optional_guard (p : Prop) [Decidable p] :
    Keeps R (guard p : OptionT EvalM Unit).run := by
  unfold guard
  split
  · exact keeps_optional_pure _
  · exact Keeps.pure none

end Optional

section Parts

variable (h : ∀ t e, Keeps R (ev t e))
include h

theorem keeps_valuesOf (k : ValueKind) (es : List ExprId) : Keeps R (valuesOf? ev k es) :=
  keeps_attempt (.mapM fun _ _ => h _ _)

theorem keeps_fixedElement (d : DeclId) (indices : List ExprId) :
    Keeps R (fixedElement? ev d indices) := by
  refine .bind keeps_model fun m => ?_
  split
  · exact .pure _
  · split
    · refine .bind (keeps_valuesOf h _ _) fun is => ?_
      split
      · exact .pure _
      · exact .pure _
    · exact .pure _

theorem keeps_elemsOf (array : ExprId) : Keeps R (elemsOf? ev array) :=
  .bind (keeps_attempt (keeps_arrayElems h _)) fun _ => .pure _

theorem keeps_coefficientsOf (k : ValueKind) (one : k.Val) (xs : List ExprId) (o : Option ExprId) :
    Keeps R (coefficientsOf ev k one xs o).run := by
  cases o with
  | none => exact keeps_optional_pure _
  | some array => exact keeps_optional_bind (keeps_elemsOf h _) fun _ => keeps_valuesOf h _ _

omit [IsTrans Machine R] in
theorem keeps_constantOf (k : ValueKind) (zero : k.Val) (o : Option ExprId) :
    Keeps R (constantOf ev k zero o).run := by
  cases o with
  | none => exact keeps_optional_pure _
  | some e => exact keeps_attempt (h _ _)

theorem keeps_linear (k : ValueKind) (one zero : k.Val) (coefficients : Option ExprId)
    (array : ExprId) (constant : Option ExprId) :
    Keeps R (linear? ev k one zero coefficients array constant) := by
  refine keeps_optional_bind keeps_optional_model fun m => ?_
  refine keeps_optional_bind (keeps_optional_guard _) fun _ => ?_
  refine keeps_optional_bind (keeps_elemsOf h _) fun xs => ?_
  refine keeps_optional_bind (keeps_coefficientsOf h _ _ _ _) fun as => ?_
  refine keeps_optional_bind (keeps_constantOf h _ _ _) fun c => ?_
  exact keeps_optional_bind (keeps_optional_guard _) fun _ => keeps_optional_pure _

variable {bound : ExprId → EvalM (Option α)} (hb : ∀ e, Keeps R (bound e)) {hull : α → α → α}
include hb

theorem keeps_branches (otherwise : ExprId) :
    ∀ (acc : Option α) (bs : List (ExprId × ExprId)),
      Keeps R (branches ev bound hull otherwise acc bs)
  | acc, [] => .bind (hb _) fun _ => .pure _
  | acc, (cond, branch) :: rest => by
    have hj : Keeps R (do return (← bound branch).bind fun b => acc.map (hull · b)) :=
      .bind (hb _) fun _ => .pure _
    refine .bind keeps_model fun m => ?_
    dsimp only
    split
    · refine .bind (keeps_attempt (h _ _)) fun c => ?_
      split
      · exact hj
      · exact keeps_branches otherwise acc rest
      · exact .pure _
    · exact .bind hj fun _ => keeps_branches otherwise _ rest

omit h in
theorem keeps_both (l r : ExprId) (f : α → α → Option α) : Keeps R (both bound l r f) :=
  .bind (hb _) fun _ => .bind (hb _) fun _ => .pure _

variable {ofDomain : ExprId → EvalM (Option α)} (hd : ∀ e, Keeps R (ofDomain e))
include hd

omit h in
theorem keeps_ofDecl (d : DeclId) : Keeps R (ofDecl bound ofDomain d) := by
  refine .bind keeps_model fun m => ?_
  dsimp only
  split
  · exact hd _
  · exact hb _
  · exact .pure _

theorem keeps_ofAccess (array : ExprId) (indices : List ExprId) :
    Keeps R (ofAccess ev bound ofDomain array indices) := by
  refine .bind keeps_model fun m => ?_
  split
  · exact .pure _
  · refine .bind (keeps_fixedElement h _ _) fun e => ?_
    split
    · exact hb _
    · refine .bind keeps_model fun m => ?_
      split
      · exact hd _
      · exact .pure _

end Parts

section Rules

variable (h : ∀ t e, Keeps R (ev t e)) (hb : ∀ k e, Keeps R (bounds k e))
include h hb

namespace Integers

omit hb in
theorem keeps_ofDomain (e : ExprId) : Keeps R (ofDomain ev e) :=
  .bind (keeps_attempt (h _ _)) fun _ => .pure _

theorem keeps_linear (coefficients : Option ExprId) (array : ExprId) (constant : Option ExprId) :
    Keeps R (linear ev bounds coefficients array constant) := by
  refine .bind (Bounds.keeps_linear h _ _ _ _ _ _) fun l => ?_
  split
  · refine keeps_optional_foldlM (fun _ _ => ?_) _ _
    exact keeps_optional_bind (hb _ _) fun _ => .pure _
  · exact .pure _

theorem keeps_call (name : String) (args : List ExprId) : Keeps R (call ev bounds name args) := by
  unfold call
  split
  · exact keeps_linear h hb _ _ _
  · exact keeps_linear h hb _ _ _
  · exact .bind (hb _ _) fun _ => .pure _
  · exact keeps_both (hb _) _ _ _
  · exact .pure _
  · exact .bind (hb _ _) fun _ => .pure _
  · exact keeps_both (hb _) _ _ _
  · exact keeps_both (hb _) _ _ _
  · exact .pure _

theorem keeps_node (kind : ExprKind) : Keeps R (node ev bounds kind) := by
  unfold node
  split
  · exact keeps_ofDecl (hb _) (keeps_ofDomain h) _
  · refine .bind (.mapM fun _ _ => hb _ _) fun _ => ?_
    exact .bind (keeps_ofAccess h (hb _) (keeps_ofDomain h) _ _) fun _ => .pure _
  · exact keeps_both (hb _) _ _ _
  · exact .bind (hb _ _) fun _ => .pure _
  · exact keeps_call h hb _ _
  · exact .pure _

theorem keeps_rule (e : ExprId) : Keeps R (rule ev bounds e) := by
  refine .bind keeps_model fun m => ?_
  dsimp only
  split
  · exact .pure _
  · split
    · split
      · exact .pure _
      · exact .bind (keeps_attempt (h _ _)) fun _ => .pure _
    · split
      · exact keeps_branches h (hb _) _ _ _
      · split
        · exact keeps_node h hb _
        · exact .pure _

end Integers

namespace Floats

omit hb in
theorem keeps_ofDomain (e : ExprId) : Keeps R (ofDomain ev e) := by
  refine .bind keeps_model fun m => ?_
  split
  · exact keeps_attempt (.bind (h _ _) fun _ => .bind (h _ _) fun _ => .pure _)
  · exact .pure _

theorem keeps_linear (coefficients : Option ExprId) (array : ExprId) (constant : Option ExprId) :
    Keeps R (linear ev bounds coefficients array constant) := by
  refine .bind (Bounds.keeps_linear h _ _ _ _ _ _) fun l => ?_
  split
  · refine .bind (keeps_optional_foldlM (fun _ _ => ?_) _ _) fun _ => .pure _
    exact keeps_optional_bind (hb _ _) fun _ => .pure _
  · exact .pure _

theorem keeps_call (name : String) (args : List ExprId) : Keeps R (call ev bounds name args) := by
  unfold call
  split
  · exact .bind (hb _ _) fun _ => .pure _
  · exact .pure _
  · exact .bind (hb _ _) fun _ => .pure _
  · exact keeps_linear h hb _ _ _
  · exact keeps_linear h hb _ _ _
  · exact .pure _

theorem keeps_node (kind : ExprKind) : Keeps R (node ev bounds kind) := by
  unfold node
  split
  · exact keeps_ofDecl (hb _) (keeps_ofDomain h) _
  · exact keeps_ofAccess h (hb _) (keeps_ofDomain h) _ _
  · exact keeps_both (hb _) _ _ _
  · exact .bind (hb _ _) fun _ => .pure _
  · exact keeps_call h hb _ _
  · exact .pure _

theorem keeps_rule (e : ExprId) : Keeps R (rule ev bounds e) := by
  refine .bind keeps_model fun m => ?_
  dsimp only
  split
  · exact .pure _
  · split
    · split
      · exact .pure _
      · exact .bind (keeps_attempt (h _ _)) fun _ => .pure _
    · split
      · exact keeps_branches h (hb _) _ _ _
      · split
        · exact keeps_node h hb _
        · exact .pure _

end Floats

namespace Sets

omit h in
theorem keeps_call (name : String) (args : List ExprId) : Keeps R (call bounds name args) := by
  fun_cases call
  · exact keeps_both (hb _) _ _ _
  · exact keeps_both (hb _) _ _ _
  · exact hb _ _
  · exact .pure _

omit h in
theorem keeps_elems (es : List ExprId) : Keeps R (elems bounds es) := by
  refine keeps_optional_bind (keeps_optional_mapM (fun _ => ?_) _) fun _ => keeps_optional_pure _
  refine keeps_optional_bind (hb _ _) fun _ => ?_
  exact keeps_optional_bind (.pure _) fun _ => keeps_optional_pure _

theorem keeps_node (kind : ExprKind) : Keeps R (node ev bounds kind) := by
  have hd (e : ExprId) : Keeps R (ofDomain ev e) := keeps_attempt (h _ _)
  have hr (l r : ExprId) : Keeps R (range bounds l r) :=
    .bind (hb _ _) fun _ => .bind (hb _ _) fun _ => .pure _
  unfold node
  split
  · exact keeps_elems hb _
  · exact keeps_ofDecl (hb _) hd _
  · exact keeps_ofAccess h (hb _) hd _ _
  · exact hr _ _
  · exact keeps_both (hb _) _ _ _
  · exact keeps_call hb _ _
  · exact .pure _

theorem keeps_rule (e : ExprId) : Keeps R (rule ev bounds e) := by
  refine .bind keeps_model fun m => ?_
  dsimp only
  split
  · exact .pure _
  · split
    · exact keeps_attempt (h _ _)
    · exact keeps_node h hb _

end Sets

theorem keeps_step : ∀ k e, Keeps R (step ev bounds k e)
  | .int, e => Integers.keeps_rule h hb e
  | .float, e => Floats.keeps_rule h hb e
  | .intSet, e => Sets.keeps_rule h hb e

end Rules

theorem keeps_run (h : ∀ t e, Keeps R (ev t e)) : ∀ fuel k e, Keeps R (run ev fuel k e)
  | 0 => fun _ _ => .throw _
  | fuel + 1 => keeps_step h (keeps_run h fuel)

end Bounds

namespace Eval

-- From a state that is reached, only such states are reached.
def Leads (ev : Eval) (m : Model) (s t : Machine) : Prop := ev.Reached m s → ev.Reached m t

instance (ev : Eval) (m : Model) : Std.Refl (Leads ev m) := ⟨fun _ => id⟩

instance (ev : Eval) (m : Model) : IsTrans Machine (Leads ev m) := ⟨fun _ _ _ h₁ h₂ => h₂ ∘ h₁⟩

variable {ev : Eval} {m : Model}

theorem keeps_leads (t : Target) (e : ExprId) : Keeps (Leads ev m) (ev t e) :=
  fun _ hs => .next t e hs

-- Where all evaluations leave things as they were, all reached states are as the first one.
theorem Reached.of_keeps {R : Machine → Machine → Prop} [Std.Refl R] [IsTrans Machine R]
    (h : ∀ t e, Keeps R (ev t e)) {s : Machine} (hs : ev.Reached m s) : R { model := m } s := by
  induction hs with
  | start => exact Std.Refl.refl _
  | next t e _ ih => exact IsTrans.trans _ _ _ ih (h t e _)

end Eval
end Parvar
