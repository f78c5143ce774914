import Parvar.Proofs.Eval.Success
import Parvar.Proofs.Eval.Walk

/-!
The limit on the depth of calls changes no result. An evaluation that comes to a value has met no
error on its way, so it takes the same steps under a higher limit and with more fuel, and leaves the
same model behind.
-/

namespace Parvar

namespace Lasts

variable {α : Type}

theorem within {span : Span} {c : EvalError.Context} {x y : EvalM α} (h : Lasts x y) :
    Lasts (EvalM.within span c x) (EvalM.within span c y) :=
  fun s a t ha => within_eq_ok.mpr (h s a t (within_eq_ok.mp ha))

theorem restoring {saved : List Eval.Saved} {x y : EvalM α} (h : Lasts x y) :
    Lasts (Eval.restoring saved x) (Eval.restoring saved y) := by
  intro s a t ha
  obtain ⟨u, hu, ht⟩ := Eval.restoring_eq_ok.mp ha
  exact Eval.restoring_eq_ok.mpr ⟨u, h s a u hu, ht⟩

theorem deeper {x y : EvalM α} (h : Lasts x y) : Lasts (Eval.deeper x) (Eval.deeper y) := by
  intro s a t ha
  obtain ⟨u, hu, ht⟩ := Eval.deeper_eq_ok.mp ha
  exact Eval.deeper_eq_ok.mpr ⟨u, h _ a u hu, ht⟩

end Lasts

namespace Eval

-- Whatever the first evaluator comes to, the second one does.
def Lasting (ev ev' : Eval) : Prop := ∀ t e, Lasts (ev t e) (ev' t e)

namespace Lasting

variable {ev ev' : Eval} {α : Type} (h : Lasting ev ev')
include h

theorem comparison : Comparison Lasts ev ev' where
  pure _ := .refl _
  fail _ _ := .refl _
  model := .refl _
  expr _ _ _ := .refl _
  bind := .bind
  elems ha hf := .bind (.bind ha fun _ => .refl _) (hf h)

-- A call that was not too deep is not too deep for a higher limit.
theorem call {limit limit' : Nat} (hl : limit ≤ limit') {f : FuncId} {args : List ExprId} {span : Span}
    {run run' : ExprId → EvalM α} (hr : ∀ e, Lasts (run e) (run' e)) :
    Lasts (call ev limit f args span run) (call ev' limit' f args span run') := by
  have c := h.comparison
  intro s a t ha
  obtain ⟨body, hb, hp, hd, values, u, saved, w, hv, hs, ha⟩ := call_eq_ok.mp ha
  refine call_eq_ok.mpr ⟨body, hb, hp, Nat.lt_of_lt_of_le hd hl, values, u, saved, w, ?_, hs, ?_⟩
  · exact c.mapM (fun a _ => h .residual a) s values u hv
  · refine Lasts.restoring (.deeper ?_) w a t ha
    exact .bind (c.forM fun p _ => c.checkParam h span p) fun _ => .bind (c.detach h body) hr

theorem eachAssignment {values : List ExprId} {next next' : Array α → EvalM (Array α)}
    (hn : ∀ out, Lasts (next out) (next' out)) (names : List DeclId) (out : Array α) :
    Lasts (eachAssignment values next names out) (eachAssignment values next' names out) := by
  induction names generalizing out with
  | nil => exact hn out
  | cons d names ih => exact h.comparison.foldlM fun out v _ => .bind (.refl _) fun _ => ih out

theorem eachBinding {guard : Option ExprId} {each each' : EvalM α} (he : Lasts each each')
    (generators : List Generator) (out : Array α) :
    Lasts (eachBinding ev guard each generators out) (eachBinding ev' guard each' generators out) := by
  induction generators generalizing out with
  | nil =>
    have hp (holds : Bool) : Lasts (if holds then do return out.push (← each) else return out)
        (if holds then do return out.push (← each') else return out) := by
      split
      · exact .bind he fun _ => .refl _
      · exact .refl _
    cases guard with
    | none => exact .bind (.refl _) hp
    | some g => exact .bind (h _ _) hp
  | cons g generators ih => exact .bind (h.comparison.sourceValues h g.source) fun values => h.eachAssignment ih g.decls out

theorem comprehension (c : Comprehension) {each each' : ExprId → EvalM α} (he : ∀ e, Lasts (each e) (each' e)) :
    Lasts (comprehension ev c each) (comprehension ev' c each') :=
  .bind (.refl _) fun _ => .bind (.restoring (h.eachBinding (he _) _ _)) fun _ => .refl _

theorem walks {limit limit' : Nat} (hl : limit ≤ limit') : Walks Lasts ev ev' limit limit' where
  toComparison := h.comparison
  asks := h
  within := .within
  ident k name d span := by
    refine .bind (.refl _) fun d => .bind (.refl _) fun m => ?_
    split
    · exact .refl _
    · exact .bind (h _ _) fun _ => .refl _
  lets _ _ := .bind (.refl _) fun _ => .restoring (h _ _)
  calls _ _ _ _ := h.call hl fun _ => h _ _
  comps _ c := h.comprehension c fun _ => h _ _

end Lasting

theorem lasting_run {limit limit' fuel fuel' : Nat} (hl : limit ≤ limit') (hf : fuel ≤ fuel') :
    Lasting (run limit fuel) (run limit' fuel') := by
  induction fuel generalizing fuel' with
  | zero => exact fun _ _ _ _ _ he => (throw_ne_ok.mp he).elim
  | succ fuel ih =>
    cases fuel' with
    | zero => exact absurd hf (Nat.not_succ_le_zero fuel)
    | succ fuel' => exact ((ih (Nat.le_of_succ_le_succ hf)).walks hl).step

theorem fuelFor_mono {limit limit' : Nat} (hl : limit ≤ limit') (m : Model) : fuelFor limit m ≤ fuelFor limit' m := by
  have h : limit + 2 ≤ limit' + 2 := Nat.add_le_add_right hl 2
  exact Nat.mul_le_mul_right _ (Nat.mul_le_mul h h)

end Eval

-- An evaluation that comes to a value comes to the same value, and leaves the same model behind, under
-- every higher limit on the depth of calls.
theorem depth_limit_irrelevant {m : Model} {t : Target} {e : ExprId} {limit limit' : Nat} {v : t.Out}
    (hl : limit ≤ limit') (hv : (m.evaluate t e limit).1 = .ok v) :
    (m.evaluate t e limit').1 = .ok v ∧ (m.evaluate t e limit').2 = (m.evaluate t e limit).2 := by
  obtain ⟨s, hs⟩ := runEval_eq_ok.mp hv
  have hs' := Eval.lasting_run hl (Eval.fuelFor_mono hl m) t e _ v s hs
  simp only [Model.evaluate, Model.runEval, hs, hs', and_self]

-- `function int: f(bool: b) = if b then 1 + f(false) else 0 endif;` and `int: x = f(true);`, beside a use
-- of `x`.
def descentModel : Model where
  exprs := #[{ kind := .bool true, ty := .parBool }, { kind := .call "f" [⟨0⟩] (some ⟨0⟩), ty := .parInt },
    { kind := .ident "b" (some ⟨1⟩), ty := .parBool }, { kind := .int 1, ty := .parInt },
    { kind := .bool false, ty := .parBool }, { kind := .call "f" [⟨4⟩] (some ⟨0⟩), ty := .parInt },
    { kind := .bin .add ⟨3⟩ ⟨5⟩ none, ty := .parInt }, { kind := .int 0, ty := .parInt },
    { kind := .ite [(⟨2⟩, ⟨6⟩)] ⟨7⟩, ty := .parInt }, { kind := .ident "x" (some ⟨0⟩), ty := .parInt }]
  decls := #[{ name := "x", ti := ⟨0⟩, init := some ⟨1⟩, ty := .parInt, toplevel := true },
    { name := "b", ti := ⟨1⟩, ty := .parBool }]
  typeInsts := #[{ ty := .parInt }, { ty := .parBool }, { ty := .parInt }]
  funcs := #[{ name := "f", params := [⟨1⟩], ret := ⟨2⟩, body := some ⟨8⟩ }]
  items := #[{ item := .func ⟨0⟩ }, { item := .decl ⟨0⟩ }]
  overloads := [("f", [⟨0⟩])]

-- Two calls are under way at once, which a limit of two allows; the value of `x` is then kept.
theorem depth_limit_irrelevant_descent :
    2 ≤ Eval.defaultLimit ∧ (descentModel.evaluate (.value .int) ⟨9⟩ 2).1 = .ok (1 : Int64) ∧
      ((descentModel.evaluate (.value .int) ⟨9⟩ 2).2.decl ⟨0⟩).evaluated = true ∧
      (descentModel.evaluate (.value .int) ⟨9⟩).1 = .ok (1 : Int64) ∧
      (descentModel.evaluate (.value .int) ⟨9⟩).2 = (descentModel.evaluate (.value .int) ⟨9⟩ 2).2 :=
  have hv : (descentModel.evaluate (.value .int) ⟨9⟩ 2).1 = .ok (1 : Int64) := by cbv
  ⟨by decide, hv, by cbv, depth_limit_irrelevant (by decide) hv⟩

example : (descentModel.evaluate (.value .int) ⟨9⟩ 1).1 =
    .error (.failed ⟨.tooDeep 1 "f", {}, #[⟨{}, .call "f"⟩, ⟨{}, .call "f"⟩, ⟨{}, .ident "x"⟩]⟩) := by
  cbv

end Parvar
