import Parvar.Proofs.Eval.Canonical
import Parvar.Proofs.IntSet.Card

/-!
Questions about sets. Two sets are compared by their elements, although what is compared are lists
of ranges, and the count of a set is the number of its elements, although it is computed in 64 bits.
-/

namespace Parvar

open Eval EvalM

-- What an operator says about the elements of two sets.
def BinOp.onElements? : BinOp → Option (IntSet → IntSet → Prop)
  | .eq => some fun a b => ∀ v, a.contains v ↔ b.contains v
  | .ne => some fun a b => ∃ v, ¬(a.contains v ↔ b.contains v)
  | .subset => some fun a b => ∀ v, a.contains v → b.contains v
  | .superset => some fun a b => ∀ v, b.contains v → a.contains v
  | _ => none

namespace Eval

variable {op : BinOp} {P : IntSet → IntSet → Prop} {a b : IntSet} {limit fuel : Nat} {s t : Machine} {e : ExprId}

section Comparison

theorem setRelation_of_elements (hop : op.onElements? = some P) (a b : IntSet) :
    ∃ truth, setRelation op a b = .ok truth ∧ (truth = true ↔ P a b) := by
  cases op <;> cases hop
  case eq => exact ⟨_, rfl, by simp [IntSet.cmp_eq, IntSet.eq_iff_contains]⟩
  case ne =>
    refine ⟨_, rfl, ?_⟩
    simp only [decide_eq_true_eq, ne_eq, Option.some.injEq, IntSet.cmp_eq, IntSet.eq_iff_contains, not_forall]
  case subset => exact ⟨_, rfl, IntSet.subset_iff⟩
  case superset => exact ⟨_, rfl, IntSet.subset_iff⟩

-- An operator on elements is none of those that look at one operand first.
theorem boolNode_of_elements (ev : Eval) (hop : op.onElements? = some P) (l r : ExprId) (fn : Option FuncId)
    (span : Span) :
    boolNode ev (.bin op l r fn) span = (do
      let m ← model
      let x ← ev.residual l
      let y ← ev.residual r
      ofCause span (truth (← model) (m.ty l).isAnn op x y)) := by
  refine bind_congr fun m => ?_
  dsimp only
  split
  case h_5 => rfl
  all_goals cases hop

theorem truth_of_sets {m : Model} {isAnn : Bool} {x y : ExprId} (hx : m.kind x = .intSet a)
    (hy : m.kind y = .intSet b) : truth m isAnn op x y = setRelation op a b := by
  simp [truth, hx, hy, ExprKind.isAbsent]

-- What remains of a set is the set, in the same node or in a new one.
theorem residual_set (limit fuel : Nat) (hk : s.model.kind e = .intSet a) (hty : (s.model.ty e).isSetTy) :
    ∃ r t, (run limit (fuel + 2)).residual e s = .ok r t ∧ s.model.Grows t.model ∧ t.model.kind r = .intSet a := by
  have hk' : (s.model.expr e).kind = .intSet a := hk
  cases hl : literalKind? (s.model.ty e) with
  | none =>
    refine ⟨e, s, ?_, .refl _, hk⟩
    have hdim : (s.model.expr e).ty.dim = 0 := by
      simp only [Ty.isSetTy, Bool.and_eq_true, decide_eq_true_eq] at hty
      exact hty.1
    change residualStep _ _ e s = _
    rw [residualStep, model_bind]
    simp only [hk', residualByType_eq hdim, show literalKind? (s.model.expr e).ty = none from hl, residualNode]
    rfl
  | some k =>
    have hset : k = .intSet ∨ k = .boolSet := by
      rw [literalKind_set hty hl]
      split <;> simp
    have hlit : (k.literal? e (s.model.kind e)).isSome := by
      rw [hk]
      obtain rfl | rfl := hset <;> rfl
    have hne : k ≠ .array := by
      obtain rfl | rfl := hset <;> simp
    have hx := scalar_of_literal (scalarKind_eq_some.mpr ⟨hl, hne⟩) hlit
    obtain ⟨r, t, hr, hg, hrt⟩ := residual_scalar limit fuel hx
    exact ⟨r, t, hr, hg, (scalar_cases hrt).1.symm.trans hk⟩

theorem run_comparison (limit fuel : Nat) {l r : ExprId} (hop : op.onElements? = some P) (he : s.model.kind e = .bin op l r none)
    (hl : s.model.kind l = .intSet a) (hlt : (s.model.ty l).isSetTy)
    (hr : s.model.kind r = .intSet b) (hrt : (s.model.ty r).isSetTy) :
    ∃ (truth : Bool) (t : Machine), run limit (fuel + 3) (.value .bool) e s = .ok truth t ∧ (truth = true ↔ P a b) := by
  obtain ⟨x, u, hx, hsu, hxa⟩ := residual_set limit fuel hl hlt
  have hr' := Model.lt_of_kind_ne_anon (m := s.model) (e := r) (by simp [hr])
  obtain ⟨y, t, hy, hut, hyb⟩ := residual_set (s := u) limit fuel ((hsu.kind_eq hr').trans hr)
    (by rw [hsu.ty_eq hr']; exact hrt)
  have hxt : t.model.kind x = .intSet a := (hut.kind_eq (Model.lt_of_kind_ne_anon (by simp [hxa]))).trans hxa
  obtain ⟨truth, ht, hiff⟩ := setRelation_of_elements hop a b
  refine ⟨truth, t, ?_, hiff⟩
  change valueStep (run limit (fuel + 2)) limit .bool e s = _
  rw [valueStep_eq rfl, he]
  have hnode : node (run limit (fuel + 2)) .bool (s.model.expr e) = boolNode (run limit (fuel + 2)) (.bin op l r none)
      (s.model.expr e).span := by rw [← he]; rfl
  refine (compound_bin (x := s.model.expr e) he rfl).mpr ⟨rfl, ?_⟩
  rw [hnode, boolNode_of_elements _ hop, model_bind, bind_of_ok hx, bind_of_ok hy, model_bind, truth_of_sets hxt hyb]
  exact ofCause_eq_ok.mpr ⟨ht, rfl⟩

end Comparison

section Count

variable {x : ExprId} {fn : Option FuncId} {set : IntSet}

-- A set is counted after its elements have been evaluated, and the count has to fit.
theorem run_card (he : s.model.kind e = .call "card" [x] fn) (hf : s.model.withBody? fn = none)
    (hty : (s.model.ty e).isBool = false)
    (hx : (if (s.model.ty x).base = .bool then (run limit fuel).boolSet x else (run limit fuel).intSet x) s =
      .ok set t) :
    run limit (fuel + 1) (.value .int) e s =
      within (s.model.expr e).span (.call "card")
        (ofCause (s.model.expr e).span (overflowing (Checked.ofInt? set.card))) t := by
  have hcard : Eval.card (run limit fuel) x s = .ok set.card t := by
    simp only [Eval.card, model_bind]
    split at hx
    · next hb => simp [hb, hx]
    · next hb => simp [hb, hx]
  change valueStep (run limit fuel) limit .int e s = _
  rw [valueStep_eq (by simp [fromSmaller?, hty]), he]
  simp only [ValueKind.literal?]
  rw [compound_builtin he hf]
  simp only [within, builtin, intBuiltin, bind_of_ok hcard]
  rfl

-- A count that fits is given as it is, and any other one overflows.
theorem within_count {n : Nat} {span : Span} {c : EvalError.Context} :
    (n ≤ Int64.maxValue.toInt →
      ∃ v : Int64, within span c (ofCause span (overflowing (Checked.ofInt? n))) t = .ok v t ∧ v.toInt = n) ∧
    (Int64.maxValue.toInt < n →
      within span c (ofCause span (overflowing (Checked.ofInt? n))) t =
        .error (.failed { cause := .overflow, span, trace := #[⟨span, c⟩] }) t) := by
  have hmax : Int64.maxValue.toInt = 2 ^ 63 - 1 := by decide
  rw [hmax]
  constructor
  · intro hn
    cases hv : Checked.ofInt? n with
    | none => rcases Checked.ofInt?_eq_none.mp hv with h | h <;> omega
    | some v => exact ⟨v, rfl, Checked.ofInt?_eq_some.mp hv⟩
  · intro hn
    rw [Checked.ofInt?_eq_none.mpr (.inr (by omega))]
    rfl

end Count
end Eval

-- Sets are equal if their elements are, one is a subset of another if its elements are, and operators
-- on two sets that are written out are true or false accordingly.
theorem sets_compared_by_elements (a b : IntSet) :
    (a = b ↔ ∀ v, a.contains v ↔ b.contains v) ∧
    (a.subset b ↔ ∀ v, a.contains v → b.contains v) ∧
    ∀ {m : Model} {e l r : ExprId} {op : BinOp} {P : IntSet → IntSet → Prop} (limit : Nat),
      op.onElements? = some P → m.kind e = .bin op l r none →
      m.kind l = .intSet a → (m.ty l).isSetTy → m.kind r = .intSet b → (m.ty r).isSetTy →
      ∃ (truth : Bool) (m' : Model),
        m.evaluate (.value .bool) e limit = (.ok truth, m') ∧ (truth = true ↔ P a b) := by
  refine ⟨IntSet.eq_iff_contains, IntSet.subset_iff, ?_⟩
  intro m e l r op P limit hop he hl hlt hr hrt
  obtain ⟨n, hn⟩ := fuelFor_eq_add limit m
  obtain ⟨truth, t, ht, hiff⟩ := run_comparison limit n (s := { model := m }) hop he hl hlt hr hrt
  exact ⟨truth, t.model, evaluate_eq_ok.mpr ⟨t, by rw [hn]; exact ht, rfl⟩, hiff⟩

section Overlap

-- `{1, 3} subset 1..3` and `{3, 1, 2} = 1..3`.
def overlapModel : Model where
  exprs := #[{ kind := .intSet (.ofValues [1, 3]), ty := .parSetInt },
    { kind := .intSet (.ofValues [3, 1, 2]), ty := .parSetInt }, { kind := .intSet (.range 1 3), ty := .parSetInt },
    { kind := .bin .subset ⟨0⟩ ⟨2⟩ none, ty := .parBool }, { kind := .bin .eq ⟨1⟩ ⟨2⟩ none, ty := .parBool }]

-- The first set has two ranges within the one of the last, and the second was put together from three.
theorem sets_compared_by_elements_overlap :
    (∃ m, overlapModel.evaluate (.value .bool) ⟨3⟩ = (.ok true, m)) ∧
      ∃ m, overlapModel.evaluate (.value .bool) ⟨4⟩ = (.ok true, m) := by
  have hsub : ∀ v, (IntSet.ofValues [1, 3]).contains v → (IntSet.range 1 3).contains v := by
    intro v hv
    rw [IntSet.contains_ofValues] at hv
    rw [IntSet.contains_range]
    fin_cases hv <;> decide
  have heq : ∀ v, (IntSet.ofValues [3, 1, 2]).contains v ↔ (IntSet.range 1 3).contains v := by
    intro v
    rw [show IntSet.ofValues [3, 1, 2] = IntSet.range 1 3 by cbv]
  obtain ⟨truth, m, hm, hiff⟩ := (sets_compared_by_elements _ _).2.2 (m := overlapModel) (e := ⟨3⟩) 256 rfl rfl rfl rfl
    rfl rfl
  obtain ⟨truth', m', hm', hiff'⟩ := (sets_compared_by_elements _ _).2.2 (m := overlapModel) (e := ⟨4⟩) 256 rfl rfl rfl
    rfl rfl rfl
  rw [hiff.mpr hsub] at hm
  rw [hiff'.mpr heq] at hm'
  exact ⟨⟨m, hm⟩, m', hm'⟩

end Overlap

-- Of all sets only that of every integer is miscounted, and no sum on the way overflows. A call that
-- counts a set comes to the number of its elements, or overflows if there are too many of them.
theorem count_exact (set : IntSet) :
    (set.card = {v | set.contains v}.ncard ↔ set ≠ .full) ∧
    (set ≠ .full →
      set.card = (set.ranges.map Range.width).sum ∧ (set.ranges.map Range.width).sum < 2 ^ 64 ∧
      ∀ (limit fuel : Nat) {s t : Machine} {e x : ExprId} {fn : Option FuncId},
        s.model.kind e = .call "card" [x] fn → s.model.withBody? fn = none → (s.model.ty e).isBool = false →
        (if (s.model.ty x).base = .bool then (run limit fuel).boolSet x else (run limit fuel).intSet x) s =
          .ok set t →
        ({v | set.contains v}.ncard ≤ Int64.maxValue.toInt →
          ∃ v : Int64, run limit (fuel + 1) (.value .int) e s = .ok v t ∧ v.toInt = {v | set.contains v}.ncard) ∧
        (Int64.maxValue.toInt < {v | set.contains v}.ncard →
          run limit (fuel + 1) (.value .int) e s = .error (.failed {
            cause := .overflow
            span := (s.model.expr e).span
            trace := #[⟨(s.model.expr e).span, .call "card"⟩] }) t)) := by
  refine ⟨IntSet.card_eq_ncard_iff, fun hs => ⟨IntSet.card_eq_sum hs, IntSet.widths_lt hs, ?_⟩⟩
  intro limit fuel s t e x fn he hf hty hx
  rw [run_card he hf hty hx, IntSet.card_eq_ncard hs]
  exact within_count

section Gap

-- Every integer but 0.
def gapSet : IntSet :=
  ⟨[⟨Int64.minValue, -1⟩, ⟨1, Int64.maxValue⟩], by decide, by decide, show (1 : Int64) ≤ Int64.maxValue by decide⟩

-- From 1 to 3, and 7.
def smallSet : IntSet := ⟨[⟨1, 3⟩, ⟨7, 7⟩], by decide, by decide, show (7 : Int64) ≤ 7 by decide⟩

def gapModel : Model where
  exprs := #[{ kind := .intSet gapSet, ty := .parSetInt }, { kind := .call "card" [⟨0⟩] none, ty := .parInt },
    { kind := .intSet smallSet, ty := .parSetInt }, { kind := .call "card" [⟨2⟩] none, ty := .parInt }]

theorem count_exact_gap :
    gapSet ≠ .full ∧ smallSet ≠ .full ∧
      (gapModel.evaluate (.value .int) ⟨1⟩).1 =
        .error (.failed { cause := .overflow, span := default, trace := #[⟨default, .call "card"⟩] }) ∧
      (gapModel.evaluate (.value .int) ⟨3⟩).1 = .ok (4 : Int64) := by
  have hgap : gapSet ≠ .full := IntSet.ne_full (by decide)
  have hsmall : smallSet ≠ .full := IntSet.ne_full (by decide)
  obtain ⟨n, hn⟩ := fuelFor_eq_add defaultLimit gapModel
  have hrun (e : ExprId) : gapModel.evaluate (.value .int) e =
      gapModel.runEval (run defaultLimit (n + 3) (.value .int) e) := by rw [Model.evaluate, hn]
  have hmany : Int64.maxValue.toInt < {v | gapSet.contains v}.ncard := by
    rw [gapSet.ncard_eq_length_values, gapSet.length_values]
    decide
  have hfew : {v | smallSet.contains v}.ncard = 4 := by
    rw [smallSet.ncard_eq_length_values, smallSet.length_values]
    decide
  have hover := (((count_exact gapSet).2 hgap).2.2 defaultLimit (n + 2) (s := { model := gapModel }) (e := ⟨1⟩) rfl rfl
    rfl rfl).2 hmany
  obtain ⟨v, hv, hcount⟩ :=
    (((count_exact smallSet).2 hsmall).2.2 defaultLimit (n + 2) (s := { model := gapModel }) (e := ⟨3⟩) rfl rfl
      rfl rfl).1 (by rw [hfew]; decide)
  obtain rfl : v = 4 := Int64.toInt_inj.mp (by rw [hcount, hfew]; decide)
  refine ⟨hgap, hsmall, ?_, ?_⟩
  · rw [hrun, Model.runEval, hover]
    rfl
  · rw [hrun, Model.runEval, hv]

end Gap
end Parvar
