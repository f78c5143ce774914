import Parvar.Proofs.Arithmetic.Typed
import Parvar.Proofs.Checked

/-!
Closed arithmetic that is accepted evaluates to what it means: to its value, or to the first error,
at the place where that comes up.
-/

namespace Parvar

open Eval EvalM Arith

variable {α β γ δ : Type} {m m₁ m₂ m' : Model} {e o : ExprId} {bs : List (ExprId × ExprId)} {a : Arith}
  {k κ : Scalar} {n : Nat} {s t : Machine}

section Outcomes

-- A step ends in a result that stands for a given one, or else in the given error.
inductive Yields (P : Model → α → β → Prop) (x : EvalM α) (s : Machine) : Except Failure β → Prop
  | ok {a b t} : x s = .ok a t → s.model.Adds t.model → P t.model a b → Yields P x s (.ok b)
  | error {err t f} : x s = .error (.failed err) t → err.cause = f.cause → err.span = f.span →
      Yields P x s (.error f)

variable {P : Model → α → β → Prop} {Q : Model → γ → δ → Prop}

theorem Yields.congr {x y : EvalM α} {r : Except Failure β} (hx : Yields P x s r) (h : y s = x s) :
    Yields P y s r := by
  cases hx with
  | ok hx hl hp => exact .ok (h.trans hx) hl hp
  | error hx hc hs => exact .error (h.trans hx) hc hs

theorem Yields.bind {x : EvalM α} {f : α → EvalM γ} {r : Except Failure β} {g : β → Except Failure δ}
    (hx : Yields P x s r) (hf : ∀ a b t, s.model.Adds t.model → P t.model a b → Yields Q (f a) t (g b)) :
    Yields Q (x >>= f) s (r >>= g) := by
  cases hx with
  | @error err t _ hx hc hs =>
    have heq : (x >>= f) s = .error (.failed err) t := by simp [Bind.bind, EStateM.bind, hx]
    exact .error heq hc hs
  | @ok a b t hx hl hp =>
    have heq : (x >>= f) s = f a t := by simp [Bind.bind, EStateM.bind, hx]
    have h := hf a b t hl hp
    show Yields Q (x >>= f) s (g b)
    generalize g b = r at h ⊢
    cases h with
    | ok hf hl' hq => exact .ok (heq.trans hf) (hl.trans hl') hq
    | error hf hc hs => exact .error (heq.trans hf) hc hs

theorem Yields.pure {a : α} {b : β} (h : P s.model a b) : Yields P (pure a) s (.ok b) :=
  .ok rfl (.refl _) h

theorem Yields.within {span : Span} {c : EvalError.Context} {x : EvalM α} {r : Except Failure β}
    (hx : Yields P x s r) : Yields P (within span c x) s r := by
  cases hx with
  | ok hx hl hp => exact .ok (within_eq_ok.mpr hx) hl hp
  | @error err t _ hx hc hs =>
    have heq : EvalM.within span c x s = .error (.failed (err.within ⟨span, c⟩)) t := by
      simp only [EvalM.within, hx]
      rfl
    exact .error heq hc hs

end Outcomes

section Values

-- A value stands for the number that it is.
def Scalar.Is (k : Scalar) (_ : Model) (v : k.kind.Val) (n : Int) : Prop := k.number v = n

-- A literal stands for the number that its value is.
def Scalar.IsLiteral (m : Model) (e : ExprId) (n : Int) : Scalar → Prop
  | int => ∃ v, m.kind e = .int v ∧ v.toInt = n
  | bool => ∃ b, m.kind e = .bool b ∧ b.toInt = n

theorem Scalar.IsLiteral.adds {n : Int} (hm : m.Adds m₁) (h : k.IsLiteral m e n) : k.IsLiteral m₁ e n := by
  have hkind : m.kind e ≠ .anon → m₁.kind e = m.kind e := fun h => hm.grows.kind_eq (Model.lt_of_kind_ne_anon h)
  cases k <;> obtain ⟨v, he, hn⟩ := h <;> exact ⟨v, (hkind (by simp [he])).trans he, hn⟩

-- Arithmetic on words is arithmetic on integers, as far as it fits.
theorem overflowing_yields {span : Span} {r : Option Int64} {n : Int} (h : ∀ v, r = some v ↔ v.toInt = n) :
    Yields (Scalar.Is .int) (ofCause span (overflowing r)) s (fit span n) := by
  by_cases hn : -2 ^ 63 ≤ n ∧ n < 2 ^ 63
  · obtain rfl : r = some (Int64.ofInt n) := (h _).mpr (Int64.toInt_ofInt_of_le hn.1 hn.2)
    rw [fit, if_pos hn]
    exact .pure ((h _).mp rfl)
  · have hr : r = none := by
      cases r with
      | none => rfl
      | some v => exact absurd ((h v).mp rfl ▸ toInt_range v) hn
    rw [hr, fit, if_neg hn]
    exact .error rfl rfl rfl

theorem divisor_yields {span : Span} {b : Int64} {r : Except EvalError.Cause Int64} {v : Except Failure Int}
    (h : b ≠ 0 → Yields (Scalar.Is .int) (ofCause span r) s v) :
    Yields (α := Int64) (Scalar.Is .int) (ofCause span (if b = 0 then .error .divisionByZero else r)) s
      (nonzero span b.toInt >>= fun _ => v) := by
  by_cases hb : b = 0
  · subst hb
    exact .error rfl rfl rfl
  · rw [if_neg hb, nonzero, if_neg (Checked.toInt_eq_zero.not.mpr hb)]
    exact h hb

theorem intOp_yields {op : Arith.Op} {span : Span} {a b : Int64} (h : op.scalars .int .int = some (.int, .int)) :
    Yields (Scalar.Is .int) (ofCause span (intOp op.symbol a b)) s
      (op.meaning span (.ok a.toInt) (.ok b.toInt)) := by
  cases op
  case add => exact overflowing_yields fun _ => Checked.add_eq_some
  case sub => exact overflowing_yields fun _ => Checked.sub_eq_some
  case mul => exact overflowing_yields fun _ => Checked.mul_eq_some
  case div =>
    refine divisor_yields fun hb => overflowing_yields fun v => ?_
    rw [Checked.div_eq_some, and_iff_right hb]
  case mod =>
    refine divisor_yields fun hb => ?_
    have hsome : ∀ v, Checked.mod a b = some v ↔ _ := fun v => Checked.mod_eq_some_iff
    by_cases hmin : a.toInt = -2 ^ 63 ∧ b.toInt = -1
    · have hnone : Checked.mod a b = none :=
        Option.eq_none_iff_forall_ne_some.mpr fun v hv => ((hsome v).mp hv).2.1 hmin
      rw [if_pos hmin, hnone]
      exact .error rfl rfl rfl
    · have ⟨hl, hu⟩ := Checked.fits_iff.mp
        (Checked.fits_tmod (x := a.toInt) (Checked.toInt_eq_zero.not.mpr hb) (Checked.fits_iff.mpr (toInt_range b)))
      have hv := Int64.toInt_ofInt_of_le hl hu
      rw [if_neg hmin, (hsome _).mpr ⟨hb, hmin, hv⟩]
      exact .pure hv
  all_goals cases h

-- Orders of words and of truth values are orders of numbers.
theorem compare_toInt (a b : Int64) : compare a b = compare a.toInt b.toInt := by
  simp only [compare, compareOfLessAndEq, Int64.lt_iff_toInt_lt, ← Int64.toInt_inj]

theorem truth_eq_toInt (p : Prop) [Decidable p] : Arith.truth p = (decide p).toInt := by
  by_cases hp : p <;> simp [Arith.truth, hp]

theorem relation_meaning {op : Arith.Op} (span : Span) (x y : Int)
    (h : op.scalars .int .int = some (.int, .bool)) :
    ∃ v, relation op.symbol (some (compare x y)) = .ok v ∧ op.meaning span (.ok x) (.ok y) = .ok v.toInt := by
  cases op
  case lt | le | gt | ge | eq | ne =>
    refine ⟨_, rfl, congrArg Except.ok ((truth_eq_toInt _).trans (congrArg Bool.toInt ?_))⟩
    rcases lt_trichotomy x y with h | h | h
    · rw [compare_lt_iff_lt.mpr h]
      grind
    · rw [compare_eq_iff_eq.mpr h]
      grind
    · rw [compare_gt_iff_gt.mpr h]
      grind
  all_goals cases h

theorem bool_meaning {op : Arith.Op} (span : Span) (a b : Bool) (h : op.scalars .bool .bool = some (.bool, .bool)) :
    ∃ v, boolOp op.symbol a b = .ok v ∧ op.meaning span (.ok a.toInt) (.ok b.toInt) = .ok v.toInt := by
  cases op <;> cases a <;> cases b <;> first | exact ⟨_, rfl, rfl⟩ | cases h

-- What two literals are compared to is what their numbers are.
theorem truth_yields {op : Arith.Op} {isAnn : Bool} {span : Span} {a b : ExprId} {x y : Int}
    (h : op.scalars κ κ = some (κ, .bool)) (ha : κ.IsLiteral s.model a x) (hb : κ.IsLiteral s.model b y) :
    Yields (Scalar.Is .bool) (ofCause span (Eval.truth s.model isAnn op.symbol a b)) s
      (op.meaning span (.ok x) (.ok y)) := by
  suffices hr : ∃ r, Eval.truth s.model isAnn op.symbol a b = .ok r ∧
      op.meaning span (.ok x) (.ok y) = .ok r.toInt by
    have ⟨r, htruth, hmean⟩ := hr
    rw [htruth, hmean]
    exact .pure rfl
  cases κ
  case int =>
    obtain ⟨v, ha, rfl⟩ := ha
    obtain ⟨w, hb, rfl⟩ := hb
    have ⟨r, hr, hmean⟩ := relation_meaning span v.toInt w.toInt h
    refine ⟨r, ?_, hmean⟩
    rw [← hr, ← compare_toInt]
    simp [Eval.truth, ha, hb, ExprKind.isAbsent]
  case bool =>
    obtain ⟨v, ha, rfl⟩ := ha
    obtain ⟨w, hb, rfl⟩ := hb
    have ⟨r, hr, hmean⟩ := bool_meaning span v w h
    refine ⟨r, ?_, hmean⟩
    rw [← hr]
    simp [Eval.truth, ha, hb, ExprKind.isAbsent]

end Values

section Steps

variable {limit fuel : Nat} {ev : Eval}

-- A node of the type that is asked for is a literal, or has a rule.
theorem value_eq {kind : ExprKind} (h : s.model.Node e kind k.ty) :
    (run limit (fuel + 1)).value k.kind e s = match k.kind.literal? e kind with
      | some v => .ok v s
      | none => compound (run limit fuel) limit k.kind (s.model.expr e) s := by
  have hs : fromSmaller? (run limit fuel) k.kind (s.model.ty e) e = none := by
    rw [h.ty]
    cases k <;> rfl
  rw [Eval.value, run, step, valueStep_eq hs, h.kind]
  cases k.kind.literal? e kind <;> rfl

theorem compound_yields {kind : ExprKind} {v : Except Failure Int} (h : m.Node e kind k.ty)
    (hl : k.kind.literal? e kind = none) (hk : kind ≠ .anon) (hs : m.Adds s.model)
    (hc : ∀ x, x.kind = kind → x.span = m.spanOf e → Yields k.Is (compound (run limit fuel) limit k.kind x) s v) :
    Yields k.Is ((run limit (fuel + 1)).value k.kind e) s v := by
  have hexpr := hs.grows.expr_eq (h.present hk)
  have hv := hc (s.model.expr e) (by rw [hexpr]; exact h.kind) (by rw [hexpr]; rfl)
  refine hv.congr ?_
  rw [value_eq (h.congr hexpr), hl]

-- What is built from a value is a literal of it.
theorem store_yields (v : k.kind.Val) :
    Yields (fun m e n => k.IsLiteral m e n) (build (k.kind.store v)) s (.ok (k.number v)) := by
  have hadd : ∀ x : Expr, s.model.Adds (s.model.addExpr x).2 := fun x => ⟨rfl, Model.grows_addExpr _ _⟩
  have hnew : ∀ x : Expr, (s.model.addExpr x).2.kind (s.model.addExpr x).1 = x.kind := by simp [Model.kind]
  cases k
  case int => exact .ok rfl (hadd _) ⟨v, hnew { kind := .int v, ty := .parInt }, rfl⟩
  case bool => exact .ok rfl (hadd _) ⟨v, hnew { kind := .bool v, ty := .parBool }, rfl⟩

theorem residual_stored (h : s.model.Elaborated n [] e a k) :
    (run limit (fuel + 1)).residual e s = stored (run limit fuel) k.kind e s := by
  have hty : (s.model.expr e).ty = k.ty := h.ty_eq
  have hbyType : residualByType (run limit fuel) limit e (s.model.expr e) = stored (run limit fuel) k.kind e := by
    rw [residualByType_eq (by rw [hty]; cases k <;> rfl), hty]
    cases k <;> rfl
  have hkind : ∀ {kind : ExprKind}, s.model.Node e kind k.ty → (s.model.expr e).kind = kind := fun h => h.kind
  rw [Eval.residual, run, step, residualStep, model_bind]
  cases h with
  | int h | bool h | bin h _ _ _ | un h _ _ | ite h _ | promoted h _ =>
    simp only [hkind h]
    rw [hbyType]

theorem residual_yields (h : s.model.Elaborated n [] e a k)
    (hv : Yields k.Is ((run limit fuel).value k.kind e) s a.eval) :
    Yields (fun m e n => k.IsLiteral m e n) ((run limit (fuel + 1)).residual e) s a.eval := by
  refine .congr ?_ (residual_stored h)
  rw [← bind_pure a.eval]
  refine hv.bind fun v n t _ hn => ?_
  rw [← show k.number v = n from hn]
  exact store_yields v

end Steps

section Operators

variable {limit fuel : Nat} {ev : Eval} {op : Arith.Op} {span : Span} {l r : ExprId} {x y : Except Failure Int}

-- Wherever more nodes may have been added, the value of an expression is the given one.
def Evaluates (m : Model) (ev : Eval) (k : Scalar) (e : ExprId) (x : Except Failure Int) : Prop :=
  ∀ {s}, m.Adds s.model → Yields k.Is (ev.value k.kind e) s x

-- The operators that may leave an operand alone.
abbrev Arith.connectives : List Arith.Op := [.and, .or, .imp, .revImp]

theorem meaning_strict (h : op ∉ connectives) (span : Span) (x y : Except Failure Int) :
    op.meaning span x y = x >>= fun v => y >>= fun w => op.meaning span (.ok v) (.ok w) := by
  cases op
  case and | or | imp | revImp => simp at h
  all_goals cases x <;> cases y <;> rfl

theorem scalars_cases (h : op.scalars κ κ = some (κ, k)) :
    op ∉ connectives ∧ κ = .int ∧ k = .int ∨ op ∉ connectives ∧ k = .bool ∨
      op ∈ connectives ∧ κ = .bool ∧ k = .bool := by
  revert h
  cases op <;> cases κ <;> cases k <;> decide

theorem arithmetic_yields (hop : op ∉ connectives) (h : op.scalars .int .int = some (.int, .int))
    (hl : Evaluates m ev .int l x) (hr : Evaluates m ev .int r y) (hs : m.Adds s.model) :
    Yields (Scalar.Is .int) (do ofCause span (intOp op.symbol (← ev.int l) (← ev.int r))) s
      (op.meaning span x y) := by
  rw [meaning_strict hop]
  refine (hl hs).bind fun v _ t ht hv => ?_
  refine (hr (hs.trans ht)).bind fun w _ u hu hw => ?_
  rw [← show v.toInt = _ from hv, ← show w.toInt = _ from hw]
  exact intOp_yields h

theorem boolBin_strict (hop : op ∉ connectives) : boolBin ev op.symbol l r span s = (do
    let isAnn := (s.model.ty l).isAnn
    let a ← ev.residual l
    let b ← ev.residual r
    ofCause span (Eval.truth (← model) isAnn op.symbol a b) : EvalM Bool) s := by
  simp only [boolBin, model_bind]
  generalize ((s.model.ty l).isBool && !(s.model.ty l).isOpt && ((s.model.ty r).isBool && !(s.model.ty r).isOpt)) = p
  cases op
  case and | or | imp | revImp => simp at hop
  all_goals cases p <;> rfl

theorem test_yields (hop : op ∉ connectives) (h : op.scalars κ κ = some (κ, .bool))
    (hl : ∀ {s}, m.Adds s.model → Yields (fun m e n => κ.IsLiteral m e n) (ev.residual l) s x)
    (hr : ∀ {s}, m.Adds s.model → Yields (fun m e n => κ.IsLiteral m e n) (ev.residual r) s y) (hs : m.Adds s.model) :
    Yields (Scalar.Is .bool) (boolBin ev op.symbol l r span) s (op.meaning span x y) := by
  refine .congr ?_ (boolBin_strict hop)
  rw [meaning_strict hop]
  refine (hl hs).bind fun a _ t ht ha => ?_
  refine (hr (hs.trans ht)).bind fun b _ u hu hb => ?_
  exact (truth_yields h (ha.adds hu) hb).congr rfl

-- A condition decides which of two steps comes next.
theorem Evaluates.decides {Q : Model → γ → δ → Prop} {f g : EvalM γ} {c d : Except Failure δ}
    (hl : Evaluates m ev .bool l x) (hs : m.Adds s.model) (hf : ∀ {t}, m.Adds t.model → Yields Q f t c)
    (hg : ∀ {t}, m.Adds t.model → Yields Q g t d) :
    Yields Q (do if ← ev.bool l then f else g) s (do if (← x) = 0 then d else c) := by
  refine (hl hs).bind fun v n t ht hv => ?_
  obtain rfl : Bool.toInt v = n := hv
  cases v
  case false => exact hg (hs.trans ht)
  case true => exact hf (hs.trans ht)

theorem connective_yields (hop : op ∈ connectives) (hl : Evaluates m ev .bool l x) (hr : Evaluates m ev .bool r y)
    (hs : m.Adds s.model) (hlty : s.model.ty l = .parBool) (hrty : s.model.ty r = .parBool) :
    Yields (Scalar.Is .bool) (boolBin ev op.symbol l r span) s (op.meaning span x y) := by
  have hpresent : ((s.model.ty l).isBool && !(s.model.ty l).isOpt &&
      ((s.model.ty r).isBool && !(s.model.ty r).isOpt)) = true := by
    rw [hlty, hrty]
    decide
  have hconst : ∀ (b : Bool) {t : Machine}, Yields (Scalar.Is .bool) (Pure.pure b) t (.ok b.toInt) :=
    fun b _ => .pure rfl
  suffices hc : ∃ z : EvalM Bool, boolBin ev op.symbol l r span s = z s ∧
      Yields (Scalar.Is .bool) z s (op.meaning span x y) by
    have ⟨z, heq, hz⟩ := hc
    exact hz.congr heq
  simp only [boolBin, model_bind, hpresent]
  cases op
  case and => exact ⟨_, rfl, hl.decides hs hr fun _ => hconst false⟩
  case or => exact ⟨_, rfl, hl.decides hs (fun _ => hconst true) hr⟩
  case imp => exact ⟨_, rfl, hl.decides hs hr fun _ => hconst true⟩
  case revImp => exact ⟨_, rfl, hr.decides hs hl fun _ => hconst true⟩
  all_goals simp at hop

theorem un_yields {op : UnOp} {x : Expr} {v : Except Failure Int} (hx : x.kind = .un op e none)
    (hop : Arith.unary op κ = some (κ, k)) (he : Evaluates m ev κ e v) (hs : m.Adds s.model) :
    Yields k.Is (node ev k.kind x) s (unaryMeaning op x.span v) := by
  cases op <;> cases κ <;> cases k <;> cases hop
  case not.bool.bool.refl =>
    show Yields (Scalar.Is .bool) (boolNode ev x.kind x.span) s (do return Arith.truth ((← v) = 0))
    rw [hx]
    refine (he hs).bind fun b n t _ hb => ?_
    obtain rfl : Bool.toInt b = n := hb
    cases b <;> exact .pure rfl
  case plus.int.int.refl =>
    show Yields (Scalar.Is .int) (intNode ev x.kind x.span) s v
    rw [hx]
    exact he hs
  case minus.int.int.refl =>
    show Yields (Scalar.Is .int) (intNode ev x.kind x.span) s (do fit x.span (-(← v)))
    rw [hx]
    refine (he hs).bind fun v n t _ hv => ?_
    obtain rfl : Int64.toInt v = n := hv
    exact overflowing_yields fun _ => Checked.neg_eq_some

theorem bin_yields {x : Expr} {a b : Arith} (hx : x.kind = .bin op.symbol l r none)
    (hop : op.scalars κ κ = some (κ, k)) (hs : m.Adds s.model) (hl : m.Elaborated n [] l a κ)
    (hr : m.Elaborated n [] r b κ)
    (hvl : ∀ {f}, fuel ≤ f → Evaluates m (run limit f) κ l a.eval)
    (hvr : ∀ {f}, fuel ≤ f → Evaluates m (run limit f) κ r b.eval) :
    Yields k.Is (node (run limit (fuel + 1)) k.kind x) s (op.meaning x.span a.eval b.eval) := by
  obtain ⟨hstrict, rfl, rfl⟩ | ⟨hstrict, rfl⟩ | ⟨hconn, rfl, rfl⟩ := scalars_cases hop
  · show Yields (Scalar.Is .int) (intNode _ x.kind x.span) s _
    rw [hx]
    exact arithmetic_yields hstrict hop (hvl (by omega)) (hvr (by omega)) hs
  · show Yields (Scalar.Is .bool) (boolNode _ x.kind x.span) s _
    rw [hx]
    have hrefl : fuel ≤ fuel := Nat.le_refl _
    exact test_yields hstrict hop (fun ht => residual_yields (ht.elaborated hl) (hvl hrefl ht))
      (fun ht => residual_yields (ht.elaborated hr) (hvr hrefl ht)) hs
  · show Yields (Scalar.Is .bool) (boolNode _ x.kind x.span) s _
    rw [hx]
    have hty := (hs.elaborated hl).ty_eq
    exact connective_yields hconn (hvl (by omega)) (hvr (by omega)) hs hty (hs.elaborated hr).ty_eq

-- Nothing in the library has a body.
theorem Model.Table.withBody_matchOverload (hm : m.Table) (name : String) (args : List Ty) :
    m.withBody? (m.matchOverload? name args) = none := by
  cases hf : m.matchOverload? name args with
  | none => rfl
  | some f =>
    have ⟨_, hb, _⟩ := hm.standard.chosen hm.sorted hf
    exact hb.withBody_eq

theorem promotion_yields {x : Expr} {fn : Option FuncId} (hx : x.kind = .call "bool2int" [e] fn)
    (hfn : s.model.withBody? fn = none) (he : Evaluates m ev .bool e y) (hs : m.Adds s.model) :
    Yields (Scalar.Is .int) (compound ev limit .int x) s y := by
  have hcall : Yields (Scalar.Is .int) (builtin ev .int "bool2int" [e] x.span) s (y >>= pure) := by
    refine (he hs).bind fun b n t _ hb => ?_
    obtain rfl : Bool.toInt b = n := hb
    cases b <;> exact .pure rfl
  rw [bind_pure] at hcall
  rw [compound, hx]
  refine .within (hcall.congr ?_)
  simp only [hfn]
  rfl

end Operators

section Runs

variable {limit fuel : Nat}

theorem selectBranch_bind {ev : Eval} {c v : ExprId} (f : ExprId → EvalM γ) :
    selectBranch ev o ((c, v) :: bs) >>= f = (do if ← ev.bool c then f v else selectBranch ev o bs >>= f) := by
  rw [selectBranch, bind_assoc]
  congr 1
  funext b
  cases b <;> rfl

theorem Model.Elaborated.depth_pos (h : m.Elaborated n bs o a k) : 0 < n := by
  induction h with
  | branch _ _ _ ih => exact ih
  | _ => exact Nat.succ_pos _

-- The induction is on the elaborated tree. Each of its levels takes two steps, one for the value and
-- one for the literal that a comparison makes of it.
theorem run_elaborated (hm : m.Table) (h : m.Elaborated n bs o a k) : ∀ {fuel s}, 2 * n ≤ fuel + 1 → m.Adds s.model →
    Yields k.Is (selectBranch (run limit fuel) o bs >>= (run limit fuel).value k.kind) s a.eval := by
  induction h with
  | int h =>
    intro fuel s hfuel hs
    obtain ⟨fuel, rfl⟩ : ∃ f, fuel = f + 1 := ⟨fuel - 1, by omega⟩
    exact .ok (value_eq (k := .int) (h.congr (hs.grows.expr_eq (h.present (by simp))))) (.refl _) rfl
  | bool h =>
    intro fuel s hfuel hs
    obtain ⟨fuel, rfl⟩ : ∃ f, fuel = f + 1 := ⟨fuel - 1, by omega⟩
    exact .ok (value_eq (k := .bool) (h.congr (hs.grows.expr_eq (h.present (by simp))))) (.refl _) rfl
  | @bin n e op l r a b κ k h hop hl hr ihl ihr =>
    intro fuel s hfuel hs
    have hn := hl.depth_pos
    obtain ⟨fuel, rfl⟩ : ∃ f, fuel = f + 2 := ⟨fuel - 2, by omega⟩
    refine compound_yields h (by cases k <;> rfl) (by simp) hs fun x hx hspan => ?_
    rw [← hspan, compound, hx]
    exact bin_yields hx hop hs hl hr (fun hf _ hs => ihl (by omega) hs) (fun hf _ hs => ihr (by omega) hs)
  | @un n e op x a κ k h hop hx ih =>
    intro fuel s hfuel hs
    obtain ⟨fuel, rfl⟩ : ∃ f, fuel = f + 1 := ⟨fuel - 1, by omega⟩
    refine compound_yields h (by cases k <;> rfl) (by simp) hs fun x hx hspan => ?_
    rw [← hspan, compound, hx]
    exact un_yields hx hop (fun hs => ih (by omega) hs) hs
  | @ite n e b bs o a k h hb ih =>
    intro fuel s hfuel hs
    obtain ⟨fuel, rfl⟩ : ∃ f, fuel = f + 1 := ⟨fuel - 1, by omega⟩
    refine compound_yields h (by cases k <;> rfl) (by simp) hs fun x hx _ => ?_
    rw [compound, hx]
    exact ih (by omega) hs
  | promoted h hx ih =>
    intro fuel s hfuel hs
    obtain ⟨fuel, rfl⟩ : ∃ f, fuel = f + 1 := ⟨fuel - 1, by omega⟩
    refine compound_yields (k := .int) h rfl (by simp) hs fun x hx _ => ?_
    rw [← hs.tables.matchOverload_eq] at hx
    exact promotion_yields hx ((hm.congr hs.tables).withBody_matchOverload _ _) (fun hs => ih (by omega) hs) hs
  | @branch n c v bs o a b r k hc hv hr ihc ihv ihr =>
    intro fuel s hfuel hs
    have hcond : Evaluates m (run limit fuel) .bool c a.eval := fun hs => ihc hfuel hs
    rw [selectBranch_bind]
    exact hcond.decides hs (fun hs => ihv hfuel hs) fun hs => ihr hfuel hs

end Runs

-- An outcome is the value that is meant, or the error that is meant, whatever trace led there.
def Scalar.Agrees (k : Scalar) (r : Except (Halt EvalError) k.kind.Val) : Except Failure Int → Prop
  | .ok n => ∃ v, r = .ok v ∧ k.number v = n
  | .error f => ∃ trace, r = .error (.failed { cause := f.cause, span := f.span, trace })

theorem arithmetic_exact {ty : Ty} (limit : Nat) (hm : m.withLibrary.Standard) (he : m.Denotes [] e a)
    (h : checkExpr e m = .ok ty m') :
    ∃ k : Scalar, ty = k.ty ∧ k.Agrees (m'.evaluate (.value k.kind) e limit).1 a.eval := by
  have ⟨htable, k, hty, helab⟩ := checkExpr_elaborated hm he h
  have hfuel : 2 * (2 * m'.walkFuel) ≤ fuelFor limit m' := by
    rw [fuelFor, ← Nat.mul_assoc]
    exact Nat.mul_le_mul_right _ (Nat.mul_self_le_mul_self (Nat.le_add_left 2 limit))
  have hy : Yields k.Is ((run limit (fuelFor limit m')).value k.kind e) { model := m' } a.eval :=
    run_elaborated htable helab (hfuel.trans (Nat.le_succ _)) (.refl m')
  refine ⟨k, hty, ?_⟩
  generalize a.eval = r at hy
  cases hy with
  | @ok v n t hx _ hv => exact ⟨v, runEval_eq_ok.mpr ⟨t, hx⟩, hv⟩
  | @error err t f hx hc hs =>
    have hr : (m'.evaluate (.value k.kind) e limit).1 = .error (.failed err) := by
      simp only [Model.evaluate, Model.runEval]
      rw [show run limit (fuelFor limit m') (.value k.kind) e { model := m' } = _ from hx]
    exact ⟨err.trace, by rw [hr, ← hc, ← hs]; rfl⟩

section Causes

namespace Arith

-- What fails only for want of a divisor or for want of room.
def Ordinary {α : Type} (r : Except Failure α) : Prop :=
  ∀ f, r = .error f → f.cause = .overflow ∨ f.cause = .divisionByZero

theorem Ordinary.ok (a : α) : Ordinary (.ok a) := fun _ h => by cases h

theorem Ordinary.bind {r : Except Failure α} {g : α → Except Failure β} (hr : Ordinary r)
    (hg : ∀ a, Ordinary (g a)) : Ordinary (r >>= g) := by
  cases r with
  | ok a => exact hg a
  | error f =>
    intro f' h
    cases h
    exact hr f rfl

theorem ordinary_fit (span : Span) (n : Int) : Ordinary (fit span n) := by
  intro f h
  rw [fit] at h
  split at h <;> cases h
  exact .inl rfl

theorem ordinary_nonzero (span : Span) (n : Int) : Ordinary (nonzero span n) := by
  intro f h
  rw [nonzero] at h
  split at h <;> cases h
  exact .inr rfl

theorem ordinary_meaning {op : Op} {l r : Except Failure Int} (span : Span) (hl : Ordinary l) (hr : Ordinary r) :
    Ordinary (op.meaning span l r) := by
  cases op
  case add | sub | mul => exact hl.bind fun _ => hr.bind fun _ => ordinary_fit span _
  case div => exact hl.bind fun _ => hr.bind fun _ => (ordinary_nonzero span _).bind fun _ => ordinary_fit span _
  case mod =>
    refine hl.bind fun a => hr.bind fun b => (ordinary_nonzero span _).bind fun _ f h => ?_
    split at h <;> cases h
    exact .inl rfl
  case lt | le | gt | ge | eq | ne | iff | xor => exact hl.bind fun _ => hr.bind fun _ => .ok _
  case and | or | imp =>
    refine hl.bind fun a => ?_
    split
    all_goals first | exact hr | exact .ok _
  case revImp =>
    refine hr.bind fun b => ?_
    split
    all_goals first | exact hl | exact .ok _

theorem ordinary_eval : ∀ a : Arith, Ordinary a.eval
  | int _ | bool _ => .ok _
  | bin span _ l r => ordinary_meaning span (ordinary_eval l) (ordinary_eval r)
  | un span op a => by
    have ha := ordinary_eval a
    cases op
    case not => exact ha.bind fun _ => .ok _
    case plus => exact ha
    case minus => exact ha.bind fun _ => ordinary_fit span _
  | ite c v r => by
    refine (ordinary_eval c).bind fun b => ?_
    split
    · exact ordinary_eval r
    · exact ordinary_eval v

end Arith

theorem Yields.error_cause {P : Model → α → Int → Prop} {x : EvalM α} {r : Except Failure Int} {halt : Halt EvalError}
    (hx : Yields P x s r) (hr : Ordinary r) (h : x s = .error halt t) :
    ∃ err, halt = .failed err ∧ (err.cause = .overflow ∨ err.cause = .divisionByZero) := by
  cases hx with
  | ok hx => cases hx.symm.trans h
  | @error err _ f hx hc =>
    cases hx.symm.trans h
    exact ⟨err, rfl, hc ▸ hr f rfl⟩

-- Closed arithmetic that is accepted has the kind of its type: as a value of that kind and as a
-- residual it fails, if at all, where a divisor is zero or a number does not fit.
theorem accepted_arithmetic_of_kind {ty : Ty} (limit : Nat) (hm : m.withLibrary.Standard) (he : m.Denotes [] e a)
    (h : checkExpr e m = .ok ty m') :
    ∃ k : Scalar, ty = k.ty ∧ ∀ t ∈ [Target.value k.kind, .residual], ∀ halt,
      (m'.evaluate t e limit).1 = .error halt →
        ∃ err, halt = .failed err ∧ (err.cause = .overflow ∨ err.cause = .divisionByZero) := by
  obtain ⟨htable, k, hty, helab⟩ := checkExpr_elaborated hm he h
  obtain ⟨fuel, hfuel, hle⟩ : ∃ fuel, fuelFor limit m' = fuel + 1 ∧ 2 * (2 * m'.walkFuel) ≤ fuel + 1 := by
    have hle : 2 * 2 * m'.walkFuel ≤ fuelFor limit m' :=
      Nat.mul_le_mul_right _ (Nat.mul_self_le_mul_self (Nat.le_add_left 2 limit))
    have hpos : 0 < m'.walkFuel := Nat.mul_pos (Nat.succ_pos _) (Nat.succ_pos _)
    exact ⟨fuelFor limit m' - 1, by omega, by omega⟩
  have hy : ∀ {f}, fuel ≤ f → Yields k.Is ((run limit f).value k.kind e) { model := m' } a.eval := fun hf =>
    run_elaborated htable helab (by omega) (.refl m')
  refine ⟨k, hty, fun t ht halt hx => ?_⟩
  rw [Model.evaluate, hfuel] at hx
  obtain ⟨s, hs⟩ := runEval_eq_error.mp hx
  simp only [List.mem_cons, List.not_mem_nil, or_false] at ht
  obtain rfl | rfl := ht
  · exact (hy (Nat.le_succ _)).error_cause (ordinary_eval a) hs
  · exact (residual_yields helab (hy (Nat.le_refl _))).error_cause (ordinary_eval a) hs

end Causes

section Quotient

open Model Library

variable {l r : ExprId} {x y : Int64} {fn : Option FuncId} {ty : Ty} {c : Checking}

theorem Model.Table.exists_matchOverload {name : String} {args : List Ty} (hm : m.Table)
    (h : (candidates name args).isEmpty = false) : ∃ f, m.matchOverload? name args = some f := by
  obtain ⟨s, hs⟩ := List.isEmpty_eq_false_iff_exists_mem.mp h
  simp only [candidates, List.mem_filter, decide_eq_true_eq] at hs
  obtain ⟨f, ⟨fs, hfs, hf⟩, hb⟩ := hm.standard.declared s hs.1.1
  have hacc : m.accepts f args := by rw [hb.accepts_eq (known_signatures s hs.1.1).1, hs.2]
  have hsome : (fs.find? (m.accepts · args)).isSome := List.find?_isSome.mpr ⟨f, hf, hacc⟩
  rw [hs.1.2] at hfs
  rw [matchOverload?, hfs]
  exact Option.isSome_iff_exists.mp hsome

theorem coerce_parInt (h : c.model.ty e = .parInt) : CheckM.coerce e .parInt c = .ok e c := by
  have hm : c.model.coerce e .parInt = .ok (e, c.model) := by
    simp only [Model.coerce, show (c.model.expr e).ty = .parInt from h]
    rfl
  rw [CheckM.coerce, checkM_model_bind, hm]
  rfl

theorem bin_quotient (hm : c.model.Table) (hl : c.model.ty l = .parInt) (hr : c.model.ty r = .parInt) :
    Typing.bin e .idiv l r c = .ok () { c with model := c.model.setNode e (.bin .idiv l r none) .parInt } := by
  obtain ⟨f, hf⟩ : ∃ f, c.model.matchOverload? BinOp.idiv.name [.parInt, .parInt] = some f :=
    hm.exists_matchOverload (by decide +kernel)
  obtain ⟨s, hb, hs⟩ := hm.standard.chosen hm.sorted hf
  obtain ⟨hparams, hret⟩ : s.params = [.parInt, .parInt] ∧ s.ret = Scalar.int.ty := by
    have hs : Chosen Arith.Op.div.symbol.name [Scalar.int.ty, Scalar.int.ty] s := hs
    obtain ⟨κ, k, hop, h⟩ := chosen_bin hs
    cases hop
    exact h
  have hargs : c.model.argTys f [.parInt, .parInt] = [.parInt, .parInt] := hb.argTys_eq (κ := .int) hparams
  have happ : Typing.applied e f [l, r] [.parInt, .parInt] c = .ok ([l, r], .parInt) c := by
    have hcoerced : ([(l, Ty.parInt), (r, .parInt)].mapM fun q => CheckM.coerce q.1 q.2 : CheckM (List ExprId)) c =
        .ok [l, r] c := by
      simp [coerce_parInt hl, coerce_parInt hr]
    rw [Typing.applied, checkM_model_bind, hargs]
    refine bind_eq_ok.mpr ⟨_, c, hcoerced, ?_⟩
    rw [checkM_model_bind, hb.returnTy_eq hret]
    simp [hl, hr, CheckM.ofExcept]
    decide
  rw [Typing.bin, checkM_model_bind, hl, hr, hf]
  refine bind_eq_ok.mpr ⟨_, c, happ, ?_⟩
  simp only [checkM_model_bind, hb.withBody_eq]
  rfl

theorem walk_quotient {fuel : Nat} (hm : c.model.Table) (he : c.model.Node e (.bin .idiv l r fn) ty)
    (hl : c.model.Node l (.int x) .parInt) (hr : c.model.Node r (.int y) .parInt) :
    Typing.walk .check (fuel + 2) (.expr e) c =
      .ok () { c with model := c.model.setNode e (.bin .idiv l r none) .parInt } := by
  have hlit : ∀ {o z}, c.model.Node o (.int z) .parInt → Typing.walk .check (fuel + 1) (.expr o) c = .ok () c := by
    intro o z ho
    rw [Typing.walk, Typing.site, Typing.expr, checkM_model_bind, ho.kind]
    show (CheckM.model >>= fun m => Typing.annotations _ (m.expr o).ann) c = _
    rw [checkM_model_bind, ho.ann]
    rfl
  rw [Typing.walk, Typing.site, Typing.expr, checkM_model_bind, he.kind]
  refine bind_eq_ok.mpr ⟨(), _, bind_eq_ok.mpr ⟨(), c, ?_, bin_quotient hm hl.ty hr.ty⟩, ?_⟩
  · exact seq_eq_ok (hlit hl) (seq_eq_ok (hlit hr) rfl)
  · rw [checkM_model_bind, (node_setNode (he.present (by simp)) he.ann).ann]
    rfl

-- A quotient of two integers is accepted.
theorem checkExpr_quotient (hm : m.withLibrary.Standard) (hitems : m.itemPaths = [])
    (he : m.Node e (.bin .idiv l r fn) ty) (hl : m.Node l (.int x) .parInt) (hr : m.Node r (.int y) .parInt) :
    ∃ m', checkExpr e m = .ok .parInt m' := by
  have hext := Resolve.extends_start m
  have hnode : ∀ {o kind t}, kind ≠ .anon → m.Node o kind t → m.withLibrary.sortOverloads.Node o kind t :=
    fun hk ho => ho.congr (hext.expr_eq (ho.present hk))
  have he := hnode (by simp) he
  have hl := hnode (by simp) hl
  have hr := hnode (by simp) hr
  have htable := hm.sortOverloads
  have hpaths := hext.itemPaths_eq.trans hitems
  have hfuel : ∃ fuel, m.withLibrary.sortOverloads.walkFuel = fuel + 2 := ⟨_, (Nat.sub_add_cancel (by
    have := Nat.mul_self_le_mul_self (Nat.le_add_left 2 m.withLibrary.sortOverloads.size)
    exact Nat.le_trans (by decide) this)).symm⟩
  generalize hm₀ : m.withLibrary.sortOverloads = m₀ at *
  obtain ⟨fuel, hfuel⟩ := hfuel
  have hresolve : resolve (.expr e) { model := m₀ } = .ok () { model := m₀ } := by
    have hexpr : ∀ {o kind t n}, m₀.Node o kind t → Resolve.walk (n + 1) (.expr o) { model := m₀ } =
        (do Resolve.node (Resolve.walk n) o (m₀.expr o).span kind; pure ()) { model := m₀ } := by
      intro o kind t n ho
      rw [Resolve.walk, Resolve.site, Resolve.expr, get_bind, ← ho.kind, ho.ann]
      rfl
    rw [resolve, hfuel, hexpr he]
    exact seq_eq_ok (seq_eq_ok (hexpr hl) (seq_eq_ok (hexpr hr) rfl)) rfl
  have htop : Check.toplevel (resolve (.expr e)) m = .ok ((), []) m₀ := by
    rw [Check.toplevel]
    refine seq_eq_ok (t := m₀) (by rw [← hm₀]; rfl) ?_
    rw [get_bind, hpaths]
    show ModelM.resolving (resolve (.expr e)) m₀ = _
    rw [ModelM.resolving, hresolve]
  have hfresh : Check.fresh [] e m₀ = .ok () (m₀.setNode e (.bin .idiv l r none) .parInt) := by
    have hwalk : assignTypes .check (.expr e) { model := m₀ } =
        .ok () { model := m₀.setNode e (.bin .idiv l r none) .parInt } := by
      rw [assignTypes, hfuel]
      exact walk_quotient (c := { model := m₀ }) htable he hl hr
    refine bind_eq_ok.mpr ⟨[], m₀, rfl, bind_eq_ok.mpr ⟨[], _, ?_, rfl⟩⟩
    rw [ModelM.checking, hwalk]
  refine ⟨m₀.setNode e (.bin .idiv l r none) .parInt, bind_eq_ok.mpr ⟨_, _, htop, bind_eq_ok.mpr ⟨_, _, hfresh, ?_⟩⟩⟩
  rw [get_bind, (node_setNode (he.present (by simp)) he.ann).ty]
  rfl

-- `5 div 0`.
def quotientModel : Model where
  exprs := #[{ kind := .int 5, ty := .parInt }, { kind := .int 0, ty := .parInt },
    { kind := .bin .idiv ⟨0⟩ ⟨1⟩ none, span := ⟨3, 7⟩ }]

theorem arithmetic_exact_quotient : ∃ m' trace, checkExpr ⟨2⟩ quotientModel = .ok .parInt m' ∧
    (m'.evaluate (.value .int) ⟨2⟩ 0).1 =
      .error (.failed { cause := .divisionByZero, span := ⟨3, 7⟩, trace }) := by
  have hm : quotientModel.withLibrary.Standard := standard_withLibrary rfl
  have hl : quotientModel.Node ⟨0⟩ (.int 5) .parInt := ⟨rfl, rfl, rfl⟩
  have hr : quotientModel.Node ⟨1⟩ (.int 0) .parInt := ⟨rfl, rfl, rfl⟩
  have he : quotientModel.Node ⟨2⟩ (.bin .idiv ⟨0⟩ ⟨1⟩ none) .unknown := ⟨rfl, rfl, rfl⟩
  have ⟨m', h⟩ := checkExpr_quotient hm rfl he hl hr
  have hd : quotientModel.Denotes [] ⟨2⟩ (.bin ⟨3, 7⟩ .div (.int 5) (.int 0)) := .bin he (.int hl) (.int hr)
  have ⟨k, hty, htrace⟩ := arithmetic_exact 0 hm hd h
  obtain rfl : Scalar.int = k := Scalar.ty_inj hty
  have ⟨trace, ht⟩ := htrace
  exact ⟨m', trace, h, ht⟩

theorem accepted_arithmetic_of_kind_quotient : ∃ m', checkExpr ⟨2⟩ quotientModel = .ok .parInt m' ∧
    ∀ halt, (m'.evaluate .residual ⟨2⟩ 0).1 = .error halt →
      ∃ err, halt = .failed err ∧ (err.cause = .overflow ∨ err.cause = .divisionByZero) := by
  have hm : quotientModel.withLibrary.Standard := standard_withLibrary rfl
  have hl : quotientModel.Node ⟨0⟩ (.int 5) .parInt := ⟨rfl, rfl, rfl⟩
  have hr : quotientModel.Node ⟨1⟩ (.int 0) .parInt := ⟨rfl, rfl, rfl⟩
  have he : quotientModel.Node ⟨2⟩ (.bin .idiv ⟨0⟩ ⟨1⟩ none) .unknown := ⟨rfl, rfl, rfl⟩
  obtain ⟨m', h⟩ := checkExpr_quotient hm rfl he hl hr
  have hd : quotientModel.Denotes [] ⟨2⟩ (.bin ⟨3, 7⟩ .div (.int 5) (.int 0)) := .bin he (.int hl) (.int hr)
  obtain ⟨k, -, hk⟩ := accepted_arithmetic_of_kind 0 hm hd h
  exact ⟨m', h, hk .residual (by simp)⟩

end Quotient
end Parvar
