import Parvar.Proofs.Eval.Agreement

/-!
Expressions for sets of integers over decision variables. Their values are given apart from any
machine, for variables that have come to values, and evaluation finds no others.
-/

namespace Parvar

open Eval

-- What a variable can be given: an integer, or a set of integers.
inductive Given where
  | int (v : Int64)
  | set (S : IntSet)

namespace Given

def kind : Given → ExprKind
  | int v => .int v
  | set S => .intSet S

def ty : Given → Ty
  | int _ => .parInt
  | set _ => .parSetInt

def un (op : UnOp) : Given → Option Given
  | int v => match op with
    | .plus => some (int v)
    | .minus => (Checked.neg v).map int
    | .not => none
  | set _ => none

def bin (op : BinOp) : Given → Given → Option Given
  | int v, int w => if op = .range then some (set (.range v w)) else (intOp op v w).toOption.map int
  | set A, set B => (setOp .intSet op A B).toOption.map set
  | _, _ => none

end Given

-- The functions on sets, by the operators that they stand for.
def setFunction? : String → Option BinOp
  | "set_union" => some .union
  | "set_intersect" => some .inter
  | "set_diff" => some .diff
  | _ => none

namespace Model

variable (m : Model)

-- Integers, variables, and operators without bodies on them.
inductive IntTerm : ExprId → Prop
  | lit {e v} : m.kind e = .int v → (m.ty e).isInt → IntTerm e
  | var {e name d} : m.kind e = .ident name (some d) → (m.ty e).isInt → m.IsVariable (m.followFlat d) → IntTerm e
  | un {e op a fn} : m.kind e = .un op a fn → (m.ty e).isInt → m.withBody? fn = none → IntTerm a → IntTerm e
  | bin {e op l r fn} : m.kind e = .bin op l r fn → (m.ty e).isInt → m.withBody? fn = none → IntTerm l →
      IntTerm r → IntTerm e

-- Sets that are written out, ranges, variables, and operators and functions without bodies on them.
inductive SetTerm : ExprId → Prop
  | lit {e S} : m.kind e = .intSet S → SetTerm e
  | var {e name d} : m.kind e = .ident name (some d) → m.IsVariable (m.followFlat d) → SetTerm e
  | elems {e es} : m.kind e = .setLit es → (∀ a ∈ es, m.IntTerm a) → SetTerm e
  | range {e l r fn} : m.kind e = .bin .range l r fn → m.withBody? fn = none → m.IntTerm l → m.IntTerm r → SetTerm e
  | bin {e op l r fn} : m.kind e = .bin op l r fn → op ≠ .range → m.withBody? fn = none → SetTerm l → SetTerm r →
      SetTerm e
  | call {e name op a b fn} : m.kind e = .call name [a, b] fn → setFunction? name = some op → m.withBody? fn = none →
      SetTerm a → SetTerm b → SetTerm e

-- The values of expressions where variables have the given ones.
inductive Takes (ρ : DeclId → Option Given) : ExprId → Given → Prop
  | int {e v} : m.kind e = .int v → Takes ρ e (.int v)
  | set {e S} : m.kind e = .intSet S → Takes ρ e (.set S)
  | var {e name d g} : m.kind e = .ident name (some d) → ρ (m.followFlat d) = some g → Takes ρ e g
  | un {e op a g r} : m.kind e = .un op a none → Takes ρ a g → g.un op = some r → Takes ρ e r
  | bin {e op a b g h r} : m.kind e = .bin op a b none → Takes ρ a g → Takes ρ b h → g.bin op h = some r → Takes ρ e r
  | elems {e es vs} : m.kind e = .setLit es → es.length = vs.length → (∀ p ∈ es.zip vs, Takes ρ p.1 (.int p.2)) →
      Takes ρ e (.set (.ofValues vs))
  | call {e name op a b fn g h r} : m.kind e = .call name [a, b] fn → setFunction? name = some op → Takes ρ a g →
      Takes ρ b h → g.bin op h = some r → Takes ρ e r

variable {m} {ρ : DeclId → Option Given} {e : ExprId}

theorem IntTerm.kind_ne_anon (h : m.IntTerm e) : m.kind e ≠ .anon := by
  cases h <;> simp_all

theorem IntTerm.isInt (h : m.IntTerm e) : (m.ty e).isInt := by
  cases h <;> assumption

theorem SetTerm.kind_ne_anon (h : m.SetTerm e) : m.kind e ≠ .anon := by
  cases h <;> simp_all

-- An expression takes one value.
theorem Takes.unique {g h : Given} (hg : m.Takes ρ e g) (hh : m.Takes ρ e h) : g = h := by
  induction hg generalizing h with
  | int hk | set hk =>
    cases hh with
    | _ hk' => cases hk.symm.trans hk' <;> rfl
  | var hk hd =>
    cases hh with
    | var hk' hd' =>
      cases hk.symm.trans hk'
      exact Option.some.inj (hd.symm.trans hd')
    | _ hk' => cases hk.symm.trans hk'
  | un hk ha hr ih =>
    cases hh with
    | un hk' ha' hr' =>
      cases hk.symm.trans hk'
      obtain rfl := ih ha'
      exact Option.some.inj (hr.symm.trans hr')
    | _ hk' => cases hk.symm.trans hk'
  | bin hk ha hb hr iha ihb =>
    cases hh with
    | bin hk' ha' hb' hr' =>
      cases hk.symm.trans hk'
      obtain rfl := iha ha'
      obtain rfl := ihb hb'
      exact Option.some.inj (hr.symm.trans hr')
    | _ hk' => cases hk.symm.trans hk'
  | @elems _ es vs hk hlen hp ih =>
    cases hh with
    | @elems _ _ ws hk' hlen' hp' =>
      cases hk.symm.trans hk'
      have hvs : List.Forall₂ (fun a v => ∀ w, m.Takes ρ a (.int w) → v = w) es vs :=
        List.forall₂_iff_zip.mpr ⟨hlen, fun hm w hw => Given.int.inj (ih _ hm hw)⟩
      have hws : List.Forall₂ (fun a w => m.Takes ρ a (.int w)) es ws :=
        List.forall₂_iff_zip.mpr ⟨hlen', fun hm => hp' _ hm⟩
      rw [forall₂_unique hvs hws fun a v w hv hw => hv w hw]
    | _ hk' => cases hk.symm.trans hk'
  | call hk ho ha hb hr iha ihb =>
    cases hh with
    | call hk' ho' ha' hb' hr' =>
      cases hk.symm.trans hk'
      obtain rfl := Option.some.inj (ho.symm.trans ho')
      obtain rfl := iha ha'
      obtain rfl := ihb hb'
      exact Option.some.inj (hr.symm.trans hr')
    | _ hk' => cases hk.symm.trans hk'

end Model

-- A machine whose variables have no values but the given ones.
structure Machine.Carries (m : Model) (ρ : DeclId → Option Given) (s : Machine) : Prop extends s.Continues m where
  given : ∀ d, m.IsVariable d → ∀ l, (s.model.decl d).init = some l →
    ∃ g, ρ d = some g ∧ l.index < s.model.exprs.size ∧ s.model.kind l = g.kind ∧ s.model.ty l = g.ty

namespace Machine.Carries

variable {m : Model} {ρ : DeclId → Option Given} {s t : Machine} {d : DeclId} (h : Carries m ρ s)
include h

-- A declaration comes to hold what it is given, in a new node.
theorem hold (g : Given) {f : Decl → Decl} (hf : ∀ x, Decl.Valued x (f x))
    (hi : ∀ x, (f x).init = some ⟨s.model.exprs.size⟩) :
    Carries m (Function.update ρ d (some g))
      { s with model := (s.model.addExpr { kind := g.kind, ty := g.ty }).2.modifyDecl d f } where
  toContinues := (h.toContinues.addExpr _).modifyDecl hf
  given c hc l hl := by
    have hg := Model.grows_addExpr s.model { kind := g.kind, ty := g.ty }
    by_cases hcd : c = d
    · subst hcd
      rw [Model.decl_modifyDecl] at hl
      split at hl
      · obtain rfl := Option.some.inj ((hi _).symm.trans hl)
        refine ⟨g, Function.update_self .., Model.lt_addExpr _ _, ?_, ?_⟩
        · exact congrArg Expr.kind (Model.expr_addExpr_new _ _)
        · exact congrArg Expr.ty (Model.expr_addExpr_new _ _)
      · next hn =>
        have hr : (s.model.addExpr { kind := g.kind, ty := g.ty }).2.decls.size ≤ c.index := by simpa using hn
        rw [Model.decl_of_le hr] at hl
        contradiction
    · rw [Model.decl_modifyDecl_ne hcd] at hl
      obtain ⟨g', hρ, hlt, hk, ht⟩ := h.given c hc l hl
      rw [Function.update_of_ne hcd]
      exact ⟨g', hρ, hg.lt hlt, (hg.kind_eq hlt).trans hk, (hg.ty_eq hlt).trans ht⟩

theorem keep {g : Given} {f : Decl → Decl} (hg : ρ d = some g) (hf : ∀ x, Decl.Valued x (f x))
    (hi : ∀ x, (f x).init = some ⟨s.model.exprs.size⟩) :
    Carries m ρ { s with model := (s.model.addExpr { kind := g.kind, ty := g.ty }).2.modifyDecl d f } := by
  have hk := h.hold (d := d) g hf hi
  rwa [← hg, Function.update_eq_self] at hk

theorem remember_int {v : Int64} {u : Unit} (hv : ρ d = some (.int v)) (he : remember .int d v s = .ok u t) :
    Carries m ρ t := by
  simp only [Eval.remember, model_bind] at he
  split at he
  · cases he
    exact h.keep hv (fun _ => rfl) fun _ => rfl
  · exact (pure_eq_ok.mp he).2 ▸ h

theorem remember_set {S : IntSet} {u : Unit} (hS : ρ d = some (.set S)) (he : remember .intSet d S s = .ok u t) :
    Carries m ρ t := by
  simp only [Eval.remember, model_bind] at he
  split at he
  · cases he
    exact h.keep hS (fun _ => rfl) fun _ => rfl
  · exact (pure_eq_ok.mp he).2 ▸ h

end Machine.Carries

-- Evaluation of a model without values for its variables.
theorem Machine.Framed.carries {m : Model} {s : Machine} (h : Framed [] { model := m } s)
    (ρ : DeclId → Option Given) : Carries m ρ s where
  toContinues := h.continues
  given d hd l hl := by
    have := (h.kept d List.not_mem_nil).init_eq_none hd.free
    simp [this] at hl

-- An evaluator that finds the values of terms, and of what variables are given.
structure Finds (m : Model) (ρ : DeclId → Option Given) (ev : Eval) : Prop where
  int : ∀ {e s v t}, m.IntTerm e → s.Carries m ρ → ev.int e s = .ok v t → t.Carries m ρ ∧ m.Takes ρ e (.int v)
  set : ∀ {e s S t}, m.SetTerm e → s.Carries m ρ → ev.intSet e s = .ok S t → t.Carries m ρ ∧ m.Takes ρ e (.set S)
  givenInt : ∀ {l s t v} {g : Given}, s.model.kind l = g.kind → s.model.ty l = g.ty → ev.int l s = .ok v t →
    s = t ∧ g = .int v
  givenSet : ∀ {l s t S} {g : Given}, s.model.kind l = g.kind → ev.intSet l s = .ok S t → s = t ∧ g = .set S

namespace Finds

variable {m : Model} {ρ : DeclId → Option Given} {ev : Eval} {limit : Nat} {s t : Machine} {e : ExprId}
  (h : Finds m ρ ev)
include h

section Integers

theorem un {op : UnOp} {a : ExprId} {span : Span} {v : Int64} (hs : s.Carries m ρ) (hk : m.kind e = .un op a none)
    (ha : m.IntTerm a) (he : intNode ev (.un op a none) span s = .ok v t) :
    t.Carries m ρ ∧ m.Takes ρ e (.int v) := by
  cases op with
  | not => simp [intNode] at he
  | plus =>
    obtain ⟨ht, hv⟩ := h.int ha hs he
    exact ⟨ht, .un hk hv rfl⟩
  | minus =>
    simp only [intNode, bind_eq_ok, ofCause_eq_ok, overflowing_eq_ok] at he
    obtain ⟨x, _, hx, hn, rfl⟩ := he
    obtain ⟨ht, hv⟩ := h.int ha hs hx
    exact ⟨ht, .un hk hv (by simp [Given.un, hn])⟩

theorem bin {op : BinOp} {l r : ExprId} {span : Span} {v : Int64} (hs : s.Carries m ρ)
    (hk : m.kind e = .bin op l r none) (hl : m.IntTerm l) (hr : m.IntTerm r)
    (he : intNode ev (.bin op l r none) span s = .ok v t) : t.Carries m ρ ∧ m.Takes ρ e (.int v) := by
  simp only [intNode, bind_eq_ok, ofCause_eq_ok] at he
  obtain ⟨a, u, ha, b, _, hb, ho, rfl⟩ := he
  obtain ⟨hu, hma⟩ := h.int hl hs ha
  obtain ⟨ht, hmb⟩ := h.int hr hu hb
  have hop : op ≠ .range := by
    rintro rfl
    cases ho
  exact ⟨ht, .bin hk hma hmb (by simp [Given.bin, hop, ho, Except.toOption])⟩

theorem intStep {v : ValueKind.Val .int} (he : m.IntTerm e) (hs : s.Carries m ρ)
    (hv : valueStep ev limit .int e s = .ok v t) : t.Carries m ρ ∧ m.Takes ρ e (.int v) := by
  rw [valueStep_eq (fromSmaller_int (hs.ty_eq he.kind_ne_anon ▸ he.isInt)), hs.expr_eq he.kind_ne_anon,
    hs.kind_eq he.kind_ne_anon] at hv
  have hb {fn : Option FuncId} (hf : m.withBody? fn = none) := (hs.withBody_eq fn).trans hf
  cases he with
  | lit hk ht =>
    simp only [hk, ValueKind.literal?] at hv
    cases hv
    exact ⟨hs, .int hk⟩
  | var hk ht hd =>
    simp only [hk, ValueKind.literal?, compound, show (m.expr e).kind = _ from hk, within_eq_ok] at hv
    obtain ⟨l, u, hi, hw, hr⟩ := identValue_eq_ok.mp hv
    rw [hs.followFlat_eq] at hi hr
    obtain ⟨g, hg, _, hkl, htl⟩ := hs.given _ hd l hi
    obtain ⟨rfl, rfl⟩ := h.givenInt hkl htl hw
    exact ⟨hs.remember_int hg hr, .var hk hg⟩
  | un hk ht hf ha =>
    simp only [hk, ValueKind.literal?, compound_un hk (hb hf)] at hv
    obtain ⟨rfl, hv⟩ := hv
    simp only [node, show (m.expr e).kind = _ from hk] at hv
    exact h.un hs hk ha hv
  | bin hk ht hf hl hr =>
    simp only [hk, ValueKind.literal?, compound_bin hk (hb hf)] at hv
    obtain ⟨rfl, hv⟩ := hv
    simp only [node, show (m.expr e).kind = _ from hk] at hv
    exact h.bin hs hk hl hr hv

end Integers

section Sets

theorem elems {es : List ExprId} {span : Span} {S : IntSet} (hs : s.Carries m ρ) (hk : m.kind e = .setLit es)
    (hes : ∀ a ∈ es, m.IntTerm a) (he : intSetNode ev (.setLit es) span s = .ok S t) :
    t.Carries m ρ ∧ m.Takes ρ e (.set S) := by
  simp only [intSetNode, bind_eq_ok, pure_eq_ok] at he
  obtain ⟨vs, u, hvs, rfl, rfl⟩ := he
  obtain ⟨ht, hf⟩ := mapM_eq_ok (fun a ha _ _ _ hs he => h.int (hes a ha) hs he) hs hvs
  obtain ⟨hlen, hp⟩ := List.forall₂_iff_zip.mp hf
  exact ⟨ht, .elems hk hlen fun p hm => hp hm⟩

theorem range {l r : ExprId} {span : Span} {S : IntSet} (hs : s.Carries m ρ) (hk : m.kind e = .bin .range l r none)
    (hl : m.IntTerm l) (hr : m.IntTerm r) (he : intSetNode ev (.bin .range l r none) span s = .ok S t) :
    t.Carries m ρ ∧ m.Takes ρ e (.set S) := by
  simp only [intSetNode, bind_eq_ok, pure_eq_ok] at he
  obtain ⟨a, u, ha, b, _, hb, rfl, rfl⟩ := he
  obtain ⟨hu, hma⟩ := h.int hl hs ha
  obtain ⟨ht, hmb⟩ := h.int hr hu hb
  exact ⟨ht, .bin hk hma hmb rfl⟩

-- Both operands of an operator on sets, or arguments of a function.
theorem both {op : BinOp} {l r : ExprId} {span : Span} {S : IntSet} (hs : s.Carries m ρ) (hl : m.SetTerm l)
    (hr : m.SetTerm r)
    (he : (do EvalM.ofCause span (setOp .intSet op (← ev.intSet l) (← ev.intSet r))) s = .ok S t) :
    t.Carries m ρ ∧ ∃ A B, m.Takes ρ l (.set A) ∧ m.Takes ρ r (.set B) ∧
      (Given.set A).bin op (.set B) = some (.set S) := by
  simp only [bind_eq_ok, ofCause_eq_ok] at he
  obtain ⟨A, u, ha, B, _, hb, ho, rfl⟩ := he
  obtain ⟨hu, hma⟩ := h.set hl hs ha
  obtain ⟨ht, hmb⟩ := h.set hr hu hb
  exact ⟨ht, A, B, hma, hmb, by simp [Given.bin, ho, Except.toOption]⟩

omit h in
theorem setBuiltin_eq {name : String} {op : BinOp} (hn : setFunction? name = some op) (a b : ExprId) (span : Span) :
    intSetBuiltin ev name [a, b] span =
      (do EvalM.ofCause span (setOp .intSet op (← ev.intSet a) (← ev.intSet b))) := by
  unfold setFunction? at hn
  split at hn <;> cases hn <;> rfl

omit h in
theorem setNode_bin {op : BinOp} (hop : op ≠ .range) (l r : ExprId) (fn : Option FuncId) (span : Span) :
    intSetNode ev (.bin op l r fn) span =
      (do EvalM.ofCause span (setOp .intSet op (← ev.intSet l) (← ev.intSet r))) := by
  cases op <;> first | rfl | contradiction

theorem setStep {S : ValueKind.Val .intSet} (he : m.SetTerm e) (hs : s.Carries m ρ)
    (hv : valueStep ev limit .intSet e s = .ok S t) : t.Carries m ρ ∧ m.Takes ρ e (.set S) := by
  rw [valueStep_eq rfl, hs.expr_eq he.kind_ne_anon, hs.kind_eq he.kind_ne_anon] at hv
  have hb {fn : Option FuncId} (hf : m.withBody? fn = none) := (hs.withBody_eq fn).trans hf
  cases he with
  | lit hk =>
    simp only [hk, ValueKind.literal?] at hv
    cases hv
    exact ⟨hs, .set hk⟩
  | var hk hd =>
    simp only [hk, ValueKind.literal?, compound, show (m.expr e).kind = _ from hk, within_eq_ok] at hv
    obtain ⟨l, u, hi, hw, hr⟩ := identValue_eq_ok.mp hv
    rw [hs.followFlat_eq] at hi hr
    obtain ⟨g, hg, _, hkl, _⟩ := hs.given _ hd l hi
    obtain ⟨rfl, rfl⟩ := h.givenSet hkl hw
    exact ⟨hs.remember_set hg hr, .var hk hg⟩
  | elems hk hes =>
    simp only [hk, ValueKind.literal?, compound, show (m.expr e).kind = _ from hk, node] at hv
    exact h.elems hs hk hes hv
  | range hk hf hl hr =>
    simp only [hk, ValueKind.literal?, compound_bin hk (hb hf)] at hv
    obtain ⟨rfl, hv⟩ := hv
    simp only [node, show (m.expr e).kind = _ from hk] at hv
    exact h.range hs hk hl hr hv
  | bin hk hop hf hl hr =>
    simp only [hk, ValueKind.literal?, compound_bin hk (hb hf)] at hv
    obtain ⟨rfl, hv⟩ := hv
    simp only [node, show (m.expr e).kind = _ from hk, setNode_bin hop] at hv
    obtain ⟨ht, A, B, hA, hB, hS⟩ := h.both hs hl hr hv
    exact ⟨ht, .bin hk hA hB hS⟩
  | call hk hn hf ha hb' =>
    simp only [hk, ValueKind.literal?, compound_call hk (hb hf), builtin, setBuiltin_eq hn] at hv
    obtain ⟨ht, A, B, hA, hB, hS⟩ := h.both hs ha hb' hv
    exact ⟨ht, .call hk hn hA hB hS⟩

end Sets

theorem step : Finds m ρ (Eval.step limit ev) where
  int he hs hv := h.intStep he hs hv
  set he hs hv := h.setStep he hs hv
  givenInt {l s t v g} hk ht hv := by
    change valueStep ev limit .int _ _ = _ at hv
    cases g with
    | int w =>
      rw [valueStep_eq (fromSmaller_int (by rw [ht]; rfl)), hk] at hv
      cases hv
      exact ⟨rfl, rfl⟩
    | set S =>
      rw [valueStep_eq (by rw [ht]; rfl), hk] at hv
      simp only [Given.kind, ValueKind.literal?, compound, show (s.model.expr l).kind = _ from hk, node, intNode] at hv
      exact (fail_eq_ok.mp hv).elim
  givenSet {l s t S g} hk hv := by
    change valueStep ev limit .intSet _ _ = _ at hv
    rw [valueStep_eq rfl, hk] at hv
    cases g with
    | set S =>
      cases hv
      exact ⟨rfl, rfl⟩
    | int w =>
      simp only [Given.kind, ValueKind.literal?, compound, show (s.model.expr l).kind = _ from hk, node, intSetNode] at hv
      exact (fail_eq_ok.mp hv).elim

end Finds

theorem finds_run (m : Model) (ρ : DeclId → Option Given) (limit fuel : Nat) : Finds m ρ (Eval.run limit fuel) := by
  induction fuel with
  | zero =>
    constructor
    all_goals
      intros
      contradiction
  | succ fuel ih => exact ih.step

end Parvar
