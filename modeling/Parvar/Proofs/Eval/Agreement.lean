import Parvar.Proofs.Eval.Arithmetic
import Parvar.Proofs.Eval.Framing
import Parvar.Proofs.Eval.Success

/-!
Evaluation of arithmetic finds its meaning. A machine on the way holds the nodes of the model it
started from, and its variables have no values but the given ones.
-/

namespace Parvar

open Eval

section States

-- A declaration that may have come to a value.
def Decl.Valued (x y : Decl) : Prop := y = { x with init := y.init, evaluated := y.evaluated }

theorem Decl.Kept.valued {m : Model} {x y : Decl} (h : x.Kept m y) : x.Valued y := by
  cases h <;> rfl

theorem Decl.Valued.trans {x y z : Decl} (h₁ : x.Valued y) (h₂ : y.Valued z) : x.Valued z := by
  rw [Valued, h₂, h₁]

-- A machine that has gone on from a model: nodes were added, and declarations came to values.
structure Machine.Continues (m : Model) (s : Machine) : Prop where
  grows : m.Grows s.model
  others : s.model.surroundings = m.surroundings
  size : s.model.decls.size = m.decls.size
  valued : ∀ d, (m.decl d).Valued (s.model.decl d)

structure Machine.Holds (m : Model) (ρ : DeclId → Option Int64) (s : Machine) : Prop extends s.Continues m where
  given : ∀ d, m.IsVariable d → ∀ l, (s.model.decl d).init = some l →
    l.index < s.model.exprs.size ∧ s.model.ty l = .parInt ∧
      ∃ v, ρ d = some v ∧ s.model.kind l = .int v

end States

section Reading

variable {m m' : Model} {e r : ExprId}

theorem Model.Arithmetic.kind_ne_anon {k : ValueKind} (h : m.Arithmetic k e) : m.kind e ≠ .anon := by
  cases h <;> simp_all

theorem Model.Arithmetic.isInt (h : m.Arithmetic .int e) : (m.ty e).isInt := by
  cases h <;> assumption

theorem Model.Arithmetic.isBool (h : m.Arithmetic .bool e) : (m.ty e).isBool := by
  cases h <;> assumption

theorem Model.Arithmetic.kind_of_isBool {k : ValueKind} (h : m.Arithmetic k e)
    (hb : (m.ty e).isBool) : k = .bool := by
  by_contra hk
  have ht : (m.ty e).isInt := by cases h <;> first | assumption | contradiction
  simp_all [Ty.isInt, Ty.isBool, Ty.isScalar]

theorem Model.Arithmetic.dim_eq {k : ValueKind} (h : m.Arithmetic k e) : (m.ty e).dim = 0 := by
  have ht : (m.ty e).isInt ∨ (m.ty e).isBool := by
    cases h <;> first | exact .inl ‹_› | exact .inr ‹_›
  rcases ht with ht | ht <;> simp_all [Ty.isInt, Ty.isBool, Ty.isScalar]

theorem Model.Arithmetic.literalKind {k : ValueKind} (h : m.Arithmetic k e) :
    literalKind? (m.ty e) = none ∨ (literalKind? (m.ty e) = some .int ∧ k = .int) ∨
      (literalKind? (m.ty e) = some .bool ∧ k = .bool) := by
  have hi : k = .int ∧ (m.ty e).isInt ∨ k = .bool ∧ (m.ty e).isBool := by
    cases h <;> first | exact .inl ⟨rfl, ‹_›⟩ | exact .inr ⟨rfl, ‹_›⟩
  rcases hi with ⟨hk, ht⟩ | ⟨hk, ht⟩
  · exact (literalKind_int ht).imp_right fun h => .inl ⟨h, hk⟩
  · exact (literalKind_bool ht).imp_right fun h => .inr ⟨h, hk⟩

theorem Model.Arithmetic.not_isAnn {k : ValueKind} (h : m.Arithmetic k e) :
    (m.ty e).isAnn = false := by
  have ht : (m.ty e).isInt ∨ (m.ty e).isBool := by
    cases h <;> first | exact .inl ‹_› | exact .inr ‹_›
  rcases ht with ht | ht <;> simp_all [Ty.isInt, Ty.isBool, Ty.isScalar, Ty.isAnn]

theorem Model.follow_congr (h : ∀ d, (m'.decl d).flat = (m.decl d).flat) :
    ∀ steps d, m'.follow steps d = m.follow steps d
  | 0, _ => rfl
  | steps + 1, d => by
    simp only [follow, h d]
    split
    · rw [follow_congr h steps]
    · rfl

end Reading

namespace Machine.Continues

variable {m : Model} {s : Machine} {d : DeclId} {e : ExprId} (h : Continues m s)
include h

theorem expr_eq (he : m.kind e ≠ .anon) : s.model.expr e = m.expr e :=
  h.grows.expr_eq (Model.lt_of_kind_ne_anon he)

theorem kind_eq (he : m.kind e ≠ .anon) : s.model.kind e = m.kind e :=
  h.grows.kind_eq (Model.lt_of_kind_ne_anon he)

theorem ty_eq (he : m.kind e ≠ .anon) : s.model.ty e = m.ty e :=
  h.grows.ty_eq (Model.lt_of_kind_ne_anon he)

theorem followFlat_eq (d : DeclId) : s.model.followFlat d = m.followFlat d := by
  rw [Model.followFlat, Model.followFlat, h.size]
  exact Model.follow_congr (fun d => by rw [h.valued d]) _ _

theorem domain_eq (d : DeclId) : s.model.domain d = m.domain d := by
  have ht : s.model.typeInsts = m.typeInsts := congrArg (·.2.2.1) h.others
  rw [Model.domain, Model.domain, Model.typeInst, Model.typeInst, ht, h.valued d]

theorem withBody_eq (fn : Option FuncId) : s.model.withBody? fn = m.withBody? fn := by
  have hf : s.model.funcs = m.funcs := congrArg (·.2.2.2.1) h.others
  simp only [Model.withBody?, Model.func, hf]

theorem only_eq (hd : m.IsVariable d) : only? s.model d = only? m d := by
  have ⟨dom, hdom, hi⟩ := hd.domain
  have hty : (s.model.decl d).ty = (m.decl d).ty := by rw [h.valued d]
  have hk : s.model.kind dom = m.kind dom := h.kind_eq fun h => by simp [Model.IsDomain, h] at hi
  simp only [only?, hty, h.domain_eq, hdom, Option.map_some, hk]
  unfold Model.IsDomain at hi
  split at hi
  · contradiction
  · next l r fn hr => simp only [hr, h.kind_eq hi.1, h.kind_eq hi.2]
  · next hr =>
    split
    · rfl
    · split
      · rfl
      · next l r fn hr' => exact (hr l r fn (Option.some.inj hr')).elim
      · rfl

theorem addExpr (x : Expr) : Continues m { s with model := (s.model.addExpr x).2 } where
  grows := h.grows.trans (Model.grows_addExpr _ _)
  others := h.others
  size := h.size
  valued := h.valued

theorem modifyDecl {f : Decl → Decl} (hf : ∀ x, Decl.Valued x (f x)) :
    Continues m { s with model := s.model.modifyDecl d f } where
  grows := h.grows
  others := h.others
  size := (Model.size_modifyDecl _).trans h.size
  valued c := by
    refine (h.valued c).trans ?_
    rw [Model.decl_modifyDecl]
    split
    · next hc => exact hc.1 ▸ hf _
    · rfl

end Machine.Continues

namespace Machine.Holds

variable {m : Model} {ρ : DeclId → Option Int64} {s : Machine} {d : DeclId} (h : Holds m ρ s)
include h

theorem addExpr (x : Expr) : Holds m ρ { s with model := (s.model.addExpr x).2 } where
  toContinues := h.toContinues.addExpr x
  given d hd l hl := by
    have ⟨hi, ht, v, hv, hk⟩ := h.given d hd l hl
    have hg := Model.grows_addExpr s.model x
    exact ⟨hg.lt hi, (hg.ty_eq hi).trans ht, v, hv, (hg.kind_eq hi).trans hk⟩

theorem built {kind : ExprKind} {ty : Ty} {span : Span} {r : ExprId} {t : Machine}
    (he : EvalM.build (Build.expr kind ty span) s = .ok r t) :
    Holds m ρ t ∧ r.index < t.model.exprs.size ∧ t.model.kind r = kind := by
  cases he
  refine ⟨h.addExpr _, Model.lt_addExpr _ _, ?_⟩
  exact congrArg Expr.kind (Model.expr_addExpr_new s.model _)

-- A declaration comes to hold a literal.
theorem setInit {ρ' : DeclId → Option Int64} {f : Decl → Decl} {l : ExprId} {v : Int64}
    (hf : ∀ x, Decl.Valued x (f x)) (hi : ∀ x, (f x).init = some l)
    (hl : l.index < s.model.exprs.size) (ht : s.model.ty l = .parInt) (hk : s.model.kind l = .int v)
    (hv : ρ' d = some v) (hρ : ∀ c, c ≠ d → ρ' c = ρ c) :
    Holds m ρ' { s with model := s.model.modifyDecl d f } where
  toContinues := h.toContinues.modifyDecl hf
  given c hc l' hl' := by
    by_cases hcd : c = d
    · subst hcd
      rw [Model.decl_modifyDecl] at hl'
      split at hl'
      · obtain rfl : l = l' := Option.some.inj ((hi _).symm.trans hl')
        exact ⟨hl, ht, v, hv, hk⟩
      · next hn =>
        have hr : s.model.decls.size ≤ c.index := by simpa using hn
        rw [Model.decl_of_le hr] at hl'
        contradiction
    · rw [Model.decl_modifyDecl_ne hcd] at hl'
      exact hρ c hcd ▸ h.given c hc l' hl'

theorem remember {v : Int64} {u : Unit} {t : Machine} (hv : ρ d = some v)
    (he : remember .int d v s = .ok u t) : Holds m ρ t := by
  simp only [Eval.remember, model_bind] at he
  split at he
  · cases he
    exact (h.addExpr { kind := .int v, ty := .parInt }).setInit (fun _ => rfl) (fun _ => rfl)
      (Model.lt_addExpr _ _) (congrArg Expr.ty (Model.expr_addExpr_new _ _))
      (congrArg Expr.kind (Model.expr_addExpr_new _ _)) hv fun _ _ => rfl
  · exact (pure_eq_ok.mp he).2 ▸ h

end Machine.Holds

theorem Machine.Framed.continues {m : Model} {s : Machine} (h : Framed [] { model := m } s) : Continues m s where
  grows := h.grows
  others := h.others
  size := h.size
  valued d := (h.kept d List.not_mem_nil).valued

-- Evaluation of a model without values for its variables.
theorem Machine.Framed.holds {m : Model} {s : Machine} (h : Framed [] { model := m } s)
    (ρ : DeclId → Option Int64) : Holds m ρ s where
  toContinues := h.continues
  given d hd l hl := by
    have := (h.kept d List.not_mem_nil).init_eq_none hd.free
    simp [this] at hl

section Operands

-- A literal that can be compared.
def ExprKind.isComparable : ExprKind → Bool
  | int _ | bool _ | float _ => true
  | _ => false

-- What arithmetic leaves of an operand that is not fixed.
def ExprKind.isPending : ExprKind → Bool
  | ident _ _ | ite _ _ | bin _ _ _ _ | un _ _ _ | call _ _ _ => true
  | _ => false

-- A node left of an operand: the literal of its meaning, or a node that cannot be compared.
structure Model.Reads (m : Model) (r : ExprId) (meaning : Option ExprKind) : Prop where
  lt : r.index < m.exprs.size
  literal : (m.kind r).isPending ∨ (m.kind r).isComparable ∧ meaning = some (m.kind r)

theorem Model.Reads.grows {m m' : Model} {r : ExprId} {meaning : Option ExprKind}
    (h : m.Reads r meaning) (hg : m.Grows m') : m'.Reads r meaning where
  lt := hg.lt h.lt
  literal := hg.kind_eq h.lt ▸ h.literal

-- What has no meaning leaves no literal.
theorem Model.Reads.of_none {m : Model} {r : ExprId} {o : Option ExprKind} (h : m.Reads r none) :
    m.Reads r o where
  lt := h.lt
  literal := .inl (h.literal.resolve_right fun h => nomatch h.2)

theorem truth_eq_ok {m : Model} {op : BinOp} {l r : ExprId} {b : Bool} {o p : Option ExprKind}
    (hl : m.Reads l o) (hr : m.Reads r p) (h : truth m false op l r = .ok b) :
    (do Meaning.literalTruth op (← o) (← p)) = some b := by
  have hl := hl.literal
  have hr := hr.literal
  simp only [truth, Bool.false_eq_true, if_false] at h
  generalize m.kind l = lk at h hl
  generalize m.kind r = rk at h hr
  cases lk <;> simp [ExprKind.isPending, ExprKind.isComparable] at hl <;>
    cases rk <;> simp [ExprKind.isPending, ExprKind.isComparable] at hr <;>
    simp_all [ExprKind.isAbsent, Meaning.literalTruth, Except.toOption]

theorem only_comparable {m : Model} {d : DeclId} {l : ExprId} (h : only? m d = some (.inr l)) :
    (m.kind l).isComparable := by
  simp only [only?] at h
  repeat' split at h
  all_goals simp_all [ExprKind.isComparable]

end Operands

namespace Meaning

-- An evaluator that finds meanings wherever it finds a value.
structure Agrees (m : Model) (ρ : DeclId → Option Int64) (ev : Eval) (M : Meaning) : Prop where
  framing : Framing ev
  valuing : Valuing ev
  int : ∀ {e s v t}, m.Arithmetic .int e → s.Holds m ρ → ev.int e s = .ok v t →
    t.Holds m ρ ∧ M.int e = some v
  bool : ∀ {e s b t}, m.Arithmetic .bool e → s.Holds m ρ → ev.bool e s = .ok b t →
    t.Holds m ρ ∧ M.bool e = some b
  operand : ∀ {k e s r t}, m.Arithmetic k e → s.Holds m ρ → ev.residual e s = .ok r t →
    t.Holds m ρ ∧ t.model.Reads r (M.operand e)
  -- Two more kinds of nodes are met: literals that variables hold, and array literals.
  value : ∀ {l s v w t}, s.model.kind l = .int v → s.model.ty l = .parInt →
    ev.int l s = .ok w t → s = t ∧ w = v
  given : ∀ {l s v r t}, s.Holds m ρ → s.model.kind l = .int v → s.model.ty l = .parInt →
    ev.residual l s = .ok r t → t.Holds m ρ ∧ r.index < t.model.exprs.size ∧ t.model.kind r = .int v
  array : ∀ {e elems dims s a t}, s.model.kind e = .arrayLit elems dims →
    ev.array e s = .ok a t → s = t ∧ a = e
  elements : ∀ {e elems dims s r t}, s.Holds m ρ → m.kind e = .arrayLit elems dims →
    0 < (m.ty e).dim → (∀ x ∈ elems, m.Arithmetic .int x) → ev.residual e s = .ok r t → t.Holds m ρ

-- What is chosen is the alternative or one of the branches.
theorem choose_mem {P : ExprId → Prop} {test : ExprId → Option Bool} {otherwise r : ExprId} :
    ∀ {branches : List (ExprId × ExprId)}, choose test otherwise branches = some r →
      (∀ b ∈ branches, P b.2) → P otherwise → P r
  | [], hr, _, ho => Option.some.inj hr ▸ ho
  | (c, b) :: rest, hr, hb, ho => by
    simp only [choose, Option.bind_eq_bind, Option.bind_eq_some_iff] at hr
    have ⟨t, _, hr⟩ := hr
    split at hr
    · exact Option.some.inj hr ▸ hb _ List.mem_cons_self
    · exact choose_mem hr (fun b' hb' => hb b' (List.mem_cons_of_mem _ hb')) ho

namespace Agrees

variable {m : Model} {ρ : DeclId → Option Int64} {ev : Eval} {M : Meaning} {limit : Nat}
  {s t : Machine} {e : ExprId} (h : Agrees m ρ ev M)
include h

section Parts

theorem choose {otherwise : ExprId} : ∀ {branches : List (ExprId × ExprId)} {s r},
    (∀ b ∈ branches, m.Arithmetic .bool b.1) → s.Holds m ρ →
      selectBranch ev otherwise branches s = .ok r t →
        t.Holds m ρ ∧ choose M.bool otherwise branches = some r
  | [], _, _, _, hs, he => by
    obtain ⟨rfl, rfl⟩ := pure_eq_ok.mp he
    exact ⟨hs, rfl⟩
  | (c, b) :: rest, _, _, ha, hs, he => by
    simp only [selectBranch, bind_eq_ok] at he
    obtain ⟨x, u, hx, hr⟩ := he
    obtain ⟨hu, hm⟩ := h.bool (ha _ List.mem_cons_self) hs hx
    simp only [Meaning.choose, hm]
    cases x with
    | true =>
      obtain ⟨rfl, rfl⟩ := pure_eq_ok.mp hr
      exact ⟨hu, rfl⟩
    | false => exact choose (fun b hb => ha b (List.mem_cons_of_mem _ hb)) hu hr

theorem ints {array : ExprId} {elems : List ExprId} {dims : Dims} {vs : List Int64}
    (hs : s.Holds m ρ) (hk : m.kind array = .arrayLit elems dims) (ha : ∀ x ∈ elems, m.Arithmetic .int x)
    (he : intValues ev array s = .ok vs t) : t.Holds m ρ ∧ M.ints m array = some vs := by
  have hk' := (hs.kind_eq (e := array) (by simp [hk])).trans hk
  simp only [intValues, arrayElems, bind_eq_ok, model_bind] at he
  obtain ⟨_, u, ⟨a, _, hr, hp⟩, hm⟩ := he
  obtain ⟨rfl, rfl⟩ := h.array hk' hr
  simp only [hk', pure_eq_ok] at hp
  obtain ⟨rfl, rfl⟩ := hp
  obtain ⟨ht, hq⟩ := mapM_eq_ok (fun x hx _ _ _ hs he => h.int (ha x hx) hs he) hs hm
  refine ⟨ht, ?_⟩
  simp only [Meaning.ints, hk]
  exact mapM_eq_some_iff.mpr hq

theorem un {op : UnOp} {a : ExprId} {fn : Option FuncId} {span : Span} {v : Int64}
    (hs : s.Holds m ρ) (ha : m.Arithmetic .int a)
    (he : intNode ev (.un op a fn) span s = .ok v t) :
    t.Holds m ρ ∧ (match op with
      | .plus => M.int a
      | .minus => M.int a >>= Checked.neg
      | .not => none) = some v := by
  cases op with
  | not => simp [intNode] at he
  | plus => exact h.int ha hs he
  | minus =>
    simp only [intNode, bind_eq_ok, ofCause_eq_ok, overflowing_eq_ok] at he
    obtain ⟨x, _, hx, hn, rfl⟩ := he
    obtain ⟨ht, hm⟩ := h.int ha hs hx
    exact ⟨ht, by simp [hm, hn]⟩

theorem bin {op : BinOp} {l r : ExprId} {fn : Option FuncId} {span : Span} {v : Int64}
    (hs : s.Holds m ρ) (hl : m.Arithmetic .int l) (hr : m.Arithmetic .int r)
    (he : intNode ev (.bin op l r fn) span s = .ok v t) :
    t.Holds m ρ ∧ (do (intOp op (← M.int l) (← M.int r)).toOption) = some v := by
  simp only [intNode, bind_eq_ok, ofCause_eq_ok] at he
  obtain ⟨a, u, ha, b, _, hb, ho, rfl⟩ := he
  obtain ⟨hu, hma⟩ := h.int hl hs ha
  obtain ⟨ht, hmb⟩ := h.int hr hu hb
  exact ⟨ht, by simp [hma, hmb, ho, Except.toOption]⟩

-- The value of a variable is the given one, and it may be stored.
theorem ident {name : String} {d : DeclId} {span : Span} {v : Int64} (hs : s.Holds m ρ)
    (hd : m.IsVariable (m.followFlat d))
    (he : identValue ev .int name (some d) span s = .ok v t) :
    t.Holds m ρ ∧ ρ (m.followFlat d) = some v := by
  have ⟨l, u, hi, hw, hr⟩ := identValue_eq_ok.mp he
  rw [hs.followFlat_eq] at hi hr
  have ⟨hl, hty, x, hx, hk⟩ := hs.given _ hd l hi
  obtain ⟨rfl, rfl⟩ := h.value hk hty hw
  exact ⟨hs.remember hx hr, hx⟩

theorem bool2int {b : ExprId} {span : Span} {v : Int64} (hs : s.Holds m ρ)
    (hb : m.Arithmetic .bool b) (he : intBuiltin ev "bool2int" [b] span s = .ok v t) :
    t.Holds m ρ ∧ M.intCall m "bool2int" [b] = some v := by
  simp only [intBuiltin, bind_eq_ok, pure_eq_ok] at he
  obtain ⟨x, u, hx, hr, hu⟩ := he
  obtain ⟨hu', hm⟩ := h.bool hb hs hx
  exact ⟨hu ▸ hu', by simp [intCall, hm, hr]⟩

theorem abs {a : ExprId} {span : Span} {v : Int64} (hs : s.Holds m ρ) (ha : m.Arithmetic .int a)
    (he : intBuiltin ev "abs" [a] span s = .ok v t) :
    t.Holds m ρ ∧ M.intCall m "abs" [a] = some v := by
  simp only [intBuiltin, bind_eq_ok, ofCause_eq_ok, overflowing_eq_ok] at he
  obtain ⟨x, u, hx, hr, hu⟩ := he
  obtain ⟨hu', hm⟩ := h.int ha hs hx
  exact ⟨hu ▸ hu', by simp only [intCall, hm]; exact hr⟩

theorem pair {name : String} {a b : ExprId} {span : Span} {v : Int64} (hs : s.Holds m ρ)
    (hn : name ∈ ["min", "max", "int_times"]) (ha : m.Arithmetic .int a) (hb : m.Arithmetic .int b)
    (he : intBuiltin ev name [a, b] span s = .ok v t) :
    t.Holds m ρ ∧ M.intCall m name [a, b] = some v := by
  simp only [List.mem_cons, List.not_mem_nil, or_false] at hn
  rcases hn with rfl | rfl | rfl
  all_goals
    simp only [intBuiltin, bind_eq_ok, pure_eq_ok, ofCause_eq_ok, intOp, overflowing_eq_ok] at he
    obtain ⟨x, u, hx, y, w, hy, hr, hw⟩ := he
    obtain ⟨hu, hmx⟩ := h.int ha hs hx
    obtain ⟨hw', hmy⟩ := h.int hb hu hy
    exact ⟨hw ▸ hw', by simp [intCall, hmx, hmy, hr]⟩

theorem sum {array : ExprId} {elems : List ExprId} {dims : Dims} {span : Span} {v : Int64}
    (hs : s.Holds m ρ) (hk : m.kind array = .arrayLit elems dims)
    (ha : ∀ x ∈ elems, m.Arithmetic .int x) (he : intBuiltin ev "sum" [array] span s = .ok v t) :
    t.Holds m ρ ∧ M.intCall m "sum" [array] = some v := by
  simp only [intBuiltin, bind_eq_ok, ofCause_eq_ok, overflowing_eq_ok] at he
  obtain ⟨vs, u, hvs, hr, hu⟩ := he
  obtain ⟨hu', hm⟩ := h.ints hs hk ha hvs
  exact ⟨hu ▸ hu', by simp [intCall, hm, hr]⟩

theorem linear {weights array c : ExprId} {as xs : List ExprId} {dims dims' : Dims} {span : Span}
    {v : Int64} (hs : s.Holds m ρ) (hw : m.kind weights = .arrayLit as dims)
    (hx : m.kind array = .arrayLit xs dims') (has : ∀ a ∈ as, m.Arithmetic .int a)
    (hxs : ∀ x ∈ xs, m.Arithmetic .int x) (hc : m.Arithmetic .int c)
    (he : intBuiltin ev "lin_exp" [weights, array, c] span s = .ok v t) :
    t.Holds m ρ ∧ M.intCall m "lin_exp" [weights, array, c] = some v := by
  simp only [intBuiltin, bind_eq_ok, checkLengths_eq_ok, ofCause_eq_ok, overflowing_eq_ok] at he
  obtain ⟨ws, _, hws, vs, _, hvs, _, _, ⟨_, rfl⟩, z, _, hz, hr, rfl⟩ := he
  obtain ⟨hs, hmw⟩ := h.ints hs hw has hws
  obtain ⟨hs, hmx⟩ := h.ints hs hx hxs hvs
  obtain ⟨hs, hmc⟩ := h.int hc hs hz
  exact ⟨hs, by simp [intCall, hmw, hmx, hmc, hr]⟩

end Parts

section Steps

theorem intStep {v : ValueKind.Val .int} (he : m.Arithmetic .int e) (hs : s.Holds m ρ)
    (hv : valueStep ev limit .int e s = .ok v t) : t.Holds m ρ ∧ M.intStep m ρ e = some v := by
  rw [valueStep_eq (fromSmaller_int (hs.ty_eq he.kind_ne_anon ▸ he.isInt)),
    hs.expr_eq he.kind_ne_anon, hs.kind_eq he.kind_ne_anon] at hv
  have hb {fn : Option FuncId} (hf : m.withBody? fn = none) := (hs.withBody_eq fn).trans hf
  cases he with
  | int hk ht =>
    simp only [hk, ValueKind.literal?] at hv
    cases hv
    exact ⟨hs, by simp only [Meaning.intStep, hk]; rfl⟩
  | var hk ht hd =>
    simp only [hk, ValueKind.literal?, compound, show (m.expr e).kind = _ from hk,
      within_eq_ok] at hv
    simp only [Meaning.intStep, hk]
    exact h.ident hs hd hv
  | @un _ op _ _ hk ht hf ha =>
    simp only [hk, ValueKind.literal?, compound_un hk (hb hf)] at hv
    obtain ⟨rfl, hv⟩ := hv
    simp only [node, show (m.expr e).kind = _ from hk] at hv
    have hm := h.un hs ha hv
    simp only [Meaning.intStep, hk]
    cases op with
    | not => simp at hm
    | _ => exact hm
  | bin hk ht hf hl hr =>
    simp only [hk, ValueKind.literal?, compound_bin hk (hb hf)] at hv
    obtain ⟨rfl, hv⟩ := hv
    simp only [node, show (m.expr e).kind = _ from hk] at hv
    simp only [Meaning.intStep, hk]
    exact h.bin hs hl hr hv
  | ite hk ht hc hi ho =>
    simp only [hk, ValueKind.literal?, compound_ite hk] at hv
    obtain ⟨r, u, hr, hv⟩ := hv
    obtain ⟨hu, hm⟩ := h.choose hc hs hr
    obtain ⟨ht, hi⟩ := h.int (choose_mem hm hi ho) hu hv
    exact ⟨ht, by simp only [Meaning.intStep, hk, hm]; exact hi⟩
  | bool2int hk ht hf hc =>
    simp only [hk, ValueKind.literal?, compound_call hk (hb hf), builtin] at hv
    simp only [Meaning.intStep, hk, hf]
    exact h.bool2int hs hc hv
  | abs hk ht hf ha =>
    simp only [hk, ValueKind.literal?, compound_call hk (hb hf), builtin] at hv
    simp only [Meaning.intStep, hk, hf]
    exact h.abs hs ha hv
  | pair hk ht hf hn ha hb' =>
    simp only [hk, ValueKind.literal?, compound_call hk (hb hf), builtin] at hv
    simp only [Meaning.intStep, hk, hf]
    exact h.pair hs hn ha hb' hv
  | sum hk ht hf ha _ hx =>
    simp only [hk, ValueKind.literal?, compound_call hk (hb hf), builtin] at hv
    simp only [Meaning.intStep, hk, hf]
    exact h.sum hs ha hx hv
  | linear hk ht hf hw _ hx _ has hxs hc =>
    simp only [hk, ValueKind.literal?, compound_call hk (hb hf), builtin] at hv
    simp only [Meaning.intStep, hk, hf]
    exact h.linear hs hw hx has hxs hc hv

-- What comes after the first operand of a connective.
theorem connective {l : ExprId} {x : Bool → EvalM Bool} {y : Bool → Option Bool} {b : Bool}
    (hl : m.Arithmetic .bool l) (hs : s.Holds m ρ)
    (hx : ∀ a {u}, u.Holds m ρ → x a u = .ok b t → t.Holds m ρ ∧ y a = some b)
    (he : (ev.bool l >>= x) s = .ok b t) : t.Holds m ρ ∧ (M.bool l >>= y) = some b := by
  have ⟨a, u, ha, hr⟩ := bind_eq_ok.mp he
  have ⟨hu, hm⟩ := h.bool hl hs ha
  rw [hm]
  exact hx a hu hr

theorem comparison {op : BinOp} {k : ValueKind} {l r : ExprId} {span : Span} {b : Bool}
    (hs : s.Holds m ρ) (hl : m.Arithmetic k l) (hr : m.Arithmetic k r)
    (he : (do
      let a ← ev.residual l
      let b ← ev.residual r
      EvalM.ofCause span (truth (← EvalM.model) false op a b)) s = .ok b t) :
    t.Holds m ρ ∧ (do literalTruth op (← M.operand l) (← M.operand r)) = some b := by
  simp only [bind_eq_ok, model_bind, ofCause_eq_ok] at he
  obtain ⟨a, u, ha, c, _, hc, htr, rfl⟩ := he
  obtain ⟨hu, hra⟩ := h.operand hl hs ha
  obtain ⟨ht, hrc⟩ := h.operand hr hu hc
  have hg := ((h.framing [] _ _).of_ok hc).grows
  exact ⟨ht, truth_eq_ok (hra.grows hg) hrc htr⟩

theorem test {op : BinOp} {k : ValueKind} {l r : ExprId} {span : Span} {b : Bool}
    (hs : s.Holds m ρ) (hl : m.Arithmetic k l) (hr : m.Arithmetic k r)
    (he : boolBin ev op l r span s = .ok b t) : t.Holds m ρ ∧ M.test m op l r = some b := by
  have hk (hp : ((m.ty l).isBool && !(m.ty l).isOpt && ((m.ty r).isBool && !(m.ty r).isOpt)) = true) :
      k = .bool := by
    simp only [Bool.and_eq_true] at hp
    exact hl.kind_of_isBool hp.1.1
  simp only [boolBin, model_bind, hs.ty_eq hl.kind_ne_anon, hs.ty_eq hr.kind_ne_anon,
    hl.not_isAnn] at he
  simp only [Meaning.test]
  generalize ((m.ty l).isBool && !(m.ty l).isOpt && ((m.ty r).isBool && !(m.ty r).isOpt)) = p
    at hk he ⊢
  have hpure {b c : Bool} {u : Machine} (hu : u.Holds m ρ)
      (he : (pure c : EvalM Bool) u = .ok b t) : t.Holds m ρ ∧ (pure c : Option Bool) = some b := by
    obtain ⟨rfl, rfl⟩ := pure_eq_ok.mp he
    exact ⟨hu, rfl⟩
  cases p with
  | false => exact h.comparison hs hl hr he
  | true =>
    obtain rfl := hk rfl
    cases op
    case and | imp =>
      refine h.connective hl hs (fun a u hu he => ?_) he
      cases a with
      | true => exact h.bool hr hu he
      | false => exact hpure hu he
    case or =>
      refine h.connective hl hs (fun a u hu he => ?_) he
      cases a with
      | true => exact hpure hu he
      | false => exact h.bool hr hu he
    case revImp =>
      refine h.connective hr hs (fun a u hu he => ?_) he
      cases a with
      | true => exact h.bool hl hu he
      | false => exact hpure hu he
    all_goals exact h.comparison hs hl hr he

theorem boolStep {b : ValueKind.Val .bool} (he : m.Arithmetic .bool e) (hs : s.Holds m ρ)
    (hv : valueStep ev limit .bool e s = .ok b t) : t.Holds m ρ ∧ M.boolStep m e = some b := by
  rw [valueStep_eq rfl, hs.expr_eq he.kind_ne_anon, hs.kind_eq he.kind_ne_anon] at hv
  have hb {fn : Option FuncId} (hf : m.withBody? fn = none) := (hs.withBody_eq fn).trans hf
  cases he with
  | bool hk ht =>
    simp only [hk, ValueKind.literal?] at hv
    cases hv
    exact ⟨hs, by simp only [Meaning.boolStep, hk]; rfl⟩
  | not hk ht hf ha =>
    simp only [hk, ValueKind.literal?, compound_un hk (hb hf)] at hv
    obtain ⟨rfl, hv⟩ := hv
    simp only [node, show (m.expr e).kind = _ from hk, boolNode] at hv
    simp only [Meaning.boolStep, hk]
    refine h.connective ha hs (fun a u hu he => ?_) hv
    obtain ⟨rfl, rfl⟩ := pure_eq_ok.mp he
    exact ⟨hu, rfl⟩
  | test hk ht hf hl hr =>
    simp only [hk, ValueKind.literal?, compound_bin hk (hb hf)] at hv
    obtain ⟨rfl, hv⟩ := hv
    simp only [node, show (m.expr e).kind = _ from hk, boolNode] at hv
    simp only [Meaning.boolStep, hk]
    exact h.test hs hl hr hv

end Steps

section Residuals

theorem stored_int {r : ExprId} (he : m.Arithmetic .int e) (hs : s.Holds m ρ)
    (hr : stored ev .int e s = .ok r t) : t.Holds m ρ ∧ t.model.Reads r ((M.int e).map .int) := by
  have ⟨v, u, hv, hr⟩ := bind_eq_ok.mp hr
  have ⟨hu, hm⟩ := h.int he hs hv
  have ⟨ht, hl, hk⟩ := hu.built hr
  exact ⟨ht, hl, .inr (by rw [hk, hm]; exact ⟨rfl, rfl⟩)⟩

theorem stored_bool {r : ExprId} (he : m.Arithmetic .bool e) (hs : s.Holds m ρ)
    (hr : stored ev .bool e s = .ok r t) : t.Holds m ρ ∧ t.model.Reads r ((M.bool e).map .bool) := by
  have ⟨v, u, hv, hr⟩ := bind_eq_ok.mp hr
  have ⟨hu, hm⟩ := h.bool he hs hv
  have ⟨ht, hl, hk⟩ := hu.built hr
  exact ⟨ht, hl, .inr (by rw [hk, hm]; exact ⟨rfl, rfl⟩)⟩

omit h in
theorem onlyValue {d : DeclId} {o : Option ExprId} (hd : m.IsVariable d) (hs : s.Holds m ρ)
    (he : onlyValue? d s = .ok o t) :
    t.Holds m ρ ∧ (∀ v, o = some v → t.model.Reads v (onlyLiteral? m d)) ∧
      (o = none → onlyLiteral? m d = none) := by
  simp only [onlyValue?, model_bind, hs.only_eq hd] at he
  cases ho : only? m d with
  | none =>
    simp only [ho, pure_eq_ok] at he
    obtain ⟨rfl, rfl⟩ := he
    exact ⟨hs, fun _ h => (by cases h), fun _ => by simp [onlyLiteral?, ho]⟩
  | some x =>
    cases x with
    | inl v =>
      simp only [ho, bind_eq_ok, pure_eq_ok] at he
      obtain ⟨l, u, hl, hr, hu⟩ := he
      obtain ⟨ht, hl, hk⟩ := hs.built hl
      refine ⟨hu ▸ ht, fun w hw => ?_, fun h => by simp [← hr] at h⟩
      obtain rfl : l = w := Option.some.inj (hr.trans hw)
      exact hu ▸ ⟨hl, .inr (by rw [hk]; simp [onlyLiteral?, ho, ExprKind.isComparable])⟩
    | inr l =>
      simp only [ho, pure_eq_ok] at he
      obtain ⟨rfl, rfl⟩ := he
      have hc := only_comparable ho
      have hne : m.kind l ≠ .anon := fun h => by simp [h, ExprKind.isComparable] at hc
      refine ⟨hs, ?_, fun h => by cases h⟩
      rintro _ ⟨⟩
      refine ⟨hs.grows.lt (Model.lt_of_kind_ne_anon hne), .inr ?_⟩
      rw [hs.kind_eq hne]
      exact ⟨hc, by simp [onlyLiteral?, ho]⟩

omit h in
-- A node built from what is left of the parts is no literal.
theorem rebuilt {x : Expr} {kind : ExprKind} {r : ExprId} {o : Option ExprKind}
    (hk : kind.isPending) (hs : s.Holds m ρ) (he : rebuild x kind s = .ok r t) :
    t.Holds m ρ ∧ t.model.Reads r o := by
  have ⟨ht, hl, hk'⟩ := hs.built he
  exact ⟨ht, hl, .inl (hk' ▸ hk)⟩

-- Branches are decided on for as long as the conditions are fixed.
theorem residualBranches (otherwise : ExprId) : ∀ {branches kept : List (ExprId × ExprId)} {s c},
    (∀ b ∈ branches, m.Arithmetic .bool b.1) → (∀ b ∈ branches, m.Arithmetic .int b.2) →
      s.Holds m ρ → residualBranches ev kept branches s = .ok c t → t.Holds m ρ ∧ match c with
        | .inl r => kept = [] ∧ Meaning.choose (M.fixedTest m) otherwise branches = some r
        | .inr [] => kept = [] ∧ Meaning.choose (M.fixedTest m) otherwise branches = some otherwise
        | .inr (_ :: _) => True
  | [], kept, s, c, _, _, hs, he => by
    obtain ⟨rfl, rfl⟩ := pure_eq_ok.mp he
    refine ⟨hs, ?_⟩
    cases kept <;> simp [Meaning.choose]
  | (c, b) :: rest, kept, s, r, hc, hb, hs, he => by
    have hc₀ := hc _ List.mem_cons_self
    have hc' := fun b hb => hc b (List.mem_cons_of_mem _ hb)
    have hb' := fun b hb' => hb b (List.mem_cons_of_mem _ hb')
    simp only [Eval.residualBranches, model_bind, hs.ty_eq hc₀.kind_ne_anon] at he
    split at he
    · next hp =>
      simp only [Bool.and_eq_true, List.isEmpty_iff] at hp
      obtain ⟨a, u, ha, hr⟩ := bind_eq_ok.mp he
      obtain ⟨hu, hm⟩ := h.bool hc₀ hs ha
      have hf : M.fixedTest m c = some a := by simp [fixedTest, hp.2, hm]
      simp only [Meaning.choose, hf]
      cases a with
      | true =>
        obtain ⟨rfl, rfl⟩ := pure_eq_ok.mp hr
        exact ⟨hu, hp.1, rfl⟩
      | false => exact residualBranches otherwise hc' hb' hu hr
    · simp only [bind_eq_ok] at he
      obtain ⟨c', u, hc'', b', w, hb'', hr⟩ := he
      have hu := (h.operand hc₀ hs hc'').1
      have hw := (h.operand (hb _ List.mem_cons_self) hu hb'').1
      obtain ⟨ht, hm⟩ := residualBranches otherwise hc' hb' hw hr
      refine ⟨ht, ?_⟩
      rcases r with _ | _ | ⟨_, _⟩
      · simp at hm
      · simp at hm
      · trivial

omit h in
theorem residualCall {name : String} {args : List ExprId} {fn : Option FuncId} {r : ExprId}
    {o : Option ExprKind} (hk : m.kind e = .call name args fn) (hf : m.withBody? fn = none)
    (hargs : ∀ a ∈ args, ∀ {s r t}, s.Holds m ρ → ev.residual a s = .ok r t → t.Holds m ρ)
    (hs : s.Holds m ρ) (hr : residualNode ev limit e (m.expr e) s = .ok r t) :
    t.Holds m ρ ∧ t.model.Reads r o := by
  simp only [residualNode, show (m.expr e).kind = _ from hk, model_bind,
    (hs.withBody_eq fn).trans hf, bind_eq_ok] at hr
  obtain ⟨rs, u, hrs, hr⟩ := hr
  obtain ⟨hu, _⟩ := mapM_eq_ok (fun a ha _ _ _ hs he => ⟨hargs a ha hs he, trivial⟩) hs hrs
  exact rebuilt rfl hu hr

theorem residualIte {branches : List (ExprId × ExprId)} {otherwise r : ExprId}
    (hk : m.kind e = .ite branches otherwise) (hc : ∀ b ∈ branches, m.Arithmetic .bool b.1)
    (hb : ∀ b ∈ branches, m.Arithmetic .int b.2) (ho : m.Arithmetic .int otherwise)
    (hs : s.Holds m ρ) (hr : residualNode ev limit e (m.expr e) s = .ok r t) :
    t.Holds m ρ ∧ t.model.Reads r (do
      M.operand (← Meaning.choose (M.fixedTest m) otherwise branches)) := by
  simp only [residualNode, show (m.expr e).kind = _ from hk, bind_eq_ok] at hr
  obtain ⟨c, u, hbr, hr⟩ := hr
  obtain ⟨hu, hm⟩ := h.residualBranches otherwise hc hb hs hbr
  rcases c with taken | _ | ⟨_, _⟩
  · obtain ⟨_, hm⟩ := hm
    rw [hm]
    exact h.operand (choose_mem hm hb ho) hu hr
  · obtain ⟨_, hm⟩ := hm
    obtain ⟨o, w, ho', hr⟩ := bind_eq_ok.mp hr
    obtain ⟨rfl, rfl⟩ := pure_eq_ok.mp hr
    rw [hm]
    exact h.operand ho hu ho'
  · obtain ⟨o, w, ho', hr⟩ := bind_eq_ok.mp hr
    exact rebuilt rfl (h.operand ho hu ho').1 hr

theorem residualNode {k : ValueKind} {r : ExprId} (he : m.Arithmetic k e) (hs : s.Holds m ρ)
    (hv : ∀ {name d}, m.kind e ≠ .ident name d)
    (hr : residualNode ev limit e (m.expr e) s = .ok r t) :
    t.Holds m ρ ∧ t.model.Reads r (match m.kind e with
      | .int v => some (.int v)
      | .bool b => some (.bool b)
      | .ite branches otherwise => do
        M.operand (← Meaning.choose (M.fixedTest m) otherwise branches)
      | _ => none) := by
  have hb {fn : Option FuncId} (hf : m.withBody? fn = none) := (hs.withBody_eq fn).trans hf
  have hlit (hc : (m.kind e).isComparable) (he' : (pure e : EvalM ExprId) s = .ok r t) :
      t.Holds m ρ ∧ t.model.Reads r (some (m.kind e)) := by
    obtain ⟨rfl, rfl⟩ := pure_eq_ok.mp he'
    refine ⟨hs, hs.grows.lt (Model.lt_of_kind_ne_anon he.kind_ne_anon), .inr ?_⟩
    rw [hs.kind_eq he.kind_ne_anon]
    exact ⟨hc, rfl⟩
  have hop {k : ValueKind} {a : ExprId} (ha : m.Arithmetic k a) {s r t} (hs : s.Holds m ρ)
      (hr : ev.residual a s = .ok r t) : t.Holds m ρ :=
    (h.operand ha hs hr).1
  cases he with
  | int hk ht | bool hk ht =>
    rw [hk] at hlit
    simp only [Eval.residualNode, show (m.expr e).kind = _ from hk] at hr
    simp only [hk]
    exact hlit rfl hr
  | var hk ht hd => exact (hv hk).elim
  | un hk ht hf ha | not hk ht hf ha =>
    simp only [Eval.residualNode, show (m.expr e).kind = _ from hk, model_bind, hb hf,
      bind_eq_ok] at hr
    obtain ⟨a', u, ha', hr⟩ := hr
    exact rebuilt rfl (hop ha hs ha') hr
  | bin hk ht hf hl hr' | test hk ht hf hl hr' =>
    simp only [Eval.residualNode, show (m.expr e).kind = _ from hk, model_bind, hb hf,
      bind_eq_ok] at hr
    obtain ⟨l', u, hl', r', w, hr'', hr⟩ := hr
    exact rebuilt rfl (hop hr' (hop hl hs hl') hr'') hr
  | ite hk ht hc hb ho =>
    simp only [hk]
    exact h.residualIte hk hc hb ho hs hr
  | bool2int hk ht hf ha | abs hk ht hf ha =>
    refine residualCall hk hf ?_ hs hr
    simp only [List.mem_singleton, forall_eq]
    exact hop ha
  | pair hk ht hf hn ha hb =>
    refine residualCall hk hf ?_ hs hr
    simp only [List.mem_cons, List.not_mem_nil, or_false, forall_eq_or_imp, forall_eq]
    exact ⟨hop ha, hop hb⟩
  | sum hk ht hf ha hd hx =>
    refine residualCall hk hf ?_ hs hr
    simp only [List.mem_singleton, forall_eq]
    exact fun hs => h.elements hs ha hd hx
  | linear hk ht hf hw hdw hx hdx has hxs hc =>
    refine residualCall hk hf ?_ hs hr
    simp only [List.mem_cons, List.not_mem_nil, or_false, forall_eq_or_imp, forall_eq]
    exact ⟨fun hs => h.elements hs hw hdw has, fun hs => h.elements hs hx hdx hxs, hop hc⟩

theorem residualByType {k : ValueKind} {r : ExprId} (he : m.Arithmetic k e) (hs : s.Holds m ρ)
    (hv : ∀ {name d}, m.kind e ≠ .ident name d)
    (hr : residualByType ev limit e (m.expr e) s = .ok r t) :
    t.Holds m ρ ∧ t.model.Reads r (M.operandStep m ρ e) := by
  rw [residualByType_eq he.dim_eq] at hr
  have hl := he.literalKind
  unfold Meaning.operandStep
  split
  · next hk => exact (hv hk).elim
  · rcases hl with hl | ⟨hl, rfl⟩ | ⟨hl, rfl⟩ <;> rw [show literalKind? (m.expr e).ty = _ from hl] at hr <;> rw [hl]
    · exact h.residualNode he hs hv hr
    · exact h.stored_int he hs hr
    · exact h.stored_bool he hs hr

theorem operandIdent {name : String} {d : DeclId} {r : ExprId} (hk : m.kind e = .ident name (some d))
    (ht : (m.ty e).isInt) (hd : m.IsVariable (m.followFlat d)) (hs : s.Holds m ρ)
    (hr : residualStep ev limit e s = .ok r t) :
    t.Holds m ρ ∧ t.model.Reads r (M.operandStep m ρ e) := by
  have hne : m.kind e ≠ .anon := by simp [hk]
  have he : m.Arithmetic .int e := .var hk ht hd
  simp only [residualStep, model_bind, hs.expr_eq hne, show (m.expr e).kind = _ from hk, declared,
    bind_eq_ok, pure_eq_ok, hs.followFlat_eq] at hr
  obtain ⟨_, _, ⟨rfl, rfl⟩, o, u, ho, hr⟩ := hr
  obtain ⟨hu, hsome, hnone⟩ := onlyValue hd hs ho
  simp only [operandStep, hk]
  cases o with
  | some v =>
    obtain ⟨rfl, rfl⟩ := pure_eq_ok.mp hr
    have hv := hsome v rfl
    refine ⟨hu, ?_⟩
    cases ho : onlyLiteral? m (m.followFlat d) with
    | some kind =>
      rw [ho] at hv
      exact hv
    | none =>
      rw [ho] at hv
      exact hv.of_none
  | none =>
    simp only [hnone rfl]
    cases hi : (u.model.decl (m.followFlat d)).init with
    | none =>
      simp only [hi, pure_eq_ok] at hr
      obtain ⟨rfl, rfl⟩ := hr
      refine ⟨hu, hu.grows.lt (Model.lt_of_kind_ne_anon hne), .inl ?_⟩
      rw [hu.kind_eq hne, hk]
      rfl
    | some l =>
      obtain ⟨hl, hty, v, hv, hkl⟩ := hu.given _ hd l hi
      simp only [hi] at hr
      by_cases hlit : (literalKind? (m.ty e)).isSome
      · rw [if_pos (show (literalKind? (m.expr e).ty).isSome from hlit),
          residualByType_eq he.dim_eq] at hr
        have hl : literalKind? (m.expr e).ty = some .int :=
          (literalKind_int ht).resolve_left fun h => by simp [h] at hlit
        rw [hl] at hr
        rw [if_pos hlit]
        exact h.stored_int he hu hr
      · rw [if_neg (show ¬ (literalKind? (m.expr e).ty).isSome from hlit), within_eq_ok] at hr
        obtain ⟨ht, hl, hk⟩ := h.given hu hkl hty hr
        rw [if_neg hlit]
        exact ⟨ht, hl, .inr (by rw [hk, hv]; exact ⟨rfl, rfl⟩)⟩

theorem operandStep {k : ValueKind} {r : ExprId} (he : m.Arithmetic k e) (hs : s.Holds m ρ)
    (hr : residualStep ev limit e s = .ok r t) :
    t.Holds m ρ ∧ t.model.Reads r (M.operandStep m ρ e) := by
  have he' := he
  have hx := hs.expr_eq he.kind_ne_anon
  cases he with
  | var hk ht hd => exact h.operandIdent hk ht hd hs hr
  | int hk | un hk | bin hk | ite hk | bool2int hk | abs hk | pair hk | sum hk | linear hk | bool hk
  | not hk | test hk =>
    simp only [residualStep, model_bind, hx, show (m.expr e).kind = _ from hk] at hr
    exact h.residualByType he' hs (by simp [hk]) hr

theorem elementsStep {elems : List ExprId} {dims : Dims} {r : ExprId} (hs : s.Holds m ρ)
    (hk : m.kind e = .arrayLit elems dims) (hd : 0 < (m.ty e).dim)
    (hx : ∀ x ∈ elems, m.Arithmetic .int x) (hr : residualStep ev limit e s = .ok r t) :
    t.Holds m ρ := by
  have hne : m.kind e ≠ .anon := by simp [hk]
  have hk' : s.model.kind e = .arrayLit elems dims := (hs.kind_eq hne).trans hk
  simp only [residualStep, model_bind, hs.expr_eq hne, show (m.expr e).kind = _ from hk,
    Eval.residualByType, show 0 < (m.expr e).ty.dim from hd, decide_true, Bool.or_true,
    Bool.and_true, if_true] at hr
  simp only [residualArray, model_bind, arrayElems, bind_eq_ok] at hr
  obtain ⟨_, u, ⟨a, _, ha, hp⟩, rs, w, hrs, hr⟩ := hr
  obtain ⟨rfl, rfl⟩ := h.array hk' ha
  simp only [hk', pure_eq_ok] at hp
  obtain ⟨rfl, rfl⟩ := hp
  obtain ⟨hw, _⟩ := mapM_eq_ok (fun x hx' _ _ _ hs he => ⟨(h.operand (hx x hx') hs he).1, trivial⟩)
    hs hrs
  exact (hw.built hr).1

end Residuals

theorem step : Agrees m ρ (Eval.step limit ev) (M.step m ρ) where
  framing := h.framing.step h.valuing limit
  valuing := h.valuing.step limit
  int he hs hv := h.intStep he hs hv
  bool he hs hv := h.boolStep he hs hv
  operand he hs hr := h.operandStep he hs hr
  value hk ht hv := by
    change valueStep ev limit .int _ _ = _ at hv
    rw [valueStep_eq (fromSmaller_int (by rw [ht]; rfl)), hk] at hv
    cases hv
    exact ⟨rfl, rfl⟩
  given {l s v r t} hs hk ht hr := by
    change residualStep ev limit l s = _ at hr
    simp only [residualStep, model_bind, show (s.model.expr l).kind = _ from hk] at hr
    have hd : (s.model.expr l).ty.dim = 0 := by rw [show (s.model.expr l).ty = _ from ht]; rfl
    rw [residualByType_eq hd, show (s.model.expr l).ty = _ from ht] at hr
    have ⟨w, u, hw, hr⟩ := bind_eq_ok.mp hr
    obtain ⟨rfl, rfl⟩ := h.value hk ht hw
    exact hs.built hr
  array hk hv := by
    change valueStep ev limit .array _ _ = _ at hv
    rw [valueStep_eq rfl, hk] at hv
    cases hv
    exact ⟨rfl, rfl⟩
  elements hs hk hd hx hr := h.elementsStep hs hk hd hx hr

end Agrees

theorem agrees_run (m : Model) (ρ : DeclId → Option Int64) (limit : Nat) :
    ∀ fuel, Agrees m ρ (run limit fuel) (upTo m ρ fuel)
  | 0 => {
      framing := framing_run limit 0
      valuing := valuing_run limit 0
      int := nofun
      bool := nofun
      operand := nofun
      value := nofun
      given := nofun
      array := nofun
      elements := nofun }
  | fuel + 1 => (agrees_run m ρ limit fuel).step

end Meaning
end Parvar
