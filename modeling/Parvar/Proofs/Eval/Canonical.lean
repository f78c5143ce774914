import Parvar.Proofs.Eval.Framing
import Parvar.Typing.Check

/-!
The residual of a fixed expression is a literal. That of an array is an array of literals, as far as
its elements come to something of a fixed type themselves: every way through evaluation ends in a
literal, in an expression of another type, or in a name without a value. The residual of a literal
is the same literal again.
-/

namespace Parvar

open Eval Machine

section Definitions

-- The kind of the literal for a fixed value that is no array.
def Eval.scalarKind? (ty : Ty) : Option ValueKind := (literalKind? ty).filter (· ≠ .array)

namespace Model

variable (m : Model) (e : ExprId)

-- What a literal of a fixed type says, unless it is an array. A text stands for itself in any case.
def scalar? : Option ExprKind :=
  match m.kind e with
  | .string v => some (.string v)
  | kind => if (scalarKind? (m.ty e)).any fun k => (k.literal? e kind).isSome then some kind else none

-- What a literal says: a single value, or those of its elements and how they are arranged.
inductive Contents where
  | scalar (value : ExprKind)
  | array (values : List ExprKind) (dims : Dims)

def contents? : Option Contents :=
  match m.kind e with
  | .arrayLit elems dims =>
    if literalKind? (m.ty e) = some .array then (elems.mapM m.scalar?).map (.array · dims) else none
  | _ => (m.scalar? e).map .scalar

-- What evaluation cannot turn into a literal.
inductive IsOpen : Prop
  | other (unfixed : scalarKind? (m.ty e) = none)
  | placeholder (blank : m.kind e = .anon ∨ m.kind e = .absent ∨ ∃ name, m.kind e = .typeVar name)
  | name {name : String} {d : DeclId} (ident : m.kind e = .ident name (some d))
      (unset : (m.decl (m.followFlat d)).init = none)

-- The only value in the domain of a name.
def soleValue? : Option (Int64 ⊕ ExprId) := (m.declOf? e).bind fun d => only? m (m.followFlat d)

-- What stands for a value: no placeholder and no name without one. A text or a set has the type of one.
def HasValue : Prop :=
  match m.kind e with
  | .anon | .absent | .typeVar _ | .ident _ none => False
  | .ident _ (some d) => (m.soleValue? e).isSome ∨ (m.decl (m.followFlat d)).init.isSome
  | .string _ => (m.ty e).isString
  | .comp c => c.isSet → (m.ty e).isSetTy
  | _ => True

-- Domains are there, and the literal that is the only value in one has the type of a literal.
structure DomainsTyped : Prop where
  present : ∀ d x, m.domain d = some x → x.index < m.exprs.size
  ends : ∀ d x l r fn, m.domain d = some x → m.kind x = .bin .range l r fn →
    l.index < m.exprs.size ∧ r.index < m.exprs.size
  typed : ∀ d l, only? m d = some (.inr l) → (m.scalar? l).isSome

-- On the way from one model to another, an expression was found to be a literal or to be open.
def Reduced (m' : Model) : Prop :=
  (m'.scalar? e).isSome ∨ ∃ u : Model, m.Grows u ∧ u.Grows m' ∧ u.IsOpen e

end Model
end Definitions

section Scalars

variable {m m' : Model} {e : ExprId} {k : ValueKind} {ty : Ty}

theorem scalarKind_eq_some : scalarKind? ty = some k ↔ literalKind? ty = some k ∧ k ≠ .array := by
  simp [scalarKind?, Option.filter_eq_some_iff]

theorem literalKind_array (h : literalKind? ty = some .array) : ty.isPar ∧ 0 < ty.dim := by
  unfold literalKind? at h
  repeat' split at h
  all_goals simp_all

theorem literalKind_of_dim (h : 0 < ty.dim) (hk : literalKind? ty = some k) : k = .array := by
  unfold literalKind? at hk
  split at hk <;> simp_all

theorem literalKind_string (h : ty.isString) (hk : literalKind? ty = some k) : k = .string := by
  simp only [Ty.isString, Ty.isScalar, Bool.and_eq_true, decide_eq_true_eq, Bool.not_eq_true'] at h
  unfold literalKind? at hk
  repeat' split at hk
  all_goals simp_all [Ty.isIntSet, Ty.isBoolSet, Ty.isSetOf, Ty.isSetTy, Ty.isInt, Ty.isBool, Ty.isFloat, Ty.isScalar]

theorem literalKind_set (h : ty.isSetTy) (hk : literalKind? ty = some k) :
    k = if ty.base = .bool then .boolSet else .intSet := by
  simp only [Ty.isSetTy, Bool.and_eq_true, decide_eq_true_eq] at h
  unfold literalKind? at hk
  repeat' split at hk
  all_goals simp_all [Ty.isIntSet, Ty.isBoolSet, Ty.isSetOf, Ty.isSetTy, Ty.isInt, Ty.isBool, Ty.isFloat, Ty.isString,
    Ty.isScalar]
  intro hb
  simp_all

theorem scalarKind_of_dim (h : 0 < ty.dim) : scalarKind? ty = none := by
  cases hk : literalKind? ty with
  | none => simp [scalarKind?, hk]
  | some k => simp [scalarKind?, hk, literalKind_of_dim h hk]

theorem scalar_of_literal (hk : scalarKind? (m.ty e) = some k) (hl : (k.literal? e (m.kind e)).isSome) :
    m.scalar? e = some (m.kind e) := by
  unfold Model.scalar?
  split
  · next h => exact h ▸ rfl
  · simp [hk, hl]

theorem scalar_cases {x : ExprKind} (h : m.scalar? e = some x) : x = m.kind e ∧
    ((∃ v, m.kind e = .string v) ∨ (∀ v, m.kind e ≠ .string v) ∧
      ∃ k, scalarKind? (m.ty e) = some k ∧ (k.literal? e (m.kind e)).isSome) := by
  unfold Model.scalar? at h
  split at h
  · next v hv =>
    cases h
    exact ⟨hv.symm, .inl ⟨v, hv⟩⟩
  · next hs =>
    split at h
    · next hany =>
      cases h
      refine ⟨rfl, .inr ⟨hs, ?_⟩⟩
      cases hk : scalarKind? (m.ty e) with
      | none => simp [hk] at hany
      | some k => exact ⟨k, rfl, by simpa [hk] using hany⟩
    · cases h

theorem lt_of_scalar (h : (m.scalar? e).isSome) : e.index < m.exprs.size := by
  refine Model.lt_of_kind_ne_anon fun ha => ?_
  obtain ⟨x, hx⟩ := Option.isSome_iff_exists.mp h
  obtain ⟨-, ⟨v, hv⟩ | ⟨-, k, -, hl⟩⟩ := scalar_cases hx
  · simp [ha] at hv
  · cases k <;> simp [ha, ValueKind.literal?] at hl

theorem Model.Grows.scalar_eq (hg : m.Grows m') (he : e.index < m.exprs.size) : m'.scalar? e = m.scalar? e := by
  rw [Model.scalar?, Model.scalar?, hg.kind_eq he, hg.ty_eq he]

theorem Model.Grows.scalar (hg : m.Grows m') (h : (m.scalar? e).isSome) : (m'.scalar? e).isSome :=
  hg.scalar_eq (lt_of_scalar h) ▸ h

end Scalars

section Reduced

variable {m m₁ m₂ m' : Model} {e : ExprId}

theorem Model.Reduced.mono (h : m₁.Reduced e m₂) (h₁ : m.Grows m₁) (h₂ : m₂.Grows m') : m.Reduced e m' := by
  obtain h | ⟨u, hu₁, hu₂, hu⟩ := h
  · exact .inl (h₂.scalar h)
  · exact .inr ⟨u, h₁.trans hu₁, hu₂.trans h₂, hu⟩

theorem Model.IsOpen.reduced (h : m.IsOpen e) : m.Reduced e m := .inr ⟨m, .refl m, .refl m, h⟩

end Reduced

section Follows

-- All that bindings change are the values of declarations, and nodes are only added.
structure Machine.Follows (s t : Machine) : Prop where
  grows : s.model.Grows t.model
  typeInsts : t.model.typeInsts = s.model.typeInsts
  rebound : ∀ d, (s.model.decl d).Rebound (t.model.decl d)

namespace Machine.Follows

variable {s t u : Machine}

instance : Std.Refl Follows := ⟨fun _ => ⟨.refl _, rfl, fun _ => .refl _⟩⟩

instance : IsTrans Machine Follows := ⟨fun _ _ _ h₁ h₂ =>
  ⟨h₁.grows.trans h₂.grows, h₂.typeInsts.trans h₁.typeInsts, fun d => (h₁.rebound d).trans (h₂.rebound d)⟩⟩

theorem domain_eq (h : Follows s t) (d : DeclId) : t.model.domain d = s.model.domain d := by
  rw [Model.domain, h.rebound d, Model.typeInst, h.typeInsts]
  rfl

theorem only_eq (h : Follows s t) (hs : s.model.DomainsTyped) (d : DeclId) :
    only? t.model d = only? s.model d := by
  have hty : (t.model.decl d).ty = (s.model.decl d).ty := by rw [h.rebound d]
  unfold only?
  rw [hty, h.domain_eq]
  cases hd : s.model.domain d with
  | none => rfl
  | some x =>
    simp only [Option.map_some, h.grows.kind_eq (hs.present d x hd)]
    cases hk : s.model.kind x
    case bin op l r fn =>
      cases op
      case range =>
        obtain ⟨hl, hr⟩ := hs.ends d x l r fn hd hk
        simp only [h.grows.kind_eq hl, h.grows.kind_eq hr]
      all_goals rfl
    all_goals rfl

theorem domainsTyped (h : Follows s t) (hs : s.model.DomainsTyped) : t.model.DomainsTyped where
  present d x hd := h.grows.lt (hs.present d x (h.domain_eq d ▸ hd))
  ends d x l r fn hd hk := by
    rw [h.domain_eq] at hd
    rw [h.grows.kind_eq (hs.present d x hd)] at hk
    obtain ⟨hl, hr⟩ := hs.ends d x l r fn hd hk
    exact ⟨h.grows.lt hl, h.grows.lt hr⟩
  typed d l ho := by
    rw [h.only_eq hs] at ho
    exact h.grows.scalar (hs.typed d l ho)

end Machine.Follows

theorem Machine.Framed.follows {ds : List DeclId} {s t : Machine} (h : Framed ds s t) : Follows s t where
  grows := h.grows
  typeInsts := congrArg (·.2.2.1) h.others
  rebound := h.rebound

theorem Keeps.follows {α : Type} {x : EvalM α} (hx : Keeps (Framed []) x) : Keeps Follows x :=
  hx.mono fun _ _ => Framed.follows

theorem keeps_bind (d : DeclId) (v : Option ExprId) : Keeps Follows (Eval.bind d v) := by
  intro s
  have hf : Framed [d] s (bound s d v) :=
    .modifyDecl (fun _ => rfl) fun hd => (hd (List.mem_singleton_self d)).elim
  exact hf.follows

theorem keeps_bindLet (l : Let) : Keeps Follows (bindLet l) := by
  refine .bind (.mapM fun i _ => ?_) fun _ => .pure _
  obtain ⟨i | i, n⟩ := i
  · exact .bind keeps_model fun _ => .bind (keeps_bind _ _) fun _ => .pure _
  · exact .pure _

end Follows

section Steps

variable {α : Type} {s t : Machine} {r : ExprId}

-- All that can come of a step from a state on is a literal, or open when it was found.
def ReducesFrom (s : Machine) (x : EvalM ExprId) : Prop :=
  s.model.DomainsTyped → ∀ r t, x s = .ok r t → s.model.Reduced r t.model

def Reduces (x : EvalM ExprId) : Prop := ∀ s, ReducesFrom s x

namespace ReducesFrom

theorem of_open (h : s.model.IsOpen r) : ReducesFrom s (pure r) := by
  intro _ r' t he
  obtain ⟨rfl, rfl⟩ := pure_eq_ok.mp he
  exact h.reduced

theorem of_scalar (h : (s.model.scalar? r).isSome) : ReducesFrom s (pure r) := by
  intro _ r' t he
  obtain ⟨rfl, rfl⟩ := pure_eq_ok.mp he
  exact .inl h

theorem of_eq {x y : EvalM ExprId} (h : ReducesFrom s y) (hxy : x s = y s) : ReducesFrom s x :=
  fun hs r t he => h hs r t (hxy ▸ he)

theorem bind {x : EvalM α} {f : α → EvalM ExprId} (hx : Keeps Follows x) (hf : ∀ a, Reduces (f a)) :
    ReducesFrom s (x >>= f) := by
  intro hs r t he
  obtain ⟨a, u, ha, he⟩ := bind_eq_ok.mp he
  have hu := hx.of_ok ha
  exact (hf a u (hu.domainsTyped hs) r t he).mono hu.grows (.refl _)

end ReducesFrom

namespace Reduces

theorem fail (c : EvalError.Cause) (span : Span) : Reduces (EvalM.fail c span) :=
  fun _ _ _ _ he => (fail_eq_ok.mp he).elim

theorem bind {x : EvalM α} {f : α → EvalM ExprId} (hx : Keeps Follows x) (hf : ∀ a, Reduces (f a)) :
    Reduces (x >>= f) :=
  fun _ => .bind hx hf

theorem within {span : Span} {c : EvalError.Context} {x : EvalM ExprId} (hx : Reduces x) :
    Reduces (EvalM.within span c x) :=
  fun s hs r t he => hx s hs r t (within_eq_ok.mp he)

theorem restoring {saved : List Saved} {x : EvalM ExprId} (hx : Reduces x) : Reduces (restoring saved x) := by
  intro s hs r t he
  obtain ⟨u, hu, rfl⟩ := restoring_eq_ok.mp he
  exact (hx s hs r u hu).mono (.refl _) (grows_restoreAll saved u)

theorem deeper {x : EvalM ExprId} (hx : Reduces x) : Reduces (deeper x) := by
  intro s hs r t he
  obtain ⟨u, hu, rfl⟩ := deeper_eq_ok.mp he
  exact hx { s with depth := s.depth + 1 } hs r u hu

theorem withLet {l : Let} {x : EvalM ExprId} (hx : Reduces x) : Reduces (withLet l x) :=
  .bind (keeps_bindLet l) fun _ => .restoring hx

end Reduces
end Steps

namespace Eval

section Nodes

variable {ev : Eval} {k : ValueKind} {s t : Machine} {e r : ExprId} {limit : Nat}

theorem expr_of_build {kind : ExprKind} {ty : Ty} {span : Span}
    (h : EvalM.build (Build.expr kind ty span) s = .ok r t) :
    t.model.expr r = { kind, ty, span } ∧ s.model.Grows t.model := by
  cases h
  exact ⟨Model.expr_addExpr_new _ _, Model.grows_addExpr _ _⟩

-- A value is written down as a literal of its kind.
theorem stored_eq_ok (hk : k ≠ .array) (h : stored ev k e s = .ok r t) :
    literalKind? (t.model.ty r) = some k ∧ (k.literal? r (t.model.kind r)).isSome := by
  obtain ⟨v, u, -, h⟩ := bind_eq_ok.mp h
  cases k
  case array => contradiction
  all_goals
    have hx := (expr_of_build h).1
    rw [Model.ty, Model.kind, hx]
    exact ⟨rfl, rfl⟩

theorem reduces_stored (hk : k ≠ .array) : Reduces (stored ev k e) := by
  intro s hs r t h
  obtain ⟨hty, hl⟩ := stored_eq_ok hk h
  exact .inl (by rw [scalar_of_literal (scalarKind_eq_some.mpr ⟨hty, hk⟩) hl]; rfl)

theorem scalar_of_int {v : Int64} (h : EvalM.build (Build.int v) s = .ok r t) : (t.model.scalar? r).isSome := by
  have hr := (expr_of_build h).1
  rw [scalar_of_literal (k := .int) (by rw [Model.ty, hr]; rfl) (by rw [Model.kind, hr]; rfl)]
  rfl

-- What is put together anew has the type of what it replaces.
theorem reduces_build {kind : ExprKind} {ty : Ty} {span : Span} (h : scalarKind? ty = none) :
    Reduces (EvalM.build (Build.expr kind ty span)) := by
  intro s hs r t he
  obtain ⟨hx, hg⟩ := expr_of_build he
  exact .inr ⟨t.model, hg, .refl _, .other (by rwa [Model.ty, hx])⟩

-- The three ways in which the type of an expression decides about its residual.
theorem residualByType_cases (ev : Eval) (limit : Nat) (e : ExprId) (x : Expr) :
    (0 < x.ty.dim ∧ residualByType ev limit e x = residualArray ev e) ∨
      (∃ k, scalarKind? x.ty = some k ∧ residualByType ev limit e x = stored ev k e) ∨
        literalKind? x.ty = none ∧ residualByType ev limit e x = residualNode ev limit e x := by
  obtain ⟨isArray, hx⟩ : ∃ isArray : Bool, residualByType ev limit e x =
      if 0 < x.ty.dim && (x.ty.isPar || isArray) then residualArray ev e
      else (literalKind? x.ty).elim (residualNode ev limit e x) (stored ev · e) := by
    unfold residualByType
    cases literalKind? x.ty <;> exact ⟨_, rfl⟩
  split at hx
  · next hd =>
    simp only [Bool.and_eq_true, decide_eq_true_eq] at hd
    exact .inl ⟨hd.1, hx⟩
  · next hd =>
    cases hk : literalKind? x.ty with
    | none => exact .inr (.inr ⟨rfl, by rw [hx, hk, Option.elim_none]⟩)
    | some k =>
      refine .inr (.inl ⟨k, scalarKind_eq_some.mpr ⟨hk, ?_⟩, by rw [hx, hk, Option.elim_some]⟩)
      rintro rfl
      obtain ⟨hpar, hdim⟩ := literalKind_array hk
      simp [hpar, hdim] at hd

theorem residualByType_scalar {x : Expr} (hk : literalKind? x.ty = some k) (hne : k ≠ .array) :
    residualByType ev limit e x = stored ev k e := by
  obtain ⟨hd, -⟩ | ⟨j, hj, h⟩ | ⟨hn, -⟩ := residualByType_cases ev limit e x
  · exact (hne (literalKind_of_dim hd hk)).elim
  · obtain rfl : j = k := Option.some.inj ((scalarKind_eq_some.mp hj).1.symm.trans hk)
    exact h
  · cases hn.symm.trans hk

theorem residualByType_array {x : Expr} (hk : literalKind? x.ty = some .array) :
    residualByType ev limit e x = residualArray ev e := by
  obtain ⟨-, h⟩ | ⟨j, hj, -⟩ | ⟨hn, -⟩ := residualByType_cases ev limit e x
  · exact h
  · cases hj.symm.trans (scalarKind_of_dim (literalKind_array hk).2)
  · cases hn.symm.trans hk

-- A name comes to the only value in its domain, or to what its initializer comes to.
theorem residualStep_name {name : String} {d : DeclId} (hx : s.model.kind e = .ident name (some d)) :
    residualStep ev limit e s =
      (match only? s.model (s.model.followFlat d), (s.model.decl (s.model.followFlat d)).init with
      | some (.inl v), _ => EvalM.build (Build.int v)
      | some (.inr l), _ => pure l
      | none, none => pure e
      | none, some init =>
        if (literalKind? (s.model.ty e)).isSome then residualByType ev limit e (s.model.expr e)
        else EvalM.within (s.model.spanOf e) (.ident name) (ev.residual init)) s := by
  have hx' : (s.model.expr e).kind = .ident name (some d) := hx
  have hd : declared name (s.model.expr e).span (some d) s = .ok (s.model.followFlat d) s := rfl
  simp only [residualStep, model_bind, hx']
  rw [bind_of_ok hd]
  cases ho : only? s.model (s.model.followFlat d) with
  | none =>
    have hn : onlyValue? (s.model.followFlat d) s = .ok none s := by rw [onlyValue?, model_bind, ho]; rfl
    rw [bind_of_ok hn, model_bind]
    cases (s.model.decl (s.model.followFlat d)).init <;> rfl
  | some o =>
    cases o with
    | inl v => simp only [onlyValue?, bind_assoc, model_bind, ho]; rfl
    | inr l =>
      have hn : onlyValue? (s.model.followFlat d) s = .ok (some l) s := by rw [onlyValue?, model_bind, ho]; rfl
      rw [bind_of_ok hn]
      rfl

end Nodes

section Rules

variable {ev : Eval} (hev : Framing ev) (ih : ∀ e, Reduces (ev.residual e)) {limit : Nat} {e : ExprId}
include hev

theorem reduces_residualArray {s : Machine} (h : 0 < (s.model.ty e).dim) :
    ReducesFrom s (residualArray ev e) := by
  intro hs r t he
  rw [residualArray, model_bind] at he
  refine ReducesFrom.bind ((keeps_arrayElems (hev []) e).follows) (fun p => ?_) hs r t he
  refine .bind (Keeps.follows (.mapM fun x _ => hev _ _ _)) fun elems => ?_
  exact reduces_build (scalarKind_of_dim h)

include ih

theorem reduces_call (f : FuncId) (args : List ExprId) (span : Span) :
    Reduces (call ev limit f args span ev.residual) := by
  unfold Eval.call
  refine .bind keeps_model fun m => ?_
  dsimp only
  split
  · exact .fail _ _
  · next body _ =>
    have hbody : Reduces (do
        let values ← args.mapM ev.residual
        let saved ← ((m.func f).params.zip values).mapM fun q => bind q.1 (some q.2)
        restoring saved <| deeper do
          (m.func f).params.forM (checkParam ev span)
          ev.residual (← detach ev body)) := by
      refine .bind (Keeps.follows (.mapM fun a _ => hev _ _ _)) fun values => ?_
      refine .bind (.mapM fun q _ => keeps_bind _ _) fun saved => .restoring (.deeper ?_)
      refine .bind (Keeps.follows (.forM fun p _ => hev.checkParam span p)) fun _ => ?_
      exact .bind (Keeps.follows ((hev.comparison []).detach (hev []) body)) fun b => ih b
    split
    · exact .bind (keeps_fail _ _) fun _ => .bind .get fun s => by
        split
        · exact .bind (keeps_fail _ _) fun _ => hbody
        · exact hbody
    · exact .bind .get fun s => by
        split
        · exact .bind (keeps_fail _ _) fun _ => hbody
        · exact hbody

theorem reduces_residualNode {s : Machine} (h : scalarKind? (s.model.ty e) = none) :
    ReducesFrom s (residualNode ev limit e (s.model.expr e)) := by
  have hx : scalarKind? (s.model.expr e).ty = none := h
  have hk {t : Target} {x : ExprId} : Keeps Follows (ev t x) := Keeps.follows (hev _ _ _)
  have hcall {f : FuncId} {args : List ExprId} {span : Span} :
      Reduces (call ev limit f args span ev.residual) := reduces_call hev ih f args span
  unfold residualNode rebuild
  split
  · refine .bind (Keeps.follows ((hev.comparison []).residualBranches (hev []) _ _)) fun r => ?_
    split
    · exact ih _
    · next kept =>
      by_cases hkept : kept.isEmpty
      · simpa [hkept] using ih _
      · simp only [hkept, Bool.false_eq_true, if_false]
        exact .bind hk fun _ => reduces_build hx
  · refine .bind keeps_model fun m => ?_
    split
    · exact .within hcall
    · exact .bind (.mapM fun _ _ => hk) fun _ => reduces_build hx
  · refine .bind keeps_model fun m => ?_
    split
    · exact hcall
    · exact .bind hk fun _ => .bind hk fun _ => reduces_build hx
  · refine .bind keeps_model fun m => ?_
    split
    · exact hcall
    · exact .bind hk fun _ => reduces_build hx
  · refine .bind keeps_model fun m => ?_
    split
    · exact .bind (Keeps.follows ((hev.comparison []).access (hev []) _ _ _)) fun x => ih x
    · exact .bind hk fun _ => .bind (.mapM fun _ _ => hk) fun _ => reduces_build hx
  · exact .bind (.mapM fun _ _ => hk) fun _ => reduces_build hx
  · exact Reduces.withLet (ih _) s
  · exact .of_open (.other h)

theorem reduces_residualByType (s : Machine) :
    ReducesFrom s (residualByType ev limit e (s.model.expr e)) := by
  obtain ⟨hd, h⟩ | ⟨k, hk, h⟩ | ⟨hk, h⟩ := residualByType_cases ev limit e (s.model.expr e)
  · exact h ▸ reduces_residualArray hev hd
  · exact h ▸ reduces_stored (scalarKind_eq_some.mp hk).2 s
  · exact h ▸ reduces_residualNode hev ih (by rw [scalarKind?, Model.ty, hk]; rfl)

theorem reduces_name {s : Machine} {name : String} {d : DeclId} (hx : s.model.kind e = .ident name (some d)) :
    ReducesFrom s (residualStep ev limit e) := by
  refine .of_eq ?_ (residualStep_name hx)
  split
  · exact fun _ r t he => .inl (scalar_of_int he)
  · next l ho => exact fun hs => ReducesFrom.of_scalar (hs.typed _ l ho) hs
  · next hn => exact .of_open (.name hx hn)
  · split
    · exact reduces_residualByType hev ih s
    · exact Reduces.within (ih _) s

theorem reduces_residualStep : Reduces (residualStep ev limit e) := by
  intro s
  by_cases hname : ∃ name d, s.model.kind e = .ident name (some d)
  · obtain ⟨name, d, hx⟩ := hname
    exact reduces_name hev ih hx
  · refine .of_eq (y := ?_) ?_ (by rw [residualStep, model_bind])
    split
    · next hx => exact .of_open (.placeholder (.inl hx))
    · next name hx => exact .of_open (.placeholder (.inr (.inr ⟨name, hx⟩)))
    · next hx => exact .of_open (.placeholder (.inr (.inl hx)))
    · next v hx => exact .of_scalar (by rw [Model.scalar?, Model.kind, hx]; rfl)
    · next name decl hx =>
      cases decl with
      | none => exact fun _ r t he => by simp [declared] at he
      | some d => exact (hname ⟨name, d, hx⟩).elim
    · split
      · exact reduces_residualByType hev ih s
      · split
        · exact reduces_stored (by simp) s
        · exact reduces_stored (by simp) s
    · exact reduces_residualByType hev ih s

end Rules

-- Every run of evaluation.
theorem reduces_run (limit : Nat) : ∀ fuel e, Reduces ((run limit fuel).residual e)
  | 0, _ => fun _ _ _ _ he => (throw_ne_ok.mp he).elim
  | fuel + 1, _ => reduces_residualStep (framing_run limit fuel) (reduces_run limit fuel)

section Fixed

variable {ev : Eval} {s t : Machine} {e r : ExprId} {k : ValueKind} {limit : Nat}

theorem reduced_mapM {f : ExprId → EvalM ExprId} (hf : ∀ x, Reduces (f x)) (hk : ∀ x, Keeps Follows (f x))
    {xs rs : List ExprId} (hs : s.model.DomainsTyped) (h : xs.mapM f s = .ok rs t) :
    ∀ r ∈ rs, s.model.Reduced r t.model := by
  induction xs generalizing s rs with
  | nil =>
    cases h
    simp
  | cons x xs ih =>
    simp only [List.mapM_cons, bind_eq_ok, pure_eq_ok] at h
    obtain ⟨b, u, hb, bs, w, hbs, rfl, rfl⟩ := h
    have hu := (hk x).of_ok hb
    have hw := (Keeps.mapM fun x _ => hk x).of_ok hbs
    intro r hr
    obtain rfl | hr := List.mem_cons.mp hr
    · exact (hf x s hs r u hb).mono (.refl _) hw.grows
    · exact (ih (hu.domainsTyped hs) hbs r hr).mono hu.grows (.refl _)

-- The residual of an array has the residuals of its elements.
theorem residualArray_eq_ok (hev : Framing ev) (ih : ∀ e, Reduces (ev.residual e))
    (hs : s.model.DomainsTyped) (h : residualArray ev e s = .ok r t) :
    ∃ elems dims, t.model.kind r = .arrayLit elems dims ∧ t.model.ty r = s.model.ty e ∧
      ∀ x ∈ elems, s.model.Reduced x t.model := by
  simp only [residualArray, model_bind, bind_eq_ok] at h
  obtain ⟨⟨xs, dims⟩, u, hxs, rs, w, hrs, h⟩ := h
  have hu := (keeps_arrayElems (hev []) e).follows.of_ok hxs
  obtain ⟨hr, hg⟩ := expr_of_build h
  refine ⟨rs, dims, by rw [Model.kind, hr], by rw [Model.ty, hr], fun x hx => ?_⟩
  have hx := reduced_mapM ih (fun x => (hev [] .residual x).follows) (hu.domainsTyped hs) hrs x hx
  exact hx.mono hu.grows hg

theorem soleValue_of_name {m : Model} {name : String} {d : DeclId} (hx : m.kind e = .ident name (some d)) :
    m.soleValue? e = only? m (m.followFlat d) := by
  simp [Model.soleValue?, Model.declOf?, hx]

-- A name comes to the only value in its domain.
theorem residualStep_sole (hs : s.model.DomainsTyped) (hv : (s.model.soleValue? e).isSome)
    (h : residualStep ev limit e s = .ok r t) : (t.model.scalar? r).isSome := by
  obtain ⟨o, ho⟩ := Option.isSome_iff_exists.mp hv
  obtain ⟨d, hd, ho⟩ := Option.bind_eq_some_iff.mp ho
  obtain ⟨name, hx⟩ : ∃ name, s.model.kind e = .ident name (some d) := by
    unfold Model.declOf? at hd
    split at hd
    · next name _ hx => exact ⟨name, hd ▸ hx⟩
    · cases hd
  rw [residualStep_name hx, ho] at h
  cases o with
  | inl v => exact scalar_of_int h
  | inr l =>
    obtain ⟨rfl, rfl⟩ := pure_eq_ok.mp h
    exact hs.typed _ _ ho

-- What has a value comes to a literal of its kind, or to that of an array.
theorem residualStep_eq_ok (hk : literalKind? (s.model.ty e) = some k) (hv : s.model.HasValue e)
    (hn : s.model.soleValue? e = none) (h : residualStep ev limit e s = .ok r t) :
    (k ≠ .array ∧ literalKind? (t.model.ty r) = some k ∧ (k.literal? r (t.model.kind r)).isSome) ∨
      k = .array ∧ residualArray ev e s = .ok r t := by
  have hby (h : residualByType ev limit e (s.model.expr e) s = .ok r t) :
      (k ≠ .array ∧ literalKind? (t.model.ty r) = some k ∧ (k.literal? r (t.model.kind r)).isSome) ∨
        k = .array ∧ residualArray ev e s = .ok r t := by
    by_cases hne : k = .array
    · subst hne
      exact .inr ⟨rfl, residualByType_array hk ▸ h⟩
    · exact .inl ⟨hne, stored_eq_ok hne (residualByType_scalar hk hne ▸ h)⟩
  unfold Model.HasValue at hv
  cases hx : s.model.kind e <;> simp only [hx] at hv
  case ident name decl =>
    cases decl with
    | none => contradiction
    | some d =>
      rw [hn] at hv
      obtain ⟨init, hi⟩ := Option.isSome_iff_exists.mp (hv.resolve_left (by simp))
      rw [residualStep_name hx, ← soleValue_of_name hx, hn, hi] at h
      exact hby (by simpa [hk] using h)
  case string v =>
    have hx' : (s.model.expr e).kind = .string v := hx
    simp only [residualStep, model_bind, hx', pure_eq_ok] at h
    obtain ⟨rfl, rfl⟩ := h
    cases literalKind_string hv hk
    exact .inl ⟨by simp, hk, by rw [hx]; rfl⟩
  case comp c =>
    have hx' : (s.model.expr e).kind = .comp c := hx
    simp only [residualStep, model_bind, hx'] at h
    cases hc : c.isSet with
    | false => exact hby (by simpa [hc] using h)
    | true =>
      have hset := literalKind_set (hv hc) hk
      simp only [hc, Bool.not_true, Bool.false_eq_true, if_false] at h
      split at h
      · next hb =>
        obtain rfl : k = .boolSet := hset.trans (if_pos hb)
        exact .inl ⟨by simp, stored_eq_ok (by simp) h⟩
      · next hb =>
        obtain rfl : k = .intSet := hset.trans (if_neg hb)
        exact .inl ⟨by simp, stored_eq_ok (by simp) h⟩
  all_goals
    refine hby ?_
    simpa only [residualStep, model_bind, show (s.model.expr e).kind = _ from hx] using h

end Fixed

section Again

variable {m : Model} {e : ExprId} {k : ValueKind} {s : Machine}

-- Nothing smaller is taken for a value of the kind that the type calls for.
theorem fromSmaller_of_kind {ev : Eval} {ty : Ty} (hk : literalKind? ty = some k) :
    fromSmaller? ev k ty e = none := by
  have hint (h : k = .int) : ty.isInt := by
    subst h
    unfold literalKind? at hk
    repeat' split at hk
    all_goals simp_all
  have hfloat (h : k = .float) : ty.isFloat := by
    subst h
    unfold literalKind? at hk
    repeat' split at hk
    all_goals simp_all
  cases k
  case int => exact fromSmaller_int (hint rfl)
  case float =>
    have h := hfloat rfl
    simp_all [fromSmaller?, Ty.isInt, Ty.isBool, Ty.isFloat, Ty.isScalar]
  all_goals rfl

-- A literal is stored as what it was read from.
theorem store_of_literal {kind : ExprKind} {v : k.Val} (hk : k ≠ .array) (hl : k.literal? e kind = some v) :
    ∃ ty, k.store v = Build.expr kind ty ∧ literalKind? ty = some k := by
  cases k
  case array => contradiction
  all_goals
    cases kind <;> simp only [ValueKind.literal?, reduceCtorEq] at hl
    cases hl
    exact ⟨_, rfl, rfl⟩

theorem stored_literal (limit fuel : Nat) (hk : scalarKind? (s.model.ty e) = some k)
    (hl : (k.literal? e (s.model.kind e)).isSome) :
    ∃ r t, stored (run limit (fuel + 1)) k e s = .ok r t ∧ s.model.Grows t.model ∧
      t.model.scalar? r = some (s.model.kind e) := by
  obtain ⟨hk, hne⟩ := scalarKind_eq_some.mp hk
  obtain ⟨v, hv⟩ := Option.isSome_iff_exists.mp hl
  obtain ⟨ty, hst, hty⟩ := store_of_literal hne hv
  have hval : (run limit (fuel + 1)).value k e s = .ok v s := by
    change valueStep (run limit fuel) limit k e s = .ok v s
    rw [valueStep_eq (fromSmaller_of_kind hk), hv]
  obtain ⟨r, t, hb⟩ : ∃ r t, EvalM.build (Build.expr (s.model.kind e) ty) s = .ok r t := ⟨_, _, rfl⟩
  obtain ⟨hr, hg⟩ := expr_of_build hb
  have hstored : stored (run limit (fuel + 1)) k e s = .ok r t := by
    rw [stored, bind_of_ok hval, hst, hb]
  obtain ⟨htr, hlr⟩ := stored_eq_ok hne hstored
  refine ⟨r, t, hstored, hg, ?_⟩
  rw [scalar_of_literal (scalarKind_eq_some.mpr ⟨htr, hne⟩) hlr, Model.kind, hr]

theorem residualStep_literal {ev : Eval} {limit : Nat} (hk : scalarKind? (s.model.ty e) = some k)
    (hl : (k.literal? e (s.model.kind e)).isSome) (hs : ∀ v, s.model.kind e ≠ .string v) :
    residualStep ev limit e s = stored ev k e s := by
  obtain ⟨hk, hne⟩ := scalarKind_eq_some.mp hk
  have hby : residualStep ev limit e s = residualByType ev limit e (s.model.expr e) s := by
    rw [residualStep, model_bind]
    cases hx : (s.model.expr e).kind <;> rw [Model.kind, hx] at hl hs
    case string v => exact (hs v rfl).elim
    all_goals cases k <;> cases hl
  rw [hby, residualByType_scalar hk hne]

-- The residual of a literal says the same.
theorem residual_scalar (limit fuel : Nat) {x : ExprKind} (h : s.model.scalar? e = some x) :
    ∃ r t, (run limit (fuel + 2)).residual e s = .ok r t ∧ s.model.Grows t.model ∧
      t.model.scalar? r = some x := by
  have hrun : (run limit (fuel + 2)).residual e s = residualStep (run limit (fuel + 1)) limit e s := rfl
  obtain ⟨rfl, ⟨v, hv⟩ | ⟨hs, k, hk, hl⟩⟩ := scalar_cases h
  · have hv' : (s.model.expr e).kind = .string v := hv
    refine ⟨e, s, ?_, .refl _, h⟩
    rw [hrun, residualStep, model_bind, hv']
    rfl
  · obtain ⟨r, t, hst, hg, hr⟩ := stored_literal limit fuel hk hl
    exact ⟨r, t, hrun.trans ((residualStep_literal hk hl hs).trans hst), hg, hr⟩

theorem residual_scalars (limit fuel : Nat) {es : List ExprId} {xs : List ExprKind}
    (h : es.mapM s.model.scalar? = some xs) :
    ∃ rs t, es.mapM (run limit (fuel + 2)).residual s = .ok rs t ∧ rs.mapM t.model.scalar? = some xs := by
  have hstep : ∀ a ∈ es, ∀ {u : Machine} {x : ExprKind}, s.model.Grows u.model → s.model.scalar? a = some x →
      ∃ r t, (run limit (fuel + 2)).residual a u = .ok r t ∧ s.model.Grows t.model ∧
        t.model.scalar? r = some x := by
    intro a _ u x hu ha
    rw [← hu.scalar_eq (lt_of_scalar (by simp [ha]))] at ha
    obtain ⟨r, t, hr, hg, hx⟩ := residual_scalar limit fuel ha
    exact ⟨r, t, hr, hu.trans hg, hx⟩
  have hkeep {u t : Machine} {r : ExprId} {x : ExprKind} (hf : Follows u t) (hr : u.model.scalar? r = some x) :
      t.model.scalar? r = some x := by
    rw [hf.grows.scalar_eq (lt_of_scalar (by simp [hr])), hr]
  obtain ⟨rs, t, ht, -, hrs⟩ := exists_mapM hstep
    (fun a _ => Keeps.follows (framing_run limit (fuel + 2) _ .residual a)) hkeep (.refl _) h
  exact ⟨rs, t, ht, mapM_eq_some_iff.mpr hrs⟩

theorem contents_of_scalar {x : ExprKind} (h : m.scalar? e = some x) : m.contents? e = some (.scalar x) := by
  unfold Model.contents?
  split
  · next elems dims hx =>
    obtain ⟨-, ⟨v, hv⟩ | ⟨-, k, hk, hl⟩⟩ := scalar_cases h
    · cases hx.symm.trans hv
    · rw [hx] at hl
      cases k <;> first | exact ((scalarKind_eq_some.mp hk).2 rfl).elim | cases hl
  · rw [h]
    rfl

-- An array literal is evaluated element by element.
theorem residual_arrayLit (limit fuel : Nat) {elems : List ExprId} {dims : Dims} {xs : List ExprKind}
    (hx : s.model.kind e = .arrayLit elems dims) (hk : literalKind? (s.model.ty e) = some .array)
    (hxs : elems.mapM s.model.scalar? = some xs) :
    ∃ r t, (run limit (fuel + 3)).residual e s = .ok r t ∧ t.model.contents? r = some (.array xs dims) := by
  obtain ⟨rs, u, hrs, hu⟩ := residual_scalars limit fuel hxs
  obtain ⟨r, t, hr⟩ : ∃ r t, arrayLit rs dims (s.model.ty e) (s.model.spanOf e) u = .ok r t := ⟨_, _, rfl⟩
  obtain ⟨hrt, hg⟩ := expr_of_build hr
  have helems : arrayElems (run limit (fuel + 2)) e s = .ok (elems, dims) s := by
    have hv : (run limit (fuel + 2)).array e s = .ok e s := by
      change valueStep (run limit (fuel + 1)) limit .array e s = _
      rw [valueStep_eq rfl, hx]
      rfl
    rw [arrayElems, bind_of_ok hv, model_bind, hx]
    rfl
  have hby : residualStep (run limit (fuel + 2)) limit e s = residualArray (run limit (fuel + 2)) e s := by
    have hx' : (s.model.expr e).kind = .arrayLit elems dims := hx
    rw [residualStep, model_bind, hx', ← residualByType_array hk]
  refine ⟨r, t, ?_, ?_⟩
  · change residualStep (run limit (fuel + 2)) limit e s = _
    rw [hby, residualArray, model_bind, bind_of_ok helems]
    exact (bind_of_ok hrs).trans hr
  · have hkind : t.model.kind r = .arrayLit rs dims := by rw [Model.kind, hrt]
    have hty : t.model.ty r = s.model.ty e := by rw [Model.ty, hrt]
    have hmap : rs.mapM t.model.scalar? = some xs := by
      refine mapM_eq_some_iff.mpr ((mapM_eq_some_iff.mp hu).imp fun r x h => ?_)
      rw [hg.scalar_eq (lt_of_scalar (by simp [h])), h]
    rw [Model.contents?, hkind]
    simp only [hty, hk, hmap, if_true, Option.map_some]

-- The residual of a literal is the same literal.
theorem residual_contents (limit fuel : Nat) {c : Model.Contents} (h : s.model.contents? e = some c) :
    ∃ r t, (run limit (fuel + 3)).residual e s = .ok r t ∧ t.model.contents? r = some c := by
  unfold Model.contents? at h
  split at h
  · next elems dims hx =>
    split at h
    · next hk =>
      obtain ⟨xs, hxs, rfl⟩ := Option.map_eq_some_iff.mp h
      exact residual_arrayLit limit fuel hx hk hxs
    · cases h
  · obtain ⟨x, hx, rfl⟩ := Option.map_eq_some_iff.mp h
    obtain ⟨r, t, hr, -, ht⟩ := residual_scalar limit (fuel + 1) hx
    exact ⟨r, t, hr, contents_of_scalar ht⟩

end Again
end Eval

theorem fuelFor_eq_add (limit : Nat) (m : Model) : ∃ n, fuelFor limit m = n + 3 := by
  have hl : 2 * 2 ≤ (limit + 2) * (limit + 2) := Nat.mul_le_mul (by omega) (by omega)
  have hw : 1 ≤ m.walkFuel := Nat.mul_pos (by omega) (by omega)
  have h : 2 * 2 * 1 ≤ fuelFor limit m := Nat.mul_le_mul hl hw
  exact ⟨fuelFor limit m - 3, by omega⟩

-- The residual of a fixed expression is a literal of its kind, or the only value in the domain of a
-- name. That of an array has literals for elements, but for those that were open. The residual of
-- the outcome is the same literal again.
theorem residual_canonical {m m' : Model} {e r : ExprId} {k : ValueKind} {limit : Nat} (hm : m.DomainsTyped)
    (hk : literalKind? (m.ty e) = some k) (hv : m.HasValue e)
    (h : m.evaluate .residual e limit = (.ok r, m')) :
    (k ≠ .array → (m'.scalar? r).isSome ∧
      (m.soleValue? e = none → literalKind? (m'.ty r) = some k ∧ (k.literal? r (m'.kind r)).isSome)) ∧
    (k = .array → m.soleValue? e = none → ∃ elems dims, m'.kind r = .arrayLit elems dims ∧
      m'.ty r = m.ty e ∧ ∀ x ∈ elems, m.Reduced x m') ∧
    ∀ c, m'.contents? r = some c → ∀ limit', ∃ r' m'',
      m'.evaluate .residual r limit' = (.ok r', m'') ∧ m''.contents? r' = some c := by
  obtain ⟨t, ht, rfl⟩ := evaluate_eq_ok.mp h
  obtain ⟨n, hn⟩ := fuelFor_eq_add limit m
  rw [hn] at ht
  have hlit (hne : k ≠ .array) (hs : m.soleValue? e = none) :
      literalKind? (t.model.ty r) = some k ∧ (k.literal? r (t.model.kind r)).isSome := by
    obtain ⟨-, hlit⟩ | ⟨ha, -⟩ := residualStep_eq_ok (s := { model := m }) hk hv hs ht
    · exact hlit
    · contradiction
  refine ⟨fun hne => ⟨?_, hlit hne⟩, fun ha hs => ?_, fun c hc limit' => ?_⟩
  · cases hs : m.soleValue? e with
    | some o => exact residualStep_sole (s := { model := m }) hm (by simp [hs]) ht
    | none =>
      obtain ⟨hty, hl⟩ := hlit hne hs
      simp [scalar_of_literal (scalarKind_eq_some.mpr ⟨hty, hne⟩) hl]
  · obtain ⟨hne, -⟩ | ⟨-, harr⟩ := residualStep_eq_ok (s := { model := m }) hk hv hs ht
    · contradiction
    · exact residualArray_eq_ok (framing_run limit (n + 2)) (reduces_run limit (n + 2)) hm harr
  · obtain ⟨n', hn'⟩ := fuelFor_eq_add limit' t.model
    obtain ⟨r', u, hr', hu⟩ := residual_contents (s := { model := t.model }) limit' n' hc
    exact ⟨r', u.model, evaluate_eq_ok.mpr ⟨u, by rw [hn']; exact hr', rfl⟩, hu⟩

section Examples

-- `function array[int] of $T: twice($T: x) = [x, x];` beside the expression `twice(3)`.
def twiceModel : Model where
  exprs := #[{ kind := .typeVar "T", ty := .top }, { kind := .typeVar "T", ty := .top },
    { kind := .ident "x" (some ⟨0⟩), ty := .top }, { kind := .ident "x" (some ⟨0⟩), ty := .top },
    { kind := .arrayLit [⟨2⟩, ⟨3⟩] [(1, 2)], ty := Ty.top.withDim 1 }, { kind := .int 3, ty := .parInt },
    { kind := .call "twice" [⟨5⟩] (some ⟨0⟩), ty := Ty.parInt.withDim 1 }]
  decls := #[{ name := "x", ti := ⟨0⟩, ty := .top }]
  typeInsts := #[{ ty := .top, domain := some ⟨0⟩ }, { ty := .parInt },
    { ty := Ty.top.withDim 1, domain := some ⟨1⟩, ranges := [⟨1⟩] }]
  funcs := #[{ name := "twice", params := [⟨0⟩], ret := ⟨2⟩, body := some ⟨4⟩ }]
  items := #[{ item := .func ⟨0⟩ }]
  overloads := [("twice", [⟨0⟩])]

theorem domain_twice (d : DeclId) : twiceModel.domain d = some ⟨0⟩ := by
  obtain ⟨i⟩ := d
  cases i <;> rfl

theorem domainsTyped_twice : twiceModel.DomainsTyped where
  present d x hd := by
    cases (domain_twice d).symm.trans hd
    decide
  ends d x l r fn hd hk := by
    cases (domain_twice d).symm.trans hd
    cases hk
  typed d l ho := by
    have hn : only? twiceModel d = none := by
      unfold only?
      rw [domain_twice]
      split <;> rfl
    cases hn.symm.trans ho

-- The elements have the type of a type variable, and come to the literals that are given for it.
theorem residual_canonical_twice :
    twiceModel.DomainsTyped ∧ literalKind? (twiceModel.ty ⟨6⟩) = some .array ∧ twiceModel.HasValue ⟨6⟩ ∧
      (twiceModel.evaluate .residual ⟨6⟩).1 = .ok (⟨13⟩ : ExprId) ∧
      (twiceModel.evaluate .residual ⟨6⟩).2.contents? ⟨13⟩ = some (.array [.int 3, .int 3] [(1, 2)]) ∧
      ∃ r m, (twiceModel.evaluate .residual ⟨6⟩).2.evaluate .residual ⟨13⟩ = (.ok r, m) ∧
        m.contents? r = some (.array [.int 3, .int 3] [(1, 2)]) := by
  have hk : literalKind? (twiceModel.ty ⟨6⟩) = some .array := by cbv
  have hv : twiceModel.HasValue ⟨6⟩ := by cbv
  have hr : (twiceModel.evaluate .residual ⟨6⟩).1 = .ok (⟨13⟩ : ExprId) := by cbv
  have hc : (twiceModel.evaluate .residual ⟨6⟩).2.contents? ⟨13⟩ =
      some (.array [.int 3, .int 3] [(1, 2)]) := by cbv
  have h : twiceModel.evaluate .residual ⟨6⟩ = (.ok ⟨13⟩, (twiceModel.evaluate .residual ⟨6⟩).2) := by
    rw [← hr]
  obtain ⟨-, -, hagain⟩ := residual_canonical domainsTyped_twice hk hv h
  exact ⟨domainsTyped_twice, hk, hv, hr, hc, hagain _ hc _⟩

-- `function array[int] of set of $T: f($T: x) = [{x}];` beside the expression `f(3)`.
def wrapModel : Model where
  exprs := #[{ kind := .typeVar "T", ty := .top }, { kind := .typeVar "T", ty := .top },
    { kind := .ident "x" none }, { kind := .setLit [⟨2⟩] }, { kind := .arrayLit [⟨3⟩] [(1, 1)] },
    { kind := .int 3, ty := .parInt }, { kind := .call "f" [⟨5⟩] none }]
  decls := #[{ name := "x", ti := ⟨0⟩ }]
  typeInsts := #[{ ty := .top, domain := some ⟨0⟩ }, { ty := .parInt },
    { ty := { Ty.parSetInt with base := .top, dim := 1 }, domain := some ⟨1⟩, ranges := [⟨1⟩] }]
  funcs := #[{ name := "f", params := [⟨0⟩], ret := ⟨2⟩, body := some ⟨4⟩ }]
  items := #[{ item := .func ⟨0⟩ }]
  overloads := [("int2float", []), ("f", [⟨0⟩])]

def wrapChecked : Model := final (check { library := false }) wrapModel

def wrapTyped : Model := final (checkExpr ⟨6⟩) wrapChecked

-- The result is an array of sets of integers, but its element is no literal: what is known of the
-- type of `{x}` is that it is a set.
theorem element_stays_set_literal :
    check { library := false } wrapModel = .ok ⟨[], [⟨0⟩]⟩ wrapChecked ∧
      checkExpr ⟨6⟩ wrapChecked = .ok (Ty.parSetInt.withDim 1) wrapTyped ∧
      (wrapTyped.evaluate .residual ⟨6⟩).1 = .ok (⟨13⟩ : ExprId) ∧
      (wrapTyped.evaluate .residual ⟨6⟩).2.kind ⟨13⟩ = .arrayLit [⟨12⟩] [(1, 1)] ∧
      (wrapTyped.evaluate .residual ⟨6⟩).2.kind ⟨12⟩ = .setLit [⟨11⟩] :=
  ⟨by cbv, by cbv, by cbv, by cbv, by cbv⟩

end Examples
end Parvar
