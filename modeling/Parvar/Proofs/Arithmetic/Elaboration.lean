import Parvar.Proofs.Arithmetic.Tree
import Parvar.Proofs.Eval.Success
import Parvar.Proofs.Typing.Assigned

/-!
Typing closed arithmetic in a model with the library. Each node takes its type from its parts, truth
values that stand for integers are promoted, and what has been typed before stays as it is.
-/

namespace Parvar

open Model Library Arith

variable {m m₀ m₁ m' : Model} {e e' o x : ExprId} {bs : List (ExprId × ExprId)} {a b : Arith} {k κ κa κb : Scalar}
  {n : Nat} {f : FuncId} {s : Signature} {name : String} {c c' : Checking}

section Table

-- The function table of a model that was prepared for typing.
structure Model.Table (m : Model) : Prop where
  standard : m.Standard
  sorted : m.Sorted

theorem Model.Builtin.congr (h : m.SameTables m₁) (hf : m.Builtin f s) : m₁.Builtin f s := by
  rw [h]
  exact ⟨hf.present, hf.name, hf.body, hf.params.imp fun p t hp => ⟨hp.ty_eq, hp.written.ty_eq, hp.written.domain⟩,
    hf.ret.ty_eq, hf.ret.domain⟩

theorem Model.Table.congr (h : m.SameTables m₁) (hm : m.Table) : m₁.Table := by
  have hover : ∀ name f, m₁.Overload name f ↔ m.Overload name f := fun name f => by rw [h]; rfl
  refine ⟨⟨fun name f hf => ?_, fun s hs => ?_⟩, ?_⟩
  · have ⟨s, hs, hn, hb⟩ := hm.standard.builtin name f ((hover name f).mp hf)
    exact ⟨s, hs, hn, hb.congr h⟩
  · have ⟨f, hf, hb⟩ := hm.standard.declared s hs
    exact ⟨f, (hover _ f).mpr hf, hb.congr h⟩
  · have hsorted := hm.sorted
    rw [h]
    exact hsorted

theorem Scalar.mem_all (k : Scalar) : k ∈ [Scalar.int, .bool] := by
  cases k <;> decide

-- The signature that an operator is used with, by the types of its operands.
theorem chosen_bin {op : Op} (h : Chosen op.symbol.name [κa.ty, κb.ty] s) :
    ∃ κ k, op.scalars κa κb = some (κ, k) ∧ s.params = [κ.ty, κ.ty] ∧ s.ret = k.ty := by
  have hall : ∀ op ∈ [Op.add, .sub, .mul, .div, .mod, .lt, .le, .gt, .ge, .eq, .ne, .iff, .xor, .and, .or, .imp,
        .revImp],
      ∀ a ∈ [Scalar.int, .bool], ∀ b ∈ [Scalar.int, .bool], ∀ s ∈ candidates op.symbol.name [a.ty, b.ty],
        (∀ t ∈ candidates op.symbol.name [a.ty, b.ty], Precedes s.specificity t.specificity) →
        (op.scalars a b).any fun (κ, k) => s.params = [κ.ty, κ.ty] ∧ s.ret = k.ty := by
    decide +kernel
  have h := hall op (by cases op <;> decide) κa κa.mem_all κb κb.mem_all s h.1 h.2
  have ⟨⟨κ, k⟩, hs, h⟩ := (Option.any_eq_true _ _).mp h
  exact ⟨κ, k, hs, of_decide_eq_true h⟩

theorem chosen_un {op : UnOp} (h : Chosen op.name [κ.ty] s) :
    ∃ κ' k, unary op κ = some (κ', k) ∧ s.params = [κ'.ty] ∧ s.ret = k.ty := by
  have hall : ∀ op ∈ [UnOp.not, .plus, .minus], ∀ a ∈ [Scalar.int, .bool], ∀ s ∈ candidates op.name [a.ty],
      (∀ t ∈ candidates op.name [a.ty], Precedes s.specificity t.specificity) →
        (unary op a).any fun (κ, k) => s.params = [κ.ty] ∧ s.ret = k.ty := by
    decide +kernel
  have h := hall op (by cases op <;> decide) κ κ.mem_all s h.1 h.2
  have ⟨⟨κ, k⟩, hs, h⟩ := (Option.any_eq_true _ _).mp h
  exact ⟨κ, k, hs, of_decide_eq_true h⟩

theorem chosen_promotion (h : Chosen "bool2int" [κ.ty] s) :
    κ = .bool ∧ s.params = [Scalar.bool.ty] ∧ s.ret = Scalar.int.ty := by
  have hall : ∀ a ∈ [Scalar.int, .bool], ∀ s ∈ candidates "bool2int" [a.ty],
      (∀ t ∈ candidates "bool2int" [a.ty], Precedes s.specificity t.specificity) →
        a = .bool ∧ s.params = [Scalar.bool.ty] ∧ s.ret = Scalar.int.ty := by
    decide +kernel
  exact hall κ κ.mem_all s h.1 h.2

end Table

section Promotion

-- Nodes were added, and nothing else happened.
structure Model.Adds (m m₁ : Model) : Prop where
  tables : m.SameTables m₁
  grows : Grows m m₁

theorem Model.Adds.refl (m : Model) : m.Adds m := ⟨.refl m, .refl m⟩

theorem Model.Adds.trans {m₂ : Model} (h₁ : m.Adds m₁) (h₂ : m₁.Adds m₂) : m.Adds m₂ :=
  ⟨h₁.tables.trans h₂.tables, h₁.grows.trans h₂.grows⟩

theorem Model.Adds.elaborated (h : m.Adds m₁) (he : m.Elaborated n bs o a k) : m₁.Elaborated n bs o a k :=
  he.transfer h.tables fun _ _ _ _ hx => h.grows.expr_eq hx.present

theorem Scalar.base_ne_top (k : Scalar) : k.ty.base ≠ .top := by
  cases k <;> decide

theorem Scalar.known (k : Scalar) : k.ty.Known := by
  cases k <;> decide

theorem Model.Parameter.argTy_eq {p : DeclId} (h : m.Parameter p κ.ty) (t : Ty) : m.argTy p t = κ.ty := by
  have hvar := h.written.typeVar_eq_none κ.base_ne_top
  simp only [argTy, h.paramTy_eq κ.known, hvar, Option.isSome_none, Bool.false_or]
  cases κ <;> rfl

theorem Model.Builtin.argTys_eq {tys : List Ty} (hf : m.Builtin f s)
    (hs : s.params = tys.map fun _ => κ.ty) : m.argTys f tys = tys.map fun _ => κ.ty := by
  have hparams := hf.params
  rw [argTys]
  rw [hs] at hparams
  clear hs
  generalize (m.func f).params = ps at hparams
  induction tys generalizing ps with
  | nil => simp
  | cons t tys ih =>
    cases hparams with
    | cons hp hps => simpa [hp.argTy_eq t] using ih _ hps

theorem Model.Builtin.returnTy_eq (hf : m.Builtin f s) (hs : s.ret = k.ty) (tys : List Ty) (span : Span) :
    m.returnTy f tys span = .ok k.ty := by
  have hret := hf.ret
  rw [hs] at hret
  simp only [returnTy, hret.typeVar_eq_none k.base_ne_top, hret.ty_eq]
  cases k <;> rfl

theorem Model.coerce_elaborated (hm : m.Table) (he : m.Elaborated n [] e a κa) (hf : κa.Fits κ)
    (h : m.coerce e κ.ty = .ok (e', m')) :
    m.Adds m' ∧ m'.Elaborated (n + 1) [] e' a κ ∧ (κa = κ → e' = e ∧ m' = m) := by
  have hty : (m.expr e).ty = κa.ty := he.ty_eq
  by_cases heq : κa = κ
  · subst heq
    have hsame : m.coerce e κa.ty = .ok (e, m) := by
      simp only [coerce, hty]
      cases κa <;> rfl
    obtain ⟨rfl, rfl⟩ := Prod.mk.inj (Except.ok.inj (hsame.symm.trans h))
    exact ⟨.refl m, he.succ, fun _ => ⟨rfl, rfl⟩⟩
  · obtain ⟨rfl, rfl⟩ : κa = .bool ∧ κ = .int := by
      cases hf
      case inl hb => cases κ <;> simp_all
      case inr hk => exact absurd hk heq
    have hwrap : m.wrap "bool2int" e = .ok (e', m') := by
      simp only [coerce, asArray, widen, Model.ty, hty] at h
      rw [if_neg (by decide), if_neg (by decide)] at h
      simp only [bind, Except.bind, pure, Except.pure, hty] at h
      exact h
    obtain ⟨f, ty, hmatch, hret, hadd⟩ := wrap_eq_ok hwrap
    rw [he.ty_eq] at hmatch hret hadd
    obtain ⟨s, hb, hs⟩ := hm.standard.chosen hm.sorted hmatch
    obtain ⟨_, _, hsret⟩ := chosen_promotion (κ := .bool) hs
    obtain rfl := Except.ok.inj ((hb.returnTy_eq hsret _ _).symm.trans hret)
    have htables : m.SameTables m' := by
      rw [← (Prod.mk.inj hadd).2]
      rfl
    have hgrows : Grows m m' := (Prod.mk.inj hadd).2 ▸ grows_addExpr m _
    have hadds : m.Adds m' := ⟨htables, hgrows⟩
    refine ⟨hadds, .promoted ?_ (hadds.elaborated he), fun h => absurd h heq⟩
    have hnew := expr_addExpr_new m
      { kind := .call "bool2int" [e] (some f), ty := Scalar.int.ty.withCv Scalar.bool.ty.cv, span := m.spanOf e }
    rw [hadd] at hnew
    rw [htables.matchOverload_eq, show Ty.parBool = Scalar.bool.ty from rfl, hmatch]
    exact ⟨by rw [kind, hnew], by rw [Model.ty, hnew]; rfl, by rw [hnew]⟩

end Promotion

section Application

theorem checkM_model_bind {α : Type} (g : Model → CheckM α) (c : Checking) : (CheckM.model >>= g) c = g c.model c :=
  rfl

theorem ofExcept_eq_ok {α : Type} {r : Except TypeError α} {y : α} :
    CheckM.ofExcept r c = .ok y c' ↔ r = .ok y ∧ c = c' := by
  cases r <;> simp [CheckM.ofExcept]

theorem coerce_eq_ok {t : Ty} (h : CheckM.coerce e t c = .ok e' c') :
    ∃ m', c.model.coerce e t = .ok (e', m') ∧ c' = { c with model := m' } := by
  rw [CheckM.coerce, checkM_model_bind] at h
  have ⟨⟨_, m'⟩, _, h₁, h⟩ := bind_eq_ok.mp h
  obtain ⟨hx, rfl⟩ := ofExcept_eq_ok.mp h₁
  have ⟨_, _, h₁, h⟩ := bind_eq_ok.mp h
  cases h₁
  obtain ⟨rfl, rfl⟩ := pure_eq_ok.mp h
  exact ⟨m', hx, rfl⟩

-- Typed expressions and what they denote.
abbrev Model.AllElaborated (m : Model) (n : Nat) : List ExprId → List (Arith × Scalar) → Prop :=
  List.Forall₂ fun e p => m.Elaborated n [] e p.1 p.2

-- Operands that are all taken for the same type.
theorem coerceAll_elaborated {es es' : List ExprId} {ps : List (Arith × Scalar)} (hm : c.model.Table)
    (hes : c.model.AllElaborated n es ps) (hfit : ∀ p ∈ ps, p.2.Fits κ)
    (h : ((es.zip (ps.map fun _ => κ.ty)).mapM fun (e, t) => CheckM.coerce e t : CheckM (List ExprId)) c =
      .ok es' c') :
    ∃ m', c' = { c with model := m' } ∧ c.model.Adds m' ∧
      m'.AllElaborated (n + 1) es' (ps.map fun p => (p.1, κ)) ∧
      ((∀ p ∈ ps, p.2 = κ) → es' = es ∧ m' = c.model) := by
  induction ps generalizing c es es' with
  | nil =>
    cases hes
    obtain ⟨rfl, rfl⟩ := pure_eq_ok.mp h
    exact ⟨c.model, rfl, .refl _, .nil, fun _ => ⟨rfl, rfl⟩⟩
  | cons p ps ih =>
    obtain ⟨e, es, he, hrest, rfl⟩ := List.forall₂_cons_right_iff.mp hes
    simp only [List.map_cons, List.zip_cons_cons, List.mapM_cons] at h
    have ⟨e₁, c₁, h₁, h⟩ := bind_eq_ok.mp h
    have ⟨es₁, c₂, h₂, h⟩ := bind_eq_ok.mp h
    obtain ⟨rfl, rfl⟩ := pure_eq_ok.mp h
    obtain ⟨m₁, hc₁, rfl⟩ := coerce_eq_ok h₁
    have ⟨hadd₁, he₁, hsame₁⟩ := coerce_elaborated hm he (hfit p List.mem_cons_self) hc₁
    have hes₁ : m₁.AllElaborated n es ps := hrest.imp fun _ _ => hadd₁.elaborated
    obtain ⟨m₂, rfl, hadd₂, hes₂, hsame₂⟩ :=
      ih (hm.congr hadd₁.tables) hes₁ (fun q hq => hfit q (List.mem_cons_of_mem _ hq)) h₂
    refine ⟨m₂, rfl, hadd₁.trans hadd₂, .cons (hadd₂.elaborated he₁) hes₂, fun hall => ?_⟩
    obtain ⟨rfl, rfl⟩ := hsame₁ (hall p List.mem_cons_self)
    obtain ⟨rfl, rfl⟩ := hsame₂ fun q hq => hall q (List.mem_cons_of_mem _ hq)
    exact ⟨rfl, rfl⟩

theorem applied_elaborated {es es' : List ExprId} {ps : List (Arith × Scalar)} {t : Ty} (hm : c.model.Table)
    (hes : c.model.AllElaborated n es ps) (hfit : ∀ p ∈ ps, p.2.Fits κ) (hb : c.model.Builtin f s)
    (hparams : s.params = ps.map fun _ => κ.ty) (hret : s.ret = k.ty)
    (h : Typing.applied e f es (ps.map (·.2.ty)) c = .ok (es', t) c') :
    t = k.ty ∧ ∃ m', c' = { c with model := m' } ∧ c.model.Adds m' ∧
      m'.AllElaborated (n + 1) es' (ps.map fun p => (p.1, κ)) ∧
      ((∀ p ∈ ps, p.2 = κ) → es' = es ∧ m' = c.model) := by
  have hargs : c.model.argTys f (ps.map (·.2.ty)) = (ps.map (·.2.ty)).map fun _ => κ.ty :=
    hb.argTys_eq (by rw [hparams, List.map_map]; rfl)
  rw [Typing.applied, checkM_model_bind, hargs, List.map_map] at h
  have ⟨es₁, c₁, h₁, h⟩ := bind_eq_ok.mp h
  obtain ⟨m₁, rfl, hadd, hes₁, hsame⟩ := coerceAll_elaborated hm hes hfit h₁
  rw [checkM_model_bind] at h
  have htys : (es₁.map m₁.ty).any (·.cv) = false := by
    rw [List.any_map, List.any_eq_false]
    intro x hx
    have ⟨p, hp, he⟩ := forall₂_exists hes₁ x hx
    obtain ⟨q, _, rfl⟩ := List.mem_map.mp hp
    simp only [Function.comp_apply, he.ty_eq]
    cases κ <;> decide
  simp only [(hb.congr hadd.tables).returnTy_eq hret, CheckM.ofExcept] at h
  have ⟨_, _, h₂, h⟩ := bind_eq_ok.mp h
  obtain ⟨rfl, rfl⟩ := pure_eq_ok.mp h₂
  obtain ⟨heq, rfl⟩ := pure_eq_ok.mp h
  obtain ⟨rfl, rfl⟩ := Prod.mk.inj heq
  refine ⟨?_, m₁, rfl, hadd, hes₁, hsame⟩
  rw [htys]
  cases k <;> rfl

end Application

section Rebuilding

-- A node as typing leaves it.
def Model.setNode (m : Model) (e : ExprId) (kind : ExprKind) (ty : Ty) : Model := (m.setKind e kind).setTy e ty

section

variable {kind : ExprKind} {ty : Ty}

theorem Model.expr_setNode (m : Model) (e x : ExprId) (kind : ExprKind) (ty : Ty) : (m.setNode e kind ty).expr x =
    if x = e ∧ e.index < m.exprs.size then { m.expr e with kind, ty } else m.expr x := by
  have hsize : (m.setKind e kind).exprs.size = m.exprs.size := by simp [setKind, modifyExpr]
  rw [setNode, setTy, expr_modifyExpr, hsize, setKind, expr_modifyExpr, expr_modifyExpr]
  split
  · next h => simp [h.2]
  · rfl

theorem Model.sameTables_setNode (m : Model) (e : ExprId) (kind : ExprKind) (ty : Ty) :
    m.SameTables (m.setNode e kind ty) := rfl

theorem Model.Node.setNode_eq (h : m.Node e kind ty) : m.setNode e kind ty = m := by
  have hk : (m.expr e).kind = kind := h.kind
  have ht : (m.expr e).ty = ty := h.ty
  have hexprs : (m.setNode e kind ty).exprs = m.exprs := by
    refine Array.ext (by simp [setNode, setKind, setTy, modifyExpr]) fun i hi hi' => ?_
    have hx := m.expr_setNode e ⟨i⟩ kind ty
    have hself : ({ m.expr e with kind, ty } : Expr) = m.expr e := by rw [← hk, ← ht]
    simp only [hself] at hx
    have hx : (m.setNode e kind ty).expr ⟨i⟩ = m.expr ⟨i⟩ := by
      rw [hx]
      split
      · next h => rw [h.1]
      · rfl
    simpa [expr, hi, hi'] using hx
  rw [m.sameTables_setNode e kind ty, hexprs]

theorem Model.node_setNode (he : e.index < m.exprs.size) (ha : (m.expr e).ann = []) :
    (m.setNode e kind ty).Node e kind ty := by
  have hx : (m.setNode e kind ty).expr e = { m.expr e with kind, ty } := by simp [expr_setNode, he]
  exact ⟨by rw [Model.kind, hx], by rw [Model.ty, hx], by rw [hx, ha]⟩

end

-- The result of typing a node whose parts are elaborated: parts may have been promoted, and the node
-- was set. If it was elaborated, nothing has changed.
structure Model.Rebuilt (m m₁ : Model) (n : Nat) (e : ExprId) (a : Arith) : Prop where
  exists_set : ∃ m' kind k, m₁ = m'.setNode e kind k.ty ∧ m.Adds m' ∧ m'.Composed n e kind a k ∧
    ((∃ n b κ, m'.Elaborated n [] e b κ) → m' = m ∧ m.Node e kind k.ty)

namespace Model.Rebuilt

-- Typing a node for a second time.
theorem again {κ : Scalar} {n' : Nat} (h : m.Rebuilt m₁ n e a) (he : m.Elaborated n' [] e b κ) :
    m₁ = m ∧ ∃ k, m.Elaborated (n + 1) [] e a k := by
  obtain ⟨m', kind, k, rfl, hadd, hcomp, hsame⟩ := h.exists_set
  obtain ⟨rfl, hnode⟩ := hsame ⟨n', b, κ, hadd.elaborated he⟩
  exact ⟨hnode.setNode_eq, k, hcomp.elaborated hnode⟩

-- Typing a node for the first time.
theorem settles (h : m.Rebuilt m₁ n e a) (he : e.index < m.exprs.size) (hann : (m.expr e).ann = []) :
    m.SameTables m₁ ∧ (∀ {n bs o b κ}, m.Elaborated n bs o b κ → m₁.Elaborated n bs o b κ) ∧
      (∃ k, m₁.Elaborated (n + 1) [] e a k) ∧ m.exprs.size ≤ m₁.exprs.size ∧
      ∀ x, x ≠ e → x.index < m.exprs.size → m₁.expr x = m.expr x := by
  obtain ⟨m', kind, k, rfl, hadd, hcomp, hsame⟩ := h.exists_set
  have htables := m'.sameTables_setNode e kind k.ty
  have hrest : ∀ x, x ≠ e → x.index < m.exprs.size → (m'.setNode e kind k.ty).expr x = m.expr x := by
    intro x hx hlt
    rw [expr_setNode, if_neg fun h => hx h.1, hadd.grows.expr_eq hlt]
  have hsize : m.exprs.size ≤ (m'.setNode e kind k.ty).exprs.size := by
    simpa [setNode, setKind, setTy, modifyExpr] using hadd.grows.size_le
  have hmono : ∀ {n bs o b κ}, m'.Elaborated n bs o b κ → (m'.setNode e kind k.ty).Elaborated n bs o b κ := by
    intro n bs o b κ hb
    by_cases hex : ∃ n b κ, m'.Elaborated n [] e b κ
    · obtain ⟨rfl, hnode⟩ := hsame hex
      rwa [hnode.setNode_eq]
    · refine hb.transfer htables fun n x b κ hx => ?_
      rw [expr_setNode, if_neg]
      rintro ⟨rfl, -⟩
      exact hex ⟨n, b, κ, hx⟩
  refine ⟨hadd.tables.trans htables, fun hb => hmono (hadd.elaborated hb), ⟨k, ?_⟩, hsize, hrest⟩
  have hann' : (m'.expr e).ann = [] := by rw [hadd.grows.expr_eq he, hann]
  have hspan : (m'.setNode e kind k.ty).spanOf e = m'.spanOf e := by
    rw [spanOf, expr_setNode]
    split <;> rfl
  exact (hcomp.transfer htables hspan hmono).elaborated (node_setNode (hadd.grows.lt he) hann')

end Model.Rebuilt
end Rebuilding

section Operators

theorem Arith.Op.scalars_eq_some {op : Op} (h : op.scalars κa κb = some (κ, k)) :
    κa.Fits κ ∧ κb.Fits κ ∧ op.scalars κ κ = some (κ, k) := by
  revert h
  cases op <;> cases κa <;> cases κb <;> cases κ <;> cases k <;> simp [scalars, Scalar.Fits, Scalar.join]

theorem Arith.unary_eq_some {op : UnOp} (h : unary op κa = some (κ, k)) :
    κa.Fits κ ∧ unary op κ = some (κ, k) := by
  revert h
  cases op <;> cases κa <;> cases κ <;> cases k <;> simp [unary, Scalar.Fits]

theorem Model.Builtin.withBody_eq (h : m.Builtin f s) : m.withBody? (some f) = none := by
  simp [withBody?, h.body]

theorem setKind_setTy_eq_ok {kind : ExprKind} {ty : Ty}
    (h : (do CheckM.setKind e kind; CheckM.setTy e ty : CheckM Unit) c = .ok () c') :
    c' = { c with model := c.model.setNode e kind ty } := by
  cases h
  rfl

theorem Model.Elaborated.kind_composed {kind : ExprKind} (h : m.Elaborated n [] e a k) (hk : m.kind e = kind) :
    m.Node e kind k.ty ∧ ∃ n', m.Composed n' e kind a k := by
  obtain ⟨n', kind', hn, hc⟩ := h.composed
  obtain rfl := hn.kind.symm.trans hk
  exact ⟨hn, n', hc⟩

theorem Model.Composed.bin_inv {op : BinOp} {l r : ExprId} {fn : Option FuncId}
    (h : m.Composed n e (.bin op l r fn) a k) :
    ∃ (o : Op) (κ : Scalar) (x y : Arith), o.symbol = op ∧ fn = none ∧ o.scalars κ κ = some (κ, k) ∧
      m.Elaborated n [] l x κ ∧ m.Elaborated n [] r y κ := by
  cases h with
  | bin hs hl hr => exact ⟨_, _, _, _, rfl, rfl, hs, hl, hr⟩

theorem bin_rebuilt {op : Op} {l r : ExprId} {fn : Option FuncId} (hm : c.model.Table)
    (hk : c.model.kind e = .bin op.symbol l r fn) (hl : c.model.Elaborated n [] l a κa)
    (hr : c.model.Elaborated n [] r b κb) (h : Typing.bin e op.symbol l r c = .ok () c') :
    ∃ m', c' = { c with model := m' } ∧ c.model.Rebuilt m' (n + 1) e (.bin (c.model.spanOf e) op a b) := by
  rw [Typing.bin, checkM_model_bind] at h
  rw [hl.ty_eq, hr.ty_eq] at h
  cases hf : c.model.matchOverload? op.symbol.name [κa.ty, κb.ty] with
  | none => simp [hf, CheckM.fail] at h
  | some f =>
    rw [hf] at h
    obtain ⟨s, hb, hs⟩ := hm.standard.chosen hm.sorted hf
    obtain ⟨κ, k, hscalars, hparams, hret⟩ := chosen_bin hs
    obtain ⟨hfa, hfb, hκ⟩ := op.scalars_eq_some hscalars
    obtain ⟨⟨es, t⟩, c₁, h₁, h⟩ := bind_eq_ok.mp h
    have hps : c.model.AllElaborated n [l, r] [(a, κa), (b, κb)] := .cons hl (.cons hr .nil)
    have hfit : ∀ p ∈ [(a, κa), (b, κb)], p.2.Fits κ := by simp [hfa, hfb]
    obtain ⟨rfl, m₁, rfl, hadd, hes, hsame⟩ := applied_elaborated hm hps hfit hb hparams hret h₁
    obtain - | @⟨l', _, _, _, hl', - | @⟨r', _, _, _, hr', ⟨⟩⟩⟩ := hes
    simp only [checkM_model_bind] at h
    rw [(hb.congr hadd.tables).withBody_eq] at h
    have hc' := setKind_setTy_eq_ok h
    have hexpr : m₁.expr e = c.model.expr e :=
      hadd.grows.expr_eq (lt_of_kind_ne_anon (hk ▸ ExprKind.noConfusion))
    refine ⟨_, hc', ⟨m₁, .bin op.symbol l' r' none, k, rfl, hadd, ?_, fun ⟨n₂, x, k₂, hx⟩ => ?_⟩⟩
    · rw [spanOf, ← hexpr]
      exact .bin hκ hl' hr'
    · have hk₁ : m₁.kind e = .bin op.symbol l r fn := by rw [kind, hexpr, ← kind, hk]
      obtain ⟨hnode, n₃, hcomp⟩ := hx.kind_composed hk₁
      obtain ⟨op', κ', x, y, hop, hfn, hκ', hx, hy⟩ := hcomp.bin_inv
      obtain rfl := Op.symbol_inj hop
      obtain rfl : κ' = κa := Scalar.ty_inj (hx.ty_eq.symm.trans ((hadd.elaborated hl).ty_eq))
      obtain rfl : κ' = κb := Scalar.ty_inj (hy.ty_eq.symm.trans ((hadd.elaborated hr).ty_eq))
      obtain ⟨rfl, rfl⟩ := Prod.mk.inj (Option.some.inj (hκ'.symm.trans hscalars))
      obtain ⟨heq, rfl⟩ := hsame (by simp)
      obtain ⟨rfl, rfl⟩ : l' = l ∧ r' = r := by simpa using heq
      exact ⟨rfl, hfn ▸ hnode⟩

theorem Model.Composed.un_inv {op : UnOp} {fn : Option FuncId} (h : m.Composed n e (.un op x fn) a k) :
    ∃ (κ : Scalar) (y : Arith), fn = none ∧ unary op κ = some (κ, k) ∧ m.Elaborated n [] x y κ := by
  cases h with
  | un hs hx => exact ⟨_, _, rfl, hs, hx⟩

theorem un_rebuilt {op : UnOp} {fn : Option FuncId} (hm : c.model.Table) (hk : c.model.kind e = .un op x fn)
    (hx : c.model.Elaborated n [] x a κa) (h : Typing.un e op x c = .ok () c') :
    ∃ m', c' = { c with model := m' } ∧ c.model.Rebuilt m' (n + 1) e (.un (c.model.spanOf e) op a) := by
  rw [Typing.un, checkM_model_bind, hx.ty_eq] at h
  cases hf : c.model.matchOverload? op.name [κa.ty] with
  | none => simp [hf, CheckM.fail] at h
  | some f =>
    rw [hf] at h
    obtain ⟨s, hb, hs⟩ := hm.standard.chosen hm.sorted hf
    obtain ⟨κ, k, hscalars, hparams, hret⟩ := chosen_un hs
    obtain ⟨hfa, hκ⟩ := unary_eq_some hscalars
    obtain ⟨⟨es, t⟩, c₁, h₁, h⟩ := bind_eq_ok.mp h
    have hps : c.model.AllElaborated n [x] [(a, κa)] := .cons hx .nil
    have hfit : ∀ p ∈ [(a, κa)], p.2.Fits κ := by simp [hfa]
    obtain ⟨rfl, m₁, rfl, hadd, hes, hsame⟩ := applied_elaborated hm hps hfit hb hparams hret h₁
    obtain - | @⟨x', _, _, _, hx', ⟨⟩⟩ := hes
    simp only [checkM_model_bind] at h
    rw [(hb.congr hadd.tables).withBody_eq] at h
    have hc' := setKind_setTy_eq_ok h
    have hexpr : m₁.expr e = c.model.expr e :=
      hadd.grows.expr_eq (lt_of_kind_ne_anon (hk ▸ ExprKind.noConfusion))
    refine ⟨_, hc', ⟨m₁, .un op x' none, k, rfl, hadd, ?_, fun ⟨n₂, y, k₂, hy⟩ => ?_⟩⟩
    · rw [spanOf, ← hexpr]
      exact .un hκ hx'
    · have hk₁ : m₁.kind e = .un op x fn := by rw [kind, hexpr, ← kind, hk]
      obtain ⟨hnode, n₃, hcomp⟩ := hy.kind_composed hk₁
      obtain ⟨κ', y, hfn, hκ', hy⟩ := hcomp.un_inv
      obtain rfl : κ' = κa := Scalar.ty_inj (hy.ty_eq.symm.trans ((hadd.elaborated hx).ty_eq))
      obtain ⟨rfl, rfl⟩ := Prod.mk.inj (Option.some.inj (hκ'.symm.trans hscalars))
      obtain ⟨heq, rfl⟩ := hsame (by simp)
      obtain rfl : x' = x := by simpa using heq
      exact ⟨rfl, hfn ▸ hnode⟩

-- A promotion that is typed for a second time.
theorem promotion_again (hm : c.model.Table) (hx : c.model.Elaborated n [] x a κa)
    (hnode : c.model.Node e (.call "bool2int" [x] (c.model.matchOverload? "bool2int" [.parBool])) .parInt)
    (h : Typing.call e "bool2int" [x] c = .ok () c') : c' = c ∧ κa = .bool := by
  rw [Typing.call, checkM_model_bind, List.map_cons, List.map_nil, hx.ty_eq] at h
  cases hf : c.model.matchOverload? "bool2int" [κa.ty] with
  | none => simp [hf, CheckM.fail] at h
  | some f =>
    rw [hf] at h
    have ⟨s, hb, hs⟩ := hm.standard.chosen hm.sorted hf
    obtain ⟨rfl, hparams, hret⟩ := chosen_promotion hs
    have ⟨⟨es, t⟩, c₁, h₁, h⟩ := bind_eq_ok.mp h
    have hps : c.model.AllElaborated n [x] [(a, .bool)] := .cons hx .nil
    have hfit : ∀ p ∈ [(a, Scalar.bool)], p.2.Fits .bool := by simp [Scalar.Fits]
    obtain ⟨rfl, m₁, rfl, -, -, hsame⟩ := applied_elaborated hm hps hfit hb hparams hret h₁
    obtain ⟨rfl, rfl⟩ := hsame (by simp)
    obtain rfl := setKind_setTy_eq_ok h
    have hf : c.model.matchOverload? "bool2int" [.parBool] = some f := hf
    rw [hf] at hnode
    exact ⟨by rw [show Scalar.int.ty = .parInt from rfl, hnode.setNode_eq], rfl⟩

end Operators

section Conditionals

open Rules

-- The state of a conditional all of whose parts so far are closed arithmetic.
structure PlainConditional (c : Conditional) (k : Scalar) : Prop where
  ty : c.ty = k.ty
  allPar : c.allPar = true
  allPresent : c.allPresent = true
  varCondition : c.varCondition = false
  anons : c.anons = []

theorem PlainConditional.otherwise {x : Operand} {c : Conditional} (hx : x.ty = k.ty)
    (h : Rules.otherwise x = .ok c) : PlainConditional c k := by
  rw [Rules.otherwise, hx] at h
  cases k
  all_goals
    cases h
    exact ⟨rfl, rfl, rfl, rfl, rfl⟩

theorem condition_eq_ok {c c' : Conditional} {x : Operand} (hx : x.ty = κ.ty) (h : condition c x = .ok c') :
    κ = .bool ∧ c' = { c with allAnn := false } := by
  have hann : κ.ty.same .ann = false := by cases κ <;> decide
  have hpar : κ.ty.same .parBool = decide (κ = .bool) := by cases κ <;> decide
  have hvar : κ.ty.same .varBool = false := by cases κ <;> decide
  have hmark : markedBy c.ty κ.ty = c.ty := by cases κ <;> rfl
  simp only [condition, hx, hann, hpar, hvar, hmark, Bool.false_eq_true, if_false, Bool.or_false] at h
  cases κ
  case int => cases h
  case bool => exact ⟨rfl, (Except.ok.inj h).symm⟩

theorem PlainConditional.branch {c c' : Conditional} {y : Operand} (hc : PlainConditional c k) (hy : y.ty = κ.ty)
    (h : branch c y = .ok c') : PlainConditional c' (k.join κ) := by
  have ⟨hty, hpar, hpresent, hvar, hanons⟩ := hc
  simp only [Rules.branch, hy, hty] at h
  cases k <;> cases κ
  all_goals
    cases h
    exact ⟨rfl, by rw [hpar]; rfl, by rw [hpresent]; rfl, hvar, hanons⟩

theorem Scalar.Fits.trans (h₁ : κa.Fits κb) (h₂ : κb.Fits k) : κa.Fits k := by
  cases h₁
  case inl h => exact .inl h
  case inr h => exact h ▸ h₂

theorem Scalar.fits_join (a b : Scalar) : a.Fits (a.join b) ∧ b.Fits (a.join b) ∧ (a.join b = a ∨ a.join b = b) := by
  cases a <;> cases b <;> simp [Fits, join]

-- The type of a conditional is that of one of its values, and all of them fit it.
theorem conditional_fitting {c c' : Conditional} (hb : m.Branches n bs o a) (hc : PlainConditional c k)
    (ho : m.ty o = κ.ty) (hk : κ.Fits k)
    (h : (bs.map fun (x, y) => (m.operand x, m.operand y)).foldlM
      (fun c (x, y) => do branch (← condition c x) y) c = .ok c') :
    ∃ k', PlainConditional c' k' ∧ k.Fits k' ∧ m.Fitting n k' bs o a ∧ (k' = k ∨ ∃ p ∈ bs, m.ty p.2 = k'.ty) := by
  induction hb generalizing c k with
  | last he =>
    cases h
    exact ⟨k, hc, .inr rfl, .last he (Scalar.ty_inj (he.ty_eq.symm.trans ho) ▸ hk), .inl rfl⟩
  | @next x y bs o a b r κx ky hx hy hr ih =>
    simp only [List.map_cons, List.foldlM_cons] at h
    have ⟨c₁, h₁, h⟩ := except_bind_eq_ok.mp h
    have ⟨c₂, h₂, h₁⟩ := except_bind_eq_ok.mp h₁
    obtain ⟨rfl, rfl⟩ := condition_eq_ok (x := m.operand x) hx.ty_eq h₂
    have hc₁ : PlainConditional c₁ (k.join ky) :=
      PlainConditional.branch (c := { c with allAnn := false }) ⟨hc.ty, hc.allPar, hc.allPresent, hc.varCondition,
        hc.anons⟩ (y := m.operand y) hy.ty_eq h₁
    have ⟨hf₁, hf₂, hone⟩ := Scalar.fits_join k ky
    obtain ⟨k', hc', hk', hfit, hex⟩ := ih hc₁ ho (hk.trans hf₁) h
    refine ⟨k', hc', hf₁.trans hk', .next hx hy (hf₂.trans hk') hfit, ?_⟩
    cases hex
    case inl heq =>
      refine hone.imp heq.trans fun hj => ⟨(x, y), List.mem_cons_self, ?_⟩
      rw [heq, hj, hy.ty_eq]
    case inr hex =>
      have ⟨p, hp, hpt⟩ := hex
      exact .inr ⟨p, List.mem_cons_of_mem _ hp, hpt⟩

theorem Model.Fitting.mono (hm : m.Adds m₁) (h : m.Fitting n k bs o a) : m₁.Fitting n k bs o a := by
  induction h with
  | last he hf => exact .last (hm.elaborated he) hf
  | next hx hy hf _ ih => exact .next (hm.elaborated hx) (hm.elaborated hy) hf ih

theorem coerceBranches_elaborated {bs' : List (ExprId × ExprId)} {o' : ExprId} {c₁ : Checking} (hm : c.model.Table)
    (hb : c.model.Fitting n k bs o a)
    (h₁ : (bs.mapM fun (x, y) => return (x, ← CheckM.coerce y k.ty) : CheckM (List (ExprId × ExprId))) c = .ok bs' c₁)
    (h₂ : CheckM.coerce o k.ty c₁ = .ok o' c') :
    ∃ m', c' = { c with model := m' } ∧ c.model.Adds m' ∧ m'.Elaborated (n + 1) bs' o' a k ∧
      bs'.length = bs.length ∧
      ((∀ p ∈ bs, c.model.ty p.2 = k.ty) → c.model.ty o = k.ty → bs' = bs ∧ o' = o ∧ m' = c.model) := by
  induction bs generalizing c a bs' with
  | nil =>
    obtain ⟨rfl, rfl⟩ := pure_eq_ok.mp h₁
    obtain ⟨m', hc, rfl⟩ := coerce_eq_ok h₂
    cases hb with
    | last he hf =>
      have ⟨hadd, he', hsame⟩ := coerce_elaborated hm he hf hc
      refine ⟨m', rfl, hadd, he', rfl, fun _ hty => ?_⟩
      obtain ⟨rfl, rfl⟩ := hsame (Scalar.ty_inj (he.ty_eq.symm.trans hty))
      exact ⟨rfl, rfl, rfl⟩
  | cons p bs ih =>
    cases hb with
    | @next x y _ _ a b r κ hx hy hf hr =>
      rw [List.mapM_cons] at h₁
      have ⟨p', c₂, hp, h₁⟩ := bind_eq_ok.mp h₁
      have ⟨bs₁, c₃, hbs, h₁⟩ := bind_eq_ok.mp h₁
      obtain ⟨rfl, rfl⟩ := pure_eq_ok.mp h₁
      have ⟨y', c₄, hy', hp⟩ := bind_eq_ok.mp hp
      obtain ⟨rfl, rfl⟩ := pure_eq_ok.mp hp
      obtain ⟨m₁, hc, rfl⟩ := coerce_eq_ok hy'
      have ⟨hadd₁, hy₁, hsame₁⟩ := coerce_elaborated hm hy hf hc
      obtain ⟨m', rfl, hadd, hrest, hlen, hsame⟩ := ih (hm.congr hadd₁.tables) (hr.mono hadd₁) hbs
      have hadd' := hadd₁.trans hadd
      refine ⟨m', rfl, hadd', .branch (hadd'.elaborated hx).succ (hadd.elaborated hy₁) hrest, by simp [hlen],
        fun htys ho => ?_⟩
      obtain ⟨rfl, rfl⟩ := hsame₁ (Scalar.ty_inj (hy.ty_eq.symm.trans (htys _ List.mem_cons_self)))
      obtain ⟨rfl, rfl, rfl⟩ := hsame (fun p hp => htys p (List.mem_cons_of_mem _ hp)) ho
      exact ⟨rfl, rfl, rfl⟩

theorem Model.Elaborated.branch_tys (h : m.Elaborated n bs o a k) : (∀ p ∈ bs, m.ty p.2 = k.ty) ∧ m.ty o = k.ty := by
  induction bs generalizing a with
  | nil => exact ⟨by simp, h.ty_eq⟩
  | cons p bs ih =>
    cases h with
    | branch hc hv hr =>
      have ⟨hbs, ho⟩ := ih hr
      exact ⟨List.forall_mem_cons.mpr ⟨hv.ty_eq, hbs⟩, ho⟩

theorem Model.Branches.ty_eq (h : m.Branches n bs o a) : ∃ κ : Scalar, m.ty o = κ.ty := by
  induction h with
  | last he => exact ⟨_, he.ty_eq⟩
  | next _ _ _ ih => exact ih

theorem Model.Branches.present (h : m.Branches n bs o a) :
    (∀ p ∈ bs, p.2.index < m.exprs.size) ∧ o.index < m.exprs.size := by
  induction h with
  | last he => exact ⟨by simp, he.present⟩
  | next _ hv _ ih => exact ⟨List.forall_mem_cons.mpr ⟨hv.present, ih.1⟩, ih.2⟩

theorem Model.Composed.ite_inv (h : m.Composed n e (.ite bs o) a k) : m.Elaborated n bs o a k := by
  cases h with
  | ite hb => exact hb

theorem ite_rebuilt {p : ExprId × ExprId} (hm : c.model.Table) (hk : c.model.kind e = .ite (p :: bs) o)
    (hb : c.model.Branches n (p :: bs) o a) (h : Typing.ite e (p :: bs) o c = .ok () c') :
    ∃ m', c' = { c with model := m' } ∧ c.model.Rebuilt m' (n + 1) e a := by
  rw [Typing.ite, checkM_model_bind] at h
  obtain ⟨d, _, hd, h⟩ := bind_eq_ok.mp h
  obtain ⟨hcond, rfl⟩ := ofExcept_eq_ok.mp hd
  obtain ⟨d₀, hd₀, hfold⟩ := except_bind_eq_ok.mp hcond
  obtain ⟨κ, ho⟩ := hb.ty_eq
  obtain ⟨k, hplain, hfit₀, hfit, hex⟩ := conditional_fitting hb (.otherwise (x := c.model.operand o) ho hd₀) ho
    (.inr rfl) hfold
  obtain ⟨hty, hpar, hpresent, hvar, hanons⟩ := hplain
  have hresult : d.result = k.ty := by simp [Conditional.result, hvar, hpar, hpresent, hty]
  rw [hanons, hty, hvar] at h
  obtain ⟨_, _, h₁, h⟩ := bind_eq_ok.mp h
  obtain ⟨-, rfl⟩ := pure_eq_ok.mp h₁
  obtain ⟨bs', c₁, hbs, h⟩ := bind_eq_ok.mp h
  obtain ⟨o', c₂, ho', h⟩ := bind_eq_ok.mp h
  obtain ⟨m', rfl, hadd, helab, hlen, hsame⟩ := coerceBranches_elaborated hm hfit hbs ho'
  simp only [Bool.false_and, Bool.false_eq_true, if_false, hresult] at h
  have hc' := setKind_setTy_eq_ok h
  have hexpr : m'.expr e = c.model.expr e :=
    hadd.grows.expr_eq (lt_of_kind_ne_anon (hk ▸ ExprKind.noConfusion))
  refine ⟨_, hc', ⟨m', .ite bs' o', k, rfl, hadd, ?_, ?_⟩⟩
  · cases bs' with
    | nil => cases hlen
    | cons => exact .ite helab
  · rintro ⟨n₂, y, k₂, hy⟩
    have hk' : m'.kind e = .ite (p :: bs) o := by rw [kind, hexpr, ← kind, hk]
    obtain ⟨hnode, n₃, hcomp⟩ := hy.kind_composed hk'
    obtain ⟨htys, hty⟩ := hcomp.ite_inv.branch_tys
    obtain ⟨hbs, ho₁⟩ := hb.present
    have htys : ∀ q ∈ p :: bs, c.model.ty q.2 = k₂.ty := fun q hq => hadd.grows.ty_eq (hbs q hq) ▸ htys q hq
    have hty : c.model.ty o = k₂.ty := hadd.grows.ty_eq ho₁ ▸ hty
    obtain rfl : k = k₂ := by
      cases hex
      case inl h => exact h.trans (Scalar.ty_inj (ho.symm.trans hty))
      case inr h =>
        obtain ⟨q, hq, hqt⟩ := h
        exact Scalar.ty_inj (hqt.symm.trans (htys q hq))
    obtain ⟨rfl, rfl, rfl⟩ := hsame htys hty
    exact ⟨rfl, hnode⟩

end Conditionals
end Parvar
