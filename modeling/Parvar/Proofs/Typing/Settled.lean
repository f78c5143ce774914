import Parvar.Proofs.Arithmetic.Elaboration
import Parvar.Proofs.Typing.Rerun

/-!
Nodes that are settled: their types are those that typing finds for their parts, and their parts are taken
as they are. Typing what is settled all the way down changes nothing.
-/

namespace Parvar

open Model

section Runs

variable {α β : Type} {m m' m₁ m₂ : Model}

-- A step that leads from one model to another without an error, be it raised or put on record.
def Runs (x : CheckM α) (m : Model) (a : α) (m' : Model) : Prop := x { model := m } = .ok a { model := m' }

namespace Runs

theorem pure (a : α) (m : Model) : Runs (pure a) m a m := rfl

theorem bind {x : CheckM α} {f : α → CheckM β} {a : α} {b : β} (hx : Runs x m a m₁) (hf : Runs (f a) m₁ b m₂) :
    Runs (x >>= f) m b m₂ :=
  bind_eq_ok.mpr ⟨a, _, hx, hf⟩

theorem model {f : Model → CheckM α} {a : α} (hf : Runs (f m) m a m') : Runs (CheckM.model >>= f) m a m' := hf

theorem operand {f : Operand → CheckM α} {a : α} {e : ExprId} (hf : Runs (f (m.operand e)) m a m') :
    Runs (CheckM.operand e >>= f) m a m' := hf

theorem ofExcept {r : Except TypeError α} {a : α} (h : r = .ok a) : Runs (CheckM.ofExcept r) m a m := by
  rw [h]
  rfl

theorem skip {p : Prop} [Decidable p] {x : CheckM PUnit} {f : PUnit → CheckM α} {a : α} (hp : ¬p)
    (hf : Runs (f ⟨⟩) m a m') : Runs (if p then x >>= f else f ⟨⟩) m a m' := by
  rw [if_neg hp]
  exact hf

theorem forM {f : α → CheckM PUnit} {as : List α} (h : ∀ a ∈ as, Runs (f a) m ⟨⟩ m) : Runs (as.forM f) m ⟨⟩ m := by
  induction as with
  | nil => rfl
  | cons a as ih =>
    exact bind (h a List.mem_cons_self) (ih fun b hb => h b (List.mem_cons_of_mem _ hb))

theorem mapM {f : α → CheckM β} {as : List α} {bs : List β} (h : List.Forall₂ (fun a b => Runs (f a) m b m) as bs) :
    Runs (as.mapM f) m bs m := by
  induction h with
  | nil => rfl
  | cons ha _ ih =>
    rw [List.mapM_cons]
    exact bind ha (bind ih rfl)

theorem foldlM {f : β → α → CheckM β} {g : β → α → β} {as : List α} {b : β}
    (h : ∀ a ∈ as, ∀ b, Runs (f b a) m (g b a) m) : Runs (as.foldlM f b) m (as.foldl g b) m := by
  induction as generalizing b with
  | nil => rfl
  | cons a as ih =>
    rw [List.foldlM_cons]
    exact bind (h a List.mem_cons_self b) (ih fun c hc => h c (List.mem_cons_of_mem _ hc))

end Runs
end Runs

section Unchanged

variable {m : Model}

theorem array_modify_self {α : Type} {as : Array α} {i : Nat} {f : α → α} (h : ∀ a, as[i]? = some a → f a = a) :
    as.modify i f = as := by
  refine Array.ext_getElem? fun j => ?_
  rw [Array.getElem?_modify]
  split
  · next hij =>
    subst hij
    cases ha : as[i]? with
    | none => rfl
    | some a => rw [Option.map_some, h a ha]
  · rfl

namespace Model

theorem modifyExpr_self {e : ExprId} {f : Expr → Expr} (h : f (m.expr e) = m.expr e) : m.modifyExpr e f = m := by
  rw [modifyExpr, array_modify_self fun a ha => ?_]
  rwa [expr, ha] at h

theorem modifyDecl_self {d : DeclId} {f : Decl → Decl} (h : f (m.decl d) = m.decl d) : m.modifyDecl d f = m := by
  rw [modifyDecl, array_modify_self fun a ha => ?_]
  rwa [decl, ha] at h

theorem modifyTypeInst_self {t : TypeInstId} {f : TypeInst → TypeInst} (h : f (m.typeInst t) = m.typeInst t) :
    m.modifyTypeInst t f = m := by
  rw [modifyTypeInst, array_modify_self fun a ha => ?_]
  rwa [typeInst, ha] at h

theorem coerce_self {e : ExprId} {t : Ty} (h : (m.ty e).Meets t) : m.coerce e t = .ok (e, m) := by
  simp only [coerce]
  split
  · rfl
  · next hc =>
    simp only [Bool.and_eq_true, Bool.or_eq_true, decide_eq_true_eq] at hc
    obtain ⟨hdim, hb⟩ := h.resolve_left hc
    have harray : m.asArray e t = .ok (e, m) := by
      simp only [asArray]
      rw [if_neg (by simpa [Model.ty] using hdim)]
      rfl
    rw [harray]
    change m.widen e t _ = _
    simp only [widen]
    rw [if_pos hb]
    rfl

end Model

namespace Runs

variable {e : ExprId} {d : DeclId} {t : Ty}

theorem changeModel {f : Model → Model} (h : f m = m) : Runs (CheckM.changeModel f) m ⟨⟩ m :=
  congrArg (fun m => EStateM.Result.ok PUnit.unit ({ model := m } : Checking)) h

theorem setTy (h : m.ty e = t) : Runs (CheckM.setTy e t) m ⟨⟩ m :=
  changeModel (modifyExpr_self (by rw [← h]; rfl))

theorem setKind {k : ExprKind} (h : m.kind e = k) : Runs (CheckM.setKind e k) m ⟨⟩ m :=
  changeModel (modifyExpr_self (by rw [← h]; rfl))

theorem coerce (h : (m.ty e).Meets t) : Runs (CheckM.coerce e t) m e m :=
  model (bind (ofExcept (coerce_self h)) rfl)

end Runs
end Unchanged

namespace Typing

-- The type of an array access after one more index.
def indexed (t i : Ty) : Ty :=
  let t := if i.isOpt then t.withOpt true else t
  Rules.markedBy (if i.isVar then t.withInst .var else t) i

-- What can be used as an index.
def IsIndex (i : Ty) : Prop := ¬(i.isSetTy || (i.base ≠ .int && i.base ≠ .bool) || i.dim ≠ 0)

end Typing

open Typing

section Definitions

variable (m : Model)

-- The names of a generator have the type of what it runs through.
structure Model.Ranges (g : Generator) : Prop where
  exists_ty : ∃ t, Rules.generated (m.operand g.source) = .ok t ∧
    ∀ d ∈ g.decls, (m.decl d).ty = t ∧ (m.typeInst (m.decl d).ti).ty = t

-- A let item of which there is nothing to report.
structure Model.Local (d : DeclId) : Prop where
  finite : ¬((m.decl d).init.isNone && (m.decl d).ty.isSetTy && (m.decl d).ty.isVar && (m.domain d).isNone)
  valued : ¬((m.decl d).ty.isPar && (m.decl d).init.isNone)
  closed : ¬hasTypeVar m (m.decl d).ti

-- The initializer that is noted for a let item.
def Model.originOf : LetItem → Option ExprId → Option ExprId
  | .decl d, _ => (m.decl d).init
  | .constraint _, old => old

def Model.SettledAs (e : ExprId) : ExprKind → Prop
  | .int _ | .float _ | .bool _ | .string _ | .intSet _ | .absent | .anon | .typeVar _ => True
  | .ident _ none => False
  | .ident _ (some d) => (m.decl d).ty.Known ∧ m.ty e = (m.decl d).ty
  | .setLit es =>
    (∃ t, Rules.setElems (m.spanOf e) (es.map m.operand) = .ok t ∧ t.Known ∧
      Rules.setLit (m.spanOf e) t = .ok (m.ty e)) ∧
    ∀ a ∈ es, (m.ty a).Meets (m.ty e)
  | .arrayLit es dims =>
    (∃ t, Rules.arrayElems (m.spanOf e) dims.length (es.map m.operand) = .ok t ∧ t.Known ∧
      Rules.arrayLit (m.spanOf e) t = .ok (m.ty e)) ∧
    ∀ a ∈ es, (m.kind a).isAnon = false ∧ (m.ty a).Meets (m.ty e).elem
  | .access array indices =>
    (m.ty array).dim ≠ 0 ∧ (m.ty array).dim = indices.length ∧
    (∀ i ∈ indices, (m.kind i).isAnon = false ∧ IsIndex (m.ty i) ∧ (m.ty i).Meets .varInt) ∧
    m.ty e = indices.foldl (fun t i => indexed t (m.ty i)) (m.ty array).elem
  | .comp c =>
    (∀ g ∈ c.generators, m.Ranges g) ∧
    Rules.comp c.isSet (m.operand c.body) (c.generators.map fun g => m.ty g.source) (c.guard.map m.operand) =
      .ok (m.ty e)
  | .ite branches otherwise => ∃ c,
    Rules.conditional (branches.map fun (cond, value) => (m.operand cond, m.operand value)) (m.operand otherwise) =
      .ok c ∧
    c.anons = [] ∧ (∀ b ∈ branches, (m.ty b.2).Meets c.ty) ∧ (m.ty otherwise).Meets c.ty ∧
    ¬(c.varCondition && 0 < c.ty.dim) ∧ m.ty e = c.result
  | .bin op lhs rhs fn => ∃ f, m.Applies op.name [lhs, rhs] (m.spanOf e) f (m.ty e) ∧ fn = m.withBody? (some f)
  | .un op arg fn => ∃ f, m.Applies op.name [arg] (m.spanOf e) f (m.ty e) ∧ fn = m.withBody? (some f)
  | .call name args fn => ∃ f, m.Applies name args (m.spanOf e) f (m.ty e) ∧ fn = some f
  | .letIn l =>
    (∀ d, .decl d ∈ l.items → m.Local d) ∧
    l.origin = (l.items.zipIdx.map fun (item, i) => m.originOf item (l.origin[i]?.getD none)) ∧
    m.ty e = (m.ty l.body).withCv ((m.ty l.body).cv || l.items.any (letItemCv m))

-- The node is as typing leaves it, if its parts are.
def Model.Settled : Site → Prop
  | .expr e => m.SettledAs e (m.kind e)
  | .decl d =>
    (m.decl d).ty.Known ∧
    ∀ a ∈ (m.decl d).init, (m.ty a).sub (m.typeInst (m.decl d).ti).ty ∧ (m.ty a).Meets (m.typeInst (m.decl d).ti).ty
  | .typeInst t =>
    let x := m.typeInst t
    Rules.rank x.ty (x.ranges.map fun r => ((m.typeInst r).ty, (m.typeInst r).span)) = .ok x.ty ∧
    (∀ a ∈ x.domain, Rules.domain x.ty (m.operand a) (m.kind a).isTypeVar = .ok x.ty) ∧
    x.ty.Known ∧ Rules.elemBase x.ty x.span = .ok ()

def Model.annOf : Site → List ExprId
  | .expr e => (m.expr e).ann
  | .decl d => (m.decl d).ann
  | .typeInst _ => []

-- Settled for at most `n` links down.
def Model.Checked : Nat → Site → Prop
  | 0, _ => False
  | n + 1, s => m.Settled s ∧ (∀ a ∈ m.annOf s, (m.ty a).isAnn) ∧ ∀ c ∈ m.uses s, Model.Checked n c

end Definitions

section Runs

variable {m : Model} {visit : Visit} {e : ExprId}

theorem Runs.exprs {es : List ExprId} (hv : ∀ a ∈ es, Runs (visit (.expr a)) m ⟨⟩ m) : Runs (exprs visit es) m ⟨⟩ m :=
  forM hv

theorem Runs.annotations {es : List ExprId} (hv : ∀ a ∈ es, Runs (visit (.expr a)) m ⟨⟩ m)
    (ha : ∀ a ∈ es, (m.ty a).isAnn) : Runs (annotations visit es) m ⟨⟩ m := by
  refine forM fun a hmem => bind (hv a hmem) (operand ?_)
  have hty : (m.operand a).ty.isAnn = true := ha a hmem
  rw [if_neg (by simp [hty])]
  exact pure _ _

theorem Runs.applied {name : String} {args : List ExprId} {f : FuncId} {t : Ty} (h : m.Applies name args (m.spanOf e) f t) :
    Runs (applied e f args (args.map m.ty)) m (args, t) m := by
  have hall : ∀ {as : List ExprId} {ts : List Ty}, List.Forall₂ (fun a t => (m.ty a).Meets t) as ts →
      List.Forall₂ (fun p a => Runs (CheckM.coerce p.1 p.2) m a m) (as.zip ts) as := by
    intro as ts h
    induction h with
    | nil => exact .nil
    | cons ha _ ih => exact .cons (coerce ha) ih
  obtain ⟨u, hu, rfl⟩ := h.ret
  exact model (bind (mapM (hall h.meets)) (model (bind (ofExcept hu) (pure _ _))))

namespace Model

section Nodes

theorem runs_setLit {es : List ExprId} (hk : m.kind e = .setLit es) (h : m.SettledAs e (.setLit es)) :
    Runs (setLit e es) m ⟨⟩ m := by
  obtain ⟨⟨t, ht, hknown, hlit⟩, hmeets⟩ := h
  refine .model (.bind (.ofExcept ht) ?_)
  rw [if_neg (Ty.known_iff.mp hknown)]
  refine .bind (.ofExcept hlit) (.bind (.mapM ?_) (.bind (.setKind hk) (.setTy rfl)))
  exact List.forall₂_same.mpr fun a ha => .coerce (hmeets a ha)

theorem runs_arrayLit {es : List ExprId} {dims : List (Int64 × Int64)} (hk : m.kind e = .arrayLit es dims)
    (h : m.SettledAs e (.arrayLit es dims)) : Runs (arrayLit e es dims) m ⟨⟩ m := by
  obtain ⟨⟨t, ht, hknown, hlit⟩, hmeets⟩ := h
  have hanons : (es.map m.operand).filter (·.isAnon) = [] := by
    refine List.filter_eq_nil_iff.mpr fun x hx => ?_
    obtain ⟨a, ha, rfl⟩ := List.mem_map.mp hx
    exact Bool.eq_false_iff.mp (hmeets a ha).1
  refine .model (.bind (.ofExcept ht) ?_)
  rw [if_neg (Ty.known_iff.mp hknown)]
  refine .bind (.ofExcept hlit) (.bind (.forM fun x hx => ?_) ?_)
  · rw [hanons] at hx
    cases hx
  · refine .bind (.mapM ?_) (.bind (.setKind hk) (.setTy rfl))
    exact List.forall₂_same.mpr fun a ha => .coerce (hmeets a ha).2

theorem runs_index {i : ExprId} (ha : (m.kind i).isAnon = false) (hi : IsIndex (m.ty i)) (hm : (m.ty i).Meets .varInt)
    (t : Ty) : Runs (index t i) m (i, indexed t (m.ty i)) m := by
  exact .operand (.skip (Bool.eq_false_iff.mp ha) (.operand (.skip hi (.bind (.coerce hm) rfl))))

theorem runs_access {array : ExprId} {indices : List ExprId} (hk : m.kind e = .access array indices)
    (h : m.SettledAs e (.access array indices)) : Runs (access e array indices) m ⟨⟩ m := by
  obtain ⟨hdim, hrank, hindices, hty⟩ := h
  have haccessed : Runs (accessed array) m array m := by
    refine .operand ?_
    rw [if_neg (by exact hdim)]
    exact .pure _ _
  have hfold : ∀ (is done : List ExprId) (t : Ty), is.foldl (fun r i => (r.1 ++ [i], indexed r.2 (m.ty i))) (done, t) =
      (done ++ is, is.foldl (fun t i => indexed t (m.ty i)) t) := by
    intro is
    induction is with
    | nil => simp
    | cons i is ih => simp [ih]
  refine .bind haccessed (.operand (.skip (not_not_intro hrank) ?_))
  refine .bind (.foldlM (g := fun r i => (r.1 ++ [i], indexed r.2 (m.ty i))) fun i hi r => ?_) ?_
  · have ⟨ha, hi, hm⟩ := hindices i hi
    exact .bind (runs_index ha hi hm r.2) rfl
  · rw [hfold]
    exact .bind (.setKind hk) (.setTy hty)

theorem runs_ite {branches : List (ExprId × ExprId)} {otherwise : ExprId} (hk : m.kind e = .ite branches otherwise)
    (h : m.SettledAs e (.ite branches otherwise)) : Runs (ite e branches otherwise) m ⟨⟩ m := by
  obtain ⟨c, hc, hanons, hbranches, hlast, hvar, hty⟩ := h
  refine .model (.bind (.ofExcept hc) (.bind (.forM fun a ha => ?_) ?_))
  · rw [hanons] at ha
    cases ha
  · have hall : List.Forall₂ (fun b b' => Runs (do return (b.1, ← CheckM.coerce b.2 c.ty)) m b' m) branches branches :=
      List.forall₂_same.mpr fun b hb => .bind (.coerce (hbranches b hb)) rfl
    refine .bind (.mapM hall) (.bind (.coerce hlast) (.bind (.setKind hk) ?_))
    rw [if_neg hvar]
    exact .setTy hty

theorem runs_bin {op : BinOp} {lhs rhs : ExprId} {fn : Option FuncId} (hk : m.kind e = .bin op lhs rhs fn)
    (h : m.SettledAs e (.bin op lhs rhs fn)) : Runs (bin e op lhs rhs) m ⟨⟩ m := by
  obtain ⟨f, happ, rfl⟩ := h
  refine .model ?_
  simp only [show m.matchOverload? op.name [m.ty lhs, m.ty rhs] = some f from happ.chosen]
  exact .bind (.applied happ) (.model (.bind (.setKind hk) (.setTy rfl)))

theorem runs_un {op : UnOp} {arg : ExprId} {fn : Option FuncId} (hk : m.kind e = .un op arg fn)
    (h : m.SettledAs e (.un op arg fn)) : Runs (un e op arg) m ⟨⟩ m := by
  obtain ⟨f, happ, rfl⟩ := h
  refine .model ?_
  simp only [show m.matchOverload? op.name [m.ty arg] = some f from happ.chosen]
  exact .bind (.applied happ) (.model (.bind (.setKind hk) (.setTy rfl)))

theorem runs_call {name : String} {args : List ExprId} {fn : Option FuncId} (hk : m.kind e = .call name args fn)
    (h : m.SettledAs e (.call name args fn)) : Runs (call e name args) m ⟨⟩ m := by
  obtain ⟨f, happ, rfl⟩ := h
  refine .model ?_
  simp only [happ.chosen]
  exact .bind (.applied happ) (.bind (.setKind hk) (.setTy rfl))

theorem runs_ident {name : String} {b : Option DeclId} (h : m.SettledAs e (.ident name b)) :
    Runs (ident e name b) m ⟨⟩ m := by
  cases b with
  | none => exact h.elim
  | some d =>
    obtain ⟨hknown, hty⟩ := h
    exact .model (.skip (Ty.known_iff.mp hknown) (.setTy hty))

theorem runs_comp {c : Comprehension} (hv : ∀ s ∈ (ExprKind.comp c).parts Generator.uses, Runs (visit s) m ⟨⟩ m)
    (h : m.SettledAs e (.comp c)) : Runs (comp visit e c) m ⟨⟩ m := by
  obtain ⟨hgens, hty⟩ := h
  simp only [ExprKind.parts, List.mem_append, List.mem_flatMap, List.mem_map, List.mem_singleton] at hv
  have hgen : ∀ g ∈ c.generators, Runs (generator visit g) m ⟨⟩ m := by
    intro g hg
    obtain ⟨t, ht, hdecls⟩ := (hgens g hg).exists_ty
    have hsource := hv (.expr g.source) (.inl (.inl ⟨g, hg, List.mem_singleton.mpr rfl⟩))
    refine .bind hsource (.operand (.bind (.ofExcept ht) (.forM fun d hd => ?_)))
    obtain ⟨hd, hti⟩ := hdecls d hd
    refine .bind (.changeModel (modifyDecl_self (by rw [← hd]))) (.model ?_)
    exact .changeModel (modifyTypeInst_self (by rw [← hti]))
  refine .bind (.forM hgen) (.bind (.exprs fun a ha => hv _ (.inl (.inr ⟨a, ha, rfl⟩))) ?_)
  exact .bind (hv _ (.inr rfl)) (.model (.bind (.ofExcept hty) (.setTy rfl)))

theorem runs_letIn {l : Let} (hv : ∀ s ∈ (ExprKind.letIn l).parts Generator.uses, Runs (visit s) m ⟨⟩ m)
    (hk : m.kind e = .letIn l) (h : m.SettledAs e (.letIn l)) : Runs (letIn visit e l) m ⟨⟩ m := by
  obtain ⟨hlocal, horigin, hty⟩ := h
  simp only [ExprKind.parts, List.mem_append, List.mem_map, List.mem_singleton] at hv
  have hitem : ∀ item ∈ l.items, Runs (letItem visit item) m ⟨⟩ m := by
    intro item hi
    have h := hv item.site (.inl ⟨item, hi, rfl⟩)
    cases item <;> exact h
  have hnote : ∀ item ∈ l.items, ∀ old, Runs (letOrigin item old) m (m.originOf item old) m := by
    intro item hi old
    cases item with
    | constraint => exact .pure _ _
    | decl d =>
      obtain ⟨hfinite, hvalued, hclosed⟩ := hlocal d hi
      have hset : Runs (finiteSet d) m ⟨⟩ m := by
        refine .model ?_
        rw [if_neg hfinite]
        exact .pure _ _
      exact .model (.bind hset (.skip hvalued (.model (.skip hclosed (.pure _ _)))))
  have hall : List.Forall₂ (fun p o => Runs (letOrigin p.1 (l.origin[p.2]?.getD none)) m o m) l.items.zipIdx
      (l.items.zipIdx.map fun (item, i) => m.originOf item (l.origin[i]?.getD none)) :=
    List.forall₂_map_right_iff.mpr
      (List.forall₂_same.mpr fun p hp => hnote p.1 (List.fst_mem_of_mem_zipIdx hp) _)
  rw [← horigin] at hall
  refine .bind (.forM hitem) (.bind (hv _ (.inr rfl)) (.bind (.mapM hall) ?_))
  exact .bind (.setKind hk) (.model (.setTy hty))

theorem runs_expr (hv : ∀ s ∈ m.uses (.expr e), Runs (visit s) m ⟨⟩ m) (h : m.Settled (.expr e))
    (ha : ∀ a ∈ (m.expr e).ann, (m.ty a).isAnn) : Runs (Typing.expr visit e) m ⟨⟩ m := by
  have hv' : ∀ s ∈ (m.kind e).parts Generator.uses, Runs (visit s) m ⟨⟩ m := fun s hs =>
    hv s (List.mem_append_left _ hs)
  have hann : Runs (annotations visit (m.expr e).ann) m ⟨⟩ m :=
    .annotations (fun a ha => hv _ (List.mem_append_right _ (List.mem_map_of_mem ha))) ha
  refine .model (.bind (a := ⟨⟩) ?_ (.model hann))
  have h : m.SettledAs e (m.kind e) := h
  have hes : ∀ {es : List ExprId}, (m.kind e).parts Generator.uses = es.map .expr → Runs (Typing.exprs visit es) m ⟨⟩ m :=
    fun hparts => .exprs fun a ha => hv' _ (hparts ▸ List.mem_map_of_mem ha)
  cases hk : m.kind e with
  | int | float | bool | string | intSet | absent | anon | typeVar => exact .pure _ _
  | ident name b => exact runs_ident (hk ▸ h)
  | setLit es => exact .bind (hes (hk ▸ rfl)) (runs_setLit hk (hk ▸ h))
  | arrayLit es dims => exact .bind (hes (hk ▸ rfl)) (runs_arrayLit hk (hk ▸ h))
  | access array indices => exact .bind (hes (hk ▸ rfl)) (runs_access hk (hk ▸ h))
  | comp c => exact runs_comp (hk ▸ hv') (hk ▸ h)
  | ite branches otherwise =>
    rw [hk] at hv'
    simp only [ExprKind.parts, List.mem_append, List.mem_flatMap, List.mem_singleton] at hv'
    refine .bind (.forM fun b hb => ?_) (.bind (hv' _ (.inr rfl)) (runs_ite hk (hk ▸ h)))
    exact .exprs fun a ha => hv' _ (.inl ⟨b, hb, List.mem_map_of_mem ha⟩)
  | bin op lhs rhs fn => exact .bind (hes (hk ▸ rfl)) (runs_bin hk (hk ▸ h))
  | un op arg fn => exact .bind (hv' _ (hk ▸ List.mem_singleton.mpr rfl)) (runs_un hk (hk ▸ h))
  | call name args fn => exact .bind (hes (hk ▸ rfl)) (runs_call hk (hk ▸ h))
  | letIn l => exact runs_letIn (hk ▸ hv') hk (hk ▸ h)

theorem runs_decl {d : DeclId} (hv : ∀ s ∈ m.uses (.decl d), Runs (visit s) m ⟨⟩ m) (h : m.Settled (.decl d))
    (ha : ∀ a ∈ (m.decl d).ann, (m.ty a).isAnn) : Runs (Typing.decl .check visit d) m ⟨⟩ m := by
  obtain ⟨hknown, hinit⟩ := h
  simp only [uses_decl, needs, List.cons_append, List.mem_cons, List.mem_append, List.mem_map] at hv
  refine .model (.bind (hv _ (.inl rfl)) (.bind (.exprs fun a ha => hv _ (.inr (.inl ⟨a, ha, rfl⟩))) ?_))
  refine .bind (.annotations (fun a ha => hv _ (.inr (.inr ⟨a, ha, rfl⟩))) ha) (.model ?_)
  refine .skip (Ty.known_iff.mp hknown) (.forM fun a ha => .operand ?_)
  have ha : (m.decl d).init = some a := Option.mem_toList.mp ha
  obtain ⟨hsub, hmeets⟩ := hinit a ha
  rw [if_pos (by exact hsub)]
  exact .bind (.coerce hmeets) (.changeModel (modifyDecl_self (by rw [← ha])))

theorem runs_typeInst {t : TypeInstId} (hv : ∀ s ∈ m.uses (.typeInst t), Runs (visit s) m ⟨⟩ m)
    (h : m.Settled (.typeInst t)) : Runs (Typing.typeInst visit t) m ⟨⟩ m := by
  obtain ⟨hrank, hdomain, hknown, helem⟩ := h
  simp only [uses, partsBy, List.mem_append, List.mem_map] at hv
  refine .model (.bind (.forM fun r hr => hv _ (.inl ⟨r, hr, rfl⟩)) ?_)
  refine .bind (.exprs fun a ha => hv _ (.inr ⟨a, ha, rfl⟩)) (.model (.bind (.ofExcept hrank) ?_))
  have hin : Runs (typeIn (m.typeInst t).ty (m.typeInst t).span (m.typeInst t).domain) m (m.typeInst t).ty m := by
    cases hd : (m.typeInst t).domain with
    | none => exact .skip (f := fun _ => pure _) (Ty.known_iff.mp hknown) (.pure _ _)
    | some a =>
      refine .model (.bind (.ofExcept (hdomain a hd)) ?_)
      rw [if_neg (Ty.known_iff.mp hknown)]
      exact .pure _ _
  exact .bind hin (.bind (.ofExcept helem) (.changeModel (modifyTypeInst_self rfl)))

end Nodes

-- Typing what is settled all the way down changes nothing.
theorem Checked.runs {n fuel : Nat} {s : Site} (h : m.Checked n s) (hn : n ≤ fuel) : Runs (walk .check fuel s) m ⟨⟩ m := by
  induction n generalizing fuel s with
  | zero => exact h.elim
  | succ n ih =>
    obtain ⟨fuel, rfl⟩ := Nat.exists_eq_add_of_le' (Nat.le_trans (Nat.le_add_left 1 n) hn)
    obtain ⟨hs, ha, hc⟩ := h
    have hv : ∀ c ∈ m.uses s, Runs (walk .check fuel c) m ⟨⟩ m := fun c hmem => ih (hc c hmem) (by omega)
    cases s with
    | expr e => exact runs_expr hv hs ha
    | decl d => exact runs_decl hv hs ha
    | typeInst t => exact runs_typeInst hv hs

end Model
end Runs
end Parvar
