import Parvar.Proofs.Model.Lookup
import Parvar.Proofs.Model.Place
import Parvar.Proofs.Outcome
import Parvar.Typing.Check

/-!
What resolution leaves as it is, in every model and also where it fails: it binds names, it puts the
items of lets in order, and it changes nothing else.
-/

namespace Parvar

-- The same but for what a name is bound to, and for the order of the items of a let.
inductive ExprKind.Rebinds : ExprKind → ExprKind → Prop
  | same (k : ExprKind) : Rebinds k k
  | ident (name : String) (b b' : Option DeclId) : Rebinds (.ident name b) (.ident name b')
  | letIn {l l' : Let} (items : l'.items.Perm l.items) (body : l'.body = l.body) :
      Rebinds (.letIn l) (.letIn l')

namespace ExprKind.Rebinds

variable {k k₁ k₂ : ExprKind}

theorem trans (h₁ : Rebinds k k₁) (h₂ : Rebinds k₁ k₂) : Rebinds k k₂ := by
  cases h₁ with
  | same => exact h₂
  | ident name b b₁ =>
    cases h₂ with
    | same => exact .ident name b b₁
    | ident _ _ b₂ => exact .ident name b b₂
  | letIn hi hb =>
    cases h₂ with
    | same => exact .letIn hi hb
    | letIn hi₂ hb₂ => exact .letIn (hi₂.trans hi) (hb₂.trans hb)

theorem symm (h : Rebinds k k₁) : Rebinds k₁ k := by
  cases h with
  | same => exact .same k
  | ident name b b' => exact .ident name b' b
  | letIn hi hb => exact .letIn hi.symm hb.symm

theorem mem_parts (h : Rebinds k k₁) {gen : Generator → List Site} {s : Site} :
    s ∈ k₁.parts gen ↔ s ∈ k.parts gen := by
  cases h with
  | same | ident => exact Iff.rfl
  | letIn hi hb =>
    simp only [parts, hb, List.mem_append]
    rw [(hi.map LetItem.site).mem_iff]

end ExprKind.Rebinds

structure Model.Rebinds (m m' : Model) : Prop where
  items : m'.items = m.items
  submodels : m'.submodels = m.submodels
  overloads : m'.overloads = m.overloads
  decls : m'.decls = m.decls
  typeInsts : m'.typeInsts = m.typeInsts
  funcs : m'.funcs = m.funcs
  ty : ∀ e, m'.ty e = m.ty e
  ann : ∀ e, (m'.expr e).ann = (m.expr e).ann
  kind : ∀ e, (m.kind e).Rebinds (m'.kind e)

namespace Model.Rebinds

variable {m m₁ m₂ : Model}

protected theorem refl (m : Model) : m.Rebinds m :=
  ⟨rfl, rfl, rfl, rfl, rfl, rfl, fun _ => rfl, fun _ => rfl, fun _ => .same _⟩

theorem trans (h₁ : m.Rebinds m₁) (h₂ : m₁.Rebinds m₂) : m.Rebinds m₂ where
  items := h₂.items.trans h₁.items
  submodels := h₂.submodels.trans h₁.submodels
  overloads := h₂.overloads.trans h₁.overloads
  decls := h₂.decls.trans h₁.decls
  typeInsts := h₂.typeInsts.trans h₁.typeInsts
  funcs := h₂.funcs.trans h₁.funcs
  ty e := (h₂.ty e).trans (h₁.ty e)
  ann e := (h₂.ann e).trans (h₁.ann e)
  kind e := (h₁.kind e).trans (h₂.kind e)

theorem setKind {e : ExprId} {k : ExprKind} (h : m.Rebinds m₁) (hk : (m.kind e).Rebinds k) :
    m.Rebinds (m₁.setKind e k) := by
  refine h.trans ⟨rfl, rfl, rfl, rfl, rfl, rfl, fun a => ?_, fun a => m₁.ann_setKind e a k, fun a => ?_⟩
  · simp only [Model.ty, Model.setKind, expr_modifyExpr]
    split
    · next h => rw [h.1]
    · rfl
  · by_cases ha : a = e
    · subst ha
      cases m₁.kind_setKind a k
      case inl hs => rw [hs]; exact (h.kind a).symm.trans hk
      case inr hs => rw [hs.1]; exact .same _
    · rw [kind_setKind_ne ha]
      exact .same _

end Model.Rebinds

namespace Resolve

-- All that a run has changed so far are bindings.
def Rebinding (r r' : Resolution) : Prop := r.model.Rebinds r'.model

instance : Std.Refl Rebinding := ⟨fun r => .refl r.model⟩

instance : IsTrans Resolution Rebinding := ⟨fun _ _ _ h₁ h₂ => Model.Rebinds.trans h₁ h₂⟩

section Walk

theorem keeps_lookup (name : String) (span : Span) : Keeps Rebinding (ResolveM.lookup name span) := by
  refine .bind .get fun r => ?_
  split
  · exact .pure _
  · exact .throw _

theorem keeps_push (d : DeclId) : Keeps Rebinding (ResolveM.push d) :=
  .modify fun r => .refl r.model

theorem keeps_pop (d : DeclId) : Keeps Rebinding (ResolveM.pop d) :=
  .modify fun r => .refl r.model

variable {visit : Visit} (hv : ∀ s, Keeps Rebinding (visit s))

include hv

theorem keeps_exprs (es : List ExprId) : Keeps Rebinding (exprs visit es) :=
  .forM fun _ _ => hv _

theorem keeps_refer (d : DeclId) (name : String) (span : Span) :
    Keeps Rebinding (refer visit d name span) := by
  refine .bind .get fun r => ?_
  split
  · exact .pure _
  · split
    · exact .throw _
    · exact hv _

theorem keeps_comp (c : Comprehension) : Keeps Rebinding (comp visit c) := by
  refine .bind (.forM fun g _ => .bind (hv _) fun _ => .forM fun d _ => keeps_push d) fun _ => ?_
  refine .bind (keeps_exprs hv _) fun _ => .bind (hv _) fun _ => ?_
  exact .forM fun g _ => .forM fun d _ => keeps_pop d

theorem keeps_letItem (item : LetItem) : Keeps Rebinding (letItem visit item) := by
  cases item
  case decl d => exact .bind (hv _) fun _ => keeps_push d
  case constraint => exact hv _

omit hv in
theorem keeps_leaveItem (item : LetItem) : Keeps Rebinding (leaveItem item) := by
  cases item
  case decl d => exact keeps_pop d
  case constraint => exact .pure _

variable {e : ExprId} {r : Resolution}

omit hv in
-- A kind may be set at the end if it rebinds the one that was there at the start.
theorem rebinds_bind_setKind {α : Type} {x : ResolveM α} {k : α → ExprKind} (hx : Keeps Rebinding x)
    (hk : ∀ a r', x r = .ok a r' → (r.model.kind e).Rebinds (k a)) :
    Rebinding r (final (x >>= fun a => ResolveM.changeModel (·.setKind e (k a))) r) := by
  have h := hx r
  cases hr : x r with
  | error err r' =>
    rw [final_bind_of_error hr]
    exact final_of_error hr ▸ h
  | ok a r' =>
    rw [final_bind_of_ok hr]
    rw [final_of_ok hr] at h
    exact Model.Rebinds.setKind h (hk a r' hr)

theorem rebinds_ident {name : String} {b : Option DeclId} (span : Span) (hk : r.model.kind e = .ident name b) :
    Rebinding r (final (ident visit e name span) r) := by
  have hx : Keeps Rebinding (do
      let d ← ResolveM.lookup name span
      refer visit d name span
      return d) :=
    .bind (keeps_lookup name span) fun d => .bind (keeps_refer hv d name span) fun _ => .pure _
  have h := rebinds_bind_setKind (e := e) (r := r) (k := fun d => .ident name (some d)) hx
    fun d _ _ => hk ▸ .ident name b (some d)
  simpa only [ident, bind_assoc, pure_bind] using h

theorem rebinds_letIn {l : Let} (hk : r.model.kind e = .letIn l) :
    Rebinding r (final (letIn visit e l) r) := by
  have hx : Keeps Rebinding (do
      l.items.forM (letItem visit)
      visit (.expr l.body)
      let r ← get
      (sortLetItems r l.items).forM leaveItem
      return r) :=
    .bind (.forM fun i _ => keeps_letItem hv i) fun _ => .bind (hv _) fun _ => .bind .get fun r =>
      .bind (.forM fun i _ => keeps_leaveItem i) fun _ => .pure _
  have h := rebinds_bind_setKind (e := e) (r := r) (k := fun r => .letIn
      ⟨sortLetItems r l.items, l.body, (sortLetItems r l.items).map (origin r.model)⟩) hx
    fun r' _ _ => hk ▸ .letIn (List.mergeSort_perm _ _) rfl
  simpa only [letIn, bind_assoc, pure_bind] using h

theorem rebinds_node {k : ExprKind} (span : Span) (hk : r.model.kind e = k) :
    Rebinding r (final (node visit e span k) r) := by
  cases k
  case int | float | bool | string | intSet | absent | anon | typeVar => exact .refl r.model
  case ident => exact rebinds_ident hv span hk
  case letIn => exact rebinds_letIn hv hk
  case comp c => exact keeps_comp hv c r
  case un => exact hv _ r
  case ite branches otherwise =>
    exact Keeps.bind (.forM fun b _ => keeps_exprs hv _) (fun _ => hv _) r
  case setLit | arrayLit | access | bin | call => exact keeps_exprs hv _ r

theorem keeps_expr (e : ExprId) : Keeps Rebinding (expr visit e) := by
  intro r
  have hn := rebinds_node hv (r.model.expr e).span (rfl : r.model.kind e = _)
  change Rebinding r (final (node visit e (r.model.expr e).span (r.model.expr e).kind >>= fun _ =>
    exprs visit (r.model.expr e).ann) r)
  cases hr : node visit e (r.model.expr e).span (r.model.expr e).kind r with
  | error err r' =>
    rw [final_bind_of_error hr]
    exact final_of_error hr ▸ hn
  | ok a r' =>
    rw [final_bind_of_ok hr]
    exact Model.Rebinds.trans (final_of_ok hr ▸ hn) (keeps_exprs hv _ r')

theorem keeps_decl (d : DeclId) : Keeps Rebinding (decl visit d) := by
  refine .bind .get fun r => ?_
  split
  · exact .pure _
  · refine .bind (.modify fun r => .refl r.model) fun _ => .bind (hv _) fun _ => ?_
    refine .bind (keeps_exprs hv _) fun _ => .bind (.modify fun r => .refl r.model) fun _ => ?_
    exact keeps_exprs hv _

theorem keeps_typeInst (t : TypeInstId) : Keeps Rebinding (typeInst visit t) :=
  .bind .get fun _ => .bind (.forM fun _ _ => hv _) fun _ => keeps_exprs hv _

omit hv in
theorem keeps_walk : ∀ (fuel : Nat) (s : Site), Keeps Rebinding (walk fuel s)
  | 0, _ => .throw _
  | fuel + 1, s => by
    have ih := keeps_walk fuel
    cases s
    case expr e => exact keeps_expr ih e
    case decl d => exact keeps_decl ih d
    case typeInst t => exact keeps_typeInst ih t

end Walk

section Items

open Check

theorem keeps_resolve (s : Site) : Keeps Rebinding (resolve s) := by
  intro r
  have hx : resolve s r = walk r.model.walkFuel s r := rfl
  simpa only [final, hx] using keeps_walk r.model.walkFuel s r

theorem keeps_resolveExprs (es : List ExprId) : Keeps Rebinding (resolveExprs es) :=
  .forM fun _ _ => keeps_resolve _

theorem foldl_model {f : Resolution → DeclId → Resolution} (hf : ∀ r d, (f r d).model = r.model)
    (ds : List DeclId) (r : Resolution) : (ds.foldl f r).model = r.model :=
  List.foldlRecOn (motive := fun r' : Resolution => r'.model = r.model) ds f rfl fun r' h d _ =>
    (hf r' d).trans h

theorem keeps_withScope (ds : List DeclId) {x : ResolveM Unit} (hx : Keeps Rebinding x) :
    Keeps Rebinding (withScope ds x) := by
  intro r
  have h := hx (ds.foldl Resolution.push r)
  have hpush : (ds.foldl Resolution.push r).model = r.model := foldl_model (f := Resolution.push) (fun _ _ => rfl) ds r
  have hpop : ∀ r' : Resolution, (ds.foldl Resolution.pop r').model = r'.model :=
    foldl_model (f := Resolution.pop) (fun _ _ => rfl) ds
  simp only [Rebinding, hpush, final, withScope] at h ⊢
  cases hr : x (ds.foldl Resolution.push r) with
  | ok a r' => simpa only [hr, hpop] using h
  | error err r' => simpa only [hr, hpop] using h

theorem keeps_resolveItem (item : Item) : Keeps Rebinding (resolveItem item) := by
  cases item
  case submodel | assign => exact .pure _
  case decl | constraint | output => exact keeps_resolve _
  case solve => exact .bind (keeps_resolveExprs _) fun _ => keeps_resolveExprs _
  case func f =>
    refine .bind .get fun r => .bind (keeps_resolve _) fun _ => ?_
    refine .bind (.forM fun p _ => keeps_resolve _) fun _ => .bind (keeps_resolveExprs _) fun _ => ?_
    exact keeps_withScope _ (keeps_resolveExprs _)

theorem keeps_eachSlot {R : Resolution → Resolution → Prop} [Std.Refl R] [IsTrans Resolution R]
    {f : ItemPath → Slot → ResolveM Unit} (hf : ∀ p s, Keeps R (f p s)) (paths : List ItemPath) :
    Keeps R (eachSlot paths f) := by
  refine .forM fun p _ => .bind .get fun r => ?_
  split
  · split
    · exact .pure _
    · exact hf _ _
  · exact .pure _

theorem keeps_resolvedItems (paths : List ItemPath) :
    Keeps Rebinding (eachSlot paths fun _ s => resolveItem s.item) :=
  keeps_eachSlot (fun _ s => keeps_resolveItem s.item) paths

end Items
end Resolve
end Parvar
