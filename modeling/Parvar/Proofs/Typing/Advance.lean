import Parvar.Proofs.Typing.Complete

/-!
The changes that the checker makes to a model, one by one. Each of them leads from a well formed model
to a well formed model, and keeps what is complete.
-/

namespace Parvar

namespace Model

-- How a model may change in a run of the checker. If `full`, all types that are set are known.
structure Advances (full : Prop) (m m' : Model) : Prop where
  items : m'.items = m.items
  submodels : m'.submodels = m.submodels
  overloads : m'.overloads = m.overloads
  size : m'.funcs.size = m.funcs.size
  typeInsts : m'.typeInsts.size = m.typeInsts.size
  func : ∀ f, (m'.func f).params = (m.func f).params ∧ (m'.func f).ret = (m.func f).ret
  ti : ∀ d, (m'.decl d).ti = (m.decl d).ti
  ann : ∀ e, (m'.expr e).ann = (m.expr e).ann
  filled : ∀ e, m.kind e ≠ .anon → m'.kind e ≠ .anon
  compound : ∀ e, m.kind e ≠ .anon → ¬(m.kind e).isConstant → ¬(m'.kind e).isConstant
  rets : ∀ f, f.index < m.funcs.size → (m.typeInst (m.func f).ret).ty.Known →
    (m'.typeInst (m'.func f).ret).ty.Known
  completing : full → m.Completing m'

variable {full : Prop} {m m₁ m₂ : Model} {e : ExprId} {d : DeclId} {t : TypeInstId} {ty : Ty}

namespace Advances

protected theorem refl (full : Prop) (m : Model) : m.Advances full m :=
  ⟨rfl, rfl, rfl, rfl, rfl, fun _ => ⟨rfl, rfl⟩, fun _ => rfl, fun _ => rfl, fun _ => id, fun _ _ => id,
    fun _ _ => id, fun _ => .refl m⟩

theorem trans (h₁ : m.Advances full m₁) (h₂ : m₁.Advances full m₂) : m.Advances full m₂ where
  items := h₂.items.trans h₁.items
  submodels := h₂.submodels.trans h₁.submodels
  overloads := h₂.overloads.trans h₁.overloads
  size := h₂.size.trans h₁.size
  typeInsts := h₂.typeInsts.trans h₁.typeInsts
  func f := ⟨(h₂.func f).1.trans (h₁.func f).1, (h₂.func f).2.trans (h₁.func f).2⟩
  ti d := (h₂.ti d).trans (h₁.ti d)
  ann e := (h₂.ann e).trans (h₁.ann e)
  filled e he := h₂.filled e (h₁.filled e he)
  compound e he hc := h₂.compound e (h₁.filled e he) (h₁.compound e he hc)
  rets f hf hk := h₂.rets f (h₁.size ▸ hf) (h₁.rets f hf hk)
  completing hf := (h₁.completing hf).trans (h₂.completing hf)

theorem slot_eq (h : m.Advances full m₁) (p : ItemPath) : m₁.slot? p = m.slot? p := by
  simp [slot?, itemsOf, h.items, h.submodels]

theorem itemAt_eq (h : m.Advances full m₁) (p : ItemPath) : m₁.itemAt? p = m.itemAt? p := by
  rw [itemAt?, itemAt?, h.slot_eq]

theorem registered_iff (h : m.Advances full m₁) {f : FuncId} : m₁.Registered f ↔ m.Registered f := by
  simp [Registered, h.overloads]

end Advances

section Types

theorem Retyped.parts_eq (h : m.Retyped m₁) (s : Site) : m₁.parts s = m.parts s := by
  cases s
  case expr e => simp [parts, partsBy, h.kind, h.ann]
  case decl c => simp [parts, partsBy, h.needs_eq, h.decl c]
  case typeInst t => simp [parts, partsBy, h.typeInst t]

-- What typing reads and does not change here.
structure Retypes (full : Prop) (m m' : Model) : Prop extends m.Retyped m' where
  submodels : m'.submodels = m.submodels
  overloads : m'.overloads = m.overloads
  funcs : m'.funcs = m.funcs
  sizeTypeInsts : m'.typeInsts.size = m.typeInsts.size
  constants : ∀ e, (m.kind e).isConstant → (m.ty e).Known → (m'.ty e).Known
  rets : ∀ f, f.index < m.funcs.size → (m.typeInst (m.func f).ret).ty.Known →
    (m'.typeInst (m.func f).ret).ty.Known
  tys : full → ∀ e, (m.ty e).Known → (m'.ty e).Known
  decls : full → ∀ d, (m.decl d).ty.Known → (m'.decl d).ty.Known
  typeInsts : full → ∀ t, (m.typeInst t).ty.Known → (m'.typeInst t).ty.Known

namespace Retypes

theorem func_eq (h : m.Retypes full m₁) (f : FuncId) : m₁.func f = m.func f := by
  simp [Model.func, h.funcs]

theorem advances (h : m.Retypes full m₁) : m.Advances full m₁ where
  items := h.items
  submodels := h.submodels
  overloads := h.overloads
  size := by rw [h.funcs]
  typeInsts := h.sizeTypeInsts
  func f := by rw [h.func_eq]; exact ⟨rfl, rfl⟩
  ti d := (h.decl d).1
  ann := h.ann
  filled e he := by rwa [h.kind]
  compound e _ he := by rwa [h.kind]
  rets f hf hk := by
    rw [h.func_eq]
    exact h.rets f hf hk
  completing hf := .of_retyped h.toRetyped h.funcs (h.tys hf) (h.decls hf) (h.typeInsts hf)

theorem formed (h : m.Retypes full m₁) (hm : m.Formed full) : m₁.Formed full where
  constants e he := h.constants e (h.kind e ▸ he) (hm.constants e (h.kind e ▸ he))
  filled s e he := by
    rw [h.kind]
    exact hm.filled s e (h.parts_eq s ▸ he)
  rooted p item hp e he := by
    have hsites : m₁.itemSites item = m.itemSites item := by
      cases item
      case func f => simp [itemSites, h.func_eq]
      all_goals rfl
    rw [h.kind]
    exact hm.rooted p item (h.advances.itemAt_eq p ▸ hp) e (hsites ▸ he)
  own e c hc g hg b hb f hf := by
    rw [(h.decl b).1, h.func_eq]
    exact hm.own e c (h.kind e ▸ hc) g hg b hb f (h.funcs ▸ hf)
  tabled hfull f hf := by
    rw [h.func_eq]
    exact h.typeInsts hfull _ (hm.tabled hfull f (h.advances.registered_iff.mp hf))

end Retypes

theorem ty_setTy (m : Model) (e a : ExprId) (ty : Ty) :
    (m.setTy e ty).ty a = if a = e ∧ e.index < m.exprs.size then ty else m.ty a := by
  rw [Model.ty, setTy, expr_modifyExpr]
  split <;> rfl

theorem retypes_setTy (hf : full → ty.Known)
    (he : ty.Known ∨ (m.kind e ≠ .anon ∧ ¬(m.kind e).isConstant)) : m.Retypes full (m.setTy e ty) where
  toRetyped := m.retyped_setTy e ty
  submodels := rfl
  overloads := rfl
  funcs := rfl
  sizeTypeInsts := rfl
  constants a ha hk := by
    rw [ty_setTy]
    split
    · next h => exact he.resolve_right fun hn => hn.2 (h.1 ▸ ha)
    · exact hk
  rets _ _ := id
  tys h a ha := by
    rw [ty_setTy]
    split
    · exact hf h
    · exact ha
  decls _ _ := id
  typeInsts _ _ := id

theorem retypes_setDeclTy (hf : full → ty.Known) : m.Retypes full (m.setDeclTy d ty) where
  toRetyped := m.retyped_setDeclTy d ty
  submodels := rfl
  overloads := rfl
  funcs := rfl
  sizeTypeInsts := rfl
  constants _ _ := id
  rets _ _ := id
  tys _ _ := id
  decls h c hc := by
    rw [setDeclTy, decl_modifyDecl]
    split
    · exact hf h
    · exact hc
  typeInsts _ _ := id

theorem ty_setTypeInstTy (m : Model) (t u : TypeInstId) (ty : Ty) :
    ((m.setTypeInstTy t ty).typeInst u).ty =
      if u = t ∧ t.index < m.typeInsts.size then ty else (m.typeInst u).ty := by
  simp only [typeInst, setTypeInstTy, modifyTypeInst, Array.getElem?_modify]
  by_cases h : u = t
  · subst h
    by_cases hs : u.index < m.typeInsts.size <;> simp [hs]
  · have : t.index ≠ u.index := fun hi => h (by cases u; cases t; simp_all)
    simp [h, this]

theorem retypes_setTypeInstTy (hf : full → ty.Known)
    (ht : ty.Known ∨ ∀ f, f.index < m.funcs.size → t ≠ (m.func f).ret) :
    m.Retypes full (m.setTypeInstTy t ty) where
  toRetyped := m.retyped_setTypeInstTy t ty
  submodels := rfl
  overloads := rfl
  funcs := rfl
  sizeTypeInsts := by simp [setTypeInstTy, modifyTypeInst]
  constants _ _ := id
  rets f hf hk := by
    rw [ty_setTypeInstTy]
    split
    · next h => exact ht.resolve_right fun hn => hn f hf h.1.symm
    · exact hk
  tys _ _ := id
  decls _ _ := id
  typeInsts h u hu := by
    rw [ty_setTypeInstTy]
    split
    · exact hf h
    · exact hu

end Types

section Nodes

theorem kind_setKind_cases (m : Model) (e a : ExprId) (k : ExprKind) :
    (m.setKind e k).kind a = m.kind a ∨ (m.setKind e k).kind a = k := by
  by_cases ha : a = e
  · subst ha
    exact (m.kind_setKind a k).symm.imp_left (·.1)
  · exact .inl (kind_setKind_ne ha k)

-- A kind that the checker may give to an expression.
structure Settable (full : Prop) (m : Model) (k : ExprKind) : Prop where
  anon : k ≠ .anon
  compound : ¬k.isConstant
  comp : ∀ c, k ≠ .comp c
  filled : ∀ e, .expr e ∈ k.parts Generator.parts → m.kind e ≠ .anon
  made : full → m.Made k

theorem advances_setKind {k : ExprKind} (hk : m.Settable full k) : m.Advances full (m.setKind e k) where
  items := rfl
  submodels := rfl
  overloads := rfl
  size := rfl
  typeInsts := rfl
  func _ := ⟨rfl, rfl⟩
  ti _ := rfl
  ann a := m.ann_setKind e a k
  filled a ha := by
    cases m.kind_setKind_cases e a k
    case inl h => rwa [h]
    case inr h => rw [h]; exact hk.anon
  compound a _ hc := by
    cases m.kind_setKind_cases e a k
    case inl h => rwa [h]
    case inr h => rw [h]; exact hk.compound
  rets _ _ := id
  completing hf := .setKind (hk.made hf)

theorem formed_setKind {k : ExprKind} (hk : m.Settable full k) (hm : m.Formed full) :
    (m.setKind e k).Formed full := by
  have hadv := advances_setKind (e := e) hk
  have hty : ∀ a, (m.setKind e k).ty a = m.ty a := by
    intro a
    simp only [Model.ty, setKind, expr_modifyExpr]
    split
    · next h => rw [h.1]
    · rfl
  refine ⟨fun a ha => ?_, fun s a ha => hadv.filled a ?_, fun p item hp a ha =>
    hadv.filled a (hm.rooted p item hp a ha), fun a c hc => ?_, hm.tabled⟩
  · cases m.kind_setKind_cases e a k
    case inl h => rw [hty]; exact hm.constants a (h ▸ ha)
    case inr h => exact (hk.compound (h ▸ ha)).elim
  · cases s
    case decl b => exact hm.filled (.decl b) a ha
    case typeInst t => exact hm.filled (.typeInst t) a ha
    case expr b =>
      rw [parts, partsBy, ann_setKind] at ha
      cases List.mem_append.mp ha
      case inr ha => exact hm.filled (.expr b) a (List.mem_append_right _ ha)
      case inl ha =>
        cases m.kind_setKind_cases e b k
        case inl h => exact hm.filled (.expr b) a (List.mem_append_left _ (h ▸ ha))
        case inr h => exact hk.filled a (h ▸ ha)
  · cases m.kind_setKind_cases e a k
    case inl h => exact hm.own a c (h ▸ hc)
    case inr h => exact (hk.comp c (h ▸ hc)).elim

-- An expression that can be put into the place of another.
structure Usable (full : Prop) (m : Model) (e : ExprId) : Prop where
  filled : m.kind e ≠ .anon
  complete : full → m.Complete (.expr e)

theorem Usable.mono (h : m.Advances full m₁) (he : m.Usable full e) : m₁.Usable full e :=
  ⟨h.filled e he.filled, fun hf => (h.completing hf).complete _ (he.complete hf)⟩

theorem decl_setInit (m : Model) (d c : DeclId) (e : ExprId) :
    ((m.setInit d (some e)).decl c).ti = (m.decl c).ti ∧ ((m.setInit d (some e)).decl c).ann = (m.decl c).ann ∧
      (((m.setInit d (some e)).decl c).init = (m.decl c).init ∨
        ((m.setInit d (some e)).decl c).init = some e) := by
  rw [setInit, decl_modifyDecl]
  split
  · next h => rw [h.1]; exact ⟨rfl, rfl, .inr rfl⟩
  · exact ⟨rfl, rfl, .inl rfl⟩

theorem advances_setInit (he : m.Usable full e) : m.Advances full (m.setInit d (some e)) where
  items := rfl
  submodels := rfl
  overloads := rfl
  size := rfl
  typeInsts := rfl
  func _ := ⟨rfl, rfl⟩
  ti c := (m.decl_setInit d c e).1
  ann _ := rfl
  filled _ := id
  compound _ _ := id
  rets _ _ := id
  completing hf := .setInit (he.complete hf)

theorem formed_setInit (he : m.kind e ≠ .anon) (hm : m.Formed full) :
    (m.setInit d (some e)).Formed full := by
  refine ⟨hm.constants, fun s a ha => ?_, hm.rooted, fun a c hc g hg b hb f hf => ?_, hm.tabled⟩
  · cases s
    case expr b => exact hm.filled (.expr b) a ha
    case typeInst t => exact hm.filled (.typeInst t) a ha
    case decl c =>
      have ⟨hti, hann, hinit⟩ := m.decl_setInit d c e
      rw [parts, partsBy, needs, hti, hann] at ha
      cases hinit
      case inl h => exact hm.filled (.decl c) a (by rwa [h] at ha)
      case inr h =>
        rw [h] at ha
        have ha : a = e ∨ a ∈ (m.decl c).ann := by simpa using ha
        cases ha
        case inl ha => exact ha ▸ he
        case inr ha => exact hm.filled (.decl c) a (List.mem_append_right _ (List.mem_map_of_mem ha))
  · rw [(m.decl_setInit d b e).1]
    exact hm.own a c hc g hg b hb f hf

theorem func_setBody (m : Model) (f g : FuncId) (e : ExprId) :
    (m.modifyFunc f ({ · with body := some e })).func g = m.func g ∨
      (m.modifyFunc f ({ · with body := some e })).func g = { m.func g with body := some e } := by
  simp only [func, modifyFunc, Array.getElem?_modify]
  split
  · cases m.funcs[g.index]? <;> simp
  · exact .inl rfl

theorem advances_setBody {f : FuncId} (he : m.Usable full e) :
    m.Advances full (m.modifyFunc f ({ · with body := some e })) := by
  have hfunc : ∀ g, ((m.modifyFunc f ({ · with body := some e })).func g).params = (m.func g).params ∧
      ((m.modifyFunc f ({ · with body := some e })).func g).ret = (m.func g).ret := by
    intro g
    cases m.func_setBody f g e
    all_goals
      next h =>
      rw [h]
      exact ⟨rfl, rfl⟩
  refine ⟨rfl, rfl, rfl, by simp [modifyFunc], rfl, hfunc, fun _ => rfl, fun _ => rfl, fun _ => id, fun _ _ => id,
    fun g _ hk => ?_, fun hf => .setBody (he.complete hf)⟩
  rw [(hfunc g).2]
  exact hk

theorem formed_setBody {f : FuncId} (he : m.kind e ≠ .anon) (hm : m.Formed full) :
    (m.modifyFunc f ({ · with body := some e })).Formed full := by
  refine ⟨hm.constants, hm.filled, fun p item hp a ha => ?_, fun a c hc g hg b hb h hf => ?_,
    fun hfull g hg => ?_⟩
  · cases item
    case func g =>
      cases m.func_setBody f g e
      case inl h => exact hm.rooted p _ hp a (by rwa [itemSites, h] at ha)
      case inr h =>
        rw [itemSites, h] at ha
        cases List.mem_append.mp ha
        case inl ha => exact hm.rooted p _ hp a (List.mem_append_left _ ha)
        case inr ha =>
          obtain rfl : a = e := by simpa using ha
          exact he
    all_goals exact hm.rooted p _ hp a ha
  · have hret := hm.own a c hc g hg b hb h (by simpa [modifyFunc] using hf)
    cases m.func_setBody f h e
    all_goals
      next heq =>
      rw [heq]
      exact hret
  · have hk := hm.tabled hfull g hg
    cases m.func_setBody f g e
    all_goals
      next heq =>
      rw [heq]
      exact hk

-- A node to be added.
structure Addable (full : Prop) (m : Model) (x : Expr) : Prop where
  anon : x.kind ≠ .anon
  comp : ∀ c, x.kind ≠ .comp c
  ann : x.ann = []
  constant : x.kind.isConstant → x.ty.Known
  filled : ∀ e, .expr e ∈ x.kind.parts Generator.parts → m.kind e ≠ .anon
  made : full → m.Made x.kind ∧ x.ty.Known

theorem advances_addExpr {x : Expr} (hx : m.Addable full x) : m.Advances full (m.addExpr x).2 where
  items := rfl
  submodels := rfl
  overloads := rfl
  size := rfl
  typeInsts := rfl
  func _ := ⟨rfl, rfl⟩
  ti _ := rfl
  ann a := by
    cases m.expr_addExpr x a
    case inl h => rw [h]
    case inr h => rw [h.1, h.2, hx.ann]; rfl
  filled a ha := by
    rwa [kind, (m.grows_addExpr x).expr_eq (lt_of_kind_ne_anon ha)]
  compound a ha hc := by
    rwa [kind, (m.grows_addExpr x).expr_eq (lt_of_kind_ne_anon ha)]
  rets _ _ := id
  completing hf := .addExpr (hx.made hf).1 (hx.made hf).2

theorem formed_addExpr {x : Expr} (hx : m.Addable full x) (hm : m.Formed full) :
    (m.addExpr x).2.Formed full := by
  have hadv := advances_addExpr hx
  refine ⟨fun a ha => ?_, fun s a ha => hadv.filled a ?_, fun p item hp a ha =>
    hadv.filled a (hm.rooted p item hp a ha), fun a c hc => ?_, hm.tabled⟩
  · rw [Model.ty]
    rw [kind] at ha
    cases m.expr_addExpr x a
    case inl h => rw [h] at ha ⊢; exact hm.constants a ha
    case inr h => rw [h.2] at ha ⊢; exact hx.constant ha
  · cases s
    case decl b => exact hm.filled (.decl b) a ha
    case typeInst t => exact hm.filled (.typeInst t) a ha
    case expr b =>
      rw [parts, partsBy, kind] at ha
      cases m.expr_addExpr x b
      case inl h => exact hm.filled (.expr b) a (by rwa [h] at ha)
      case inr h =>
        rw [h.2, hx.ann] at ha
        exact hx.filled a (by simpa using ha)
  · rw [kind] at hc
    cases m.expr_addExpr x a
    case inl h => exact hm.own a c (by rwa [h] at hc)
    case inr h => exact (hx.comp c (by rwa [h.2] at hc)).elim

theorem usable_addExpr {x : Expr} (hx : m.Addable full x) :
    (m.addExpr x).2.Usable full (m.addExpr x).1 := by
  refine ⟨?_, fun hfull => complete_expr.mpr ?_⟩
  · rw [kind, expr_addExpr_new]
    exact hx.anon
  · obtain ⟨hmade, hknown⟩ := hx.made hfull
    rw [Model.ty, kind, expr_addExpr_new, hx.ann]
    exact ⟨hknown, ((advances_addExpr hx).completing hfull).made hmade, by simp⟩

end Nodes
end Model
end Parvar
