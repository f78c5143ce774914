import Parvar.Proofs.Typing.Regime

/-!
What a declaration refers to, followed while types are assigned. Typing puts coercions around parts
of expressions and changes no binding, so a set of nodes that is closed under use stays closed, but
for the coercions that it gains.
-/

namespace Parvar

-- A model, and the nodes in it that are followed.
structure World where
  model : Model
  sites : Set Site

namespace World

-- Nodes are added only, and only new ones come to be followed; the items stay.
structure Grown (w w' : World) : Prop where
  items : w'.model.items = w.model.items
  size : w.model.exprs.size ≤ w'.model.exprs.size
  sub : w.sites ⊆ w'.sites
  fresh : ∀ s ∈ w'.sites, s ∈ w.sites ∨ ∃ e, s = .expr e ∧ w.model.exprs.size ≤ e.index

variable {w w₁ w₂ : World}

protected theorem Grown.refl (w : World) : Grown w w :=
  ⟨rfl, Nat.le_refl _, Set.Subset.rfl, fun _ => .inl⟩

theorem Grown.trans (h₁ : Grown w w₁) (h₂ : Grown w₁ w₂) : Grown w w₂ where
  items := h₂.items.trans h₁.items
  size := Nat.le_trans h₁.size h₂.size
  sub := h₁.sub.trans h₂.sub
  fresh s hs := by
    cases h₂.fresh s hs
    case inl hs => exact h₁.fresh s hs
    case inr he => exact .inr (he.imp fun _ h => ⟨h.1, Nat.le_trans h₁.size h.2⟩)

-- Everything that the declaration needs, if there is one, is followed with all that it uses; and what
-- is named there is among the given declarations.
structure Closed (d : Option DeclId) (ds : List DeclId) (w : World) : Prop where
  needs : ∀ c ∈ d, ∀ s ∈ w.model.needs c, s ∈ w.sites
  uses : ∀ s ∈ w.sites, ∀ c ∈ w.model.uses s, c ∈ w.sites
  bound : ∀ e, .expr e ∈ w.sites → ∀ name b, w.model.kind e = .ident name b → ∃ c ∈ ds, b = some c
  present : ∀ e, .expr e ∈ w.sites → e.index < w.model.exprs.size

-- If `o` is followed then so is `s`, now and later: `o` is not a node to come.
structure Has (d : Option DeclId) (o s : Site) (w : World) : Prop where
  mem : o ∈ w.sites ∨ (∃ c ∈ d, o = .decl c) → s ∈ w.sites
  fixed : ∀ e, o = .expr e → e.index < w.model.exprs.size

variable {d : Option DeclId} {ds : List DeclId} {o s : Site}

-- What was there before was followed before.
theorem Grown.back (hw : Grown w w₁) (hf : ∀ e, o = .expr e → e.index < w.model.exprs.size)
    (ho : o ∈ w₁.sites) : o ∈ w.sites := by
  cases hw.fresh o ho
  case inl ho => exact ho
  case inr he =>
    have ⟨e, heq, hle⟩ := he
    exact (Nat.not_lt_of_le hle (hf e heq)).elim

theorem Has.mono (hw : Grown w w₁) (h : Has d o s w) : Has d o s w₁ where
  mem ho := hw.sub (h.mem (ho.imp_left (hw.back h.fixed)))
  fixed e he := Nat.lt_of_lt_of_le (h.fixed e he) hw.size

-- What an expression uses is followed with it.
theorem Closed.has {e : ExprId} (h : Closed d ds w) (hk : w.model.kind e ≠ .anon)
    (hs : s ∈ (w.model.kind e).parts Generator.uses) : Has d (.expr e) s w where
  mem ho := h.uses _ (ho.resolve_right (by simp)) s (List.mem_append_left _ hs)
  fixed c hc := by
    cases hc
    exact Model.lt_of_kind_ne_anon hk

-- An initializer is followed with its declaration.
theorem Closed.has_init {c : DeclId} {e : ExprId} (h : Closed d ds w)
    (he : e ∈ (w.model.decl c).init.toList) : Has d (.decl c) (.expr e) w where
  mem ho := by
    have he : .expr e ∈ w.model.needs c := List.mem_cons_of_mem _ (List.mem_map_of_mem he)
    cases ho
    case inl ho => exact h.uses _ ho _ (List.mem_append_left _ he)
    case inr hd =>
      obtain ⟨b, hb, rfl⟩ : ∃ b ∈ d, c = b := by simpa using hd
      exact h.needs c hb _ he
  fixed _ hc := by cases hc

end World

open World

variable {d : Option DeclId} {c : DeclId} {ds : List DeclId} {w : World}

section Changes

-- Types may differ, but not what the nodes are made of.
structure Model.Retyped (m m' : Model) : Prop where
  items : m'.items = m.items
  size : m'.exprs.size = m.exprs.size
  kind : ∀ e, m'.kind e = m.kind e
  ann : ∀ e, (m'.expr e).ann = (m.expr e).ann
  decl : ∀ c, (m'.decl c).ti = (m.decl c).ti ∧ (m'.decl c).init = (m.decl c).init ∧
    (m'.decl c).ann = (m.decl c).ann
  typeInst : ∀ t, (m'.typeInst t).ranges = (m.typeInst t).ranges ∧
    (m'.typeInst t).domain = (m.typeInst t).domain

variable {m m' : Model} {e : ExprId} {t : TypeInstId}

theorem Model.Retyped.needs_eq (h : m.Retyped m') (c : DeclId) : m'.needs c = m.needs c := by
  simp [Model.needs, h.decl c]

theorem Model.Retyped.uses_eq (h : m.Retyped m') (s : Site) : m'.uses s = m.uses s := by
  cases s
  case expr e => simp [Model.uses, Model.partsBy, h.kind, h.ann]
  case decl c => simp [Model.uses_decl, h.needs_eq, h.decl c]
  case typeInst t => simp [Model.uses, Model.partsBy, h.typeInst t]

theorem Model.Retyped.closed (h : m.Retyped m') {S : Set Site} (hc : Closed d ds ⟨m, S⟩) :
    Closed d ds ⟨m', S⟩ where
  needs c hd s hs := hc.needs c hd s (h.needs_eq c ▸ hs)
  uses s hs c hsc := hc.uses s hs c (h.uses_eq s ▸ hsc)
  bound e he name b hb := hc.bound e he name b ((h.kind e).symm.trans hb)
  present e he := Nat.lt_of_lt_of_eq (hc.present e he) h.size.symm

theorem Model.retyped_setTy (m : Model) (e : ExprId) (ty : Ty) : m.Retyped (m.setTy e ty) := by
  have hk : ∀ c, ((m.setTy e ty).expr c).kind = (m.expr c).kind ∧
      ((m.setTy e ty).expr c).ann = (m.expr c).ann := by
    intro c
    rw [Model.setTy, Model.expr_modifyExpr]
    split
    · next h => rw [h.1]; exact ⟨rfl, rfl⟩
    · exact ⟨rfl, rfl⟩
  exact ⟨rfl, by simp [Model.setTy, Model.modifyExpr], fun c => (hk c).1, fun c => (hk c).2,
    fun _ => ⟨rfl, rfl, rfl⟩, fun _ => ⟨rfl, rfl⟩⟩

theorem Model.retyped_setDeclTy (m : Model) (c : DeclId) (ty : Ty) : m.Retyped (m.setDeclTy c ty) := by
  refine ⟨rfl, rfl, fun _ => rfl, fun _ => rfl, fun b => ?_, fun _ => ⟨rfl, rfl⟩⟩
  rw [Model.setDeclTy, Model.decl_modifyDecl]
  split
  · next h => rw [h.1]; exact ⟨rfl, rfl, rfl⟩
  · exact ⟨rfl, rfl, rfl⟩

theorem Model.retyped_setTypeInstTy (m : Model) (t : TypeInstId) (ty : Ty) :
    m.Retyped (m.setTypeInstTy t ty) := by
  refine ⟨rfl, rfl, fun _ => rfl, fun _ => rfl, fun _ => ⟨rfl, rfl, rfl⟩, fun u => ?_⟩
  simp only [Model.typeInst, Model.setTypeInstTy, Model.modifyTypeInst, Array.getElem?_modify]
  split
  · cases m.typeInsts[u.index]? <;> simp
  · exact ⟨rfl, rfl⟩

theorem Model.retyped_modifyFunc (m : Model) (f : FuncId) (g : Func → Func) :
    m.Retyped (m.modifyFunc f g) :=
  ⟨rfl, rfl, fun _ => rfl, fun _ => rfl, fun _ => ⟨rfl, rfl, rfl⟩, fun _ => ⟨rfl, rfl⟩⟩

theorem World.Closed.setKind {S : Set Site} (hc : Closed d ds ⟨m, S⟩) {k : ExprKind}
    (hk : k.name? = none) (hs : .expr e ∈ S → ∀ s ∈ k.parts Generator.uses, s ∈ S) :
    Closed d ds ⟨m.setKind e k, S⟩ where
  needs := hc.needs
  uses s hm b hb := by
    cases s
    case decl | typeInst => exact hc.uses _ hm b hb
    case expr a =>
      simp only [Model.uses, Model.partsBy, Model.ann_setKind] at hb
      by_cases hae : a = e
      · subst hae
        cases m.kind_setKind a k
        case inr hkeep =>
          rw [hkeep.1] at hb
          exact hc.uses _ hm b hb
        case inl hset =>
          rw [hset] at hb
          cases List.mem_append.mp hb
          case inl hb => exact hs hm b hb
          case inr hb => exact hc.uses _ hm b (List.mem_append_right _ hb)
      · rw [Model.kind_setKind_ne hae] at hb
        exact hc.uses _ hm b hb
  bound a ha name b hb := by
    by_cases hae : a = e
    · subst hae
      cases m.kind_setKind a k
      case inl hset =>
        rw [hset.symm.trans hb] at hk
        cases hk
      case inr hkeep => exact hc.bound a ha name b (hkeep.1 ▸ hb)
    · exact hc.bound a ha name b (Model.kind_setKind_ne hae k ▸ hb)
  present a ha := by simpa [Model.setKind, Model.modifyExpr] using hc.present a ha

theorem World.Closed.setInit {S : Set Site} (hc : Closed d ds ⟨m, S⟩)
    (he : .decl c ∈ S ∨ c ∈ d → .expr e ∈ S) : Closed d ds ⟨m.setInit c (some e), S⟩ := by
  -- The needs of the declaration are its type-inst as before and the new initializer.
  have hneeds : ∀ a, (.decl a ∈ S ∨ a ∈ d) → ∀ s ∈ (m.setInit c (some e)).needs a,
      s ∈ m.needs a ∨ s ∈ S := by
    intro a ha s hs
    by_cases hac : a = c ∧ c.index < m.decls.size
    · simp only [Model.needs, Model.setInit, Model.decl_modifyDecl, if_pos hac, List.mem_cons] at hs ⊢
      obtain ⟨rfl, _⟩ := hac
      cases hs
      case inl h => exact .inl (.inl h)
      case inr h =>
        obtain rfl : s = .expr e := by simpa using h
        exact .inr (he ha)
    · simp only [Model.needs, Model.setInit, Model.decl_modifyDecl, if_neg hac] at hs ⊢
      exact .inl hs
  refine ⟨fun b hd s hs => (hneeds b (.inr hd) s hs).elim (hc.needs b hd s) id, fun s hm b hb => ?_,
    hc.bound, hc.present⟩
  cases s
  case expr | typeInst => exact hc.uses _ hm b hb
  case decl a =>
    have hann : ((m.setInit c (some e)).decl a).ann = (m.decl a).ann := by
      rw [Model.setInit, Model.decl_modifyDecl]
      split
      · next h => rw [h.1]
      · rfl
    rw [Model.uses_decl, hann] at hb
    cases List.mem_append.mp hb
    case inr hb => exact hc.uses _ hm b (List.mem_append_right _ hb)
    case inl hb =>
      exact (hneeds a (.inl hm) b hb).elim (fun hb => hc.uses _ hm b (List.mem_append_left _ hb)) id

end Changes

section Coercions

variable {m m' : Model} {e e' : ExprId}

-- A new node over nodes that are followed can be followed too.
theorem World.Closed.addExpr {S : Set Site} (hc : Closed d ds ⟨m, S⟩) {x : Expr} (es : List ExprId)
    (hk : x.kind.name? = none) (hp : x.kind.parts Generator.uses = es.map .expr) (ha : x.ann = []) :
    ∃ S', Grown ⟨m, S⟩ ⟨(m.addExpr x).2, S'⟩ ∧ Closed d ds ⟨(m.addExpr x).2, S'⟩ ∧
      ((∀ a ∈ es, .expr a ∈ S) → .expr (m.addExpr x).1 ∈ S') := by
  have hgrows := m.grows_addExpr x
  have hold : ∀ a, .expr a ∈ S → (m.addExpr x).2.expr a = m.expr a := fun a h =>
    hgrows.expr_eq (hc.present a h)
  let new : Set Site := { s | s = .expr (m.addExpr x).1 ∧ ∀ a ∈ es, .expr a ∈ S }
  refine ⟨S ∪ new, ⟨rfl, hgrows.size_le, Set.subset_union_left, ?_⟩, ⟨?_, ?_, ?_, ?_⟩, fun h => .inr ⟨rfl, h⟩⟩
  · exact fun s hs => hs.imp_right fun hn => ⟨_, hn.1, Nat.le_refl _⟩
  · exact fun b hb s hs => .inl (hc.needs b hb s hs)
  · intro s hs b hb
    refine .inl ?_
    cases hs
    case inr hn =>
      obtain ⟨rfl, hes⟩ := hn
      simp only [Model.uses, Model.partsBy, Model.kind, Model.expr_addExpr_new, hp, ha] at hb
      obtain ⟨a, ha, rfl⟩ : ∃ a ∈ es, Site.expr a = b := by simpa using hb
      exact hes a ha
    case inl hs =>
      refine hc.uses s hs b ?_
      cases s
      case expr a => simpa only [Model.uses, Model.partsBy, Model.kind, hold a hs] using hb
      case decl | typeInst => exact hb
  · intro a hs name b hb
    cases hs
    case inl hs => exact hc.bound a hs name b (by rwa [Model.kind, ← hold a hs])
    case inr hn =>
      cases hn.1
      simp only [Model.kind, Model.expr_addExpr_new] at hb
      rw [hb] at hk
      cases hk
  · intro a hs
    cases hs
    case inl hs => exact hgrows.lt (hc.present a hs)
    case inr hn =>
      cases hn.1
      exact m.lt_addExpr x

theorem World.Closed.coerced {S : Set Site} (hc : Closed d ds ⟨m, S⟩) (h : m.Coerced e e' m') :
    ∃ S', Grown ⟨m, S⟩ ⟨m', S'⟩ ∧ Closed d ds ⟨m', S'⟩ ∧ (.expr e ∈ S → .expr e' ∈ S') := by
  induction h with
  | same => exact ⟨S, .refl _, hc, id⟩
  | @wrap e₁ _ x _ _ _ hk ha ih =>
    have ⟨S₁, hg₁, hc₁, hs₁⟩ := ih
    have hp : x.kind.parts Generator.uses = [e₁].map .expr := by rw [hk]; rfl
    have ⟨S₂, hg₂, hc₂, hs₂⟩ := hc₁.addExpr [e₁] (by rw [hk]; rfl) hp ha
    exact ⟨S₂, hg₁.trans hg₂, hc₂, fun h => hs₂ (by simpa using hs₁ h)⟩

end Coercions

namespace World

-- The nodes that are followed stay closed. Of the model of a world only the items and the number of expressions count.
structure Holds (d : Option DeclId) (ds : List DeclId) (w : World) (c : Checking) : Prop where
  items : c.model.items = w.model.items
  size : c.model.exprs.size = w.model.exprs.size
  closed : Closed d ds ⟨c.model, w.sites⟩

section Holds

variable {st : Checking} {m' : Model} (h : Holds d ds w st)

include h

theorem Holds.retyped (hr : st.model.Retyped m') : Holds d ds w { st with model := m' } :=
  ⟨hr.items.trans h.items, hr.size.trans h.size, hr.closed h.closed⟩

theorem Holds.grown {S : Set Site} (hg : Grown ⟨st.model, w.sites⟩ ⟨m', S⟩) : Grown w ⟨m', S⟩ where
  items := hg.items.trans h.items
  size := Nat.le_trans h.size.ge hg.size
  sub := hg.sub
  fresh s hs := (hg.fresh s hs).imp_right fun ⟨e, he, hle⟩ => ⟨e, he, Nat.le_trans h.size.ge hle⟩

end Holds

def regime (d : Option DeclId) (ds : List DeclId) : Regime World where
  Inv := Holds d ds
  Grown := Grown
  Own _ := True
  Has := fun o w s => Has d o s w
  refl := .refl
  trans h₁ h₂ := h₁.trans h₂
  mono hw h := h.mono hw
  report _ h := ⟨h.items, h.size, h.closed⟩
  setTy e t h := h.retyped (Model.retyped_setTy _ e t)
  setKind {w c e k} _ hk hs h := by
    have hname : k.name? = none := by cases k <;> first | rfl | cases hk
    refine ⟨h.items, Eq.trans ?_ h.size, h.closed.setKind hname fun he s hm => (hs s hm).mem (.inl he)⟩
    simp [Checking.onModel, Model.setKind, Model.modifyExpr]
  coerced {o w a b m' c} ha hm h := by
    obtain ⟨S, hg, hc, hmem⟩ := h.closed.coerced hm
    have hw := h.grown hg
    refine ⟨⟨m', S⟩, hw, ⟨rfl, rfl, hc⟩, fun ho => ?_, (ha.mono hw).fixed⟩
    exact hmem (ha.mem (ho.imp_left (hw.back ha.fixed)))
  setInit {m w c b a e} _ _ _ hs h :=
    ⟨h.items, h.size, h.closed.setInit fun hd => hs.mem (hd.imp_right fun hd => ⟨b, hd, rfl⟩)⟩
  declare b _ _ h := h.retyped (Model.retyped_setDeclTy _ b _)
  generate {_ _ _ _ _ _ _ b} t _ _ _ _ _ h :=
    ⟨h.retyped (Model.retyped_setDeclTy _ b t), h.retyped (Model.retyped_setTypeInstTy _ _ t)⟩
  typeInst _ _ h _ _ := h.retyped (Model.retyped_setTypeInstTy _ _ _)

theorem regime_whole : (regime d ds).Whole where
  own _ := trivial
  parts {w c} e h s hs := by
    have hk : c.model.kind e ≠ .anon := fun hk => by
      rw [hk] at hs
      cases hs
    have hhas := h.closed.has hk hs
    exact ⟨hhas.mem, fun a ha => h.size ▸ hhas.fixed a ha⟩
  inits b h a ha := by
    have hhas := h.closed.has_init ha
    exact ⟨hhas.mem, fun a ha => h.size ▸ hhas.fixed a ha⟩
  coerced hm h := by
    obtain ⟨S, hg, hc, -⟩ := h.closed.coerced hm
    exact ⟨⟨_, S⟩, h.grown hg, rfl, rfl, hc⟩
  setBody f e h := h.retyped (Model.retyped_modifyFunc _ f _)
  define b h := by
    obtain ⟨S, hg, hc, hm⟩ := h.closed.addExpr (x := { kind := .absent, ty := Ty.bot.withOpt true }) [] rfl rfl rfl
    refine ⟨⟨_, S⟩, h.grown hg, ?_, ?_, hc.setInit fun _ => hm (by simp)⟩
    · rfl
    · rfl

end World
end Parvar
