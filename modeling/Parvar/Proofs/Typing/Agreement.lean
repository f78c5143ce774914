import Parvar.Proofs.Typing.Settled

/-!
What is settled stays settled as long as nothing that it reads is changed.
-/

namespace Parvar

open Model Typing

theorem any_congr_of_mem {α : Type} {as : List α} {p q : α → Bool} (h : ∀ a ∈ as, p a = q a) : as.any p = as.any q := by
  rw [Bool.eq_iff_iff, List.any_eq_true, List.any_eq_true]
  exact exists_congr fun a => and_congr_right fun ha => by rw [h a ha]

-- Two models have the same nodes in some part of them, names in that part are of the same types, and the
-- functions that can be called are declared alike. Of the names of generators only the types are read.
structure Model.Agrees (F : Site → Prop) (m m' : Model) : Prop where
  same : ∀ {s}, F s → m.SameAt m' s
  closed : ∀ {s c}, F s → c ∈ m.uses s → F c
  ranged : ∀ {e c g d}, F (.expr e) → m.kind e = .comp c → g ∈ c.generators → d ∈ g.decls →
    m'.decl d = m.decl d ∧ m'.typeInst (m.decl d).ti = m.typeInst (m.decl d).ti
  named : ∀ {e name d}, F (.expr e) → m.kind e = .ident name (some d) → (m'.decl d).ty = (m.decl d).ty
  heads : m.SameHeads m'
  typeInsts : m'.typeInsts.size = m.typeInsts.size

-- A generator reads the type of its source, and sets those of its names.
theorem Model.Ranges.congr {m m' : Model} {g : Generator} (hr : m.Ranges g) (hs : m'.expr g.source = m.expr g.source)
    (hg : ∀ d ∈ g.decls, m'.decl d = m.decl d ∧ m'.typeInst (m.decl d).ti = m.typeInst (m.decl d).ti) : m'.Ranges g := by
  obtain ⟨t, ht, hdecls⟩ := hr.exists_ty
  refine ⟨t, ?_, fun d hd => ?_⟩
  · rw [operand, hs]
    exact ht
  · rw [(hg d hd).1, (hg d hd).2]
    exact hdecls d hd

namespace Model.Agrees

variable {F : Site → Prop} {m m' : Model} {e : ExprId} {d : DeclId} {t : TypeInstId} (h : m.Agrees F m')

include h

section Nodes

theorem expr_eq (he : F (.expr e)) : m'.expr e = m.expr e := h.same he

theorem decl_eq (hd : F (.decl d)) : m'.decl d = m.decl d := h.same hd

theorem typeInst_eq (ht : F (.typeInst t)) : m'.typeInst t = m.typeInst t := h.same ht

theorem kind_eq (he : F (.expr e)) : m'.kind e = m.kind e := by rw [kind, h.expr_eq he, kind]

theorem ty_eq (he : F (.expr e)) : m'.ty e = m.ty e := by rw [ty, h.expr_eq he, ty]

theorem operand_eq (he : F (.expr e)) : m'.operand e = m.operand e := by rw [operand, h.expr_eq he, operand]

theorem declared_eq (hd : F (.decl d)) : m'.typeInst (m.decl d).ti = m.typeInst (m.decl d).ti :=
  h.typeInst_eq (h.closed hd List.mem_cons_self)

theorem map_operand {es : List ExprId} (hes : ∀ a ∈ es, F (.expr a)) : es.map m'.operand = es.map m.operand :=
  List.map_congr_left fun a ha => h.operand_eq (hes a ha)

theorem hasTypeVar_eq (ht : F (.typeInst t)) : hasTypeVar m' t = hasTypeVar m t := by
  rw [hasTypeVar, hasTypeVar, h.typeInsts]
  generalize m.typeInsts.size = depth
  induction depth generalizing t with
  | zero => rfl
  | succ depth ih =>
    have hparts := fun c => h.closed (c := c) ht
    simp only [uses, partsBy, List.mem_append, List.mem_map] at hparts
    simp only [mentionsTypeVar, h.typeInst_eq ht]
    congr 1
    · cases hd : (m.typeInst t).domain with
      | none => rfl
      | some a =>
        have ha := hparts (.expr a) (.inr ⟨a, by simp [hd], rfl⟩)
        simp [h.kind_eq ha]
    · exact any_congr_of_mem fun r hr => ih (hparts _ (.inl ⟨r, hr, rfl⟩))

end Nodes

theorem isLocal (hd : F (.decl d)) (hl : m.Local d) : m'.Local d := by
  have hdomain : m'.domain d = m.domain d := by rw [domain, h.decl_eq hd, h.declared_eq hd, domain]
  constructor
  · rw [h.decl_eq hd, hdomain]
    exact hl.finite
  · rw [h.decl_eq hd]
    exact hl.valued
  · rw [h.decl_eq hd, h.hasTypeVar_eq (h.closed hd List.mem_cons_self)]
    exact hl.closed

-- The node itself is the same too; of its annotations nothing is said.
theorem settledAs (he : m'.expr e = m.expr e) (hparts : ∀ c ∈ (m.kind e).parts Generator.uses, F c)
    (hranged : ∀ c, m.kind e = .comp c → ∀ g ∈ c.generators, ∀ d ∈ g.decls,
      m'.decl d = m.decl d ∧ m'.typeInst (m.decl d).ti = m.typeInst (m.decl d).ti)
    (hnamed : ∀ name d, m.kind e = .ident name (some d) → (m'.decl d).ty = (m.decl d).ty)
    (hs : m.SettledAs e (m.kind e)) : m'.SettledAs e (m.kind e) := by
  have hty : m'.ty e = m.ty e := by rw [ty, he, ty]
  have hspan : m'.spanOf e = m.spanOf e := by rw [spanOf, he, spanOf]
  cases hk : m.kind e with
  | int | float | bool | string | intSet | absent | anon | typeVar => trivial
  | ident name b =>
    rw [hk] at hs
    cases b with
    | none => exact hs
    | some d =>
      simp only [SettledAs, hty, hnamed name d hk]
      exact hs
  | setLit es =>
    rw [hk] at hs hparts
    have hes : ∀ a ∈ es, F (.expr a) := fun a ha => hparts _ (List.mem_map_of_mem ha)
    simp only [SettledAs, hty, hspan, h.map_operand hes]
    exact ⟨hs.1, fun a ha => h.ty_eq (hes a ha) ▸ hs.2 a ha⟩
  | arrayLit es dims =>
    rw [hk] at hs hparts
    have hes : ∀ a ∈ es, F (.expr a) := fun a ha => hparts _ (List.mem_map_of_mem ha)
    simp only [SettledAs, hty, hspan, h.map_operand hes]
    exact ⟨hs.1, fun a ha => by rw [h.kind_eq (hes a ha), h.ty_eq (hes a ha)]; exact hs.2 a ha⟩
  | access array indices =>
    rw [hk] at hs hparts
    have harray : F (.expr array) := hparts _ List.mem_cons_self
    have his : ∀ a ∈ indices, F (.expr a) := fun a ha => hparts _ (List.mem_cons_of_mem _ (List.mem_map_of_mem ha))
    have hfold : indices.foldl (fun t i => indexed t (m'.ty i)) (m.ty array).elem =
        indices.foldl (fun t i => indexed t (m.ty i)) (m.ty array).elem :=
      List.foldl_ext _ _ _ fun t i hi => by rw [h.ty_eq (his i hi)]
    simp only [SettledAs, hty, h.ty_eq harray, hfold]
    refine ⟨hs.1, hs.2.1, fun i hi => ?_, hs.2.2.2⟩
    rw [h.kind_eq (his i hi), h.ty_eq (his i hi)]
    exact hs.2.2.1 i hi
  | comp c =>
    rw [hk] at hs hparts
    simp only [ExprKind.parts, List.mem_append, List.mem_flatMap, List.mem_map, List.mem_singleton] at hparts
    have hgens : ∀ g ∈ c.generators, F (.expr g.source) := fun g hg =>
      hparts _ (.inl (.inl ⟨g, hg, List.mem_singleton.mpr rfl⟩))
    have hsources : (c.generators.map fun g => m'.ty g.source) = c.generators.map fun g => m.ty g.source :=
      List.map_congr_left fun g hg => h.ty_eq (hgens g hg)
    have hguard : c.guard.map m'.operand = c.guard.map m.operand :=
      Option.map_congr fun a ha => h.operand_eq (hparts _ (.inl (.inr ⟨a, by simp [Option.mem_def.mp ha], rfl⟩)))
    simp only [SettledAs, hty, h.operand_eq (hparts _ (.inr rfl)), hsources, hguard]
    exact ⟨fun g hg => (hs.1 g hg).congr (h.expr_eq (hgens g hg)) (hranged c hk g hg), hs.2⟩
  | ite branches otherwise =>
    rw [hk] at hs hparts
    simp only [ExprKind.parts, List.mem_append, List.mem_flatMap, List.mem_singleton] at hparts
    have hbs : ∀ b ∈ branches, F (.expr b.1) ∧ F (.expr b.2) := fun b hb =>
      ⟨hparts _ (.inl ⟨b, hb, by simp⟩), hparts _ (.inl ⟨b, hb, by simp⟩)⟩
    have hlast := hparts _ (.inr rfl)
    have hmap : (branches.map fun b => (m'.operand b.1, m'.operand b.2)) =
        branches.map fun b => (m.operand b.1, m.operand b.2) :=
      List.map_congr_left fun b hb => by rw [h.operand_eq (hbs b hb).1, h.operand_eq (hbs b hb).2]
    simp only [SettledAs, hty, h.operand_eq hlast, h.ty_eq hlast, hmap]
    obtain ⟨c, hc, hanons, hbranches, hrest⟩ := hs
    exact ⟨c, hc, hanons, fun b hb => h.ty_eq (hbs b hb).2 ▸ hbranches b hb, hrest⟩
  | bin op lhs rhs fn =>
    rw [hk] at hs hparts
    obtain ⟨f, happ, hfn⟩ := hs
    have hargs : ∀ a ∈ [lhs, rhs], F (.expr a) := fun a ha => hparts _ (List.mem_map_of_mem ha)
    simp only [SettledAs, hty, hspan, h.heads.withBody_eq]
    exact ⟨f, happ.congr h.heads fun a ha => h.ty_eq (hargs a ha), hfn⟩
  | un op arg fn =>
    rw [hk] at hs hparts
    obtain ⟨f, happ, hfn⟩ := hs
    have hargs : ∀ a ∈ [arg], F (.expr a) := fun a ha => hparts _ (List.mem_map_of_mem (f := Site.expr) ha)
    simp only [SettledAs, hty, hspan, h.heads.withBody_eq]
    exact ⟨f, happ.congr h.heads fun a ha => h.ty_eq (hargs a ha), hfn⟩
  | call name args fn =>
    rw [hk] at hs hparts
    obtain ⟨f, happ, hfn⟩ := hs
    have hargs : ∀ a ∈ args, F (.expr a) := fun a ha => hparts _ (List.mem_map_of_mem ha)
    simp only [SettledAs, hty, hspan]
    exact ⟨f, happ.congr h.heads fun a ha => h.ty_eq (hargs a ha), hfn⟩
  | letIn l =>
    rw [hk] at hs hparts
    simp only [ExprKind.parts, List.mem_append, List.mem_map, List.mem_singleton] at hparts
    have hitems : ∀ item ∈ l.items, F item.site := fun item hi => hparts _ (.inl ⟨item, hi, rfl⟩)
    have horigin : ∀ item ∈ l.items, ∀ old, m'.originOf item old = m.originOf item old := by
      intro item hi old
      cases item with
      | constraint => rfl
      | decl d => simp only [originOf, h.decl_eq (hitems _ hi)]
    have hcv : l.items.any (letItemCv m') = l.items.any (letItemCv m) := any_congr_of_mem fun item hi => by
      cases item with
      | constraint a => rw [letItemCv, letItemCv, h.ty_eq (hitems _ hi)]
      | decl d => rw [letItemCv, letItemCv, h.decl_eq (hitems _ hi)]
    simp only [SettledAs, hty, h.ty_eq (hparts _ (.inr rfl)), hcv]
    refine ⟨fun d hd => h.isLocal (hitems _ hd) (hs.1 d hd), hs.2.1.trans ?_, hs.2.2⟩
    exact List.map_congr_left fun p hp => (horigin p.1 (List.fst_mem_of_mem_zipIdx hp) _).symm

theorem settled {s : Site} (hF : F s) (hs : m.Settled s) : m'.Settled s := by
  cases s with
  | expr e =>
    have hs := h.settledAs (h.expr_eq hF) (fun c hc => h.closed hF (List.mem_append_left _ hc))
      (fun c hk g hg d hd => h.ranged hF hk hg hd) (fun _ _ => h.named hF) hs
    rwa [← h.kind_eq hF] at hs
  | decl d =>
    simp only [Settled, h.decl_eq hF, h.declared_eq hF]
    refine ⟨hs.1, fun a ha => ?_⟩
    have ha' : F (.expr a) := h.closed hF (by simp [uses_decl, needs, Option.mem_def.mp ha])
    rw [h.ty_eq ha']
    exact hs.2 a ha
  | typeInst t =>
    have hparts := fun c => h.closed (c := c) hF
    simp only [uses, partsBy, List.mem_append, List.mem_map] at hparts
    have hranges : ((m.typeInst t).ranges.map fun r => ((m'.typeInst r).ty, (m'.typeInst r).span)) =
        (m.typeInst t).ranges.map fun r => ((m.typeInst r).ty, (m.typeInst r).span) :=
      List.map_congr_left fun r hr => by rw [h.typeInst_eq (hparts _ (.inl ⟨r, hr, rfl⟩))]
    simp only [Settled, h.typeInst_eq hF, hranges]
    refine ⟨hs.1, fun a ha => ?_, hs.2.2⟩
    have ha' : F (.expr a) := hparts _ (.inr ⟨a, by simp [Option.mem_def.mp ha], rfl⟩)
    rw [h.operand_eq ha', h.kind_eq ha']
    exact hs.2.1 a ha

theorem annOf_eq {s : Site} (hF : F s) : m'.annOf s = m.annOf s := by
  cases s with
  | expr e => rw [annOf, h.expr_eq hF, annOf]
  | decl d => rw [annOf, h.decl_eq hF, annOf]
  | typeInst t => rfl

theorem checked {s : Site} {n : Nat} (hF : F s) (hs : m.Checked n s) : m'.Checked n s := by
  induction n generalizing s with
  | zero => exact hs
  | succ n ih =>
    obtain ⟨hset, hann, huses⟩ := hs
    have hparts : ∀ c ∈ m.uses s, F c := fun c hc => h.closed hF hc
    refine ⟨h.settled hF hset, ?_, ?_⟩
    · intro a ha
      rw [h.annOf_eq hF] at ha
      have ha' : F (.expr a) := by
        refine h.closed hF ?_
        cases s with
        | expr e => exact List.mem_append_right _ (List.mem_map_of_mem ha)
        | decl d => exact List.mem_append_right _ (List.mem_map_of_mem ha)
        | typeInst t => cases ha
      rw [h.ty_eq ha']
      exact hann a ha
    · rw [(h.same hF).uses_eq]
      exact fun c hc => ih (hparts c hc) (huses c hc)

end Model.Agrees

section Alteration

-- Nodes that `P` does not hold of are as they were. Expressions may have been added, but there are
-- the same type variables.
structure Model.Alters (P : Site → Prop) (m m' : Model) : Prop where
  same : ∀ {s}, m.Present s → ¬P s → m.SameAt m' s
  exprs : m.exprs.size ≤ m'.exprs.size
  decls : m'.decls.size = m.decls.size
  typeInsts : m'.typeInsts.size = m.typeInsts.size
  funcs : m'.funcs = m.funcs
  overloads : m'.overloads = m.overloads
  typeVar : ∀ e v, m'.kind e = .typeVar v ↔ m.kind e = .typeVar v

namespace Model.Alters

variable {P Q : Site → Prop} {m m' m'' : Model} {s : Site}

protected theorem refl (P : Site → Prop) (m : Model) : m.Alters P m where
  same {s} _ _ := by cases s <;> rfl
  exprs := Nat.le_refl _
  decls := rfl
  typeInsts := rfl
  funcs := rfl
  overloads := rfl
  typeVar _ _ := Iff.rfl

variable (h : m.Alters P m')

include h

theorem mono (hPQ : ∀ s, P s → Q s) : m.Alters Q m' :=
  { h with same := fun hs hq => h.same hs fun hp => hq (hPQ _ hp) }

theorem present (hs : m.Present s) : m'.Present s := by
  cases s with
  | expr e => exact Nat.lt_of_lt_of_le hs h.exprs
  | decl d => exact Nat.lt_of_lt_of_eq hs h.decls.symm
  | typeInst t => exact Nat.lt_of_lt_of_eq hs h.typeInsts.symm

theorem trans (h' : m'.Alters P m'') : m.Alters P m'' where
  same {s} hs hp := by
    have h₁ := h.same hs hp
    have h₂ := h'.same (h.present hs) hp
    cases s <;> exact Eq.trans h₂ h₁
  exprs := Nat.le_trans h.exprs h'.exprs
  decls := h'.decls.trans h.decls
  typeInsts := h'.typeInsts.trans h.typeInsts
  funcs := h'.funcs.trans h.funcs
  overloads := h'.overloads.trans h.overloads
  typeVar e v := (h'.typeVar e v).trans (h.typeVar e v)

theorem expr_eq {e : ExprId} (he : e.index < m.exprs.size) (hp : ¬P (.expr e)) : m'.expr e = m.expr e :=
  h.same (s := .expr e) he hp

theorem decl_eq {d : DeclId} (hp : ¬P (.decl d)) : m'.decl d = m.decl d := by
  by_cases hd : d.index < m.decls.size
  · exact h.same (s := .decl d) hd hp
  · have hd := Nat.le_of_not_lt hd
    rw [decl_of_le hd, decl_of_le (h.decls ▸ hd)]

theorem typeInst_eq {t : TypeInstId} (hp : ¬P (.typeInst t)) : m'.typeInst t = m.typeInst t := by
  by_cases ht : t.index < m.typeInsts.size
  · exact h.same (s := .typeInst t) ht hp
  · have ht := Nat.le_of_not_lt ht
    rw [typeInst, typeInst, Array.getElem?_eq_none ht, Array.getElem?_eq_none (h.typeInsts ▸ ht)]

end Model.Alters
end Alteration
end Parvar
