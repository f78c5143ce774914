import Parvar.Proofs.Model.Stocked
import Parvar.Proofs.Typing.Acyclic
import Parvar.Proofs.Typing.Confined

/-!
An assignment that comes after a check is made in full or not at all. It is resolved and typed in place before it is
known whether it can be made, so nodes take types and calls are put around them even where it fails. But what the
items are and what the declarations stand for changes only if it is made: the one declaration takes the value, and
the assignment is taken off the items.
-/

namespace Parvar

open Resolve Model

theorem ExprKind.decl_mem_parts {k : ExprKind} {d : DeclId} (h : .decl d ∈ k.parts Generator.uses) :
    ∃ l, k = .letIn l ∧ .decl d ∈ l.items := by
  cases k with
  | letIn l =>
    refine ⟨l, rfl, ?_⟩
    obtain ⟨item, hi, hs⟩ : ∃ item ∈ l.items, item.site = .decl d := by simpa [ExprKind.parts] using h
    cases item with
    | decl c =>
      cases hs
      exact hi
    | constraint => cases hs
  | _ => simp [ExprKind.parts, Generator.uses] at h

def Item.target? : Item → Option DeclId
  | .assign a => a.decl
  | _ => none

namespace Model

section Definitions

variable (m : Model)

-- What an item refers to, with the declaration that an assignment is known to be to.
def linksOf (item : Item) : List Site := m.itemSites item ++ item.target?.toList.map .decl

-- Every node that is referred to is there.
structure Intact : Prop where
  uses : ∀ s, m.Present s → ∀ c ∈ m.uses s, m.Present c
  items : ∀ p s, m.slot? p = some s → ∀ c ∈ m.linksOf s.item, m.Present c

-- The value has a let in it that declares `d`.
def LetBound (v : ExprId) (d : DeclId) : Prop :=
  ∃ e l, m.Uses (.expr v) (.expr e) ∧ m.kind e = .letIn l ∧ .decl d ∈ l.items

-- The declaration that an assignment is to: the one that it is known to be to, or the one of its name at the top.
def IsTarget (a : Assignment) (d : DeclId) : Prop :=
  a.decl = some d ∨ a.decl = none ∧ d ∈ m.toplevels ∧ (m.decl d).name = a.name

def IsCoercion (name : String) : Prop := name = "set2array" ∨ ∃ b b', widening? b b' = some name

-- Calls of coercions, one in another, with the value innermost.
inductive Wrapped (v : ExprId) : ExprId → Prop
  | value : Wrapped v v
  | call {e a : ExprId} {name : String} {fn : Option FuncId} (kind : m.kind e = .call name [a] fn)
      (coercion : IsCoercion name) (h : Wrapped v a) : Wrapped v e

end Definitions

variable {m m₁ m' : Model} {v e : ExprId} {d : DeclId} {s t : Site}

section Lets

-- The declarations that an expression uses are those of the lets in it.
theorem letBound_iff : m.LetBound v d ↔ m.Uses (.expr v) (.decl d) := by
  constructor
  · rintro ⟨e, l, hu, hk, hd⟩
    refine hu.tail (List.mem_append_left _ ?_)
    rw [hk]
    exact List.mem_append_left _ (List.mem_map.mpr ⟨_, hd, rfl⟩)
  · intro h
    rcases h.cases_tail with h | ⟨s, hs, hd⟩
    · cases h
    · cases s with
      | expr e =>
        obtain ⟨l, hk, hl⟩ := ExprKind.decl_mem_parts (by simpa [uses, partsBy] using hd)
        exact ⟨e, l, hs, hk, hl⟩
      | decl => simp [uses, partsBy, needs] at hd
      | typeInst => simp [uses, partsBy] at hd

end Lets

section Start

-- All nodes, and all items, those of submodels included.
def nodes (m : Model) : List Site :=
  (List.range m.exprs.size).map (.expr ⟨·⟩) ++ (List.range m.decls.size).map (.decl ⟨·⟩) ++
    (List.range m.typeInsts.size).map (.typeInst ⟨·⟩)

def slots (m : Model) : List Slot := m.items.toList ++ m.submodels.toList.flatMap (·.items.toList)

theorem mem_nodes (h : m.Present s) : s ∈ m.nodes := by
  simp only [nodes, List.mem_append, List.mem_map, List.mem_range]
  cases s with
  | expr e => exact .inl (.inl ⟨e.index, h, rfl⟩)
  | decl d => exact .inl (.inr ⟨d.index, h, rfl⟩)
  | typeInst t => exact .inr ⟨t.index, h, rfl⟩

theorem mem_slots {p : ItemPath} {slot : Slot} (h : m.slot? p = some slot) : slot ∈ m.slots := by
  rw [slots, List.mem_append, List.mem_flatMap]
  obtain ⟨sub, k⟩ := p
  cases sub with
  | none => exact .inl (Array.mem_toList_iff.mpr (Array.mem_of_getElem? h))
  | some j =>
    rw [slot?, itemsOf] at h
    cases hj : m.submodels[j]? with
    | none => simp [hj] at h
    | some x =>
      rw [hj] at h
      refine .inr ⟨x, Array.mem_toList_iff.mpr (Array.mem_of_getElem? hj), ?_⟩
      exact Array.mem_toList_iff.mpr (Array.mem_of_getElem? h)

theorem Intact.of_lists (hu : ∀ s ∈ m.nodes, ∀ c ∈ m.uses s, m.Present c)
    (hi : ∀ s ∈ m.slots, ∀ c ∈ m.linksOf s.item, m.Present c) : m.Intact :=
  ⟨fun s hs => hu s (mem_nodes hs), fun _ s hs => hi s (mem_slots hs)⟩

-- The library adds no declaration with a value.
theorem init_withLibrary (m : Model) (d : DeclId) : (m.withLibrary.decl d).init = (m.decl d).init := by
  have h := Stocked.withLibrary m
  by_cases hd : d.index < m.decls.size
  · rw [h.decl_eq hd]
  · have hd := Nat.le_of_not_lt hd
    rw [(h.newDecls d hd).1, decl_of_le hd]
    rfl

namespace Intact

variable (h : m.Intact)

include h

theorem anchored_withLibrary : m.withLibrary.Anchored := by
  have hlib := Stocked.withLibrary m
  have hold : ∀ {s}, m.Present s → ∀ c ∈ m.withLibrary.uses s, c.Within m.withLibrary.exprs.size := by
    intro s hs c hc
    rw [(hlib.toExtends.sameAt hs).uses_eq] at hc
    have hc := hlib.toExtends.present (h.uses s hs c hc)
    cases c with
    | expr => exact hc
    | decl | typeInst => trivial
  intro s c hc
  by_cases hs : m.Present s
  · exact hold hs c hc
  cases s with
  | expr e =>
    have hs := Nat.le_of_not_lt hs
    by_cases hlt : e.index < m.withLibrary.exprs.size
    · obtain ⟨name, hx⟩ := hlib.newExprs e hs hlt
      simp [Model.uses, partsBy, kind, hx, ExprKind.parts] at hc
    · rw [uses_of_le (Nat.le_of_not_lt hlt)] at hc
      cases hc
  | decl d =>
    obtain ⟨hi, ha⟩ := hlib.newDecls d (Nat.le_of_not_lt hs)
    obtain rfl : c = .typeInst (m.withLibrary.decl d).ti := by
      simpa [Model.uses, partsBy, needs, hi, ha] using hc
    trivial
  | typeInst t =>
    cases c with
    | decl | typeInst => trivial
    | expr e =>
      have he : e ∈ (m.withLibrary.typeInst t).domain := by simpa [Model.uses, partsBy] using hc
      by_cases hlt : t.index < m.withLibrary.typeInsts.size
      · exact ((hlib.newTypeInsts t (Nat.le_of_not_lt hs) hlt).2 e he).2
      · have hnone : m.withLibrary.typeInst t = default := by simp [typeInst, hlt]
        rw [hnone] at he
        cases he

theorem uses_withLibrary (hs : m.Present s) (hu : m.withLibrary.Uses s t) : m.Uses s t := by
  have hext := m.extends_withLibrary
  suffices hall : m.Uses s t ∧ m.Present t from hall.1
  induction hu with
  | refl => exact ⟨.refl, hs⟩
  | tail _ hbc ih =>
    have hbc := (hext.sameAt ih.2).uses_eq ▸ hbc
    exact ⟨ih.1.tail hbc, h.uses _ ih.2 _ hbc⟩

end Intact
end Start
end Model

variable {m m₁ m' : Model} {p : ItemPath} {a : Assignment} {span : Span} {v e : ExprId} {d : DeclId}
  {order : List DeclId}

section Resolution

theorem Resolve.keeps_declareItem (m : Model) (p : ItemPath) : Keeps Rebinding (Check.declareItem m p) := by
  rw [Check.declareItem]
  split
  · refine .bind .get fun r => .bind .get fun r' => ?_
    split
    · exact .bind (.throw _) fun _ => keeps_push _
    · exact keeps_push _
  · exact .pure _

theorem Resolve.keeps_resolveAssigned (a : Assignment) (span : Span) :
    Keeps Rebinding (Check.resolveAssigned a span) := by
  rw [Check.resolveAssigned]
  split
  · exact .bind (.pure _) fun _ => .bind (keeps_resolve _) fun _ => .pure _
  · exact .bind (keeps_lookup _ _) fun _ => .bind (keeps_resolve _) fun _ => .pure _

-- Resolution that fails has bound names, and has done nothing else.
theorem Check.toplevel_eq_error {α : Type} {x : ResolveM α} {err : Halt TypeError} (hx : Keeps Rebinding x)
    (h : Check.toplevel x m = .error err m') : m.withLibrary.sortOverloads.Rebinds m' := by
  let m₀ := m.withLibrary.sortOverloads
  have hk : Keeps Rebinding (m₀.itemPaths.forM (Check.declareItem m₀) >>= fun _ => x) :=
    .bind (.forM fun p _ => keeps_declareItem m₀ p) fun _ => hx
  have h : ModelM.resolving (m₀.itemPaths.forM (Check.declareItem m₀) >>= fun _ => x) m₀ = .error err m' := h
  simp only [ModelM.resolving] at h
  split at h
  · cases h
  · next r hr =>
    cases h
    exact final_of_error hr ▸ hk { model := m₀ }

theorem Model.Intact.of_mem_toplevels (hm : m.Intact) (hd : d ∈ m.toplevels) : m.Present (.decl d) := by
  obtain ⟨p, -, hd⟩ := List.mem_flatMap.mp hd
  obtain ⟨item, hitem, hd⟩ := List.mem_flatMap.mp hd
  obtain ⟨s, hs, hremoved⟩ := Option.bind_eq_some_iff.mp (Option.mem_toList.mp hitem)
  split at hremoved
  · cases hremoved
  · cases hremoved
    refine hm.items p s hs _ (List.mem_append_left _ ?_)
    rw [itemSites_eq]
    exact List.mem_append_left _ (List.mem_map_of_mem hd)

theorem Resolve.Begun.isTarget {r r₁ : Resolution} (hr : Begun m r) (hm : m.Intact)
    (hx : Check.resolveAssigned a span r = .ok d r₁) : m.IsTarget a d := by
  rw [Check.resolveAssigned] at hx
  cases ha : a.decl with
  | some c =>
    rw [ha] at hx
    obtain ⟨_, r₂, hc, hx⟩ := bind_eq_ok.mp hx
    obtain ⟨_, r₃, -, hp⟩ := bind_eq_ok.mp hx
    obtain ⟨rfl, -⟩ := pure_eq_ok.mp hc
    obtain ⟨rfl, -⟩ := pure_eq_ok.mp hp
    exact .inl ha
  | none =>
    rw [ha] at hx
    obtain ⟨c, r₂, hl, hx⟩ := bind_eq_ok.mp hx
    obtain ⟨_, r₃, -, hp⟩ := bind_eq_ok.mp hx
    obtain ⟨rfl, -⟩ := pure_eq_ok.mp hp
    obtain ⟨l₁, l₂, hsplit, -⟩ := List.lookup_eq_some_iff.mp (lookup_eq hl).2
    have hmem : (a.name, c) ∈ r.scope := by simp [hsplit]
    obtain ⟨hc, hname⟩ := (mem_named hr.scope).mp hmem
    rw [m.extends_withLibrary.decl_eq (hm.of_mem_toplevels hc)] at hname
    exact .inr ⟨ha, hc, hname⟩

theorem Model.Intact.of_isTarget (hm : m.Intact) {removed : Bool}
    (hs : m.slot? p = some ⟨.assign a, span, removed⟩) (hd : m.IsTarget a d) : m.Present (.decl d) := by
  rcases hd with hd | ⟨-, hd, -⟩
  · exact hm.items p _ hs _ (List.mem_append_right _ (List.mem_map_of_mem (Option.mem_toList.mpr hd)))
  · exact hm.of_mem_toplevels hd

end Resolution

section Typing

open Typing

-- Where only types are declared, no initializer is touched, whatever was visited.
theorem Model.Confined.anywhere {pass : Pass} {o o' : Site} (h : m.Confined .declare o m') : m.Confined pass o' m' :=
  { h with inits := fun d => .inl ((h.inits d).resolve_right fun hd => by cases hd.1) }

theorem Model.Confined.trans {pass : Pass} {o o' : Site} (h : m.Confined .declare o' m₁) (h' : m₁.Confined pass o m')
    (ho : pass = .check → o.Within m.exprs.size) : m.Confined pass o m' where
  start := h.start
  anchored := h'.anchored
  items := h'.items.trans h.items
  submodels := h'.submodels.trans h.submodels
  decls := h'.decls.trans h.decls
  size := Nat.le_trans h.size h'.size
  ann e := (h'.ann e).trans (h.ann e)
  old hs ht hu := h.old hs ht (h'.old (hs.mono h.size) (ht.mono h.size) hu)
  inits d := by
    rw [← (h.inits d).resolve_right fun hd => by cases hd.1]
    exact (h'.inits d).imp_right fun hd => ⟨hd.1, h.old (ho hd.1) trivial hd.2.1, hd.2.2⟩

-- What a run that declares types leads to.
def DeclaresOnly (c c' : Checking) : Prop := c.model.Anchored → ∀ o, c.model.Confined .declare o c'.model

instance : Std.Refl DeclaresOnly := ⟨fun _ hc _ => (Tended.refl hc).toConfined⟩

instance : IsTrans Checking DeclaresOnly :=
  ⟨fun _ _ _ h₁ h₂ hc o => (h₁ hc o).trans (h₂ (h₁ hc o).anchored o) fun h => by cases h⟩

theorem keeps_declare (d : DeclId) : Keeps DeclaresOnly (declare .declare d) := by
  intro c hc o
  have hx : Keeps DeclaresOnly (do
      assignTypes .declare (.typeInst (c.model.decl d).ti)
      let t := ((← CheckM.model).typeInst (c.model.decl d).ti).ty
      CheckM.changeModel (·.setDeclTy d t)) := by
    refine .bind (fun c hc o => (tended_assignTypes _ _ c hc).toConfined.anywhere) fun _ => ?_
    refine .bind (fun c hc o => (Tended.refl hc).toConfined) fun m => fun c hc o => ?_
    exact ((Tended.refl hc).retyped (c.model.retyped_setDeclTy d _) rfl (size_modifyDecl _)).toConfined
  exact hx c hc o

theorem final_checking (x : CheckM Unit) (m : Model) : final (ModelM.checking x) m = (final x { model := m }).model := by
  simp only [final, ModelM.checking]
  cases x { model := m } <;> rfl

-- Typing the value changes no initializers but those of declarations in it.
theorem Check.confined_fresh (hm : m.Anchored) (hv : v.index < m.exprs.size) :
    m.Confined .check (.expr v) (final (Check.fresh order v) m) := by
  have hdeclare : Keeps DeclaresOnly (order.forM fun d => do
      if ((← CheckM.model).decl d).ty.isUnknown then declare .declare d) := by
    refine .forM fun d _ => .bind (fun c hc o => (Tended.refl hc).toConfined) fun m => ?_
    split
    · exact keeps_declare d
    · exact .pure _
  have h₁ : m.Confined .declare (.expr v) _ := hdeclare { model := m } hm (.expr v)
  rw [← final_checking] at h₁
  rw [Check.fresh]
  generalize ModelM.checking (order.forM _) = x at h₁ ⊢
  cases hx : x m with
  | error err m₁ =>
    rw [final_of_error hx] at h₁
    rw [final_bind_of_error hx]
    exact h₁.anywhere
  | ok errors m₁ =>
    rw [final_of_ok hx] at h₁
    rw [final_bind_of_ok hx]
    have h₂ := (tended_assignTypes .check (.expr v) { model := m₁ } h₁.anchored).toConfined
    rw [← final_checking] at h₂
    refine h₁.trans ?_ fun _ => hv
    cases hy : ModelM.checking (assignTypes .check (.expr v)) m₁ with
    | error err m₂ =>
      rw [final_bind_of_error hy]
      rwa [final_of_error hy] at h₂
    | ok errors m₂ =>
      rw [final_bind_of_ok hy]
      rw [final_of_ok hy] at h₂
      cases errors with
      | nil => exact h₂
      | cons => exact h₂

end Typing

section Stages

theorem Model.Wrapped.grows (hg : m.Grows m') (h : m.Wrapped v e) : m'.Wrapped v e := by
  induction h with
  | value => exact .value
  | call hk hn _ ih =>
    have hlt := lt_of_kind_ne_anon fun h => by cases h.symm.trans hk
    exact .call ((hg.kind_eq hlt).trans hk) hn ih

theorem Model.Wrapped.wrap {name : String} {e' : ExprId} (h : m.Wrapped v e) (hn : IsCoercion name)
    (hw : m.wrap name e = .ok (e', m')) : m'.Wrapped v e' := by
  obtain ⟨f, ty, -, -, hadd⟩ := wrap_eq_ok hw
  obtain ⟨rfl, rfl⟩ := Prod.ext_iff.mp hadd
  exact .call (congrArg Expr.kind (m.expr_addExpr_new _)) hn (h.grows (m.grows_addExpr _))

theorem Model.wrapped_of_coerce {t : Ty} (h : m.coerce v t = .ok (e, m')) : m'.Wrapped v e := by
  simp only [coerce] at h
  split at h
  · cases h
    exact .value
  · obtain ⟨r, ha, h⟩ := except_bind_eq_ok.mp h
    have h₁ : r.2.Wrapped v r.1 := by
      simp only [asArray] at ha
      split at ha
      · split at ha
        · cases ha
        · exact Wrapped.value.wrap (.inl rfl) ha
      · cases ha
        exact .value
    simp only [widen] at h
    split at h
    · cases h
      exact h₁
    · split at h
      · next name hname => exact h₁.wrap (.inr ⟨_, _, hname⟩) h
      · cases h

-- The stages of an assignment that is refused: nothing comes after the typing of its value.
theorem checkAssignment_eq_error {err : Halt TypeError} (h : checkAssignment p m = .error err m') :
    m' = m ∨ ∃ a span removed, m.slot? p = some ⟨.assign a, span, removed⟩ ∧
      (Check.toplevel (Check.resolveAssigned a span) m = .error err m' ∨
        ∃ d order m₁, Check.toplevel (Check.resolveAssigned a span) m = .ok (d, order) m₁ ∧
          m' = final (Check.fresh order a.value) m₁) := by
  rw [checkAssignment, get_bind] at h
  have hfail : ∀ {cause span m₀}, (ModelM.fail cause span : ModelM Unit) m₀ = .error err m' → m' = m₀ := by
    intro cause span m₀ h
    cases h
    rfl
  cases hs : m.slot? p with
  | none => exact .inl (hfail (hs ▸ h))
  | some s =>
    obtain ⟨item, span, removed⟩ := s
    cases item with
    | assign a =>
      rw [hs] at h
      refine .inr ⟨a, span, removed, rfl, ?_⟩
      rcases bind_eq_error.mp h with h | ⟨⟨d, order⟩, m₁, h₁, h⟩
      · exact .inl h
      · refine .inr ⟨d, order, m₁, h₁, ?_⟩
        rcases bind_eq_error.mp h with h | ⟨_, m₂, h₂, h⟩
        · exact (final_of_error h).symm
        · rw [final_of_ok h₂]
          rw [get_bind] at h
          simp only at h
          split at h
          · cases h
            rfl
          · split at h
            · cases h
              rfl
            · cases hc : m₂.coerce a.value (m₂.decl d).ty with
              | error =>
                rw [hc] at h
                cases h
                rfl
              | ok r =>
                rw [hc] at h
                cases h
    | _ => exact .inl (hfail (hs ▸ h))

end Stages

section Frame

-- Up to the point where the assignment is made, initializers differ only in the value.
theorem Check.confined_value (hm : m.Intact) {removed : Bool} (hs : m.slot? p = some ⟨.assign a, span, removed⟩)
    (h : Check.toplevel (Check.resolveAssigned a span) m = .ok (d, order) m₁) :
    let m₂ := final (Check.fresh order a.value) m₁
    m.IsTarget a d ∧ m₂.items = m.items ∧ m₂.submodels = m.submodels ∧ m.decls.size ≤ m₂.decls.size ∧
      ∀ c, (m₂.decl c).init = (m.decl c).init ∨
        m.LetBound a.value c ∧ (m.decl c).init.isSome ∧ (m₂.decl c).init.isSome := by
  intro m₂
  have hext := extends_start m
  obtain ⟨r, r₁, hr, hx, rfl, rfl⟩ := toplevel_eq_ok h
  have hsame := (hr.passed (resolveAssigned_eq_ok hx)).same
  rw [hr.model] at hsame
  have hv : m.Present (.expr a.value) := hm.items p _ hs _ (List.mem_append_left _ (List.mem_singleton_self _))
  have hanchored : r₁.model.Anchored := by
    intro s c hc
    rw [hsame.alike.size]
    exact hm.anchored_withLibrary s c (hsame.mem_uses.mp hc)
  have hc : r₁.model.Confined .check (.expr a.value) m₂ :=
    Check.confined_fresh hanchored (hsame.alike.size ▸ hext.present hv)
  have hinit : ∀ c, (r₁.model.decl c).init = (m.decl c).init := fun c => by
    rw [hsame.alike.decl_eq]
    exact m.init_withLibrary c
  refine ⟨hr.isTarget hm hx, ?_, ?_, ?_, fun c => ?_⟩
  · rw [hc.items, hsame.alike.items, hext.items]
  · rw [hc.submodels, hsame.alike.submodels, hext.submodels]
  · rw [hc.decls, hsame.alike.decls]
    exact hext.decls.length_le
  · rw [← hinit c]
    refine (hc.inits c).imp_right fun hi => ⟨letBound_iff.mpr ?_, hi.2.2⟩
    exact hm.uses_withLibrary hv (hsame.uses_iff.mp hi.2.1)

theorem Model.slot_congr (hi : m'.items = m.items) (hs : m'.submodels = m.submodels) (q : ItemPath) :
    m'.slot? q = m.slot? q := by
  simp [slot?, itemsOf, hi, hs]

-- A refused assignment leaves all items and all initializers outside of its value.
theorem checkAssignment_refused (hm : m.Intact) {err : Halt TypeError} (h : checkAssignment p m = .error err m') :
    (∀ q, m'.slot? q = m.slot? q) ∧
      ∀ d, (∀ a span removed, m.slot? p = some ⟨.assign a, span, removed⟩ → ¬m.LetBound a.value d) →
        (m'.decl d).init = (m.decl d).init := by
  rcases checkAssignment_eq_error h with rfl | ⟨a, span, removed, hs, hr | ⟨d, order, m₁, hr, rfl⟩⟩
  · exact ⟨fun _ => rfl, fun _ _ => rfl⟩
  · have hb := Check.toplevel_eq_error (keeps_resolveAssigned a span) hr
    have hext := extends_start m
    refine ⟨slot_congr (hb.items.trans hext.items) (hb.submodels.trans hext.submodels), fun d _ => ?_⟩
    rw [Model.decl, hb.decls]
    exact m.init_withLibrary d
  · obtain ⟨-, hitems, hsub, -, hinits⟩ := Check.confined_value hm hs hr
    exact ⟨slot_congr hitems hsub, fun d hd => (hinits d).resolve_right fun h => hd a span removed hs h.1⟩

theorem Check.init_setAssigned (p : ItemPath) (d c : DeclId) (e : ExprId) (m : Model) :
    ((Check.setAssigned p d e m).decl c).init =
      if c = d ∧ d.index < m.decls.size then some e else (m.decl c).init := by
  have hdecls := (@nodes_setAssigned d m p e).2.2
  rw [show (Check.setAssigned p d e m).decl c = (m.setInit d (some e)).decl c by simp [Model.decl, hdecls], setInit,
    decl_modifyDecl]
  split <;> rfl

-- An accepted assignment gives its declaration the value and takes itself off the items.
theorem checkAssignment_accepted (hm : m.Intact) (h : checkAssignment p m = .ok () m') :
    ∃ a span removed d e, m.slot? p = some ⟨.assign a, span, removed⟩ ∧ m.IsTarget a d ∧
      (m.decl d).init = none ∧ (m'.decl d).init = some e ∧ m'.Wrapped a.value e ∧
      (∀ c, c ≠ d → ¬m.LetBound a.value c → (m'.decl c).init = (m.decl c).init) ∧
      ∀ q, m'.slot? q = if q = p then some ⟨.assign { a with decl := some d }, span, true⟩ else m.slot? q := by
  obtain ⟨a, span, removed, hs, d, order, m₁, m₂, e, m₃, hr, hf, hnone, hc, rfl⟩ := checkAssignment_eq_ok h
  obtain ⟨hd, hitems, hsub, hsize, hinits⟩ := Check.confined_value hm hs hr
  rw [final_of_ok hf] at hitems hsub hsize hinits
  -- A coercion only adds expressions.
  have hadd : ∀ {e m₃}, m₂.Coerced a.value e m₃ →
      m₃.items = m₂.items ∧ m₃.submodels = m₂.submodels ∧ m₃.decls = m₂.decls := by
    intro e m₃ hc
    induction hc with
    | same => exact ⟨rfl, rfl, rfl⟩
    | wrap _ _ _ _ _ ih => exact ih
  obtain ⟨hitems₃, hsub₃, hdecls₃⟩ := hadd (coerced_of_coerce hc)
  have hdecl : ∀ c, m₃.decl c = m₂.decl c := fun c => by rw [Model.decl, hdecls₃, Model.decl]
  have hlt : d.index < m₃.decls.size := hdecls₃ ▸ Nat.lt_of_lt_of_le (hm.of_isTarget hs hd) hsize
  refine ⟨a, span, removed, d, e, hs, hd, ?_, ?_, ?_, fun c hne hb => ?_, fun q => ?_⟩
  · rcases hinits d with h | ⟨-, -, h⟩
    · exact h ▸ hnone
    · simp [hnone] at h
  · rw [Check.init_setAssigned, if_pos ⟨rfl, hlt⟩]
  · have hexprs : (Check.setAssigned p d e m₃).exprs = m₃.exprs := (nodes_setAssigned e).1
    exact (wrapped_of_coerce hc).grows (.of_eq hexprs.symm)
  · rw [Check.init_setAssigned, if_neg fun h => hne h.1, hdecl]
    exact (hinits c).resolve_right fun h => hb h.1
  · have hslot : ∀ q, m₃.slot? q = m.slot? q := slot_congr (hitems₃.trans hitems) (hsub₃.trans hsub)
    rw [Check.setAssigned, slot_modifySlot]
    split
    · rw [show (m₃.setInit d (some e)).slot? p = m₃.slot? p from rfl, hslot, hs]
      rfl
    · exact hslot q

end Frame

-- An assignment that is refused leaves every item as it is, and so are the values of all declarations but those of
-- lets in the value that was refused. One that is accepted gives a value to one declaration that had none, and is the
-- one item that goes.
theorem assignment_all_or_nothing (m : Model) (p : ItemPath) (hm : m.Intact) :
    (∀ err m', checkAssignment p m = .error err m' →
      (∀ q, m'.slot? q = m.slot? q) ∧
        ∀ d, (∀ a span removed, m.slot? p = some ⟨.assign a, span, removed⟩ → ¬m.LetBound a.value d) →
          (m'.decl d).init = (m.decl d).init) ∧
    ∀ m', checkAssignment p m = .ok () m' →
      ∃ a span removed d e, m.slot? p = some ⟨.assign a, span, removed⟩ ∧ m.IsTarget a d ∧
        (m.decl d).init = none ∧ (m'.decl d).init = some e ∧ m'.Wrapped a.value e ∧
        (∀ c, c ≠ d → ¬m.LetBound a.value c → (m'.decl c).init = (m.decl c).init) ∧
        ∀ q, m'.slot? q = if q = p then some ⟨.assign { a with decl := some d }, span, true⟩ else m.slot? q :=
  ⟨fun _ _ h => checkAssignment_refused hm h, fun _ h => checkAssignment_accepted hm h⟩

section Examples

-- `float: x;`, and an assignment to it with the nodes of its value.
def lateModel (exprs : Array Expr) (x y : Option ExprId) (slot : Slot) : Model where
  exprs
  decls := #[{ name := "x", ti := ⟨0⟩, init := x, toplevel := true, ty := .parFloat },
    { name := "y", ti := ⟨1⟩, init := y, ty := .parInt }, { name := "b", ti := ⟨2⟩, ty := .parBool },
    { name := "i", ti := ⟨1⟩, ty := .parInt }]
  typeInsts := #[{ ty := .parFloat }, { ty := .parInt }, { ty := .parBool }]
  funcs := #[{ name := "bool2int", params := [⟨2⟩], ret := ⟨1⟩ }, { name := "int2float", params := [⟨3⟩], ret := ⟨0⟩ }]
  items := #[{ item := .decl ⟨0⟩ }, slot]
  overloads := [("bool2int", [⟨0⟩]), ("int2float", [⟨1⟩])]

-- `let { int: y = true } in y`, as it is written.
def lateValue : Array Expr :=
  #[{ kind := .bool true, ty := .parBool }, { kind := .ident "y" none }, { kind := .letIn ⟨[.decl ⟨1⟩], ⟨1⟩, []⟩ }]

-- The same with types, and with what `y` stands for.
def lateTyped : Array Expr :=
  #[{ kind := .bool true, ty := .parBool }, { kind := .ident "y" (some ⟨1⟩), ty := .parInt },
    { kind := .letIn ⟨[.decl ⟨1⟩], ⟨1⟩, [some ⟨3⟩]⟩, ty := .parInt },
    { kind := .call "bool2int" [⟨0⟩] (some ⟨0⟩), ty := .parInt }]

def lateSlot (d : Option DeclId) (removed : Bool) : Slot where
  item := .assign ⟨"x", ⟨2⟩, d⟩
  removed

theorem assignment_all_or_nothing_let :
    let m₁ := lateModel lateValue none (some ⟨0⟩) (lateSlot none false)
    let m₂ := lateModel (lateTyped.push { kind := .call "int2float" [⟨2⟩] (some ⟨1⟩), ty := .parFloat }) (some ⟨4⟩)
      (some ⟨3⟩) (lateSlot (some ⟨0⟩) true)
    m₁.Intact ∧ checkAssignment ⟨none, 1⟩ m₁ = .ok () m₂ ∧
      ∃ d e, (m₁.decl d).init = none ∧ (m₂.decl d).init = some e ∧ m₂.Wrapped ⟨2⟩ e := by
  intro m₁ m₂
  have hm : m₁.Intact := .of_lists (by decide) (by decide)
  have hx : checkAssignment ⟨none, 1⟩ m₁ = .ok () m₂ := by cbv
  obtain ⟨a, span, removed, d, e, hs, -, hnone, hd, hw, -⟩ := (assignment_all_or_nothing m₁ ⟨none, 1⟩ hm).2 m₂ hx
  cases hs
  exact ⟨hm, hx, d, e, hnone, hd, hw⟩

-- `x` has a value already. What was done to `y` stays.
example : checkAssignment ⟨none, 1⟩ (lateModel lateValue (some ⟨0⟩) (some ⟨0⟩) (lateSlot none false)) =
    .error (.failed ⟨.secondAssignment, {}⟩)
      (lateModel lateTyped (some ⟨0⟩) (some ⟨3⟩) (lateSlot none false)) := by cbv

end Examples
end Parvar
