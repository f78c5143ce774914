import Parvar.Proofs.Resolve.Walk
import Parvar.Typing.Check

/-!
Resolution of all items of a model: declarations come into scope, assignments move into the
declarations that they name, and then every item is resolved. At the end all declarations are in
the order, each after what its type-inst and its initializer refer to.
-/

namespace Parvar

open Check

variable {m : Model} {roots : List Site} {r r₁ r₂ : Resolution} {d : DeclId}

namespace Resolve

section Start

theorem inv_start (m : Model) (roots : List Site) : Inv m roots { model := m } where
  alike := .refl m
  nodup := List.nodup_nil
  disjoint := by simp
  entered d hd := by simp [Resolution.Entered] at hd
  scope d hd := by simp [Resolution.InScope] at hd
  sorted pre d post h := by simp at h

variable (h : m.SinglePlace roots)

include h

theorem open_root {w : Site} (hw : w ∈ roots) : Open m roots r w :=
  fun _ _ hc hb => (h.not_part_root hw (h.eq_of_below_root hw hb ▸ hc)).elim

theorem ready_start : Ready m roots { model := m } roots where
  reached _ := .root
  above _ hw := (open_root h hw).above
  fresh _ _ _ _ := by simp [Resolution.Entered, Resolution.InScope]
  apart := h.pairwise_roots

end Start

section Items

theorem Walks.weaken {ws us : List Site} {ds : List DeclId} {x : ResolveM Unit}
    (hx : Walks m roots ws us ds x) : Walks m roots ws [] ds x :=
  fun r r' hi hr ho h => { hx r r' hi hr ho h with done := by simp }

variable (h : m.SinglePlace roots)

include h

theorem walks_resolve (s : Site) : Walks m roots [s] [s] [] (resolve s) :=
  fun r => (visits_walk h r.model.walkFuel).walks s r

theorem walks_resolveExprs (es : List ExprId) :
    Walks m roots (es.map .expr) (es.map .expr) [] (resolveExprs es) :=
  walks_each h es fun e _ => walks_resolve h (.expr e)

omit h in
theorem withScope_eq_ok {ds : List DeclId} {x : ResolveM Unit} (hx : withScope ds x r = .ok () r₁) :
    (ds.forM ResolveM.push >>= fun _ => x >>= fun _ => ds.forM ResolveM.pop) r = .ok () r₁ := by
  simp only [withScope] at hx
  split at hx
  · next r₂ hxr =>
    refine bind_eq_ok.mpr ⟨_, _, forM_push ds r, bind_eq_ok.mpr ⟨_, r₂, hxr, ?_⟩⟩
    exact (forM_pop ds r₂).trans hx
  · cases hx

theorem walks_func (f : FuncId) : Walks m roots (m.itemSites (.func f)) [] [] (resolveFunc f) := by
  have hparams := walks_each h (m.func f).params fun p _ => walks_resolve h (.decl p)
  have hhead := Walks.seq h (List.Subset.refl _) (walks_resolve h (.typeInst (m.func f).ret)) hparams
  have hann := Walks.seq h (List.Subset.refl _) hhead (walks_resolveExprs h (m.func f).ann)
  have hpushed : Walks m roots _ _ (m.func f).params _ := hann.pushed fun d hd => by simp [hd]
  have hbody := Walks.seq h (List.Subset.refl _) hpushed (walks_resolveExprs h (m.func f).body.toList)
  rw [List.append_nil] at hbody
  have hw := (hbody.close fun r ha sc hsc =>
    (forM_pop _ r).trans (by rw [foldl_pop_named ha (.refl _) hsc])).weaken
  intro r r' hi hr ho hx
  rw [resolveFunc, get_bind, show r.model.func f = m.func f by simp [Model.func, hi.alike.funcs]] at hx
  have ⟨_, r₁, hx₁, hx⟩ := bind_eq_ok.mp hx
  have ⟨_, r₂, hx₂, hx⟩ := bind_eq_ok.mp hx
  have ⟨_, r₃, hx₃, hx⟩ := bind_eq_ok.mp hx
  have ⟨_, r₄, hx₄, hx⟩ := bind_eq_ok.mp (withScope_eq_ok hx)
  have ⟨_, r₅, hx₅, hx₆⟩ := bind_eq_ok.mp hx
  have hx := seq_eq_ok (seq_eq_ok (seq_eq_ok (seq_eq_ok hx₁ hx₂) hx₃) hx₄) hx₅
  exact hw r r' hi hr ho (seq_eq_ok hx hx₆)

theorem walks_item {item : Item} (hd : ∀ d, item ≠ .decl d) :
    Walks m roots (m.itemRest item) [] [] (resolveItem item) := by
  cases item
  case decl d => exact (hd d rfl).elim
  case constraint e | output e => exact (walks_resolve h (.expr e)).weaken
  case solve goal ann =>
    exact (Walks.seq h (List.Subset.refl _) (walks_resolveExprs h ann)
      (walks_resolveExprs h goal.objective?.toList)).weaken
  case func f => exact walks_func h f
  case submodel | assign => exact walks_pure

-- A declaration of an item joins the order, unless it was referred to before.
theorem decl_item_resolved (hi : Inv m roots r) (ha : r.active = []) (hs : r.InScope d)
    (hx : resolve (.decl d) r = .ok () r₁) : Resolved m roots r [] [] [] r₁ ∧ d ∈ r₁.order := by
  by_cases hd : d ∈ r.order
  · have hx : walk r.model.walkFuel (.decl d) r = .ok () r₁ := hx
    cases hf : r.model.walkFuel with
    | zero => rw [hf] at hx; exact (throw_ne_ok.mp hx).elim
    | succ fuel =>
      rw [hf, walk, site, decl, get_bind, if_pos (by simp [hd])] at hx
      obtain ⟨-, rfl⟩ := pure_eq_ok.mp hx
      exact ⟨.refl hi, hd⟩
  · exact (visits_walk h r.model.walkFuel).enters d r r₁ hi hs (by simp [Resolution.Entered, ha, hd]) hx

omit h in
theorem atSlot_eq_ok {f : ItemPath → Slot → ResolveM Unit} {p : ItemPath}
    (hx : atSlot f p r = .ok () r₁) :
    (r.model.itemAt? p = none ∧ r₁ = r) ∨
      ∃ s, r.model.slot? p = some s ∧ s.removed = false ∧ r.model.itemAt? p = some s.item ∧
        f p s r = .ok () r₁ := by
  rw [atSlot, get_bind] at hx
  cases hs : r.model.slot? p with
  | none =>
    obtain ⟨-, rfl⟩ := pure_eq_ok.mp (hs ▸ hx)
    exact .inl ⟨by simp [Model.itemAt?, hs], rfl⟩
  | some s =>
    rw [hs] at hx
    cases hr : s.removed with
    | true =>
      obtain rfl : r = r₁ := by simpa [hr] using hx
      exact .inl ⟨by simp [Model.itemAt?, hs, hr], rfl⟩
    | false => exact .inr ⟨s, rfl, hr, by simp [Model.itemAt?, hs, hr], by simpa [hr] using hx⟩

theorem items_resolved {paths : List ItemPath} (hi : Inv m roots r)
    (hr : Ready m roots r (paths.flatMap fun p => (m.itemAt? p).toList.flatMap m.itemRest))
    (ho : ∀ w ∈ paths.flatMap fun p => (m.itemAt? p).toList.flatMap m.itemRest, Open m roots r w)
    (ha : r.active = []) (hs : ∀ p ∈ paths, ∀ d, m.itemAt? p = some (.decl d) → r.InScope d)
    (hx : eachSlot paths (fun _ s => resolveItem s.item) r = .ok () r₂) :
    Inv m roots r₂ ∧ (∀ d ∈ r.order, d ∈ r₂.order) ∧
      ∀ p ∈ paths, ∀ d, m.itemAt? p = some (.decl d) → d ∈ r₂.order := by
  induction paths generalizing r with
  | nil =>
    obtain ⟨-, rfl⟩ := pure_eq_ok.mp hx
    exact ⟨hi, fun _ => id, by simp⟩
  | cons p paths ih =>
    obtain ⟨_, r₁, hx₁, hx₂⟩ := bind_eq_ok.mp hx
    rw [List.flatMap_cons] at hr ho
    have hitem : r.model.itemAt? p = m.itemAt? p := by
      simp [Model.itemAt?, Model.slot?, Model.itemsOf, hi.alike.items, hi.alike.submodels]
    obtain ⟨h₁, hd₁⟩ : Resolved m roots r ((m.itemAt? p).toList.flatMap m.itemRest) [] [] r₁ ∧
        ∀ d, m.itemAt? p = some (.decl d) → d ∈ r₁.order := by
      obtain ⟨hn, rfl⟩ | ⟨s, _, _, hat, hx₁⟩ := atSlot_eq_ok hx₁
      · rw [hitem] at hn
        simpa [hn] using Resolved.refl hi
      · rw [hitem] at hat
        simp only [hat, Option.toList_some, List.flatMap_singleton] at hr ho ⊢
        by_cases hk : ∃ d, s.item = .decl d
        · obtain ⟨d, hk⟩ := hk
          rw [hk] at hx₁ hat ⊢
          obtain ⟨h₁, hd⟩ := decl_item_resolved h hi ha (hs p List.mem_cons_self d hat) hx₁
          exact ⟨h₁, by rintro _ ⟨⟩; exact hd⟩
        · refine ⟨walks_item h (not_exists.mp hk) r r₁ hi hr.left ?_ hx₁, ?_⟩
          · exact fun w hw => ho w (List.mem_append_left _ hw)
          · exact fun d hd => (hk ⟨d, Option.some.inj hd⟩).elim
    have hscope : r₁.scope = r.scope := h₁.walked.scope
    obtain ⟨hi₂, hsub, hd₂⟩ := ih h₁.inv (hr.after h h₁.walked)
      (fun w hw => h₁.walked.open_mono h₁.active (ho w (List.mem_append_right _ hw)))
      (h₁.active.trans ha)
      (fun q hq d hd => (hs q (List.mem_cons_of_mem _ hq) d hd).imp fun _ hm => hscope ▸ hm) hx₂
    refine ⟨hi₂, fun d hd => hsub d (h₁.walked.order_subset d hd), fun q hq d hd => ?_⟩
    cases List.mem_cons.mp hq
    case inl e => exact hsub d (hd₁ d (e ▸ hd))
    case inr hq => exact hd₂ q hq d hd

end Items

section Collecting

-- Only overloads and the scope have changed.
def Collected (m : Model) (ds : List DeclId) (r : Resolution) : Prop :=
  ∃ fs, r = { model := { m with overloads := fs },
              scope := (ds.map fun d => ((m.decl d).name, d)).reverse }

theorem register_eq (m : Model) (f : FuncId) : ∃ fs, m.register f = { m with overloads := fs } := by
  simp only [Model.register]
  split
  · exact ⟨_, rfl⟩
  · split
    · exact ⟨m.overloads, rfl⟩
    · exact ⟨_, rfl⟩

theorem Collected.item {ds : List DeclId} {item : Item} (h : Collected m ds r)
    (hx : collect item r = .ok () r₁) : Collected m (ds ++ item.decls) r₁ := by
  obtain ⟨fs, rfl⟩ := h
  cases item
  case decl d =>
    rw [collect, ResolveM.pushNew, get_bind, get_bind] at hx
    simp only at hx
    split at hx
    · simp [ResolveM.fail] at hx
    · cases (show EStateM.Result.ok () (Resolution.push _ d) = .ok () r₁ from hx)
      exact ⟨fs, by simp [Resolution.push, Item.decls, Model.decl]⟩
  case func f =>
    rw [collect] at hx
    obtain rfl := changeModel_eq_ok hx
    obtain ⟨gs, hg⟩ := register_eq { m with overloads := fs } f
    exact ⟨gs, by simp [hg, Item.decls]⟩
  all_goals
    obtain ⟨-, rfl⟩ := pure_eq_ok.mp hx
    exact ⟨fs, by simp [Item.decls]⟩

theorem Collected.items {ds : List DeclId} {paths : List ItemPath} (h : Collected m ds r)
    (hx : eachSlot paths (fun _ s => collect s.item) r = .ok () r₂) :
    Collected m (ds ++ paths.flatMap fun p => (m.itemAt? p).toList.flatMap Item.decls) r₂ := by
  induction paths generalizing r ds with
  | nil =>
    obtain ⟨-, rfl⟩ := pure_eq_ok.mp hx
    simpa using h
  | cons p paths ih =>
    have ⟨_, r₁, hx₁, hx₂⟩ := bind_eq_ok.mp hx
    have hitem : r.model.itemAt? p = m.itemAt? p := by
      have ⟨_, hr⟩ := h
      rw [hr]; rfl
    rw [List.flatMap_cons, ← List.append_assoc]
    refine ih ?_ hx₂
    obtain ⟨hn, rfl⟩ | ⟨s, _, _, hat, hx₁⟩ := atSlot_eq_ok hx₁
    · simpa [← hitem, hn] using h
    · simpa [← hitem, hat] using h.item hx₁

end Collecting

section Merging

-- Assignments have moved into the declarations that they name.
structure Merged (m : Model) (paths : List ItemPath) (m' : Model) : Prop where
  place : m'.SinglePlace (m'.rootsAt paths)
  decls : ∀ p d, m'.itemAt? p = some (.decl d) ↔ m.itemAt? p = some (.decl d)
  names : ∀ d, (m'.decl d).name = (m.decl d).name

variable {m' : Model} {paths : List ItemPath} {p : ItemPath} {a : Assignment}

theorem itemAt_setAssigned (v : ExprId) (q : ItemPath) :
    (setAssigned p d v m').itemAt? q = if q = p then none else m'.itemAt? q := by
  have hs : (setAssigned p d v m').slot? q = _ := Model.slot_modifySlot (m'.setInit d (some v)) p q _
  rw [Model.itemAt?, hs]
  split
  · cases (m'.setInit d (some v)).slot? p <;> simp
  · rfl

theorem itemSites_setAssigned (v : ExprId) (item : Item) :
    (setAssigned p d v m').itemSites item = m'.itemSites item := by
  have hf : (setAssigned p d v m').funcs = m'.funcs := by
    simp only [setAssigned, Model.modifySlot]
    split <;> rfl
  cases item <;> simp [Model.itemSites, Model.func, hf]

theorem nodes_setAssigned (v : ExprId) :
    (setAssigned p d v m').exprs = m'.exprs ∧ (setAssigned p d v m').typeInsts = m'.typeInsts ∧
      (setAssigned p d v m').decls = (m'.setInit d (some v)).decls := by
  simp only [setAssigned, Model.modifySlot]
  split <;> exact ⟨rfl, rfl, rfl⟩

theorem rootsAt_setAssigned {v : ExprId} {ps : List ItemPath} (hp : p ∉ ps) :
    (setAssigned p d v m').rootsAt ps = m'.rootsAt ps := by
  refine List.flatMap_congr fun q hq => ?_
  have hne : q ≠ p := fun e => hp (e ▸ hq)
  rw [itemAt_setAssigned, if_neg hne]
  exact List.flatMap_congr fun item _ => itemSites_setAssigned v item

theorem SinglePlace.assign (h : m'.SinglePlace (m'.rootsAt paths)) (hp : p ∈ paths)
    (hat : m'.itemAt? p = some (.assign a)) (hd : m'.Present (.decl d))
    (hn : (m'.decl d).init = none) :
    (setAssigned p d a.value m').SinglePlace ((setAssigned p d a.value m').rootsAt paths) := by
  obtain ⟨ps, qs, rfl⟩ := List.append_of_mem hp
  have hroots : m'.rootsAt (ps ++ p :: qs) = m'.rootsAt ps ++ .expr a.value :: m'.rootsAt qs := by
    simp [Model.rootsAt, hat, Model.itemSites]
  rw [hroots] at h
  have hmem : ∀ {l}, p ∈ l → .expr a.value ∈ m'.rootsAt l := fun hl =>
    Model.mem_rootsAt hl hat (List.mem_singleton_self _)
  have hv : m'.Holds (.expr a.value) := .of_isNode trivial
  -- The value is a root once, so its item is met once.
  have ⟨_, hq, hpq⟩ := List.pairwise_append.mp h.root_once
  have hps : p ∉ ps := fun hl => hpq _ (hmem hl) _ List.mem_cons_self rfl hv
  have hqs : p ∉ qs := fun hl => (List.pairwise_cons.mp hq).1 _ (hmem hl) rfl hv
  have hroots' : (setAssigned p d a.value m').rootsAt (ps ++ p :: qs) =
      m'.rootsAt ps ++ m'.rootsAt qs := by
    have hnone : (setAssigned p d a.value m').itemAt? p = none := by simp [itemAt_setAssigned]
    have happ : (setAssigned p d a.value m').rootsAt (ps ++ p :: qs) =
        (setAssigned p d a.value m').rootsAt ps ++ (setAssigned p d a.value m').rootsAt qs := by
      simp [Model.rootsAt, hnone]
    rw [happ, rootsAt_setAssigned hps, rootsAt_setAssigned hqs]
  rw [hroots']
  have ⟨hexprs, htis, hdecls⟩ := @nodes_setAssigned d m' p a.value
  have hdecl : ∀ c, (setAssigned p d a.value m').decl c = (m'.setInit d (some a.value)).decl c :=
    fun c => by simp [Model.decl, hdecls]
  refine h.move (d := d) ?_ ?_ ?_
  · intro s hs
    cases s
    case expr e => simp [Model.parts, Model.partsBy, Model.kind, Model.expr, hexprs]
    case typeInst t => simp [Model.parts, Model.partsBy, Model.typeInst, htis]
    case decl c =>
      have hc : c ≠ d := fun e => hs (e ▸ rfl)
      simp only [Model.parts, Model.partsBy, Model.needs, hdecl, Model.setInit, Model.decl_modifyDecl_ne hc]
  · have hdd : (setAssigned p d a.value m').decl d = { m'.decl d with init := some a.value } := by
      rw [hdecl, Model.setInit, Model.decl_modifyDecl, if_pos ⟨rfl, hd⟩]
    simp only [Model.parts_decl, Model.needs, hdd, hn]
    exact .swap _ _ _
  · intro s hs
    cases s <;> simpa [Model.Present, hexprs, htis, hdecls, Model.setInit] using hs

-- Only the value of a declaration can differ.
theorem decl_setAssigned (v : ExprId) (c : DeclId) :
    (setAssigned p d v m').decl c = m'.decl c ∨ (setAssigned p d v m').decl c = { m'.decl c with init := some v } := by
  have hdecls := (@nodes_setAssigned d m' p v).2.2
  rw [show (setAssigned p d v m').decl c = (m'.setInit d (some v)).decl c by simp [Model.decl, hdecls],
    Model.setInit, Model.decl_modifyDecl]
  split
  · next e => exact .inr (by rw [e.1])
  · exact .inl rfl

theorem name_setAssigned (v : ExprId) (c : DeclId) :
    ((setAssigned p d v m').decl c).name = (m'.decl c).name := by
  obtain h | h := @decl_setAssigned d m' p v c <;> rw [h]

theorem declAt_setAssigned {v : ExprId} (hat : m'.itemAt? p = some (.assign a)) (q : ItemPath)
    (c : DeclId) : (setAssigned p d v m').itemAt? q = some (.decl c) ↔ m'.itemAt? q = some (.decl c) := by
  rw [itemAt_setAssigned]
  split
  · next e => simp [e, hat]
  · rfl

theorem Merged.assign (h : Merged m paths m') (hp : p ∈ paths)
    (hat : m'.itemAt? p = some (.assign a)) (hd : ∃ q ∈ paths, m'.itemAt? q = some (.decl d))
    (hn : (m'.decl d).init = none) : Merged m paths (setAssigned p d a.value m') where
  place :=
    have ⟨q, hq, hqd⟩ := hd
    have hroot := Model.mem_rootsAt hq hqd (List.mem_singleton_self _)
    SinglePlace.assign h.place hp hat (h.place.present (.root hroot)) hn
  decls q c := by rw [declAt_setAssigned hat, h.decls]
  names c := by rw [name_setAssigned, h.names]

theorem Merged.step (h : Merged m paths r.model) (hp : p ∈ paths)
    (hs : ∀ d, r.InScope d → ∃ q ∈ paths, m.itemAt? q = some (.decl d))
    (hx : atSlot mergeAssignment p r = .ok () r₁) :
    Merged m paths r₁.model ∧ r₁ = { r with model := r₁.model } := by
  obtain ⟨_, rfl⟩ | ⟨s, _, _, hat, hx⟩ := atSlot_eq_ok hx
  · exact ⟨h, rfl⟩
  · cases hk : s.item
    case assign a =>
      rw [hk] at hat
      simp only [mergeAssignment, hk] at hx
      obtain ⟨d, r₂, hl, hset⟩ := bind_eq_ok.mp hx
      obtain ⟨rfl, hd⟩ := lookup_eq_ok hl
      rw [get_bind] at hset
      split at hset
      · simp [ResolveM.fail] at hset
      · next hn =>
        obtain rfl := changeModel_eq_ok hset
        obtain ⟨q, hq, hqd⟩ := hs d ⟨_, hd⟩
        exact ⟨h.assign hp hat ⟨q, hq, (h.decls q d).mpr hqd⟩ (by simpa using hn), rfl⟩
    all_goals
      simp only [mergeAssignment, hk] at hx
      obtain ⟨-, rfl⟩ := pure_eq_ok.mp hx
      exact ⟨h, rfl⟩

theorem Merged.items {qs : List ItemPath} (h : Merged m paths r.model) (hq : qs ⊆ paths)
    (hs : ∀ d, r.InScope d → ∃ q ∈ paths, m.itemAt? q = some (.decl d))
    (hx : eachSlot qs mergeAssignment r = .ok () r₂) :
    Merged m paths r₂.model ∧ r₂ = { r with model := r₂.model } := by
  induction qs generalizing r with
  | nil =>
    obtain ⟨-, rfl⟩ := pure_eq_ok.mp hx
    exact ⟨h, rfl⟩
  | cons p qs ih =>
    have ⟨_, r₁, hx₁, hx₂⟩ := bind_eq_ok.mp hx
    have ⟨h₁, hr₁⟩ := h.step (hq List.mem_cons_self) hs hx₁
    have hs₁ : ∀ d, r₁.InScope d → ∃ q ∈ paths, m.itemAt? q = some (.decl d) := by
      rw [hr₁]
      exact hs
    have ⟨h₂, hr₂⟩ := ih h₁ (fun _ hm => hq (List.mem_cons_of_mem _ hm)) hs₁ hx₂
    exact ⟨h₂, by rw [hr₂, hr₁]⟩

end Merging

section All

variable {m' : Model} {paths : List ItemPath}

theorem perm_rootsAt (m : Model) (paths : List ItemPath) :
    (m.rootsAt paths).Perm
      ((paths.flatMap fun p => (m.itemAt? p).toList.flatMap Item.decls).map Site.decl ++
        paths.flatMap fun p => (m.itemAt? p).toList.flatMap m.itemRest) := by
  have hs : ∀ p, (m.itemAt? p).toList.flatMap m.itemSites =
      ((m.itemAt? p).toList.flatMap Item.decls).map Site.decl ++
        (m.itemAt? p).toList.flatMap m.itemRest := by
    intro p
    cases m.itemAt? p <;> simp [Model.itemSites_eq]
  rw [Model.rootsAt, funext hs, List.map_flatMap]
  exact (List.flatMap_append_perm _ _ _).symm

theorem mem_decls {o : Option Item} : d ∈ o.toList.flatMap Item.decls ↔ o = some (.decl d) := by
  cases o with
  | none => simp
  | some item => cases item <;> simp [Item.decls, eq_comm]

theorem Merged.decls_eq (h : Merged m paths m') (p : ItemPath) :
    (m'.itemAt? p).toList.flatMap Item.decls = (m.itemAt? p).toList.flatMap Item.decls := by
  by_cases hd : ∃ d, m.itemAt? p = some (.decl d)
  · have ⟨d, hd⟩ := hd
    rw [hd, (h.decls p d).mpr hd]
  · have hn : ∀ {o : Option Item}, (¬∃ d, o = some (.decl d)) → o.toList.flatMap Item.decls = [] :=
      fun ho => List.eq_nil_iff_forall_not_mem.mpr fun d hm => ho ⟨d, mem_decls.mp hm⟩
    rw [hn hd, hn fun ⟨d, hd'⟩ => hd ⟨d, (h.decls p d).mp hd'⟩]

-- At the end the order is sorted and holds all declarations that are items.
theorem resolveItems_inv (h : m.SinglePlace (m.rootsAt paths))
    (hx : resolveItems paths { model := m } = .ok () r) :
    ∃ m₁, Merged m paths m₁ ∧ Inv m₁ (m₁.rootsAt paths) r ∧
      ∀ p ∈ paths, ∀ d, m.itemAt? p = some (.decl d) → d ∈ r.order := by
  have ⟨_, r₁, hx₁, hx⟩ := bind_eq_ok.mp hx
  have ⟨_, r₂, hx₂, hx₃⟩ := bind_eq_ok.mp hx
  have hc : Collected m [] { model := m } := ⟨m.overloads, rfl⟩
  obtain ⟨fs, hr₁⟩ := hc.items hx₁
  rw [List.nil_append] at hr₁
  have hm₁ : Merged m paths r₁.model := by
    rw [hr₁]
    exact ⟨h.congr (fun _ => rfl) h.present, fun _ _ => Iff.rfl, fun _ => rfl⟩
  have hscope : ∀ d, r₁.InScope d → ∃ q ∈ paths, m.itemAt? q = some (.decl d) := by
    rintro d ⟨name, hd⟩
    simp only [hr₁, List.mem_reverse, List.mem_map, Prod.mk.injEq] at hd
    obtain ⟨_, hm, _, rfl⟩ := hd
    have ⟨q, hq, hm⟩ := List.mem_flatMap.mp hm
    exact ⟨q, hq, mem_decls.mp hm⟩
  have ⟨hm₂, hr₂⟩ := hm₁.items (List.Subset.refl _) hscope hx₂
  -- The names in scope are those that pushing all declarations of the merged model leads to.
  have hds := funext hm₂.decls_eq
  have hpush : (paths.flatMap fun p => (r₂.model.itemAt? p).toList.flatMap Item.decls).forM
      ResolveM.push { model := r₂.model } = .ok () r₂ := by
    rw [forM_push, foldl_push, hds, hr₂, hr₁]
    simp [hm₂.names]
  have hready := (ready_start hm₂.place).perm (perm_rootsAt r₂.model paths)
  have hopen : ∀ {r} w, w ∈ _ → Open r₂.model _ r w := fun w hw =>
    open_root hm₂.place ((perm_rootsAt r₂.model paths).mem_iff.mpr hw)
  have h₂ := walks_forM_push _ _ r₂ (inv_start r₂.model _) hready.left
    (fun w hw => hopen w (List.mem_append_left _ hw)) hpush
  have h₃ := items_resolved hm₂.place h₂.inv (hready.after hm₂.place h₂.walked)
    (fun w hw => hopen w (List.mem_append_right _ hw)) h₂.active ?scope hx₃
  case scope =>
    intro p hp d hd
    refine ⟨(r₂.model.decl d).name, ?_⟩
    rw [h₂.walked.scope]
    simp only [List.append_nil, List.mem_reverse, List.mem_map]
    exact ⟨d, List.mem_flatMap.mpr ⟨p, hp, mem_decls.mpr hd⟩, rfl⟩
  exact ⟨r₂.model, hm₂, h₃.1, fun p hp d hd => h₃.2.2 p hp d ((hm₂.decls p d).mpr hd)⟩

end All
end Resolve
end Parvar
