import Parvar.Proofs.Resolve.Lexical
import Parvar.Proofs.Typing.Order

/-!
The runs of the resolver: over all items of a model, over an expression, and over the value of an
assignment. In each of them the identifiers of the declarations that it comes to are bound as
`Lexical` says.
-/

namespace Parvar

open Check

namespace Model

variable {m : Model} {p : ItemPath}

-- There is an item at the path, and it was not removed.
def IsItem (m : Model) (p : ItemPath) : Prop := ∃ s, m.slot? p = some s ∧ s.removed = false

theorem isItem_of_mem (hp : p ∈ m.itemPaths) : m.IsItem p := by
  obtain ⟨s, hs, hown⟩ := mem_pathsOf.mp (m.mem_itemPaths.mp hp).2
  exact ⟨s, hs, (Slot.isOwn_iff.mp hown).1⟩

end Model

namespace Resolve

variable {m m' : Model} {top : List (String × DeclId)} {r r₁ r₂ : Resolution} {a b s : Site}
  {d : DeclId} {ws : List Site} {tops : List DeclId}

section Items

-- What is resolved of an item. An assignment has been merged before.
def itemWork (m : Model) : Item → List Site
  | .assign _ => []
  | item => m.itemSites item

variable (ht : ∀ p ∈ top, p.1 = (m.decl p.2).name)

include ht

theorem passes_resolveExprs (ds : List DeclId) (es : List ExprId)
    (hd : ∀ e ∈ es, ∀ d ∈ ds, m.Visible d (.expr e)) :
    Passes m top (es.map .expr) ds ds (resolveExprs es) :=
  .forM fun e he => passes_resolve ht ds (hd e he)

theorem passes_func (f : FuncId) : Passes m top (m.itemSites (.func f)) [] [] (resolveFunc f) := by
  have hret := passes_resolve ht [] (s := .typeInst (m.func f).ret) (by simp)
  have hparams : Passes m top ((m.func f).params.map .decl) [] []
      ((m.func f).params.forM fun p => resolve (.decl p)) :=
    .forM fun p _ => passes_resolve ht [] (by simp)
  have hann := passes_resolveExprs ht [] (m.func f).ann (by simp)
  have hbody := passes_resolveExprs ht ((m.func f).params.reverse ++ [])
    (m.func f).body.toList fun e he d hd =>
      Model.Scopes.visible (.inr ⟨f, by simpa using hd, List.mem_map_of_mem he⟩)
  have hscope := Passes.close ((Passes.forM_push (m.func f).params).seq hbody) fun r ha sc hsc =>
    (forM_pop _ r).trans (by rw [foldl_pop_named ha (.refl _) hsc])
  intro r r' hs hsc hx
  rw [resolveFunc, get_bind, show r.model.func f = m.func f by simp [Model.func, hs.alike.funcs]] at hx
  obtain ⟨_, r₁, hx₁, hx⟩ := bind_eq_ok.mp hx
  obtain ⟨_, r₂, hx₂, hx⟩ := bind_eq_ok.mp hx
  obtain ⟨_, r₃, hx₃, hx⟩ := bind_eq_ok.mp hx
  obtain ⟨_, r₄, hx₄, hx⟩ := bind_eq_ok.mp (withScope_eq_ok hx)
  obtain ⟨_, r₅, hx₅, hx₆⟩ := bind_eq_ok.mp hx
  have h := ((hret.seq hparams).seq hann).seq hscope
  exact h r r' hs hsc (seq_eq_ok (seq_eq_ok (seq_eq_ok hx₁ hx₂) hx₃) (seq_eq_ok (seq_eq_ok hx₄ hx₅) hx₆))

theorem passes_item (item : Item) : Passes m top (itemWork m item) [] [] (resolveItem item) := by
  cases item
  case decl d => exact passes_resolve ht [] (by simp)
  case constraint e | output e => exact passes_resolve ht [] (by simp)
  case solve goal ann =>
    exact (passes_resolveExprs ht [] _ (by simp)).seq (passes_resolveExprs ht [] _ (by simp))
  case func f => exact passes_func ht f
  case submodel | assign => exact .pure

theorem passes_items_at (paths : List ItemPath) :
    Passes m top (paths.flatMap fun p => (m.itemAt? p).toList.flatMap (itemWork m)) [] []
      (eachSlot paths fun _ s => resolveItem s.item) := by
  induction paths with
  | nil => exact .pure
  | cons p paths ih =>
    refine .seq (fun r r' hs hsc hx => ?_) ih
    have hitem : r.model.itemAt? p = m.itemAt? p := by
      simp [Model.itemAt?, Model.slot?, Model.itemsOf, hs.alike.items, hs.alike.submodels]
    obtain ⟨hn, rfl⟩ | ⟨s, _, _, hat, hx⟩ := atSlot_eq_ok hx
    · simpa [← hitem, hn] using @Passes.pure m top [] r' r' hs hsc rfl
    · simpa [← hitem, hat] using passes_item ht s.item r r' hs hsc hx

end Items

section Ends

theorem Same.mem_uses (h : Same m m') : b ∈ m'.uses a ↔ b ∈ m.uses a := by
  cases a
  case decl | typeInst =>
    simp [Model.uses, Model.partsBy, Model.needs, h.alike.decl_eq, h.alike.typeInst_eq]
  case expr e =>
    simp only [Model.uses, Model.partsBy, h.alike.ann, List.mem_append]
    rw [((h.alike.kind e).parts _).mem_iff]

theorem Same.uses_iff (h : Same m m') : m'.Uses a b ↔ m.Uses a b := by
  rw [Model.Uses, Model.Uses, funext fun s => funext fun c => propext (h.mem_uses (a := s) (b := c))]

theorem Same.leads (h : Same m m') (hl : m.Leads a b) : m'.Leads a b := by
  cases hl with
  | part hm => exact .part (h.mem_uses.mpr hm)
  | name hn => exact .name (by rwa [← (h.alike.kind _).name, h.alike.decl_eq])

theorem Same.shadowed (h : Same m m') {name : String} (hs : m.Shadowed name s) : m'.Shadowed name s := by
  have ⟨d, hd, c, hc, hcs⟩ := hs
  refine ⟨d, by rwa [h.alike.decl_eq], c, ?_, Relation.ReflTransGen.mono (fun _ _ => h.leads) _ _ hcs⟩
  cases hc
  case inl he => exact .inl ⟨he.choose, (h.scopes _ _).mpr he.choose_spec⟩
  case inr hf => exact .inr (by simpa [Model.func, h.alike.funcs] using hf)

-- All that is in a declaration of the order was met.
theorem Passed.met_of_uses (h : Passed m top ws ws { r with order := #[], active := [] } r₁)
    (hd : d ∈ r₁.order) (hs : m.Uses (.decl d) s) : Met m top r₁ s := by
  induction hs with
  | refl => exact .decl (.inr hd)
  | @tail b c _ hbc ih =>
    by_cases hb : ∃ d, b = .decl d
    · obtain ⟨c', rfl⟩ := hb
      have hc' : c' ∈ r₁.order := (ih.entered c' .refl).resolve_left (by simp [h.active])
      exact h.new c' hc' (by simp) c hbc
    · exact ih.inner (.single ⟨hbc, fun d hd => hb ⟨d, hd⟩⟩)

theorem lookup_of_mem {name : String} {l : List (String × DeclId)} (hl : (l.map (·.1)).Nodup)
    (hm : (name, d) ∈ l) : l.lookup name = some d := by
  have ⟨l₁, l₂, hsplit⟩ := List.append_of_mem hm
  refine List.lookup_eq_some_iff.mpr ⟨l₁, l₂, hsplit, fun p hp => ?_⟩
  rw [hsplit, List.map_append, List.nodup_append] at hl
  simpa using (hl.2.2 p.1 (List.mem_map_of_mem hp) name (by simp)).symm

theorem mem_named {name : String} (ht : top = (named m tops).reverse) :
    (name, d) ∈ top ↔ d ∈ tops ∧ (m.decl d).name = name := by
  simp only [ht, named, List.mem_reverse, List.mem_map, Prod.mk.injEq]
  constructor
  · rintro ⟨_, hm, hd, e⟩
    exact e ▸ ⟨hm, hd⟩
  · rintro ⟨hm, hd⟩
    exact ⟨d, hm, hd, rfl⟩

section Tops

variable (ht : top = (named m tops).reverse) (hn : (top.map (·.1)).Nodup)

include ht hn

-- If names are different at the top, to look one up there is to find the declaration that has it.
theorem Same.lexical (hs : Same m m') (h : ∀ e, m.Uses (.decl d) (.expr e) → Settled m top m' e) :
    m'.Lexical tops d := by
  intro e name b hu hk hns
  have ⟨c, hb, hl⟩ := h e (hs.uses_iff.mp hu) name b hk fun hsh => hns (hs.shadowed hsh)
  refine ⟨c, hb, fun c' => ?_⟩
  rw [hs.alike.decl_eq, ← mem_named ht]
  constructor
  · intro hc'
    exact Option.some.inj ((lookup_of_mem hn hc').symm.trans hl)
  · rintro rfl
    have ⟨l₁, l₂, hsplit, _⟩ := List.lookup_eq_some_iff.mp hl
    simp [hsplit]

theorem Passed.lexical (h : Passed m top ws ws { r with order := #[], active := [] } r₁)
    (hd : d ∈ r₁.order) : r₁.model.Lexical tops d :=
  h.same.lexical ht hn fun e hu => (h.met_of_uses hd hu).settled e .refl

-- What was bound to the top stays so.
theorem Passed.keeps_lexical (h : Passed m top ws ws r r₁) (hm : r.model = m) (hl : m.Lexical tops d) :
    r₁.model.Lexical tops d := by
  refine h.same.lexical ht hn fun e hu => h.stays e ?_
  intro name b hk hns
  have ⟨c, hb, hc⟩ := hl e name b hu (hm ▸ hk) hns
  exact ⟨c, hb, lookup_of_mem hn ((mem_named ht).mpr ((hc c).mpr rfl))⟩

end Tops

end Ends

section Declarations

theorem pushNew_eq_ok (hx : ResolveM.pushNew d r = .ok () r₁) :
    r₁ = r.push d ∧ (r.model.decl d).name ∉ r.scope.map (·.1) := by
  rw [ResolveM.pushNew, get_bind, get_bind] at hx
  simp only at hx
  split at hx
  · simp [ResolveM.fail] at hx
  · next hn =>
    cases (show EStateM.Result.ok () (Resolution.push _ d) = .ok () r₁ from hx)
    refine ⟨rfl, fun hm => hn ?_⟩
    obtain ⟨p, hp, hpn⟩ := List.mem_map.mp hm
    rw [Resolution.lookup?, List.lookup_isSome_iff]
    exact ⟨p, hp, by simpa using hpn.symm⟩

theorem nodup_push (hn : (r.scope.map (·.1)).Nodup) (hx : ResolveM.pushNew d r = .ok () r₁) :
    (r₁.scope.map (·.1)).Nodup := by
  obtain ⟨rfl, hd⟩ := pushNew_eq_ok hx
  simpa [Resolution.push] using ⟨by simpa using hd, hn⟩

theorem nodup_collect {item : Item} (hn : (r.scope.map (·.1)).Nodup)
    (hx : collect item r = .ok () r₁) : (r₁.scope.map (·.1)).Nodup := by
  cases item
  case decl d => exact nodup_push hn hx
  case func f =>
    rw [collect] at hx
    obtain rfl := changeModel_eq_ok hx
    exact hn
  all_goals
    obtain ⟨-, rfl⟩ := pure_eq_ok.mp hx
    exact hn

theorem nodup_collects {paths : List ItemPath} (hn : (r.scope.map (·.1)).Nodup)
    (hx : eachSlot paths (fun _ s => collect s.item) r = .ok () r₂) : (r₂.scope.map (·.1)).Nodup := by
  induction paths generalizing r with
  | nil =>
    obtain ⟨-, rfl⟩ := pure_eq_ok.mp hx
    exact hn
  | cons p paths ih =>
    have ⟨_, r₁, hx₁, hx₂⟩ := bind_eq_ok.mp hx
    refine ih ?_ hx₂
    obtain ⟨_, rfl⟩ | ⟨s, _, _, _, hx₁⟩ := atSlot_eq_ok hx₁
    · exact hn
    · exact nodup_collect hn hx₁

-- Merging leaves the declarations at their items and under their names.
structure Remains (m m' : Model) : Prop where
  items : ∀ p d, m'.itemAt? p = some (.decl d) ↔ m.itemAt? p = some (.decl d)
  names : ∀ d, (m'.decl d).name = (m.decl d).name

theorem merge_eq_ok {p : ItemPath} (hx : atSlot mergeAssignment p r = .ok () r₁) :
    r₁ = { r with model := r₁.model } ∧ Remains r.model r₁.model := by
  obtain ⟨_, rfl⟩ | ⟨s, _, _, hat, hx⟩ := atSlot_eq_ok hx
  · exact ⟨rfl, fun _ _ => Iff.rfl, fun _ => rfl⟩
  · cases hk : s.item
    case assign a =>
      rw [hk] at hat
      simp only [mergeAssignment, hk] at hx
      obtain ⟨d, r₂, hl, hset⟩ := bind_eq_ok.mp hx
      obtain ⟨rfl, _⟩ := lookup_eq hl
      rw [get_bind] at hset
      split at hset
      · simp [ResolveM.fail] at hset
      · obtain rfl := changeModel_eq_ok hset
        exact ⟨rfl, declAt_setAssigned hat, name_setAssigned a.value⟩
    all_goals
      simp only [mergeAssignment, hk] at hx
      obtain ⟨-, rfl⟩ := pure_eq_ok.mp hx
      exact ⟨rfl, fun _ _ => Iff.rfl, fun _ => rfl⟩

theorem merges_eq_ok {paths : List ItemPath} (hx : eachSlot paths mergeAssignment r = .ok () r₂) :
    r₂ = { r with model := r₂.model } ∧ Remains r.model r₂.model := by
  induction paths generalizing r with
  | nil =>
    obtain ⟨-, rfl⟩ := pure_eq_ok.mp hx
    exact ⟨rfl, fun _ _ => Iff.rfl, fun _ => rfl⟩
  | cons p paths ih =>
    have ⟨_, r₁, hx₁, hx₂⟩ := bind_eq_ok.mp hx
    have ⟨hr₁, h₁⟩ := merge_eq_ok hx₁
    have ⟨hr₂, h₂⟩ := ih hx₂
    refine ⟨by rw [hr₂, hr₁], fun p d => (h₂.items p d).trans (h₁.items p d), fun d => ?_⟩
    exact (h₂.names d).trans (h₁.names d)

theorem declares_eq_ok (tops : List DeclId) {paths : List ItemPath} (hp : ∀ p ∈ paths, m.IsItem p) (hm : r.model = m)
    (hsc : r.scope = (named m tops).reverse) (hn : (r.scope.map (·.1)).Nodup)
    (hx : paths.forM (declareItem m) r = .ok () r₁) :
    r₁ = { r with scope := r₁.scope } ∧ (r₁.scope.map (·.1)).Nodup ∧ r₁.scope =
      (named m (tops ++ paths.flatMap fun p => (m.itemAt? p).toList.flatMap Item.decls)).reverse := by
  induction paths generalizing r tops with
  | nil =>
    obtain ⟨-, rfl⟩ := pure_eq_ok.mp hx
    exact ⟨rfl, hn, by simpa using hsc⟩
  | cons p paths ih =>
    obtain ⟨_, r₂, hx₁, hx₂⟩ := bind_eq_ok.mp hx
    obtain ⟨s, hs, hrem⟩ := hp p List.mem_cons_self
    obtain ⟨hr₂, hn₂, hsc₂⟩ : r₂ = { r with scope := r₂.scope } ∧ (r₂.scope.map (·.1)).Nodup ∧
        r₂.scope = (named m (tops ++ s.item.decls)).reverse := by
      by_cases hd : ∃ d, s.item = .decl d
      · obtain ⟨d, hd⟩ := hd
        have hx₁ : ResolveM.pushNew d r = .ok () r₂ := by
          obtain ⟨item, span, removed⟩ := s
          cases hd
          simpa [declareItem, hs] using hx₁
        refine ⟨?_, nodup_push hn hx₁, ?_⟩
        all_goals obtain ⟨rfl, _⟩ := pushNew_eq_ok hx₁
        · rfl
        · simp [Resolution.push, hd, Item.decls, named, hsc, hm]
      · have hx₁ : (pure () : ResolveM Unit) r = .ok () r₂ := by
          obtain ⟨item, span, removed⟩ := s
          cases item <;> simp_all [declareItem]
        obtain ⟨-, rfl⟩ := pure_eq_ok.mp hx₁
        refine ⟨rfl, hn, ?_⟩
        have hdecls : s.item.decls = [] := by
          cases hi : s.item <;> simp_all [Item.decls]
        simpa [hdecls] using hsc
    obtain ⟨hr₁, hn₁, hsc₁⟩ := ih _ (fun q hq => hp q (List.mem_cons_of_mem _ hq)) (by rw [hr₂]; exact hm)
      hsc₂ hn₂ hx₂
    refine ⟨by rw [hr₁, hr₂], hn₁, ?_⟩
    rw [hsc₁]
    simp [Model.itemAt?, hs, hrem]

end Declarations

section Runs

-- The names of toplevel declarations are those that the scope ends with.
theorem names_top (m : Model) (tops : List DeclId) :
    ∀ p ∈ (named m tops).reverse, p.1 = (m.decl p.2).name := by
  intro p hp
  have ⟨d, _, hd⟩ := List.mem_map.mp (List.mem_reverse.mp hp)
  rw [← hd]

theorem resolveItems_lexical (hx : resolveItems m.itemPaths { model := m } = .ok () r) :
    ∀ d, (d ∈ m.toplevels → d ∈ r.order) ∧ (d ∈ r.order → r.model.Lexical m.toplevels d) := by
  obtain ⟨_, r₁, hx₁, hx⟩ := bind_eq_ok.mp hx
  obtain ⟨_, r₂, hx₂, hx₃⟩ := bind_eq_ok.mp hx
  have hc : Collected m [] { model := m } := ⟨m.overloads, rfl⟩
  obtain ⟨fs, hr₁⟩ := hc.items hx₁
  have hn₁ := nodup_collects (by simp) hx₁
  obtain ⟨hr₂, hrem⟩ := merges_eq_ok hx₂
  have hsc₁ : r₁.scope = (named m m.toplevels).reverse := by
    rw [hr₁]
    rfl
  have hrem : Remains m r₂.model := by
    rw [hr₁] at hrem
    exact ⟨hrem.items, hrem.names⟩
  have hnamed : named r₂.model m.toplevels = named m m.toplevels := by simp [named, hrem.names]
  have hsc₂ : r₂.scope = (named r₂.model m.toplevels).reverse := by rw [hr₂, hnamed, hsc₁]
  have hstart : r₂ = { r₂ with order := #[], active := [] } := by rw [hr₂, hr₁]
  obtain ⟨h, _⟩ := passes_items_at (names_top r₂.model m.toplevels) m.itemPaths r₂ r (.refl _) hsc₂ hx₃
  intro d
  refine ⟨fun hd => ?_, fun hd => ?_⟩
  · obtain ⟨p, hp, hd⟩ := List.mem_flatMap.mp hd
    have hd := (hrem.items p d).mpr (mem_decls.mp hd)
    have hmet := h.met (.decl d) (List.mem_flatMap.mpr ⟨p, hp, by simp [hd, itemWork, Model.itemSites]⟩)
    refine (hmet.entered d .refl).resolve_left ?_
    rw [h.active, hstart]
    simp
  · rw [hstart] at h
    exact h.lexical rfl (by rw [← hsc₂, hr₂]; exact hn₁) hd

theorem lexical_sortOverloads (hl : m.Lexical tops d) : m.sortOverloads.Lexical tops d := by
  have hs : Same m m.sortOverloads := 
    ⟨⟨rfl, rfl, rfl, rfl, rfl, rfl, fun _ => rfl, (Model.Alike.refl m).kind⟩, fun _ _ => Iff.rfl⟩
  exact fun e name b hu hk hns => hl e name b (hs.uses_iff.mp hu) hk fun hsh => hns (hs.shadowed hsh)

theorem extends_start (m : Model) : m.Extends m.withLibrary.sortOverloads :=
  m.extends_withLibrary.trans
    ⟨rfl, rfl, List.prefix_rfl, List.prefix_rfl, List.prefix_rfl, List.prefix_rfl⟩

-- The state in which a run begins after a model was checked.
structure Begun (m : Model) (r : Resolution) : Prop where
  start : r = { model := m.withLibrary.sortOverloads, scope := r.scope }
  scope : r.scope = (named m.withLibrary m.toplevels).reverse
  nodup : (r.scope.map (·.1)).Nodup

theorem toplevel_eq_ok {α : Type} {x : ResolveM α} {a : α} {order : List DeclId}
    (h : Check.toplevel x m = .ok (a, order) m') :
    ∃ r r', Begun m r ∧ x r = .ok a r' ∧ order = r'.order.toList ∧ r'.model = m' := by
  obtain ⟨r', hx, ho, hr⟩ := resolving_eq_ok
    (show ModelM.resolving _ m.withLibrary.sortOverloads = .ok (a, order) m' from h)
  have ⟨_, r, hdecl, hx⟩ := bind_eq_ok.mp hx
  have ⟨hstart, hn, hsc⟩ := declares_eq_ok (m := m.withLibrary.sortOverloads) []
    (fun _ => Model.isItem_of_mem) rfl rfl (by simp) hdecl
  refine ⟨r, r', ⟨hstart, ?_, hn⟩, hx, ho, hr⟩
  rw [hsc, (extends_start m).itemPaths_eq, funext (extends_start m).itemAt_eq]
  rfl

theorem Begun.model (h : Begun m r) : r.model = m.withLibrary.sortOverloads := by rw [h.start]

theorem Begun.passed {e : ExprId} (h : Begun m r) (hx : resolve (.expr e) r = .ok () r₁) :
    Passed r.model (named r.model m.toplevels).reverse [.expr e] [.expr e] r r₁ := by
  have hsc : r.scope = (named r.model m.toplevels).reverse := by
    rw [h.model]
    exact h.scope
  exact (passes_resolve (names_top r.model m.toplevels) [] (by simp) r r₁ (.refl _) hsc hx).1

theorem Begun.lexical {e : ExprId} (h : Begun m r) (hx : resolve (.expr e) r = .ok () r₁)
    (hd : d ∈ r₁.order ∨ m.withLibrary.Lexical m.toplevels d) : r₁.model.Lexical m.toplevels d := by
  have hp := h.passed hx
  have hn : ((named r.model m.toplevels).reverse.map (·.1)).Nodup := by
    rw [h.model]
    exact h.scope ▸ h.nodup
  cases hd
  case inl hd =>
    rw [show r = { r with order := #[], active := [] } by rw [h.start]] at hp
    exact hp.lexical rfl hn hd
  case inr hl => exact hp.keeps_lexical rfl hn rfl (h.model ▸ lexical_sortOverloads hl)

theorem resolveAssigned_eq_ok {a : Assignment} {span : Span}
    (hx : resolveAssigned a span r = .ok d r₁) : resolve (.expr a.value) r = .ok () r₁ := by
  have hend : ∀ {c r₀}, (resolve (.expr a.value) >>= fun _ => pure c : ResolveM DeclId) r₀ = .ok d r₁ →
      resolve (.expr a.value) r₀ = .ok () r₁ := by
    intro c r₀ hx
    have ⟨_, r₂, hx, hp⟩ := bind_eq_ok.mp hx
    exact (pure_eq_ok.mp hp).2 ▸ hx
  cases ha : a.decl
  case some c => exact hend (c := c) (by simpa [resolveAssigned, ha] using hx)
  case none =>
    rw [resolveAssigned, ha] at hx
    have ⟨c, r₀, hl, hx⟩ := bind_eq_ok.mp hx
    exact (lookup_eq hl).1 ▸ hend hx

end Runs

end Resolve

open Resolve

-- In each run of the resolver the declarations that it comes to are bound to the top wherever nothing
-- shadows it, and so are those that were so before. A run over all items comes to all declarations.
theorem resolution_lexical (m m' : Model) (order : List DeclId) :
    (ModelM.resolving (resolveItems m.itemPaths) m = .ok ((), order) m' →
      ∀ d ∈ m.toplevels, d ∈ order ∧ m'.Lexical m.toplevels d) ∧
    (∀ e, Check.toplevel (resolve (.expr e)) m = .ok ((), order) m' →
      ∀ d, d ∈ order ∨ m.withLibrary.Lexical m.toplevels d → m'.Lexical m.toplevels d) ∧
    ∀ a span c, Check.toplevel (resolveAssigned a span) m = .ok (c, order) m' →
      ∀ d, d ∈ order ∨ m.withLibrary.Lexical m.toplevels d → m'.Lexical m.toplevels d := by
  refine ⟨fun h d hd => ?_, fun e h d hd => ?_, fun a span c h d hd => ?_⟩
  · obtain ⟨r, hx, rfl, rfl⟩ := resolving_eq_ok h
    have ⟨ho, hl⟩ := resolveItems_lexical hx d
    exact ⟨Array.mem_toList_iff.mpr (ho hd), hl (ho hd)⟩
  · obtain ⟨r, r', hr, hx, rfl, rfl⟩ := toplevel_eq_ok h
    exact hr.lexical hx (hd.imp_left Array.mem_toList_iff.mp)
  · obtain ⟨r, r', hr, hx, rfl, rfl⟩ := toplevel_eq_ok h
    have hx := resolveAssigned_eq_ok hx
    exact hr.lexical hx (hd.imp_left Array.mem_toList_iff.mp)

section Shadow

-- `int: x = 1; int: y = x; constraint let { int: x = 2 } in x;` and an expression `y`, with what the
-- three identifiers are bound to.
def shadowModel (use inner later : Option DeclId) (origins : List (Option ExprId)) : Model where
  exprs := #[{ kind := .int 1 }, { kind := .ident "x" use }, { kind := .int 2 },
    { kind := .ident "x" inner }, { kind := .letIn ⟨[.decl ⟨2⟩], ⟨3⟩, origins⟩ },
    { kind := .ident "y" later }]
  decls := #[{ name := "x", ti := ⟨0⟩, init := some ⟨0⟩, toplevel := true },
    { name := "y", ti := ⟨1⟩, init := some ⟨1⟩, toplevel := true },
    { name := "x", ti := ⟨2⟩, init := some ⟨2⟩ }]
  typeInsts := #[{ ty := .parInt }, { ty := .parInt }, { ty := .parInt }]
  items := #[{ item := .decl ⟨0⟩ }, { item := .decl ⟨1⟩ }, { item := .constraint ⟨4⟩ }]
  overloads := [("int2float", [])]

-- What the body of the let leads to.
def aroundLet : List Site :=
  [.expr ⟨3⟩, .decl ⟨0⟩, .decl ⟨2⟩, .expr ⟨0⟩, .expr ⟨2⟩, .typeInst ⟨0⟩, .typeInst ⟨2⟩]

section

variable (use inner later : Option DeclId) (origins : List (Option ExprId))

theorem leads_aroundLet {a b : Site} (ha : a ∈ aroundLet)
    (h : (shadowModel use inner later origins).Leads a b) : b ∈ aroundLet := by
  cases h with
  | part hb =>
    have hu : ∀ a ∈ aroundLet,
        (shadowModel use inner later origins).uses a = (shadowModel none none none []).uses a := by
      simp only [aroundLet, List.forall_mem_cons]
      exact ⟨rfl, rfl, rfl, rfl, rfl, rfl, rfl, by simp⟩
    have hin : ∀ a ∈ aroundLet, ∀ b ∈ (shadowModel none none none []).uses a, b ∈ aroundLet := by decide
    exact hin a ha b (hu a ha ▸ hb)
  | @name e d hn =>
    have he : e = ⟨3⟩ ∨ e = ⟨0⟩ ∨ e = ⟨2⟩ := by simpa [aroundLet] using ha
    obtain rfl | rfl | rfl := he
    · have hd : "x" = ((shadowModel use inner later origins).decl d).name := Option.some.inj hn
      obtain ⟨i⟩ := d
      match i with
      | 0 | 2 => decide
      | 1 => exact absurd hd (show ¬"x" = "y" by decide)
      | _ + 3 => exact absurd hd (show ¬"x" = "" by decide)
    all_goals cases hn

-- The local `x` does not get into the initializer of `y`.
theorem not_shadowed_use : ¬(shadowModel use inner later origins).Shadowed "x" (.expr ⟨1⟩) := by
  rintro ⟨d, -, c, hc, hl⟩
  have hstart : c ∈ aroundLet := by
    obtain ⟨⟨i⟩, he⟩ | ⟨f, hf, _⟩ := hc
    · match i with
      | 0 | 1 | 2 | 3 | 5 | _ + 6 => cases he
      | 4 =>
        have he : (d, c) ∈ [(⟨2⟩, .expr ⟨3⟩)] := he
        simp_all [aroundLet]
    · cases hf
  have hin : ∀ s, Relation.ReflTransGen (shadowModel use inner later origins).Leads c s → s ∈ aroundLet := by
    intro s hs
    induction hs with
    | refl => exact hstart
    | tail _ hbc ih => exact leads_aroundLet _ _ _ _ ih hbc
  exact absurd (hin _ hl) (by decide)

end

-- In each of the runs `y` refers to the `x` at the top, also while another is in scope elsewhere.
theorem resolution_lexical_shadow :
    let m := shadowModel none none none []
    let first := shadowModel (some ⟨0⟩) (some ⟨2⟩) none [some ⟨2⟩]
    let typed := shadowModel (some ⟨0⟩) none (some ⟨1⟩) []
    let assigned := shadowModel (some ⟨0⟩) (some ⟨2⟩) (some ⟨1⟩) [some ⟨2⟩]
    ModelM.resolving (resolveItems m.itemPaths) m = .ok ((), [⟨0⟩, ⟨1⟩, ⟨2⟩]) first ∧
    Check.toplevel (resolve (.expr ⟨5⟩)) m = .ok ((), [⟨0⟩, ⟨1⟩]) typed ∧
    Check.toplevel (resolveAssigned ⟨"x", ⟨5⟩, none⟩ {}) first = .ok (⟨0⟩, [⟨0⟩, ⟨1⟩]) assigned ∧
    ∀ m' ∈ [first, typed, assigned], m'.Uses (.decl ⟨1⟩) (.expr ⟨1⟩) ∧
      m'.kind ⟨1⟩ = .ident "x" (some ⟨0⟩) ∧ ¬m'.Shadowed "x" (.expr ⟨1⟩) ∧ m'.Lexical m.toplevels ⟨1⟩ := by
  intro m first typed assigned
  have h₁ : ModelM.resolving (resolveItems m.itemPaths) m = .ok ((), [⟨0⟩, ⟨1⟩, ⟨2⟩]) first := by cbv
  have h₂ : Check.toplevel (resolve (.expr ⟨5⟩)) m = .ok ((), [⟨0⟩, ⟨1⟩]) typed := by cbv
  have h₃ : Check.toplevel (resolveAssigned ⟨"x", ⟨5⟩, none⟩ {}) first =
      .ok (⟨0⟩, [⟨0⟩, ⟨1⟩]) assigned := by cbv
  have hfirst := ((resolution_lexical m first _).1 h₁ ⟨1⟩ (by decide)).2
  have htyped := (resolution_lexical m typed _).2.1 _ h₂ ⟨1⟩ (.inl (by decide))
  have hassigned := (resolution_lexical first assigned _).2.2 _ _ _ h₃ ⟨1⟩ (.inl (by decide))
  have huse : ∀ m' ∈ [first, typed, assigned], .expr ⟨1⟩ ∈ m'.uses (.decl ⟨1⟩) := by decide
  refine ⟨h₁, h₂, h₃, fun m' hm => ⟨.single (huse m' hm), ?_⟩⟩
  obtain rfl | rfl | rfl : m' = first ∨ m' = typed ∨ m' = assigned := by simpa using hm
  · exact ⟨rfl, not_shadowed_use _ _ _ _, hfirst⟩
  · exact ⟨rfl, not_shadowed_use _ _ _ _, htyped⟩
  · exact ⟨rfl, not_shadowed_use _ _ _ _, hassigned⟩

end Shadow

section Capture

-- `constraint let { int: x = 5 } in y; int: x = 1; int: y = x;`, with what `x` and `y` are bound to.
def captureModel (use inner : Option DeclId) (origins : List (Option ExprId)) : Model where
  exprs := #[{ kind := .int 1 }, { kind := .ident "x" use }, { kind := .int 5 },
    { kind := .ident "y" inner }, { kind := .letIn ⟨[.decl ⟨2⟩], ⟨3⟩, origins⟩ }]
  decls := #[{ name := "x", ti := ⟨0⟩, init := some ⟨0⟩, toplevel := true },
    { name := "y", ti := ⟨1⟩, init := some ⟨1⟩, toplevel := true },
    { name := "x", ti := ⟨2⟩, init := some ⟨2⟩ }]
  typeInsts := #[{ ty := .parInt }, { ty := .parInt }, { ty := .parInt }]
  items := #[{ item := .constraint ⟨4⟩ }, { item := .decl ⟨0⟩ }, { item := .decl ⟨1⟩ }]

-- The initializer of `y` is the identifier `x` alone, and there is an `x` at the top. It is bound to the
-- one of the let nevertheless.
theorem resolution_captures :
    let m := captureModel none none []
    let m' := captureModel (some ⟨2⟩) (some ⟨1⟩) [some ⟨2⟩]
    ModelM.resolving (resolveItems m.itemPaths) m = .ok ((), [⟨2⟩, ⟨1⟩, ⟨0⟩]) m' ∧
      m.toplevels = [⟨0⟩, ⟨1⟩] ∧ (m'.decl ⟨0⟩).name = "x" ∧
      m'.uses (.decl ⟨1⟩) = [.typeInst ⟨1⟩, .expr ⟨1⟩] ∧ m'.kind ⟨1⟩ = .ident "x" (some ⟨2⟩) := by
  intro m m'
  have h : ModelM.resolving (resolveItems m.itemPaths) m = .ok ((), [⟨2⟩, ⟨1⟩, ⟨0⟩]) m' := by cbv
  exact ⟨h, by decide, rfl, rfl, rfl⟩

end Capture
end Parvar
