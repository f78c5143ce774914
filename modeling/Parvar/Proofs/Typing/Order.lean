import Parvar.Proofs.Model.Extension
import Parvar.Proofs.Model.Traversal
import Parvar.Proofs.Resolve.Items
import Parvar.Proofs.Typing.Tracked

/-!
The order of declarations that a check reports. Each declaration stands after all that its type-inst
and its initializer refer to, in the report and among the items of the checked model.
-/

namespace Parvar

open World Resolve

section Definitions

variable (m : Model) (d : DeclId)

-- An expression stands in the type-inst or in the initializer of a declaration.
def Model.Mentions (e : ExprId) : Prop := ∃ s ∈ m.needs d, m.Uses s (.expr e)

def Model.RefersTo (c : DeclId) : Prop :=
  ∃ e name, m.Mentions d e ∧ m.kind e = .ident name (some c)

end Definitions

variable {m m₁ m' : Model} {c d : DeclId} {ds order : List DeclId} {paths : List ItemPath}
  {r : Resolution} {S : Set Site}

theorem Model.mem_itemPaths_root {k : Nat} (h : m.itemAt? ⟨none, k⟩ = some (.decl d)) :
    ⟨none, k⟩ ∈ m.itemPaths := by
  obtain ⟨s, hs, hitem⟩ := Option.bind_eq_some_iff.mp h
  obtain ⟨hrem, hitem⟩ : s.removed = false ∧ s.item = .decl d := by simpa using hitem
  have hown : s.isOwn := Slot.isOwn_iff.mpr ⟨hrem, by simp [hitem]⟩
  exact m.mem_itemPaths.mpr ⟨.refl, mem_pathsOf.mpr ⟨s, hs, hown⟩⟩

section Checking

-- A run that ends well leads from a closed world to a closed world.
theorem World.Closed.checking {o : Option DeclId} {x : CheckM Unit} {errors : List TypeError}
    (hx : ∀ w, (World.regime o ds).Allows w x) (hc : Closed o ds ⟨m, S⟩) (h : ModelM.checking x m = .ok errors m') :
    ∃ S', Grown ⟨m, S⟩ ⟨m', S'⟩ ∧ Closed o ds ⟨m', S'⟩ := by
  simp only [ModelM.checking] at h
  split at h
  · next st hok =>
    cases h
    obtain ⟨w, hg, hw, -⟩ := hx _ { model := m } ⟨m, S⟩ (.refl _) ⟨rfl, rfl, hc⟩
    rw [final_of_ok hok] at hw
    exact ⟨w.sites, ⟨hw.items.trans hg.items, hw.size ▸ hg.size, hg.sub, hg.fresh⟩, hw.closed⟩
  · cases h

theorem World.Closed.mentions {e : ExprId} (hc : Closed (some d) ds ⟨m, S⟩) (he : m.Mentions d e) : .expr e ∈ S := by
  have ⟨s, hs, hu⟩ := he
  have hin : ∀ {b}, m.Uses s b → b ∈ S := by
    intro b hb
    induction hb with
    | refl => exact hc.needs d rfl s hs
    | tail _ hbc ih => exact hc.uses _ ih _ hbc
  exact hin hu

end Checking

section Resolution

theorem World.Closed.of_inv (h : m.SinglePlace (m.rootsAt paths)) (hi : Inv m (m.rootsAt paths) r)
    {pre post : List DeclId} (ho : r.order.toList = pre ++ d :: post) :
    Closed (some d) pre ⟨r.model, { s | ∃ n ∈ m.needs d, m.Uses n s }⟩ := by
  have hneeds : r.model.needs d = m.needs d := by
    simp [Model.needs, Model.decl, hi.alike.decls]
  have huses : ∀ {s c}, c ∈ r.model.uses s → c ∈ m.uses s := by
    intro s c hc
    cases s
    case decl | typeInst =>
      simpa [Model.uses, Model.partsBy, Model.needs, Model.decl, Model.typeInst, hi.alike.decls,
        hi.alike.typeInsts] using hc
    case expr e =>
      rw [Model.uses, Model.partsBy, hi.alike.ann] at hc
      cases List.mem_append.mp hc
      case inl hc => exact List.mem_append_left _ (((hi.alike.kind e).parts _).mem_iff.mpr hc)
      case inr hc => exact List.mem_append_right _ hc
  have hd : d ∈ r.order := by
    rw [← Array.mem_toList_iff, ho]
    simp
  have hreached := (hi.entered d (.inr hd)).1
  refine ⟨?_, ?_, ?_, ?_⟩
  · rintro _ ⟨⟩ s hs
    exact ⟨s, hneeds ▸ hs, .refl⟩
  · rintro s ⟨n, hn, hs⟩ c hc
    exact ⟨n, hn, hs.tail (huses hc)⟩
  · rintro e ⟨n, hn, he⟩ name b hb
    exact hi.sorted pre d post ho n hn e he name b hb
  · rintro e ⟨n, hn, he⟩
    have hpart : n ∈ m.parts (.decl d) := by
      rw [Model.parts_decl]
      exact List.mem_append_left _ hn
    have hpresent := h.present ((hreached.part hpart).contains he.contains)
    exact Nat.lt_of_lt_of_eq hpresent hi.alike.size.symm

end Resolution

section Check

variable {opts : CheckOptions} {allowUndefined : Bool} {report : Report}

theorem resolving_eq_ok {α : Type} {x : ResolveM α} {a : α × List DeclId}
    (h : ModelM.resolving x m = .ok a m') :
    ∃ r, x { model := m } = .ok a.1 r ∧ a.2 = r.order.toList ∧ r.model = m' := by
  simp only [ModelM.resolving] at h
  split at h
  · next r hx =>
    cases h
    exact ⟨r, hx, rfl, rfl⟩
  · cases h

-- The stages of a check that ends well.
theorem items_eq_ok (h : Check.items allowUndefined m = .ok report m') :
    ∃ r, Check.resolveItems m.itemPaths { model := m } = .ok () r ∧ report.order = r.order.toList ∧
      ∃ e₁ e₂ e₃ m₁ m₂,
        ModelM.checking (Check.declareAll report.order (Check.funcs m m.itemPaths))
          (Check.sortItems report.order r.model.sortOverloads) = .ok e₁ m₁ ∧
        ModelM.checking Check.checkAll m₁ = .ok e₂ m₂ ∧
        ModelM.checking (report.order.forM (Check.defined allowUndefined)) m₂ = .ok e₃ m' ∧
        report.errors = Check.repeatedItems m m.itemPaths ++ e₁ ++ e₂ ++ e₃ := by
  rw [Check.items, get_bind] at h
  have ⟨⟨⟨⟩, order⟩, m₁, hr, h⟩ := bind_eq_ok.mp h
  obtain ⟨r, hx, rfl, rfl⟩ := resolving_eq_ok hr
  have ⟨_, m₂, hs, h⟩ := bind_eq_ok.mp h
  cases hs
  have ⟨e₁, m₃, h₁, h⟩ := bind_eq_ok.mp h
  have ⟨e₂, m₄, h₂, h⟩ := bind_eq_ok.mp h
  have ⟨e₃, m₅, h₃, h⟩ := bind_eq_ok.mp h
  obtain ⟨rfl, rfl⟩ := pure_eq_ok.mp h
  exact ⟨r, hx, rfl, e₁, e₂, e₃, m₃, m₄, h₁, h₂, h₃, rfl⟩

theorem check_eq_ok (h : check opts m = .ok report m') :
    ∃ m₀, m.Extends m₀ ∧ Check.items opts.allowUndefined m₀ = .ok report m' := by
  rw [check] at h
  split at h
  · exact ⟨m.withLibrary, m.extends_withLibrary, h⟩
  · exact ⟨m, .refl m, h⟩

end Check

section Sorting

variable {m₀ : Model} {k l : Nat} {p : ItemPath}

theorem itemAt_none_iff {item : Item} :
    m.itemAt? ⟨none, k⟩ = some item ↔ ∃ s, m.items[k]? = some s ∧ s.removed = false ∧ s.item = item := by
  simp [Model.itemAt?, Model.slot?, Model.itemsOf, Option.bind_eq_some_iff]

-- Sorting moves the items and keeps them.
theorem itemAt_sortItems {item : Item} (h : (Check.sortItems order m).itemAt? ⟨none, k⟩ = some item) :
    ∃ l, m.itemAt? ⟨none, l⟩ = some item := by
  have ⟨s, hs, hitem⟩ := itemAt_none_iff.mp h
  have hs : (m.items.toList.mergeSort (Check.slotLe order))[k]? = some s := by
    simpa [Check.sortItems] using hs
  have hmem : s ∈ m.items := by simpa using List.mem_of_getElem? hs
  have ⟨l, hl⟩ := Array.getElem?_of_mem hmem
  exact ⟨l, itemAt_none_iff.mpr ⟨s, hl, hitem⟩⟩

theorem sortItems_le (h₁ : (Check.sortItems order m).itemAt? ⟨none, k⟩ = some (.decl d))
    (h₂ : (Check.sortItems order m).itemAt? ⟨none, l⟩ = some (.decl c)) (hkl : k < l) :
    order.idxOf d ≤ order.idxOf c := by
  have ⟨s, hs, _, hsd⟩ := itemAt_none_iff.mp h₁
  have ⟨t, ht, _, htc⟩ := itemAt_none_iff.mp h₂
  have hsorted : (m.items.toList.mergeSort (Check.slotLe order)).Pairwise
      fun a b => Check.slotLe order a b := by
    apply List.pairwise_mergeSort
    · intro a b c
      simp only [Check.slotLe, Bool.or_eq_true, Bool.and_eq_true, decide_eq_true_eq]
      omega
    · intro a b
      simp only [Check.slotLe, Bool.or_eq_true, Bool.and_eq_true, decide_eq_true_eq]
      omega
  simp only [Check.sortItems, List.getElem?_toArray] at hs ht
  have ⟨hk, hs⟩ := List.getElem?_eq_some_iff.mp hs
  have ⟨hl, ht⟩ := List.getElem?_eq_some_iff.mp ht
  have hle := List.pairwise_iff_getElem.mp hsorted k l hk hl hkl
  simpa [hs, ht, Check.slotLe, Check.itemKey, hsd, htc] using hle

end Sorting

section Order

variable {opts : CheckOptions} {allowUndefined : Bool} {report : Report}

-- The stages of typing, one after the other.
theorem World.Closed.typed {o : Option DeclId} {fs : List FuncId} {e₁ e₂ e₃ : List TypeError}
    {m₂ m₃ : Model} (hc : Closed o ds ⟨m, S⟩)
    (h₁ : ModelM.checking (Check.declareAll order fs) (Check.sortItems order m.sortOverloads) =
      .ok e₁ m₂)
    (h₂ : ModelM.checking Check.checkAll m₂ = .ok e₂ m₃)
    (h₃ : ModelM.checking (order.forM (Check.defined allowUndefined)) m₃ = .ok e₃ m') :
    m'.items = (Check.sortItems order m).items ∧ ∃ S', Closed o ds ⟨m', S'⟩ := by
  have hc : Closed o ds ⟨Check.sortItems order m.sortOverloads, S⟩ :=
    ⟨hc.needs, hc.uses, hc.bound, hc.present⟩
  have ⟨S₁, hg₁, hc₁⟩ := hc.checking (fun w => regime_whole.declareAll order fs) h₁
  have ⟨S₂, hg₂, hc₂⟩ := hc₁.checking (fun w => regime_whole.checkAll) h₂
  have ⟨S₃, hg₃, hc₃⟩ := hc₂.checking (fun w => .forM fun c _ => regime_whole.defined allowUndefined c) h₃
  exact ⟨(hg₁.trans (hg₂.trans hg₃)).items, S₃, hc₃⟩

theorem closed_empty (m : Model) : Closed none [] ⟨m, ∅⟩ where
  needs _ hc := by cases hc
  uses _ hs := hs.elim
  bound _ he := he.elim
  present _ he := he.elim

-- What a check leads to if the items are placed well.
structure Ordered (m : Model) (order : List DeclId) (m' : Model) : Prop where
  nodup : order.Nodup
  visited : ∀ p ∈ m.itemPaths, ∀ d, m.itemAt? p = some (.decl d) → d ∈ order
  closed : ∀ pre d post, order = pre ++ d :: post → ∃ S, Closed (some d) pre ⟨m', S⟩
  items : ∃ m₁, m'.items = (Check.sortItems order m₁).items ∧
    ∀ k c, m₁.itemAt? ⟨none, k⟩ = some (.decl c) → c ∈ order

theorem items_ordered (hm : m.SinglePlace (m.rootsAt m.itemPaths))
    (h : Check.items allowUndefined m = .ok report m') : Ordered m report.order m' := by
  have ⟨r, hr, ho, _, _, _, m₂, m₃, h₁, h₂, h₃, _⟩ := items_eq_ok h
  have ⟨m₁, hmerged, hinv, hall⟩ := resolveItems_inv hm hr
  have hall : ∀ p ∈ m.itemPaths, ∀ d, m.itemAt? p = some (.decl d) → d ∈ report.order :=
    fun p hp d hd => ho ▸ Array.mem_toList_iff.mpr (hall p hp d hd)
  refine ⟨ho ▸ hinv.nodup, hall, fun pre d post hd => ?_, r.model, ?_, fun k c hk => ?_⟩
  · exact ((Closed.of_inv hmerged.place hinv (ho ▸ hd)).typed h₁ h₂ h₃).2
  · exact ((closed_empty r.model).typed h₁ h₂ h₃).1
  · have hk : m₁.itemAt? ⟨none, k⟩ = some (.decl c) :=
      itemAt_none_iff.mpr (hinv.alike.items ▸ itemAt_none_iff.mp hk)
    have hk := (hmerged.decls _ c).mp hk
    exact hall _ (m.mem_itemPaths_root hk) c hk

theorem idxOf_lt_of_mem {pre post : List DeclId} (hn : (pre ++ d :: post).Nodup) (hc : c ∈ pre) :
    (pre ++ d :: post).idxOf c < (pre ++ d :: post).idxOf d := by
  have hd : d ∉ pre := fun hd => (List.nodup_append.mp hn).2.2 d hd d List.mem_cons_self rfl
  rw [List.idxOf_append_of_mem hc, List.idxOf_append_of_notMem hd]
  exact Nat.lt_of_lt_of_le (List.idxOf_lt_length_of_mem hc) (Nat.le_add_right _ _)

theorem Ordered.bound {e : ExprId} {name : String} {b : Option DeclId} (h : Ordered m order m')
    (hd : d ∈ order) (he : m'.Mentions d e) (hb : m'.kind e = .ident name b) :
    ∃ c, b = some c ∧ order.idxOf c < order.idxOf d := by
  have ⟨pre, post, ho⟩ := List.append_of_mem hd
  have ⟨S, hc⟩ := h.closed pre d post ho
  have ⟨c, hpre, hbc⟩ := hc.bound e (hc.mentions he) name b hb
  have hn := h.nodup
  rw [ho] at hn ⊢
  exact ⟨c, hbc, idxOf_lt_of_mem hn hpre⟩

theorem Ordered.items_sorted {i j : Nat} (h : Ordered m order m')
    (hi : m'.itemAt? ⟨none, i⟩ = some (.decl d)) (hj : m'.itemAt? ⟨none, j⟩ = some (.decl c))
    (hdc : m'.RefersTo d c) : j < i := by
  have ⟨m₁, hitems, hall⟩ := h.items
  have hi : (Check.sortItems order m₁).itemAt? ⟨none, i⟩ = some (.decl d) :=
    itemAt_none_iff.mpr (hitems ▸ itemAt_none_iff.mp hi)
  have hj : (Check.sortItems order m₁).itemAt? ⟨none, j⟩ = some (.decl c) :=
    itemAt_none_iff.mpr (hitems ▸ itemAt_none_iff.mp hj)
  have ⟨k, hk⟩ := itemAt_sortItems hi
  have ⟨e, name, he, hb⟩ := hdc
  have ⟨b, hbc, hlt⟩ := h.bound (hall k d hk) he hb
  cases hbc
  by_contra hij
  cases Nat.lt_or_eq_of_le (Nat.le_of_not_lt hij)
  case inl hij => exact Nat.not_lt_of_le (sortItems_le hi hj hij) hlt
  case inr hij =>
    cases hij
    cases hi.symm.trans hj
    exact Nat.lt_irrefl _ hlt

-- The order of a check is topological, and the items of the root are in that order.
theorem check_order_topological (hm : m.WellPlaced) (h : check opts m = .ok report m') :
    report.order.Nodup ∧
    (∀ p ∈ m.itemPaths, ∀ d, m.itemAt? p = some (.decl d) → report.order.count d = 1) ∧
    (∀ d ∈ report.order, ∀ e name b, m'.Mentions d e → m'.kind e = .ident name b →
      ∃ c, b = some c ∧ report.order.idxOf c < report.order.idxOf d) ∧
    ∀ i j d c, m'.itemAt? ⟨none, i⟩ = some (.decl d) → m'.itemAt? ⟨none, j⟩ = some (.decl c) →
      m'.RefersTo d c → j < i := by
  have ⟨m₀, hext, h⟩ := check_eq_ok h
  have ho := items_ordered (hm.extends hext).place h
  refine ⟨ho.nodup, fun p hp d hd => ?_, fun d hd e name b => ho.bound hd, fun i j d c => ho.items_sorted⟩
  rw [← hext.itemPaths_eq] at hp
  rw [← hext.itemAt_eq] at hd
  exact List.count_eq_one_of_mem ho.nodup (ho.visited p hp d hd)

end Order

section Chain

-- `int: a = b` before `int: b = 1`.
def chainModel : Model where
  exprs := #[{ kind := .ident "b" none }, { kind := .int 1, ty := .parInt }]
  decls := #[{ name := "a", ti := ⟨0⟩, init := some ⟨0⟩, toplevel := true },
    { name := "b", ti := ⟨1⟩, init := some ⟨1⟩, toplevel := true }]
  typeInsts := #[{ ty := .parInt }, { ty := .parInt }]
  items := #[{ item := .decl ⟨0⟩ }, { item := .decl ⟨1⟩ }]

theorem wellPlaced_chain : chainModel.WellPlaced where
  place := .of_nodup [.decl ⟨0⟩, .decl ⟨1⟩, .expr ⟨0⟩, .expr ⟨1⟩, .typeInst ⟨0⟩, .typeInst ⟨1⟩]
    (by decide) (by decide) (by decide) (by decide)
  funcs p hp f hf := by
    have hp : p = ⟨none, 0⟩ ∨ p = ⟨none, 1⟩ := by
      rw [show chainModel.itemPaths = [⟨none, 0⟩, ⟨none, 1⟩] by decide] at hp
      simpa using hp
    obtain rfl | rfl := hp
    all_goals cases hf

-- The same after a check: `b` is bound, typed and first.
def orderedChain : Model where
  exprs := #[{ kind := .ident "b" (some ⟨1⟩), ty := .parInt }, { kind := .int 1, ty := .parInt }]
  decls := #[{ name := "a", ti := ⟨0⟩, init := some ⟨0⟩, toplevel := true, ty := .parInt },
    { name := "b", ti := ⟨1⟩, init := some ⟨1⟩, toplevel := true, ty := .parInt }]
  typeInsts := #[{ ty := .parInt }, { ty := .parInt }]
  items := #[{ item := .decl ⟨1⟩ }, { item := .decl ⟨0⟩ }]

theorem check_order_topological_chain :
    check { library := false } chainModel = .ok ⟨[], [⟨1⟩, ⟨0⟩]⟩ orderedChain ∧
      orderedChain.itemAt? ⟨none, 1⟩ = some (.decl ⟨0⟩) ∧ orderedChain.RefersTo ⟨0⟩ ⟨1⟩ ∧
      ∀ j, orderedChain.itemAt? ⟨none, j⟩ = some (.decl ⟨1⟩) → j < 1 := by
  have hx : check { library := false } chainModel = .ok ⟨[], [⟨1⟩, ⟨0⟩]⟩ orderedChain := by cbv
  have hb : orderedChain.RefersTo ⟨0⟩ ⟨1⟩ := ⟨⟨0⟩, "b", ⟨.expr ⟨0⟩, by decide, .refl⟩, rfl⟩
  obtain ⟨_, _, _, hitems⟩ := check_order_topological wellPlaced_chain hx
  exact ⟨hx, rfl, hb, fun j hj => hitems 1 j _ _ rfl hj hb⟩

end Chain
end Parvar
