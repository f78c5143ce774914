import Parvar.Proofs.Model.Place
import Parvar.Proofs.Outcome
import Parvar.Resolve.Walk

/-!
What resolution may change while it is at some nodes: what is below these nodes, and what is below
the declarations in scope that it has not entered yet. In a model where each node has one place,
nodes side by side are resolved without disturbing each other.
-/

namespace Parvar

-- The same but for what a name is bound to and for the order of the items of a let.
structure ExprKind.Alike (k k' : ExprKind) : Prop where
  parts : ∀ gen, (k.parts gen).Perm (k'.parts gen)
  name : k.name? = k'.name?

structure Model.Alike (m m' : Model) : Prop where
  items : m'.items = m.items
  submodels : m'.submodels = m.submodels
  funcs : m'.funcs = m.funcs
  decls : m'.decls = m.decls
  typeInsts : m'.typeInsts = m.typeInsts
  size : m'.exprs.size = m.exprs.size
  ann : ∀ e, (m'.expr e).ann = (m.expr e).ann
  kind : ∀ e, (m.kind e).Alike (m'.kind e)

namespace Resolution

def InScope (r : Resolution) (d : DeclId) : Prop := ∃ name, (name, d) ∈ r.scope

def Entered (r : Resolution) (d : DeclId) : Prop := d ∈ r.active ∨ d ∈ r.order

end Resolution

namespace Resolve

section Definitions

variable (m : Model) (roots : List Site) (r : Resolution)

-- All declarations that a node stands in have been entered.
def Above (s : Site) : Prop :=
  ∀ d c, m.Part roots (.decl d) c → m.Below roots c s → r.Entered d

-- In addition, those that need the node have not been left.
def Open (s : Site) : Prop :=
  ∀ d c, m.Part roots (.decl d) c → m.Below roots c s → r.Entered d ∧ (c ∈ m.needs d → d ∈ r.active)

-- Nodes that can be resolved next, in any order.
structure Ready (ws : List Site) : Prop where
  reached : ∀ w ∈ ws, m.Reached roots w
  above : ∀ w ∈ ws, Above m roots r w
  fresh : ∀ w ∈ ws, ∀ d, m.Below roots w (.decl d) → ¬r.Entered d ∧ ¬r.InScope d
  apart : ws.Pairwise (m.Apart roots)

def Territory (ws : List Site) (s : Site) : Prop :=
  (∃ w ∈ ws, m.Below roots w s) ∨ ∃ d, r.InScope d ∧ ¬r.Entered d ∧ m.Below roots (.decl d) s

-- From `r` to `r'` the nodes `ws` were resolved, the kinds of `own` were set, and `ds` came into
-- scope.
structure Walked (own : List ExprId) (ws : List Site) (ds : List DeclId) (r' : Resolution) :
    Prop where
  scope : r'.scope = (ds.map fun d => ((m.decl d).name, d)).reverse ++ r.scope
  pushed : ∀ d ∈ ds, .decl d ∈ ws
  order : r.order.toList <+: r'.order.toList
  mono : ∀ d, r.Entered d → r'.Entered d
  entered : ∀ d, r'.Entered d → r.Entered d ∨ Territory m roots r ws (.decl d)
  kept : ∀ e, r'.model.kind e = r.model.kind e ∨ e ∈ own ∨ Territory m roots r ws (.expr e)

-- The identifiers below a node are bound to declarations among the given ones.
def Bound (m' : Model) (ds : List DeclId) (s : Site) : Prop :=
  ∀ e, m.Uses s (.expr e) → ∀ name b, m'.kind e = .ident name b → ∃ d ∈ ds, b = some d

-- A node is done when the declarations that it has, and those that it refers to, are in the order.
structure Done (s : Site) : Prop where
  bound : Bound m r.model r.order.toList s
  decls : ∀ d, m.Uses s (.decl d) → d ∈ r.order

structure Inv : Prop where
  alike : m.Alike r.model
  nodup : r.order.toList.Nodup
  disjoint : ∀ d ∈ r.active, d ∉ r.order
  entered : ∀ d, r.Entered d → m.Reached roots (.decl d) ∧ Above m roots r (.decl d)
  scope : ∀ d, r.InScope d → m.Reached roots (.decl d) ∧ Open m roots r (.decl d)
  sorted : ∀ pre d post, r.order.toList = pre ++ d :: post → ∀ s ∈ m.needs d, Bound m r.model pre s

end Definitions

variable {m : Model} {roots : List Site} {r r₁ r₂ : Resolution} {s w : Site} {c d : DeclId}
  {e : ExprId} {own own₁ own₂ : List ExprId} {ws ws₁ ws₂ : List Site} {ds ds₁ ds₂ : List DeclId}

section Open

theorem Open.above (h : Open m roots r s) : Above m roots r s :=
  fun d c hc hs => (h d c hc hs).1

theorem Open.mono (ha : r₁.active = r.active) (ho : ∀ d ∈ r.order, d ∈ r₁.order)
    (h : Open m roots r s) : Open m roots r₁ s :=
  fun d c hc hs => ⟨(h d c hc hs).1.imp (ha ▸ ·) (ho d), fun hn => ha ▸ (h d c hc hs).2 hn⟩

end Open

namespace Walked

theorem order_subset (h : Walked m roots r own ws ds r₁) : ∀ d ∈ r.order, d ∈ r₁.order :=
  fun _ ho => Array.mem_toList_iff.mp (h.order.subset (Array.mem_toList_iff.mpr ho))

theorem inScope (h : Walked m roots r own ws ds r₁) : r₁.InScope d → d ∈ ds ∨ r.InScope d := by
  rintro ⟨name, hd⟩
  simp only [h.scope, List.mem_append, List.mem_reverse, List.mem_map, Prod.mk.injEq] at hd
  exact hd.imp (fun ⟨_, hc, _, e⟩ => e ▸ hc) fun hs => ⟨name, hs⟩

theorem open_mono (h : Walked m roots r own ws ds r₁) (ha : r₁.active = r.active)
    (hs : Open m roots r s) : Open m roots r₁ s :=
  hs.mono ha h.order_subset

-- A later territory is part of the joint one: what came into scope in between was among the nodes.
theorem territory (h : Walked m roots r own ws₁ ds₁ r₁) (hs : Territory m roots r₁ ws₂ s) :
    Territory m roots r (ws₁ ++ ws₂) s := by
  cases hs
  case inl hw =>
    have ⟨w, hw, hs⟩ := hw
    exact .inl ⟨w, List.mem_append_right _ hw, hs⟩
  case inr hd =>
    have ⟨d, hd, hn, hs⟩ := hd
    cases h.inScope hd
    case inl hd => exact .inl ⟨_, List.mem_append_left _ (h.pushed d hd), hs⟩
    case inr hd => exact .inr ⟨d, hd, fun he => hn (h.mono d he), hs⟩

end Walked

theorem Territory.mono (hw : ws₁ ⊆ ws₂) : Territory m roots r ws₁ s → Territory m roots r ws₂ s :=
  .imp_left fun ⟨w, h, hs⟩ => ⟨w, hw h, hs⟩

theorem Walked.trans (h₁ : Walked m roots r own₁ ws₁ ds₁ r₁) (h₂ : Walked m roots r₁ own₂ ws₂ ds₂ r₂) :
    Walked m roots r (own₁ ++ own₂) (ws₁ ++ ws₂) (ds₁ ++ ds₂) r₂ where
  scope := by simp [h₂.scope, h₁.scope]
  pushed d hd := List.mem_append.mpr ((List.mem_append.mp hd).imp (h₁.pushed d) (h₂.pushed d))
  order := h₁.order.trans h₂.order
  mono d hd := h₂.mono d (h₁.mono d hd)
  entered d hd := by
    cases h₂.entered d hd
    case inl hd => exact (h₁.entered d hd).imp_right (.mono (List.subset_append_left _ _))
    case inr ht => exact .inr (h₁.territory ht)
  kept e := by
    simp only [List.mem_append]
    obtain hk₂ | ho | ht := h₂.kept e
    case inr.inl => exact .inr (.inl (.inr ho))
    case inr.inr => exact .inr (.inr (h₁.territory ht))
    obtain hk₁ | ho | ht := h₁.kept e
    · exact .inl (hk₂.trans hk₁)
    · exact .inr (.inl (.inl ho))
    · exact .inr (.inr (ht.mono (List.subset_append_left _ _)))

namespace Ready

theorem left (h : Ready m roots r (ws₁ ++ ws₂)) : Ready m roots r ws₁ where
  reached w hw := h.reached w (List.mem_append_left _ hw)
  above w hw := h.above w (List.mem_append_left _ hw)
  fresh w hw := h.fresh w (List.mem_append_left _ hw)
  apart := (List.pairwise_append.mp h.apart).1

theorem perm (hp : ws₁.Perm ws₂) (h : Ready m roots r ws₁) : Ready m roots r ws₂ where
  reached w hw := h.reached w (hp.mem_iff.mpr hw)
  above w hw := h.above w (hp.mem_iff.mpr hw)
  fresh w hw := h.fresh w (hp.mem_iff.mpr hw)
  apart := (hp.pairwise_iff (Std.Symm.symm _ _)).mp h.apart

-- Different nodes among these are apart.
theorem apart_of_ne (h : Ready m roots r ws) {w w' : Site} (hw : w ∈ ws) (hw' : w' ∈ ws)
    (hne : w ≠ w') : m.Apart roots w w' :=
  h.apart.forall hw hw' hne

variable (h : m.SinglePlace roots)

include h

-- What is below these nodes is not below a declaration that can be entered from elsewhere.
theorem outside (hr : Ready m roots r ws) (hw : w ∈ ws) (hs : m.Below roots w s)
    (hd : r.InScope d) (hn : ¬r.Entered d) : ¬m.Below roots (.decl d) s := by
  intro hds
  cases h.comparable hs hds
  case inl hwd => exact (hr.fresh w hw d hwd).2 hd
  case inr hdw =>
    cases hdw.cases_head
    case inl e => exact (hr.fresh w hw d (e ▸ .refl)).2 hd
    case inr hc => exact hn (hr.above w hw d _ hc.choose_spec.1 hc.choose_spec.2)

-- Nodes that were ready together with others are ready after these.
theorem after (hr : Ready m roots r (ws₁ ++ ws₂)) (hw : Walked m roots r own ws₁ ds₁ r₁) :
    Ready m roots r₁ ws₂ where
  reached w hm := hr.reached w (List.mem_append_right _ hm)
  above w hm d c hc hs := hw.mono d (hr.above w (List.mem_append_right _ hm) d c hc hs)
  fresh w hm d hd := by
    have hm' := List.mem_append_right ws₁ hm
    have ⟨_, _, hap⟩ := List.pairwise_append.mp hr.apart
    constructor
    · intro he
      obtain he | ⟨w', hw', hd'⟩ | ⟨c, hc, hn, hd'⟩ := hw.entered d he
      · exact (hr.fresh w hm' d hd).1 he
      · exact hap w' hw' w hm _ hd' hd trivial
      · exact hr.outside h hm' hd hc hn hd'
    · intro hs
      cases hw.inScope hs
      case inl hs => exact hap _ (hw.pushed d hs) w hm _ .refl hd trivial
      case inr hs => exact (hr.fresh w hm' d hd).2 hs
  apart := (List.pairwise_append.mp hr.apart).2.1

end Ready

namespace Done

variable (h : m.SinglePlace roots)

include h

-- What is done stays so while other nodes are resolved.
theorem after (hr : Ready m roots r (ws₁ ++ ws₂)) (hw₁ : Walked m roots r own ws₁ ds₁ r₁)
    (hw₂ : Walked m roots r₁ [] ws₂ ds₂ r₂) (hw : w ∈ ws₁) (hd : Done m r₁ w) : Done m r₂ w where
  decls d hs := hw₂.order_subset d (hd.decls d hs)
  bound e he name b hk := by
    have hm := List.mem_append_left ws₂ hw
    have hbe : m.Below roots w (.expr e) := he.contains.below (hr.reached w hm) (.of_isNode trivial)
    obtain hkept | ho | ⟨w', hw', hs⟩ | ⟨d, hsc, hn, hs⟩ := hw₂.kept e
    · have ⟨d, hdo, hb⟩ := hd.bound e he name b (hkept ▸ hk)
      exact ⟨d, hw₂.order.subset hdo, hb⟩
    · simp at ho
    · exact ((List.pairwise_append.mp hr.apart).2.2 w hw w' hw' _ hbe hs trivial).elim
    · cases hw₁.inScope hsc
      case inr hsc =>
        exact (hr.outside h hm hbe hsc (fun he => hn (hw₁.mono d he)) hs).elim
      case inl hpd =>
        -- A declaration that was brought into scope unentered is not among those done.
        have hne : w ≠ .decl d := by
          rintro rfl
          exact hn (.inr (hd.decls d .refl))
        have hmd := List.mem_append_left ws₂ (hw₁.pushed d hpd)
        exact (hr.apart_of_ne hm hmd hne _ hbe hs trivial).elim

end Done
end Resolve
end Parvar
