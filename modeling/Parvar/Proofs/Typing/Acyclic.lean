import Parvar.Proofs.Resolve.Scoping

/-!
Assignments that come after a check. Each of them is resolved on its own, with no regard for the
declaration that it is to. So the only circles that it can close are those through that declaration,
and as long as there are none of these, definitions stay free of circles.
-/

namespace Parvar

open World Resolve

section Definitions

def Model.DependsOn (m : Model) : DeclId → DeclId → Prop := Relation.TransGen m.RefersTo

-- The declarations refer to each other only, and not in a circle.
structure Model.Acyclic (m : Model) (ds : List DeclId) : Prop where
  closed : ∀ x ∈ ds, ∀ e name b, m.Mentions x e → m.kind e = .ident name b → ∃ c ∈ ds, b = some c
  irrefl : ∀ x ∈ ds, ¬m.DependsOn x x

end Definitions

variable {m m₁ m₂ m' : Model} {c d x : DeclId} {ds order : List DeclId} {S : Set Site}

section Circles

-- A way that comes back either avoids a point or leads from it to itself.
theorem transGen_avoid {α : Type} {R : α → α → Prop} {a : α} (d : α) (h : Relation.TransGen R a a) :
    Relation.TransGen (fun x y => x ≠ d ∧ R x y) a a ∨ Relation.TransGen R d d := by
  have split : ∀ {b}, Relation.TransGen R a b →
      Relation.TransGen (fun x y => x ≠ d ∧ R x y) a b ∨ Relation.ReflTransGen R a d ∧ Relation.TransGen R d b := by
    intro b hb
    induction hb with
    | @single b hab =>
      by_cases had : a = d
      · exact .inr ⟨had ▸ .refl, had ▸ .single hab⟩
      · exact .inl (.single ⟨had, hab⟩)
    | @tail b c hab hbc ih =>
      obtain hab' | ⟨had, hdb⟩ := ih
      · by_cases hbd : b = d
        · exact .inr ⟨hbd ▸ hab.to_reflTransGen, hbd ▸ .single hbc⟩
        · exact .inl (.tail hab' ⟨hbd, hbc⟩)
      · exact .inr ⟨had, .tail hdb hbc⟩
  exact (split h).imp_right fun ⟨had, hda⟩ => hda.trans_left had

-- There is no circle where each step leads to something earlier.
theorem Model.not_dependsOn_self (h : ∀ {y z}, y ∈ order → m.RefersTo y z →
    z ∈ order ∧ order.idxOf z < order.idxOf y) (hx : x ∈ order) : ¬m.DependsOn x x := by
  have go : ∀ {y}, m.DependsOn x y → y ∈ order ∧ order.idxOf y < order.idxOf x := by
    intro y hy
    induction hy with
    | single hxy => exact h hx hxy
    | tail _ hyz ih => exact (h ih.1 hyz).imp_right fun hlt => Nat.lt_trans hlt ih.2
  exact fun hxx => Nat.lt_irrefl _ (go hxx).2

end Circles

section Unchanged

-- What stands in a declaration that is not touched stands there still.
theorem mentions_of_sameAt {e : ExprId} (h : ∀ s, m.Uses (.decl x) s → m.SameAt m' s)
    (he : m'.Mentions x e) : m.Mentions x e ∧ m'.kind e = m.kind e := by
  have ⟨n, hn, hu⟩ := he
  have hx : m'.decl x = m.decl x := h _ .refl
  have hn : n ∈ m.needs x := by rwa [Model.needs, ← hx]
  have hxn : m.Uses (.decl x) n := .single (List.mem_append_left _ hn)
  have hu : m.Uses n (.expr e) := by
    have back : ∀ {s}, m'.Uses n s → m.Uses n s := by
      intro s hs
      induction hs with
      | refl => exact .refl
      | tail _ hbc ih => exact .tail ih ((h _ (hxn.trans ih)).uses_eq ▸ hbc)
    exact back hu
  have he : m'.expr e = m.expr e := h _ (hxn.trans hu)
  exact ⟨⟨n, hn, hu⟩, by rw [Model.kind, he, Model.kind]⟩

theorem Model.Acyclic.of_sameAt (ha : m.Acyclic ds) (h : ∀ x ∈ ds, ∀ s, m.Uses (.decl x) s → m.SameAt m' s) :
    m'.Acyclic ds := by
  have hback : ∀ {x c}, x ∈ ds → m'.RefersTo x c → m.RefersTo x c ∧ c ∈ ds := by
    rintro x c hx ⟨e, name, he, hk⟩
    have ⟨he, hk'⟩ := mentions_of_sameAt (h x hx) he
    have ⟨c', hc', hb⟩ := ha.closed x hx e name _ he (hk' ▸ hk)
    cases hb
    exact ⟨⟨e, name, he, hk' ▸ hk⟩, hc'⟩
  refine ⟨fun x hx e name b he hk => ?_, fun x hx hxx => ha.irrefl x hx ?_⟩
  · have ⟨he, hk'⟩ := mentions_of_sameAt (h x hx) he
    exact ha.closed x hx e name b he (hk' ▸ hk)
  · have go : ∀ {y}, m'.DependsOn x y → m.DependsOn x y ∧ y ∈ ds := by
      intro y hy
      induction hy with
      | single hxy => exact (hback hx hxy).imp_left .single
      | tail _ hyz ih => exact (hback ih.2 hyz).imp_left ih.1.tail
    exact (go hxx).1

end Unchanged

section Places

variable {roots : List Site} {r : Resolution} {a b n : Site}

-- A way up from a node to a declaration goes through all that the node stands in, up to a declaration.
theorem uses_of_inner (h : m.SinglePlace roots) (hx : m.Reached roots (.decl x))
    (ha : m.Reached roots a) (hb : m.Holds b) (hab : Inner m a b) (hn : n ∈ m.needs x)
    (hnb : m.Uses n b) : m.Uses n a := by
  have hnp : n ∈ m.parts (.decl x) := List.mem_append_left _ hn
  induction hab with
  | refl => exact hnb
  | @tail p b hap hpb ih =>
    have huses : m.Uses a p := Relation.ReflTransGen.mono (fun _ _ hc => hc.1) _ _ hap
    have hp : m.Part roots p b := ⟨ha.contains huses.contains, m.uses_subset p hpb.1, hb⟩
    cases Relation.ReflTransGen.cases_tail hnb
    case inl e =>
      subst e
      exact (hpb.2 x (h.part_unique hp ⟨hx, hnp, hb⟩)).elim
    case inr hq =>
      have ⟨q, hnq, hqb⟩ := hq
      have hq : m.Part roots q b :=
        ⟨(hx.part hnp).contains (Model.Uses.contains hnq), m.uses_subset q hqb, hb⟩
      exact ih (hb.of_part hp.mem) (h.part_unique hq hp ▸ hnq)

-- What stands in a declaration that has not joined the order is bound as before.
theorem kind_eq_of_not_mem {top : List (String × DeclId)} {r₀ : Resolution} {v e : ExprId}
    (h : m.SinglePlace roots) (hi : Inv m roots r) (hact : r.active = []) (hv : .expr v ∈ roots)
    (hp : Passed m top [.expr v] [.expr v] r₀ r) (hx : m.Reached roots (.decl x)) (hxo : x ∉ r.order)
    (he : m.Mentions x e) : r.model.kind e = r₀.model.kind e := by
  have ⟨n, hn, hne⟩ := he
  have hnp : n ∈ m.parts (.decl x) := List.mem_append_left _ hn
  have hnode : m.Holds (.expr e) := .of_isNode trivial
  have below : ∀ {s}, m.Uses n s → s.IsNode → m.Part roots (.decl x) n ∧ m.Below roots n s :=
    fun hs hnode =>
      have hb := hs.contains.below (hx.part hnp) (.of_isNode hnode)
      ⟨⟨hx, hnp, hb.holds (.of_isNode hnode)⟩, hb⟩
  obtain hk | ⟨t, ht, hi'⟩ | ⟨d, hd, _, c, hc, hi'⟩ := hp.changed e
  · exact hk
  · obtain rfl := List.mem_singleton.mp ht
    have ⟨hpart, hb⟩ := below (uses_of_inner h hx (.root hv) hnode hi' hn hne) trivial
    exact (h.not_part_root hv (h.eq_of_below_root hv hb ▸ hpart)).elim
  · have hrd := (hi.entered d (.inr hd)).1
    have hcp : c ∈ m.parts (.decl d) := m.uses_subset _ hc
    have huses : m.Uses c (.expr e) := Relation.ReflTransGen.mono (fun _ _ hc => hc.1) _ _ hi'
    have hcd : m.Part roots (.decl d) c := ⟨hrd, hcp, .expr e, trivial, huses.contains⟩
    have hnc := uses_of_inner h hx (hrd.part hcp) hnode hi' hn hne
    cases Relation.ReflTransGen.cases_tail hnc
    case inl hce =>
      cases h.part_unique hcd ⟨hx, hce ▸ hnp, hcd.holds⟩
      exact (hxo hd).elim
    case inr hq =>
      have ⟨q, hnq, hqc⟩ := hq
      have hqp : m.Part roots q c :=
        ⟨(hx.part hnp).contains (Model.Uses.contains hnq), m.uses_subset q hqc, hcd.holds⟩
      have hnd : m.Uses n (.decl d) := h.part_unique hqp hcd ▸ hnq
      have ⟨hpart, hb⟩ := below hnd trivial
      have hent := (hi.entered d (.inr hd)).2 x n hpart hb
      exact (hxo (hent.resolve_left (by simp [hact]))).elim

end Places

section Resolution

variable {r r₁ : Resolution} {p : ItemPath} {a : Assignment} {v : ExprId}

theorem Resolve.Begun.resolved (hm : m.WellPlaced) (hr : Begun m r) (hp : p ∈ m.itemPaths)
    (hat : m.itemAt? p = some (.assign a)) (hx : resolve (.expr a.value) r = .ok () r₁) :
    let m₀ := m.withLibrary.sortOverloads
    Inv m₀ (m₀.rootsAt m₀.itemPaths) r₁ ∧ r₁.active = [] ∧ Done m₀ r₁ (.expr a.value) := by
  intro m₀
  have hext := extends_start m
  have hplace := (hm.extends hext).place
  have htops : m₀.itemPaths.flatMap (fun p => (m₀.itemAt? p).toList.flatMap Item.decls) = m.toplevels := by
    rw [hext.itemPaths_eq, funext hext.itemAt_eq]
    rfl
  have hpush : m.toplevels.forM ResolveM.push { model := m₀ } = .ok () r := by
    rw [forM_push, foldl_push, hr.start, hr.scope, List.append_nil]
    rfl
  have hperm := htops ▸ perm_rootsAt m₀ m₀.itemPaths
  have hready := (ready_start hplace).perm hperm
  have hopen : ∀ {r} w, w ∈ _ → Open m₀ _ r w := fun w hw => open_root hplace (hperm.mem_iff.mpr hw)
  have h₁ := walks_forM_push _ _ r (inv_start m₀ _) hready.left
    (fun w hw => hopen w (List.mem_append_left _ hw)) hpush
  have hv : .expr a.value ∈ m₀.itemPaths.flatMap fun p => (m₀.itemAt? p).toList.flatMap m₀.itemRest := by
    have hat : m₀.itemAt? p = some (.assign a) := (hext.itemAt_eq p).trans hat
    refine List.mem_flatMap.mpr ⟨p, hext.itemPaths_eq ▸ hp, ?_⟩
    simp [hat, Model.itemRest, Model.itemSites]
  have hready' := hready.after hplace h₁.walked
  have h₂ := walks_resolve hplace (.expr a.value) r r₁ h₁.inv
    ⟨by simpa using hready'.reached _ hv, by simpa using hready'.above _ hv,
      by simpa using hready'.fresh _ hv, List.pairwise_singleton _ _⟩
    (by simpa using hopen _ (List.mem_append_right _ hv)) hx
  exact ⟨h₂.inv, h₂.active.trans h₁.active, h₂.done _ (List.mem_singleton_self _)⟩

end Resolution

section Assignment

variable {p : ItemPath} {a : Assignment} {v e : ExprId}

theorem fresh_closed {o : Option DeclId} (hc : Closed o ds ⟨m, S⟩) (h : Check.fresh order v m = .ok () m') :
    ∃ S', Grown ⟨m, S⟩ ⟨m', S'⟩ ∧ Closed o ds ⟨m', S'⟩ := by
  have ⟨_, m₁, h₁, h⟩ := bind_eq_ok.mp h
  have ⟨errors, m₂, h₂, h⟩ := bind_eq_ok.mp h
  have ⟨S₁, hg₁, hc₁⟩ := hc.checking (fun w => .forM fun c _ => .read fun m _ => ?declare) h₁
  case declare =>
    split
    · exact regime_whole.declare _ c
    · exact .done _
  have ⟨S₂, hg₂, hc₂⟩ := hc₁.checking (regime_whole.assignTypes _ _) h₂
  obtain rfl : m₂ = m' := by
    cases errors with
    | nil => exact (pure_eq_ok.mp h).2
    | cons => exact (throw_ne_ok.mp h).elim
  exact ⟨S₂, hg₁.trans hg₂, hc₂⟩

-- The stages of an assignment that is accepted.
theorem checkAssignment_eq_ok (h : checkAssignment p m = .ok () m') :
    ∃ a span removed, m.slot? p = some ⟨.assign a, span, removed⟩ ∧ ∃ d order m₁ m₂ e m₃,
      Check.toplevel (Check.resolveAssigned a span) m = .ok (d, order) m₁ ∧
      Check.fresh order a.value m₁ = .ok () m₂ ∧ (m₂.decl d).init = none ∧
      m₂.coerce a.value (m₂.decl d).ty = .ok (e, m₃) ∧ m' = Check.setAssigned p d e m₃ := by
  rw [checkAssignment, get_bind] at h
  have hno : ∀ {cause span}, ¬(ModelM.fail cause span : ModelM Unit) m = .ok () m' := by simp [ModelM.fail]
  cases hs : m.slot? p with
  | none => exact (hno (hs ▸ h)).elim
  | some s =>
    obtain ⟨item, span, removed⟩ := s
    cases item
    case assign a =>
      rw [hs] at h
      have ⟨⟨d, order⟩, m₁, h₁, h⟩ := bind_eq_ok.mp h
      have ⟨_, m₂, h₂, h⟩ := bind_eq_ok.mp h
      rw [get_bind] at h
      simp only at h
      split at h
      · have ⟨_, _, hx, _⟩ := bind_eq_ok.mp h
        simp [ModelM.fail] at hx
      · split at h
        · have ⟨_, _, hx, _⟩ := bind_eq_ok.mp h
          simp [ModelM.fail] at hx
        · next hinit =>
          cases hc : m₂.coerce a.value (m₂.decl d).ty with
          | error => exact (throw_ne_ok.mp (hc ▸ h)).elim
          | ok r =>
            obtain ⟨e, m₃⟩ := r
            rw [hc] at h
            cases h
            exact ⟨a, span, removed, rfl, d, order, m₁, m₂, e, m₃, h₁, h₂, by simpa using hinit, hc, rfl⟩
    all_goals exact (hno (hs ▸ h)).elim

end Assignment

section Step

variable {p : ItemPath} {a : Assignment} {span : Span} {v e : ExprId}

-- What stands in a declaration.
def Model.within (m : Model) (x : DeclId) : Set Site := { s | ∃ n ∈ m.needs x, m.Uses n s }

open Classical in
theorem closed_within
    (hb : ∀ e name b, m.Mentions x e → m.kind e = .ident name b → ∃ c ∈ ds, b = some c)
    (hp : ∀ e, m.Mentions x e → e.index < m.exprs.size) :
    Closed (some x) (ds.filter (m.RefersTo x)) ⟨m, m.within x⟩ := by
  refine ⟨?_, ?_, ?_, hp⟩
  · rintro _ ⟨⟩ s hs
    exact ⟨s, hs, .refl⟩
  · exact fun s ⟨n, hn, hs⟩ c hc => ⟨n, hn, hs.tail hc⟩
  · intro e he name b hk
    have ⟨c, hc, hbc⟩ := hb e name b he hk
    subst hbc
    exact ⟨c, List.mem_filter.mpr ⟨hc, by simpa using ⟨e, name, he, hk⟩⟩, rfl⟩

theorem World.Closed.refersTo (hc : Closed (some x) ds ⟨m, S⟩) (h : m.RefersTo x c) : c ∈ ds := by
  have ⟨e, name, he, hk⟩ := h
  have ⟨c', hc', hb⟩ := hc.bound e (hc.mentions he) name _ hk
  cases hb
  exact hc'

-- The value of an assignment is followed to what it is coerced to.
theorem World.Closed.value {o : Option DeclId} (hc : Closed o ds ⟨m, S⟩)
    (h₁ : Check.fresh order v m = .ok () m₁) (h₂ : m₁.Coerced v e m₂) :
    ∃ S', Grown ⟨m, S⟩ ⟨m₂, S'⟩ ∧ Closed o ds ⟨m₂, S'⟩ ∧ (.expr v ∈ S → .expr e ∈ S') := by
  have ⟨S₁, hg₁, hc₁⟩ := fresh_closed hc h₁
  have ⟨S₂, hg₂, hc₂, hm⟩ := hc₁.coerced h₂
  exact ⟨S₂, hg₁.trans hg₂, hc₂, fun hv => hm (hg₁.sub hv)⟩

theorem World.Closed.setAssigned {o : Option DeclId} (hc : Closed o ds ⟨m, S⟩)
    (he : .decl d ∈ S ∨ d ∈ o → .expr e ∈ S) : Closed o ds ⟨Check.setAssigned p d e m, S⟩ := by
  have hc := hc.setInit he
  have ⟨hexprs, htis, hdecls⟩ := @nodes_setAssigned d m p e
  have huses : ∀ s, (Check.setAssigned p d e m).uses s = (m.setInit d (some e)).uses s := by
    intro s
    cases s
    case expr => simp [Model.uses, Model.partsBy, Model.kind, Model.expr, hexprs, Model.setInit]
    case decl => simp [Model.uses_decl, Model.needs, Model.decl, hdecls]
    case typeInst =>
      simp only [Model.uses, Model.partsBy, Model.typeInst, htis]
      rfl
  refine ⟨fun c hd s hs => hc.needs c hd s ?_, fun s hs c hsc => hc.uses s hs c (huses s ▸ hsc),
    fun c hcs name b hk => hc.bound c hcs name b ?_, fun c hcs => ?_⟩
  · simpa [Model.needs, Model.decl, hdecls] using hs
  · simpa [Model.kind, Model.expr, hexprs, Model.setInit] using hk
  · exact hexprs ▸ hc.present c hcs

-- What resolution of the value leads to: the declarations that it comes to join those there are.
structure Joined (ds : List DeclId) (v : ExprId) (d : DeclId) (order : List DeclId) (m' : Model) :
    Prop where
  acyclic : m'.Acyclic (ds ++ order)
  present : ∀ x ∈ ds ++ order, ∀ e, m'.Mentions x e → e.index < m'.exprs.size
  outside : ∀ x ∈ ds ++ order, .decl d ∉ m'.within x
  bound : ∀ e, m'.Uses (.expr v) (.expr e) → e.index < m'.exprs.size ∧
    ∀ name b, m'.kind e = .ident name b → ∃ c ∈ ds ++ order, b = some c

theorem Joined.assigned (h : Joined ds v d order m₁) (h₁ : Check.fresh order v m₁ = .ok () m₂)
    {m₃ : Model} (h₂ : m₂.Coerced v e m₃) (hd : ¬(Check.setAssigned p d e m₃).DependsOn d d) :
    (Check.setAssigned p d e m₃).Acyclic (ds ++ order) := by
  classical
  -- What any other declaration refers to, it referred to before.
  have other : ∀ x ∈ ds ++ order, x ≠ d → ∃ S, Closed (some x) ((ds ++ order).filter (m₁.RefersTo x))
      ⟨Check.setAssigned p d e m₃, S⟩ := by
    intro x hx hxd
    have hc := closed_within (h.acyclic.closed x hx) (h.present x hx)
    have ⟨S, hg, hc, _⟩ := hc.value h₁ h₂
    refine ⟨S, hc.setAssigned fun hm => ?_⟩
    cases hm
    case inl hm => exact (h.outside x hx (hg.back (by simp) hm)).elim
    case inr hm => exact (hxd (Option.some.inj hm)).elim
  have own : d ∈ ds ++ order → ∃ S, Closed (some d) (ds ++ order) ⟨Check.setAssigned p d e m₃, S⟩ := by
    intro hx
    have hc : Closed (some d) (ds ++ order) ⟨m₁, m₁.within d ∪ { s | m₁.Uses (.expr v) s }⟩ := by
      have hw := closed_within (h.acyclic.closed d hx) (h.present d hx)
      refine ⟨fun c hc s hs => .inl (hw.needs c hc s hs), ?_, ?_, ?_⟩
      · exact fun s hs c hc => hs.imp (fun hs => hw.uses s hs c hc) fun hs => .tail hs hc
      · intro c hc name b hk
        cases hc
        case inl hc => exact h.acyclic.closed d hx c name b hc hk
        case inr hc => exact (h.bound c hc).2 name b hk
      · intro c hc
        cases hc
        case inl hc => exact h.present d hx c hc
        case inr hc => exact (h.bound c hc).1
    have ⟨S, _, hc, hv⟩ := hc.value h₁ h₂
    exact ⟨S, hc.setAssigned fun _ => hv (.inr .refl)⟩
  refine ⟨fun x hx c name b hc hk => ?_, fun x hx hxx => ?_⟩
  · by_cases hxd : x = d
    · subst hxd
      have ⟨S, hcl⟩ := own hx
      exact hcl.bound c (hcl.mentions hc) name b hk
    · have ⟨S, hcl⟩ := other x hx hxd
      have ⟨c', hc', hb⟩ := hcl.bound c (hcl.mentions hc) name b hk
      exact ⟨c', (List.mem_filter.mp hc').1, hb⟩
  · have hxx := (transGen_avoid d hxx).resolve_right hd
    have back : ∀ {y}, Relation.TransGen (fun x y => x ≠ d ∧ (Check.setAssigned p d e m₃).RefersTo x y) x y →
        m₁.DependsOn x y ∧ y ∈ ds ++ order := by
      have edge : ∀ {y z}, y ∈ ds ++ order → y ≠ d ∧ (Check.setAssigned p d e m₃).RefersTo y z →
          m₁.RefersTo y z ∧ z ∈ ds ++ order := by
        intro y z hy hyz
        have ⟨S, hcl⟩ := other y hy hyz.1
        have ⟨hz, hr⟩ := List.mem_filter.mp (hcl.refersTo hyz.2)
        exact ⟨by simpa using hr, hz⟩
      intro y hy
      induction hy with
      | single hxy => exact (edge hx hxy).imp_left .single
      | tail _ hyz ih => exact (edge ih.2 hyz).imp_left ih.1.tail
    exact h.acyclic.irrefl x hx (back hxx).1

theorem Model.Extends.sameAt (h : m.Extends m') {s : Site} (hs : m.Present s) : m.SameAt m' s := by
  cases s
  case expr => exact h.expr_eq hs
  case decl => exact h.decl_eq hs
  case typeInst => exact h.typeInst_eq hs

theorem Model.WellPlaced.reached_extends (hm : m.WellPlaced) (h : m.Extends m') {s : Site}
    (hs : m.Reached (m.rootsAt m.itemPaths) s) : m'.Reached (m'.rootsAt m'.itemPaths) s := by
  rw [hm.rootsAt_eq h]
  have ⟨n, hn, hc⟩ := hs
  refine ⟨n, hn, ?_⟩
  induction hc with
  | refl => exact .refl
  | tail hnb hbc ih =>
    have hb := Model.Reached.contains (.root hn) hnb
    exact .tail (ih hb) (h.parts_eq (hm.place.present hb) ▸ hbc)

-- The declaration that a name stands for at the top.
theorem Resolve.Begun.assigned {r r₁ : Resolution} (hr : Begun m r) (ha : a.decl = none)
    (hx : Check.resolveAssigned a span r = .ok d r₁) : d ∈ m.toplevels := by
  rw [Check.resolveAssigned, ha] at hx
  obtain ⟨c, r₀, hl, hx⟩ := bind_eq_ok.mp hx
  obtain ⟨_, r₂, _, hp⟩ := bind_eq_ok.mp hx
  obtain rfl := (pure_eq_ok.mp hp).1
  obtain ⟨l₁, l₂, hsplit, _⟩ := List.lookup_eq_some_iff.mp (lookup_eq hl).2
  have hm : (a.name, c) ∈ r.scope := by simp [hsplit]
  exact ((mem_named hr.scope).mp hm).1

theorem Resolve.Same.within_eq (h : Same m m') (x : DeclId) : m'.within x = m.within x := by
  have hneeds : m'.needs x = m.needs x := by simp [Model.needs, h.alike.decl_eq]
  simp only [Model.within, hneeds, h.uses_iff]

theorem Resolve.Same.mentions_iff (h : Same m m') : m'.Mentions x e ↔ m.Mentions x e :=
  iff_of_eq (congrArg (.expr e ∈ ·) (h.within_eq x))

section Resolved

variable {roots : List Site} {top : List (String × DeclId)} {r₀ r : Resolution} {y z : DeclId}
  (h : m.SinglePlace roots) (hi : Inv m roots r) (hp : Passed m top [.expr v] [.expr v] r₀ r)

include hi hp

theorem earlier_of_mentions {name : String} {b : Option DeclId} (hy : y ∈ r.order.toList)
    (he : r.model.Mentions y e) (hk : r.model.kind e = .ident name b) :
    ∃ c ∈ r.order.toList, b = some c ∧ r.order.toList.idxOf c < r.order.toList.idxOf y := by
  have ⟨pre, post, ho⟩ := List.append_of_mem hy
  have ⟨n, hn, hu⟩ := hp.same.mentions_iff.mp he
  have ⟨c, hc, hb⟩ := hi.sorted pre y post ho n hn e hu name b hk
  have hnd := hi.nodup
  rw [ho] at hnd ⊢
  exact ⟨c, List.mem_append_left _ hc, hb, idxOf_lt_of_mem hnd hc⟩

include h in
-- The declarations in the order refer to earlier ones, and all others refer to what they did before.
theorem acyclic_resolved (hact : r.active = []) (hv : .expr v ∈ roots) (hr₀ : r₀.model = m)
    (ha : m.Acyclic ds) (hds : ∀ x ∈ ds, m.Reached roots (.decl x)) :
    r.model.Acyclic (ds ++ r.order.toList) := by
  have earlier : ∀ {y z}, y ∈ r.order.toList → r.model.RefersTo y z →
      z ∈ r.order.toList ∧ r.order.toList.idxOf z < r.order.toList.idxOf y := by
    rintro y z hy ⟨e, name, he, hk⟩
    have ⟨c, hc, hb, hlt⟩ := earlier_of_mentions hi hp hy he hk
    cases hb
    exact ⟨hc, hlt⟩
  have kept : ∀ {y e}, y ∈ ds → y ∉ r.order.toList → r.model.Mentions y e →
      m.Mentions y e ∧ r.model.kind e = m.kind e := fun hy hyo he =>
    have he := hp.same.mentions_iff.mp he
    ⟨he, hr₀ ▸ kind_eq_of_not_mem h hi hact hv hp (hds _ hy) (hyo <| Array.mem_toList_iff.mpr ·) he⟩
  refine ⟨fun x hx e name b he hk => ?_, fun x hx => ?_⟩
  · by_cases hxo : x ∈ r.order.toList
    · have ⟨c, hc, hb, _⟩ := earlier_of_mentions hi hp hxo he hk
      exact ⟨c, List.mem_append_right _ hc, hb⟩
    · have hx := (List.mem_append.mp hx).resolve_right hxo
      have ⟨he, hk'⟩ := kept hx hxo he
      have ⟨c, hc, hb⟩ := ha.closed x hx e name b he (hk' ▸ hk)
      exact ⟨c, List.mem_append_left _ hc, hb⟩
  · by_cases hxo : x ∈ r.order.toList
    · exact Model.not_dependsOn_self earlier hxo
    · have hx := (List.mem_append.mp hx).resolve_right hxo
      have step : ∀ {y z}, y ∈ ds → y ∉ r.order.toList → r.model.RefersTo y z →
          m.RefersTo y z ∧ z ∈ ds := by
        rintro y z hy hyo ⟨e, name, he, hk⟩
        have ⟨he, hk'⟩ := kept hy hyo he
        have hk := hk' ▸ hk
        have ⟨c, hc, hb⟩ := ha.closed y hy e name _ he hk
        cases hb
        exact ⟨⟨e, name, he, hk⟩, hc⟩
      -- A way that comes to the order does not leave it again.
      have go : ∀ {y}, r.model.DependsOn x y → y ∈ r.order.toList ∨ m.DependsOn x y ∧ y ∈ ds := by
        intro y hy
        induction hy with
        | single hxy => exact .inr ((step hx hxo hxy).imp_left .single)
        | @tail y z _ hyz ih =>
          by_cases hyo : y ∈ r.order.toList
          · exact .inl (earlier hyo hyz).1
          · have ⟨hxy, hy⟩ := ih.resolve_left hyo
            exact .inr ((step hy hyo hyz).imp_left hxy.tail)
      exact fun hxx => ha.irrefl x hx ((go hxx).resolve_left hxo).1

end Resolved

theorem joined (hm : m.WellPlaced) (ha : m.Acyclic ds)
    (hds : ∀ x ∈ ds, m.Reached (m.rootsAt m.itemPaths) (.decl x)) (hp : p ∈ m.itemPaths)
    (hat : m.itemAt? p = some (.assign a)) (hn : a.decl = none)
    (h : Check.toplevel (Check.resolveAssigned a span) m = .ok (d, order) m') :
    Joined ds a.value d order m' := by
  obtain ⟨r, r₁, hr, hx, rfl, rfl⟩ := toplevel_eq_ok h
  have hd := hr.assigned hn hx
  have hx := resolveAssigned_eq_ok hx
  have hext := extends_start m
  have ⟨hi, hact, hdone⟩ := hr.resolved hm hp hat hx
  have hplace := (hm.extends hext).place
  have hp₁ := hr.passed hx
  rw [hr.model] at hp₁
  have hat₀ := (hext.itemAt_eq p).trans hat
  have hv := Model.mem_rootsAt (hext.itemPaths_eq ▸ hp) hat₀ (List.mem_singleton_self _)
  have ha₀ := ha.of_sameAt fun x hx s hs =>
    hext.sameAt (hm.place.present ((hds x hx).contains (Model.Uses.contains hs)))
  have hds₀ := fun x hx => hm.reached_extends hext (hds x hx)
  have hreach : ∀ x ∈ ds ++ r₁.order.toList, Model.Reached _ _ (.decl x) := fun x hx => by
    cases List.mem_append.mp hx
    case inl hx => exact hds₀ x hx
    case inr hx => exact (hi.entered x (.inr (Array.mem_toList_iff.mp hx))).1
  refine ⟨acyclic_resolved hplace hi hp₁ hact hv hr.model ha₀ hds₀, fun x hx e he => ?_,
    fun x hx hdx => ?_, fun e he => ⟨?_, fun name b hk => ?_⟩⟩
  · have ⟨n, hn, hu⟩ := hp₁.same.mentions_iff.mp he
    have hn := (hreach x hx).part (List.mem_append_left _ hn)
    exact hi.alike.size ▸ hplace.present (hn.contains (Model.Uses.contains hu))
  · -- The assigned declaration is an item, and so in no other declaration.
    have ⟨q, hq, hdq⟩ := List.mem_flatMap.mp hd
    have hroot := Model.mem_rootsAt (hext.itemPaths_eq ▸ hq) ((hext.itemAt_eq q).trans (mem_decls.mp hdq))
      (List.mem_singleton_self _)
    rw [hp₁.same.within_eq] at hdx
    have ⟨n, hn, hu⟩ := hdx
    have hnp : n ∈ Model.parts _ (.decl x) := List.mem_append_left _ hn
    have hb := hu.contains.below ((hreach x hx).part hnp) (.of_isNode trivial)
    have hpart : Model.Part _ _ (.decl x) n := ⟨hreach x hx, hnp, hb.holds (.of_isNode trivial)⟩
    exact hplace.not_part_root hroot (hplace.eq_of_below_root hroot hb ▸ hpart)
  · have hu := hp₁.same.uses_iff.mp he
    exact hi.alike.size ▸ hplace.present (Model.Reached.contains (.root hv) (Model.Uses.contains hu))
  · have ⟨c, hc, hb⟩ := hdone.bound e (hp₁.same.uses_iff.mp he) name b hk
    exact ⟨c, List.mem_append_right _ hc, hb⟩

-- An assignment keeps definitions free of circles if the declaration that it is to does not come to
-- depend on itself.
theorem Model.Acyclic.assign (ha : m.Acyclic ds) (hm : m.WellPlaced)
    (hds : ∀ x ∈ ds, m.Reached (m.rootsAt m.itemPaths) (.decl x)) (hp : p ∈ m.itemPaths)
    {removed : Bool} (hs : m.slot? p = some ⟨.assign a, span, removed⟩) (hn : a.decl = none)
    (hr : Check.toplevel (Check.resolveAssigned a span) m = .ok (d, order) m₁)
    (h : checkAssignment p m = .ok () m') (hd : ¬m'.DependsOn d d) : m'.Acyclic (ds ++ order) := by
  have ⟨_, hs', hrem⟩ := Model.isItem_of_mem hp
  obtain rfl := Option.some.inj (hs.symm.trans hs')
  obtain ⟨a', span', removed', hs', d', order', m₁', m₂, e, m₃, hr', h₁, _, h₂, rfl⟩ := checkAssignment_eq_ok h
  cases hs.symm.trans hs'
  cases hr.symm.trans hr'
  have hat : m.itemAt? p = some (.assign a) := by simp_all [Model.itemAt?]
  exact (joined hm ha hds hp hat hn hr).assigned h₁ (Model.coerced_of_coerce h₂) hd

end Step

section Run

variable {opts : CheckOptions} {report : Report}

theorem Ordered.acyclic (h : Ordered m order m') : m'.Acyclic order := by
  have edge : ∀ {x c}, x ∈ order → m'.RefersTo x c → c ∈ order ∧ order.idxOf c < order.idxOf x := by
    rintro x c hx ⟨e, name, he, hk⟩
    have ⟨c', hb, hlt⟩ := h.bound hx he hk
    cases hb
    exact ⟨List.idxOf_lt_length_iff.mp (Nat.lt_of_lt_of_le hlt List.idxOf_le_length), hlt⟩
  refine ⟨fun x hx e name b he hk => ?_, fun x hx => Model.not_dependsOn_self edge hx⟩
  have ⟨c, hb, _⟩ := h.bound hx he hk
  subst hb
  exact ⟨c, (edge hx ⟨e, name, he, hk⟩).1, rfl⟩

-- Assignments that are accepted one after the other. Before each of them the model may change, but not
-- in the declarations resolved so far; and no assigned declaration comes to depend on itself.
inductive Late (m₀ : Model) (ds₀ : List DeclId) : Model → List DeclId → Prop
  | start : Late m₀ ds₀ m₀ ds₀
  | assign {m m₁ m₂ m₃ : Model} {ds order : List DeclId} {p : ItemPath} {a : Assignment} {span : Span}
      {removed : Bool} {d : DeclId} (before : Late m₀ ds₀ m ds)
      (same : ∀ x ∈ ds, ∀ s, m.Uses (.decl x) s → m.SameAt m₁ s) (placed : m₁.WellPlaced)
      (reached : ∀ x ∈ ds, m₁.Reached (m₁.rootsAt m₁.itemPaths) (.decl x)) (item : p ∈ m₁.itemPaths)
      (slot : m₁.slot? p = some ⟨.assign a, span, removed⟩) (unmerged : a.decl = none)
      (resolved : Check.toplevel (Check.resolveAssigned a span) m₁ = .ok (d, order) m₂)
      (accepted : checkAssignment p m₁ = .ok () m₃) (apart : ¬m₃.DependsOn d d) :
      Late m₀ ds₀ m₃ (ds ++ order)

theorem Late.acyclic (ha : m.Acyclic ds) {ds' : List DeclId} (h : Late m ds m' ds') :
    ds ⊆ ds' ∧ m'.Acyclic ds' := by
  induction h with
  | start => exact ⟨List.Subset.refl _, ha⟩
  | assign _ same placed reached item slot unmerged resolved accepted apart ih =>
    have ⟨hsub, ih⟩ := ih
    refine ⟨List.Subset.trans hsub (List.subset_append_left _ _), ?_⟩
    exact (ih.of_sameAt same).assign placed reached item slot unmerged resolved accepted apart

-- After a check, and after any assignments that come later, no declaration depends on itself, if the
-- assigned ones do not.
theorem late_assignments_acyclic (hm : m.WellPlaced) (hc : check opts m = .ok report m₁)
    (hl : Late m₁ report.order m' ds) : report.order ⊆ ds ∧ m'.Acyclic ds := by
  have ⟨m₀, hext, hc⟩ := check_eq_ok hc
  exact hl.acyclic (items_ordered (hm.extends hext).place hc).acyclic

end Run

section Examples

-- `int: x; int: y = x;`, and an expression that may be assigned to `x`.
def openModel (value : Expr) : Model where
  exprs := #[{ kind := .ident "x" none }, value]
  decls := #[{ name := "x", ti := ⟨0⟩, toplevel := true },
    { name := "y", ti := ⟨1⟩, init := some ⟨0⟩, toplevel := true }]
  typeInsts := #[{ ty := .parInt }, { ty := .parInt }]
  items := #[{ item := .decl ⟨0⟩ }, { item := .decl ⟨1⟩ }]
  overloads := [("int2float", [])]

-- The same after a check, with or without an initializer of `x`, and with more items.
def checkedModel (value : Expr) (init : Option ExprId) (more : List Slot) : Model where
  exprs := #[{ kind := .ident "x" (some ⟨0⟩), ty := .parInt }, value]
  decls := #[{ name := "x", ti := ⟨0⟩, init, toplevel := true, ty := .parInt },
    { name := "y", ti := ⟨1⟩, init := some ⟨0⟩, toplevel := true, ty := .parInt }]
  typeInsts := #[{ ty := .parInt }, { ty := .parInt }]
  items := (({ item := .decl ⟨0⟩ } : Slot) :: { item := .decl ⟨1⟩ } :: more).toArray
  overloads := [("int2float", [])]

def three : Expr := { kind := .int 3, ty := .parInt }

def assignSlot (merged : Bool) : Slot where
  item := .assign ⟨"x", ⟨1⟩, if merged then some ⟨0⟩ else none⟩
  removed := merged

theorem wellPlaced_open : (openModel three).WellPlaced where
  place := .of_nodup [.decl ⟨0⟩, .decl ⟨1⟩, .expr ⟨0⟩, .typeInst ⟨0⟩, .typeInst ⟨1⟩]
    (by decide) (by decide) (by decide) (by decide)
  funcs p hp f hf := by
    have hp : p = ⟨none, 0⟩ ∨ p = ⟨none, 1⟩ := by
      rw [show (openModel three).itemPaths = [⟨none, 0⟩, ⟨none, 1⟩] by decide] at hp
      simpa using hp
    obtain rfl | rfl := hp
    all_goals cases hf

theorem wellPlaced_assign : (checkedModel three none [assignSlot false]).WellPlaced where
  place := .of_nodup [.decl ⟨0⟩, .decl ⟨1⟩, .expr ⟨1⟩, .expr ⟨0⟩, .typeInst ⟨0⟩, .typeInst ⟨1⟩]
    (by decide) (by decide) (by decide) (by decide)
  funcs p hp f hf := by
    have hp : p = ⟨none, 0⟩ ∨ p = ⟨none, 1⟩ ∨ p = ⟨none, 2⟩ := by
      rw [show (checkedModel three none [assignSlot false]).itemPaths =
        [⟨none, 0⟩, ⟨none, 1⟩, ⟨none, 2⟩] by decide] at hp
      simpa using hp
    obtain rfl | rfl | rfl := hp
    all_goals cases hf

theorem closed_three : Closed (some ⟨0⟩) []
    ⟨checkedModel three (some ⟨1⟩) [assignSlot true], { s | s ∈ [.typeInst ⟨0⟩, .expr ⟨1⟩] }⟩ where
  needs := by
    rintro _ ⟨⟩
    decide
  uses s hs c hc := by
    obtain rfl | rfl : s = .typeInst ⟨0⟩ ∨ s = .expr ⟨1⟩ := by simpa using hs
    all_goals cases hc
  bound e he name b hk := by
    obtain rfl : e = ⟨1⟩ := by simpa using he
    cases hk
  present e he := by
    obtain rfl : e = ⟨1⟩ := by simpa using he
    decide

-- After `x = 3` neither `x` nor `y` depends on itself.
theorem late_assignments_acyclic_value :
    let m₁ := checkedModel three none []
    let m₂ := checkedModel three none [assignSlot false]
    let m₃ := checkedModel three (some ⟨1⟩) [assignSlot true]
    check { library := false, allowUndefined := true } (openModel three) = .ok ⟨[], [⟨0⟩, ⟨1⟩]⟩ m₁ ∧
      checkAssignment ⟨none, 2⟩ m₂ = .ok () m₃ ∧ Late m₁ [⟨0⟩, ⟨1⟩] m₃ [⟨0⟩, ⟨1⟩] ∧
      m₃.RefersTo ⟨1⟩ ⟨0⟩ ∧ m₃.Acyclic [⟨0⟩, ⟨1⟩] := by
  intro m₁ m₂ m₃
  have hc : check { library := false, allowUndefined := true } (openModel three) =
    .ok ⟨[], [⟨0⟩, ⟨1⟩]⟩ m₁ := by cbv
  have hr : Check.toplevel (Check.resolveAssigned ⟨"x", ⟨1⟩, none⟩ {}) m₂ = .ok (⟨0⟩, []) m₂ := by cbv
  have ha : checkAssignment ⟨none, 2⟩ m₂ = .ok () m₃ := by cbv
  have hd : ¬m₃.DependsOn ⟨0⟩ ⟨0⟩ := by
    intro h
    obtain ⟨c, hc, _⟩ := Relation.TransGen.head'_iff.mp h
    exact List.not_mem_nil (closed_three.refersTo hc)
  have hl : Late m₁ [⟨0⟩, ⟨1⟩] m₃ ([⟨0⟩, ⟨1⟩] ++ []) := by
    refine .assign (p := ⟨none, 2⟩) .start (fun x _ s _ => ?_) wellPlaced_assign (fun x hx => .root ?_)
      (by decide) rfl rfl hr ha hd
    · cases s <;> rfl
    · revert x
      decide
  have hyx : m₃.RefersTo ⟨1⟩ ⟨0⟩ := ⟨⟨0⟩, "x", ⟨.expr ⟨0⟩, by decide, .refl⟩, rfl⟩
  exact ⟨hc, ha, hl, hyx, (late_assignments_acyclic wellPlaced_open hc hl).2⟩

-- `x = y` is accepted, though `y` is `x`.
theorem assignment_closes_circle :
    let m₁ := checkedModel { kind := .ident "y" none } none []
    let m₂ := checkedModel { kind := .ident "y" none } none [assignSlot false]
    let m₃ := checkedModel { kind := .ident "y" (some ⟨1⟩), ty := .parInt } (some ⟨1⟩) [assignSlot true]
    check { library := false, allowUndefined := true } (openModel { kind := .ident "y" none }) =
        .ok ⟨[], [⟨0⟩, ⟨1⟩]⟩ m₁ ∧
      checkAssignment ⟨none, 2⟩ m₂ = .ok () m₃ ∧ m₃.DependsOn ⟨0⟩ ⟨0⟩ := by
  intro m₁ m₂ m₃
  have hc : check { library := false, allowUndefined := true } (openModel { kind := .ident "y" none }) =
    .ok ⟨[], [⟨0⟩, ⟨1⟩]⟩ m₁ := by cbv
  have ha : checkAssignment ⟨none, 2⟩ m₂ = .ok () m₃ := by cbv
  have hxy : m₃.RefersTo ⟨0⟩ ⟨1⟩ := ⟨⟨1⟩, "y", ⟨.expr ⟨1⟩, by decide, .refl⟩, rfl⟩
  have hyx : m₃.RefersTo ⟨1⟩ ⟨0⟩ := ⟨⟨0⟩, "x", ⟨.expr ⟨0⟩, by decide, .refl⟩, rfl⟩
  exact ⟨hc, ha, .tail (.single hxy) hyx⟩

end Examples

end Parvar
