import Parvar.Proofs.Model.Lookup
import Parvar.Proofs.Resolve.Territory

/-!
The single steps of resolution and how they are put together. `Walks` is the contract of a step; the
contracts of steps at nodes side by side add up.
-/

namespace Parvar

theorem ExprKind.Alike.trans {k₁ k₂ k₃ : ExprKind} (h₁ : k₁.Alike k₂) (h₂ : k₂.Alike k₃) :
    k₁.Alike k₃ :=
  ⟨fun gen => (h₁.parts gen).trans (h₂.parts gen), h₁.name.trans h₂.name⟩

theorem ExprKind.Alike.symm {k k' : ExprKind} (h : k.Alike k') : k'.Alike k :=
  ⟨fun gen => (h.parts gen).symm, h.name.symm⟩

namespace Model.Alike

variable {m m' : Model} (h : m.Alike m')

protected theorem refl (m : Model) : m.Alike m :=
  ⟨rfl, rfl, rfl, rfl, rfl, rfl, fun _ => rfl, fun _ => ⟨fun _ => .refl _, rfl⟩⟩

include h

theorem decl_eq (d : DeclId) : m'.decl d = m.decl d := by simp [decl, h.decls]

theorem typeInst_eq (t : TypeInstId) : m'.typeInst t = m.typeInst t := by
  simp [typeInst, h.typeInsts]

theorem setKind {e : ExprId} {k : ExprKind} (hk : (m'.kind e).Alike k) : m.Alike (m'.setKind e k) where
  items := h.items
  submodels := h.submodels
  funcs := h.funcs
  decls := h.decls
  typeInsts := h.typeInsts
  size := by simp [Model.setKind, modifyExpr, h.size]
  ann c := by simp [h.ann]
  kind c := by
    by_cases hc : c = e
    · subst hc
      cases m'.kind_setKind c k
      case inl e => rw [e]; exact (h.kind c).trans hk
      case inr e => rw [e.1]; exact h.kind c
    · rw [kind_setKind_ne hc]; exact h.kind c

end Model.Alike

namespace Resolve

variable {m : Model} {roots : List Site} {r r₁ r₂ : Resolution} {s w : Site} {d : DeclId}
  {e : ExprId} {own : List ExprId} {ws ws₁ ws₂ us us₁ us₂ : List Site} {ds ds₁ ds₂ : List DeclId}

section Parts

-- Work below a node is work on the parts of it.
theorem Territory.of_parts (hs : m.Reached roots s) {n : Site} (hn : n.IsNode)
    (ht : Territory m roots r ws n) (hw : ∀ w ∈ ws, w ∈ m.parts s) :
    Territory m roots r [s] n :=
  ht.imp_left fun ⟨w, hm, hb⟩ =>
    ⟨s, List.mem_singleton_self s, .head ⟨hs, hw w hm, hb.holds (.of_isNode hn)⟩ hb⟩

variable (h : m.SinglePlace roots)

include h

-- What stands above a part of a node is the node itself, or stands above that.
theorem above_cases (hs : m.Reached roots s) (hw : w ∈ m.parts s) {c : Site}
    (hc : m.Part roots (.decl d) c) (hb : m.Below roots c w) :
    (.decl d = s ∧ c = w) ∨ m.Below roots c s := by
  have hh : m.Holds w := hb.cases_tail.elim (· ▸ hc.holds) fun ⟨_, _, hp⟩ => hp.holds
  have hp : m.Part roots s w := ⟨hs, hw, hh⟩
  cases h.below_parent hp hb
  case inl e => exact .inl ⟨h.part_unique hc (e ▸ hp), e⟩
  case inr hcs => exact .inr hcs

theorem Open.part (ho : Open m roots r s) (hs : m.Reached roots s) (hd : ∀ d, s ≠ .decl d)
    (hw : w ∈ m.parts s) : Open m roots r w := by
  intro d c hc hb
  cases above_cases h hs hw hc hb
  case inl e => exact (hd d e.1.symm).elim
  case inr hcs => exact ho d c hc hcs

theorem Ready.parts (hr : Ready m roots r [s]) (hd : ∀ d, s ≠ .decl d) :
    Ready m roots r (m.parts s) := by
  have hs := hr.reached s (List.mem_singleton_self s)
  refine ⟨fun w hw => hs.part hw, fun w hw d c hc hb => ?_, fun w hw d hb => ?_, h.pairwise_parts hs⟩
  · cases above_cases h hs hw hc hb
    case inl e => exact (hd d e.1.symm).elim
    case inr hcs => exact hr.above s (List.mem_singleton_self s) d c hc hcs
  · exact hr.fresh s (List.mem_singleton_self s) d (.head ⟨hs, hw, hb.holds (.of_isNode trivial)⟩ hb)

-- The parts of a declaration are ready once it has been entered.
theorem Ready.decl (hi : Inv m roots r) (hd : m.Reached roots (.decl d))
    (ho : Open m roots r (.decl d)) (hn : ¬r.Entered d) :
    Ready m roots (r.enter d) (m.parts (.decl d)) := by
  refine ⟨fun w hw => hd.part hw, fun w hw c a ha hb => ?_, fun w hw c hb => ?_,
    h.pairwise_parts hd⟩
  · cases above_cases h hd hw ha hb
    case inl e =>
      obtain ⟨⟨rfl⟩, _⟩ := e
      exact .inl List.mem_cons_self
    case inr hcs => exact (ho c a ha hcs).1.imp_left (List.mem_cons_of_mem _)
  · have hp : m.Part roots (.decl d) w := ⟨hd, hw, hb.holds (.of_isNode trivial)⟩
    constructor
    · intro he
      have hc : c = d ∨ r.Entered c := by
        simpa [Resolution.Entered, Resolution.enter, or_assoc] using he
      cases hc
      case inl e => exact h.not_below_part hp (e ▸ hb)
      case inr he => exact hn ((hi.entered c he).2 d w hp hb)
    · intro hs
      exact hn ((hi.scope c hs).2 d w hp hb).1

theorem Open.needs (hd : m.Reached roots (.decl d)) (ho : Open m roots r (.decl d))
    (hs : s ∈ m.needs d) : Open m roots (r.enter d) s := by
  intro c a ha hb
  cases above_cases h hd (List.mem_append_left _ hs) ha hb
  case inl e =>
    obtain ⟨⟨rfl⟩, _⟩ := e
    exact ⟨.inl List.mem_cons_self, fun _ => List.mem_cons_self⟩
  case inr hcs =>
    have hc := ho c a ha hcs
    exact ⟨hc.1.imp_left (List.mem_cons_of_mem _), fun hn => List.mem_cons_of_mem _ (hc.2 hn)⟩

-- An annotation is not among the needs, so it may come when the declaration has been left.
theorem Open.ann (hd : m.Reached roots (.decl d)) (ho : Open m roots r (.decl d))
    (hs : s ∈ (m.decl d).ann.map Site.expr) (hdo : d ∈ r.order) : Open m roots r s := by
  intro c a ha hb
  cases above_cases h hd (List.mem_append_right _ hs) ha hb
  case inl e =>
    obtain ⟨⟨rfl⟩, rfl⟩ := e
    refine ⟨.inr hdo, fun hn => ?_⟩
    exact ((List.pairwise_append.mp (h.once hd)).2.2 a hn a hs rfl ha.holds).elim
  case inr hcs => exact ho c a ha hcs

end Parts

section Invariant

theorem Inv.setKind (hi : Inv m roots r) (ho : Open m roots r (.expr e)) {k : ExprKind}
    (hk : (r.model.kind e).Alike k) :
    Inv m roots { r with model := r.model.setKind e k } where
  alike := hi.alike.setKind hk
  nodup := hi.nodup
  disjoint := hi.disjoint
  entered := hi.entered
  scope := hi.scope
  sorted pre d post hpre s hs c hc name b hb := by
    by_cases hce : c = e
    · -- A node that something in the order needs is not open.
      subst hce
      have hpre : r.order.toList = pre ++ d :: post := hpre
      have hd : d ∈ r.order := Array.mem_toList_iff.mp (by simp [hpre])
      have hr := (hi.entered d (.inr hd)).1
      have hp : s ∈ m.parts (.decl d) := List.mem_append_left _ hs
      have hbc := hc.contains.below (hr.part hp) (.of_isNode trivial)
      have ha := (ho d s ⟨hr, hp, hbc.holds (.of_isNode trivial)⟩ hbc).2 hs
      exact (hi.disjoint d ha hd).elim
    · exact hi.sorted pre d post hpre s hs c hc name b (Model.kind_setKind_ne hce k ▸ hb)

theorem Inv.withScope (hi : Inv m roots r) {sc : List (String × DeclId)}
    (hs : ∀ name d, (name, d) ∈ sc → m.Reached roots (.decl d) ∧ Open m roots r (.decl d)) :
    Inv m roots { r with scope := sc } :=
  { hi with scope := fun d ⟨name, hd⟩ => hs name d hd }

theorem Inv.enter (hi : Inv m roots r) (hd : m.Reached roots (.decl d))
    (ho : Open m roots r (.decl d)) (hn : ¬r.Entered d) : Inv m roots (r.enter d) where
  alike := hi.alike
  nodup := hi.nodup
  disjoint c hc hm := by
    cases List.mem_cons.mp hc
    case inl e => exact hn (e ▸ .inr hm)
    case inr hc => exact hi.disjoint c hc hm
  entered c hc := by
    have hm : ∀ c, r.Entered c → (r.enter d).Entered c := fun c => .imp_left (List.mem_cons_of_mem _)
    have hc : c = d ∨ r.Entered c := by
      simpa [Resolution.Entered, Resolution.enter, or_assoc] using hc
    cases hc
    case inl e =>
      subst e
      exact ⟨hd, fun y a ha hb => hm y (ho y a ha hb).1⟩
    case inr hc => exact ⟨(hi.entered c hc).1, fun y a ha hb => hm y ((hi.entered c hc).2 y a ha hb)⟩
  scope c hc := by
    refine ⟨(hi.scope c hc).1, fun y a ha hb => ?_⟩
    have hy := (hi.scope c hc).2 y a ha hb
    exact ⟨hy.1.imp_left (List.mem_cons_of_mem _), fun hs => List.mem_cons_of_mem _ (hy.2 hs)⟩
  sorted := hi.sorted

theorem entered_leave (ha : r₁.active = d :: r.active) (c : DeclId) :
    (r₁.leave d).Entered c ↔ r₁.Entered c := by
  simp only [Resolution.Entered, Resolution.leave, ha, List.erase_cons_head, Array.mem_push,
    List.mem_cons]
  tauto

-- The order stays sorted when a declaration joins it whose needs are bound to what is there.
theorem Inv.leave (hi : Inv m roots r) (hn : ¬r.Entered d) (hi₁ : Inv m roots r₁)
    (ha : r₁.active = d :: r.active) (hs : r₁.scope = r.scope)
    (ho : ∀ c ∈ r.order, c ∈ r₁.order)
    (hd : ∀ s ∈ m.needs d, Bound m r₁.model r₁.order.toList s) : Inv m roots (r₁.leave d) where
  alike := hi₁.alike
  nodup := by
    have hd : d ∉ r₁.order := hi₁.disjoint d (ha ▸ List.mem_cons_self)
    simp only [Resolution.leave, Array.toList_push]
    exact List.nodup_append.mpr ⟨hi₁.nodup, List.nodup_singleton d, fun c hc b hb e =>
      hd (Array.mem_toList_iff.mp (List.mem_singleton.mp hb ▸ e ▸ hc))⟩
  disjoint c hc := by
    have hc : c ∈ r.active := by simpa [Resolution.leave, ha] using hc
    have h₁ : c ∉ r₁.order := hi₁.disjoint c (ha ▸ List.mem_cons_of_mem _ hc)
    simpa [Resolution.leave, h₁] using fun e : c = d => hn (e ▸ .inl hc)
  entered c hc := by
    have hc := hi₁.entered c ((entered_leave ha c).mp hc)
    exact ⟨hc.1, fun y a ha' hb => (entered_leave ha y).mpr (hc.2 y a ha' hb)⟩
  scope c hc := by
    have hc : r.InScope c := by
      simpa only [Resolution.InScope, Resolution.leave, hs] using hc
    refine ⟨(hi.scope c hc).1, (hi.scope c hc).2.mono (by simp [Resolution.leave, ha]) ?_⟩
    exact fun y hy => Array.mem_push.mpr (.inl (ho y hy))
  sorted pre c post hpre := by
    simp only [Resolution.leave, Array.toList_push] at hpre ⊢
    cases post using List.reverseRecOn
    case nil =>
      have ⟨hp, hc⟩ := List.append_inj' hpre rfl
      cases hc
      exact hp ▸ hd
    case append_singleton post last _ =>
      have hp : r₁.order.toList ++ [d] = (pre ++ c :: post) ++ [last] := by simpa using hpre
      exact hi₁.sorted pre c post (List.append_inj' hp rfl).1

end Invariant

section Scope

theorem map_eraseP (name : String) (l : List (String × DeclId)) :
    (l.eraseP (·.1 = name)).map (·.1) = (l.map (·.1)).erase name := by
  induction l with
  | nil => rfl
  | cons a l ih =>
    by_cases ha : a.1 = name
    · simp [ha]
    · simp [ha, ih]

-- What came into scope leaves it, whatever the order in which the names go.
theorem foldl_pop {l sc : List (String × DeclId)} (hr : r.scope = l ++ sc)
    (hp : (ds.map fun d => (r.model.decl d).name).Perm (l.map (·.1))) :
    ds.foldl Resolution.pop r = { r with scope := sc } := by
  induction ds generalizing r l with
  | nil =>
    have : l = [] := by simpa using hp
    simp [← show r.scope = sc by simpa [this] using hr]
  | cons d ds ih =>
    have hm : (r.model.decl d).name ∈ l.map (·.1) := hp.mem_iff.mp List.mem_cons_self
    have ⟨a, ha, hn⟩ := List.mem_map.mp hm
    apply @ih (r.pop d) (l.eraseP (·.1 = (r.model.decl d).name))
    · simp only [Resolution.pop, hr]
      exact List.eraseP_append_left (by simpa using hn) _ ha
    · rw [map_eraseP]
      exact List.cons_perm_iff_perm_erase.mp hp |>.2

theorem forM_push (ds : List DeclId) (r : Resolution) :
    ds.forM ResolveM.push r = .ok () (ds.foldl Resolution.push r) := by
  induction ds generalizing r with
  | nil => rfl
  | cons d ds ih => exact ih (r.push d)

theorem foldl_push (ds : List DeclId) (r : Resolution) :
    ds.foldl Resolution.push r =
      { r with scope := (ds.map fun d => ((r.model.decl d).name, d)).reverse ++ r.scope } := by
  induction ds generalizing r with
  | nil => rfl
  | cons d ds ih => simp [ih, Resolution.push]

theorem forM_pop (ds : List DeclId) (r : Resolution) :
    ds.forM ResolveM.pop r = .ok () (ds.foldl Resolution.pop r) := by
  induction ds generalizing r with
  | nil => rfl
  | cons d ds ih => exact ih (r.pop d)

end Scope

section Walks

-- What a step has achieved that resolved the nodes `ws`, with `us` of them done, and brought `ds`
-- into scope.
structure Resolved (m : Model) (roots : List Site) (r : Resolution) (ws us : List Site)
    (ds : List DeclId) (r' : Resolution) : Prop where
  inv : Inv m roots r'
  active : r'.active = r.active
  walked : Walked m roots r [] ws ds r'
  done : ∀ u ∈ us, Done m r' u

def Walks (m : Model) (roots : List Site) (ws us : List Site) (ds : List DeclId)
    (x : ResolveM Unit) : Prop :=
  ∀ r r', Inv m roots r → Ready m roots r ws → (∀ w ∈ ws, Open m roots r w) → x r = .ok () r' →
    Resolved m roots r ws us ds r'

theorem Walked.refl (r : Resolution) : Walked m roots r own ws [] r where
  scope := rfl
  pushed := by simp
  order := List.prefix_rfl
  mono _ := id
  entered _ := .inl
  kept _ := .inl rfl

theorem walks_pure : Walks m roots ws [] [] (pure ()) := by
  intro r r' hi _ _ hx
  obtain ⟨-, rfl⟩ := pure_eq_ok.mp hx
  exact ⟨hi, rfl, .refl r, by simp⟩

-- Declarations among the resolved nodes may come into scope afterwards.
theorem Walks.pushed {x : ResolveM Unit} (hx : Walks m roots ws us [] x)
    (hd : ∀ d ∈ ds, .decl d ∈ ws) : Walks m roots ws us ds (x >>= fun _ => ds.forM ResolveM.push) := by
  intro r r₂ hi hr ho hxy
  have ⟨_, r₁, hrx, hry⟩ := bind_eq_ok.mp hxy
  have h₁ := hx r r₁ hi hr ho hrx
  rw [forM_push, foldl_push] at hry
  cases hry
  refine ⟨h₁.inv.withScope fun name c hc => ?_, h₁.active, ?_, fun u hu => ?_⟩
  · cases List.mem_append.mp hc
    case inl hc =>
      simp only [List.mem_reverse, List.mem_map, Prod.mk.injEq] at hc
      obtain ⟨_, hm, _, rfl⟩ := hc
      exact ⟨hr.reached _ (hd _ hm), h₁.walked.open_mono h₁.active (ho _ (hd _ hm))⟩
    case inr hc => exact h₁.inv.scope c ⟨name, hc⟩
  · exact { h₁.walked with
      scope := by simp [h₁.walked.scope, h₁.inv.alike.decl_eq]
      pushed := hd }
  · exact ⟨(h₁.done u hu).bound, (h₁.done u hu).decls⟩

theorem walks_forM_push (ds : List DeclId) :
    Walks m roots (ds.map .decl) [] ds (ds.forM ResolveM.push) :=
  Walks.pushed (x := pure ()) walks_pure fun _ hd => List.mem_map_of_mem hd

variable (h : m.SinglePlace roots)

include h

theorem Walks.seq {x y : ResolveM Unit} (hu : us₁ ⊆ ws₁) (hx : Walks m roots ws₁ us₁ ds₁ x)
    (hy : Walks m roots ws₂ us₂ ds₂ y) :
    Walks m roots (ws₁ ++ ws₂) (us₁ ++ us₂) (ds₁ ++ ds₂) (x >>= fun _ => y) := by
  intro r r₂ hi hr ho hxy
  have ⟨_, r₁, hrx, hry⟩ := bind_eq_ok.mp hxy
  have h₁ := hx r r₁ hi hr.left (fun w hw => ho w (List.mem_append_left _ hw)) hrx
  have h₂ := hy r₁ r₂ h₁.inv (hr.after h h₁.walked)
    (fun w hw => h₁.walked.open_mono h₁.active (ho w (List.mem_append_right _ hw))) hry
  refine ⟨h₂.inv, h₂.active.trans h₁.active, h₁.walked.trans h₂.walked, fun u hm => ?_⟩
  cases List.mem_append.mp hm
  case inl hm => exact (h₁.done u hm).after h hr h₁.walked h₂.walked (hu hm)
  case inr hm => exact h₂.done u hm

theorem walks_forM {α : Type} {f : α → ResolveM Unit} {ws us : α → List Site}
    {ds : α → List DeclId} {as : List α} (hu : ∀ a ∈ as, us a ⊆ ws a)
    (hf : ∀ a ∈ as, Walks m roots (ws a) (us a) (ds a) (f a)) :
    Walks m roots (as.flatMap ws) (as.flatMap us) (as.flatMap ds) (as.forM f) := by
  induction as with
  | nil => exact walks_pure
  | cons a as ih =>
    apply Walks.seq h (hu a List.mem_cons_self) (hf a List.mem_cons_self)
    exact ih (fun b hb => hu b (List.mem_cons_of_mem _ hb)) fun b hb => hf b (List.mem_cons_of_mem _ hb)

theorem walks_each {α : Type} {f : α → ResolveM Unit} {site : α → Site} (as : List α)
    (hf : ∀ a ∈ as, Walks m roots [site a] [site a] [] (f a)) :
    Walks m roots (as.map site) (as.map site) [] (as.forM f) := by
  induction as with
  | nil => exact walks_pure
  | cons a as ih =>
    apply Walks.seq h (List.Subset.refl [site a]) (hf a List.mem_cons_self)
    exact ih fun b hb => hf b (List.mem_cons_of_mem _ hb)

end Walks
end Resolve
end Parvar
