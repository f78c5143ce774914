import Mathlib
import Parvar.Model.Items

/-!
The items that are visited. A submodel is entered where it is first included and never again, so the
items of all lists that can be reached from the root through inclusions are visited, each of them
once, and the items of one list in their order.
-/

namespace Parvar

-- Neither removed nor an inclusion.
def Slot.isOwn (slot : Slot) : Bool :=
  match slot.removed, slot.item with
  | false, .submodel _ => false
  | removed, _ => !removed

theorem Slot.isOwn_iff {slot : Slot} : slot.isOwn ↔ slot.removed = false ∧ ∀ s, slot.item ≠ .submodel s := by
  obtain ⟨item, span, removed⟩ := slot
  cases removed <;> cases item <;> simp [isOwn]

namespace Model

section Reach

variable (m : Model)

-- The first list has an inclusion of the second that was not removed.
def Includes (i j : Option Nat) : Prop :=
  ∃ slot ∈ m.itemsOf i, slot.removed = false ∧
    ∃ s < m.submodels.size, slot.item = .submodel s ∧ j = some s

-- The list can be reached from the root.
def Included : Option Nat → Prop := Relation.ReflTransGen m.Includes none

-- The submodel that a slot leads to.
def leadsTo? (slot : Slot) : Option Nat :=
  match slot.removed, slot.item with
  | false, .submodel s => if s < m.submodels.size then some s else none
  | _, _ => none

-- The submodels that can still be entered.
def unseen (t : Tour) : Finset Nat := {s ∈ Finset.range m.submodels.size | s ∉ t.seen}

end Reach

-- The paths of the items among some slots of a list, each slot with its index.
def pathsAmong (i : Option Nat) (slots : List (Slot × Nat)) : List ItemPath :=
  (slots.filter (·.1.isOwn)).map fun a => ⟨i, a.2⟩

def pathsOf (m : Model) (i : Option Nat) : List ItemPath := pathsAmong i (m.itemsOf i).toList.zipIdx

-- The paths met so far that belong to one list.
def Tour.within (t : Tour) (j : Option Nat) : List ItemPath := t.paths.toList.filter (·.submodel = j)

variable {m : Model} {i j : Option Nat} {t t₁ t₂ : Tour} {slots : List (Slot × Nat)} {a : Slot × Nat} {s : Nat}

section Slots

theorem leadsTo_eq_some {slot : Slot} :
    m.leadsTo? slot = some s ↔ slot.removed = false ∧ slot.item = .submodel s ∧ s < m.submodels.size := by
  obtain ⟨item, span, removed⟩ := slot
  cases removed with
  | true => simp [leadsTo?]
  | false =>
    cases item with
    | submodel s' =>
      simp only [leadsTo?, Option.ite_none_right_eq_some, Option.some.injEq, true_and, Item.submodel.injEq]
      grind
    | _ => simp [leadsTo?]

theorem includes_iff :
    m.Includes i (some s) ↔ ∃ a ∈ (m.itemsOf i).toList.zipIdx, m.leadsTo? a.1 = some s := by
  simp only [Includes, leadsTo_eq_some, Option.some.injEq]
  constructor
  · rintro ⟨slot, hm, hr, _, hs, hi, rfl⟩
    obtain ⟨k, hk⟩ := List.mem_iff_getElem?.mp (Array.mem_toList_iff.mpr hm)
    exact ⟨(slot, k), List.mem_zipIdx_iff_getElem?.mpr hk, hr, hi, hs⟩
  · rintro ⟨a, ha, hr, hi, hs⟩
    have hm := List.mem_of_getElem? (List.mem_zipIdx_iff_getElem?.mp ha)
    exact ⟨a.1, Array.mem_toList_iff.mp hm, hr, s, hs, hi, rfl⟩

theorem mem_pathsOf {p : ItemPath} :
    p ∈ m.pathsOf p.submodel ↔ ∃ slot, m.slot? p = some slot ∧ slot.isOwn := by
  obtain ⟨i, k⟩ := p
  simp only [pathsOf, pathsAmong, List.mem_map, List.mem_filter, slot?]
  constructor
  · rintro ⟨⟨slot, k'⟩, ⟨hm, ho⟩, ⟨⟩⟩
    exact ⟨slot, by simpa using List.mem_zipIdx_iff_getElem?.mp hm, ho⟩
  · rintro ⟨slot, hk, ho⟩
    exact ⟨(slot, k), ⟨List.mem_zipIdx_iff_getElem?.mpr (by simpa using hk), ho⟩, rfl⟩

theorem pairwise_pathsOf (m : Model) (i : Option Nat) : (m.pathsOf i).Pairwise (·.index < ·.index) := by
  rw [pathsOf, pathsAmong, List.pairwise_map]
  refine List.Pairwise.filter _ ?_
  have h := List.pairwise_lt_range' (s := 0) (n := (m.itemsOf i).toList.length)
  rw [← List.zipIdx_map_snd 0 (m.itemsOf i).toList, List.pairwise_map] at h
  exact h

-- What one slot can do to a tour.
theorem visitSlot_cases (m : Model) (enter : Nat → Tour → Tour) (i : Option Nat) (t : Tour) (slot : Slot)
    (k : Nat) :
    (slot.isOwn ∧ m.leadsTo? slot = none ∧
      m.visitSlot enter i t slot k = { t with paths := t.paths.push ⟨i, k⟩ }) ∨
    (slot.isOwn = false ∧ ∃ s, m.leadsTo? slot = some s ∧ s ∉ t.seen ∧
      m.visitSlot enter i t slot k = enter s { t with seen := s :: t.seen }) ∨
    (slot.isOwn = false ∧ (∀ s, m.leadsTo? slot = some s → s ∈ t.seen) ∧
      m.visitSlot enter i t slot k = t) := by
  obtain ⟨item, span, removed⟩ := slot
  cases removed with
  | true => simp [visitSlot, Slot.isOwn, leadsTo?]
  | false =>
    cases item with
    | submodel s =>
      by_cases hs : s < m.submodels.size <;> by_cases hn : s ∈ t.seen <;>
        simp [visitSlot, Slot.isOwn, leadsTo?, hs, hn]
    | _ => simp [visitSlot, Slot.isOwn, leadsTo?]

end Slots

section Unseen

theorem card_unseen_enter {slot : Slot} (hs : m.leadsTo? slot = some s) (hn : s ∉ t.seen) :
    (m.unseen { t with seen := s :: t.seen }).card < (m.unseen t).card := by
  have hlt := (leadsTo_eq_some.mp hs).2.2
  refine Finset.card_lt_card ((Finset.ssubset_iff_of_subset fun x hx => ?_).mpr ⟨s, ?_, ?_⟩)
  · simp only [unseen, Finset.mem_filter, List.mem_cons, not_or] at hx ⊢
    exact ⟨hx.1, hx.2.2⟩
  · simp [unseen, hlt, hn]
  · simp [unseen]

theorem card_unseen_le (h : ∀ s ∈ t.seen, s ∈ t₁.seen) : (m.unseen t₁).card ≤ (m.unseen t).card := by
  refine Finset.card_le_card fun x hx => ?_
  simp only [unseen, Finset.mem_filter] at hx ⊢
  exact ⟨hx.1, fun hs => hx.2 (h x hs)⟩

end Unseen

-- From `t` to `t'` some slots of the list `i` were visited, and with them all that could be entered.
structure Toured (m : Model) (i : Option Nat) (slots : List (Slot × Nat)) (t t' : Tour) : Prop where
  kept : ∀ s ∈ t.seen, s ∈ t'.seen
  met : ∀ a ∈ slots, ∀ s, m.leadsTo? a.1 = some s → s ∈ t'.seen
  closed : ∀ s ∈ t'.seen, s ∉ t.seen → ∀ s', m.Includes (some s) (some s') → s' ∈ t'.seen
  sound : (∀ a ∈ slots, ∀ s, m.leadsTo? a.1 = some s → m.Included (some s)) →
    ∀ s ∈ t'.seen, s ∉ t.seen → m.Included (some s)
  own : t'.within i = t.within i ++ pathsAmong i slots
  new : ∀ s ∈ t'.seen, s ∉ t.seen → t'.within (some s) = t.within (some s) ++ m.pathsOf (some s)
  others : ∀ j, j ≠ i → (∀ s ∈ t'.seen, s ∉ t.seen → j ≠ some s) → t'.within j = t.within j

namespace Toured

theorem nil : Toured m i [] t t where
  kept _ := id
  met := by simp
  closed _ h hn := (hn h).elim
  sound _ _ h hn := (hn h).elim
  own := by simp [pathsAmong]
  new _ h hn := (hn h).elim
  others _ _ _ := rfl

-- A slot that leads nowhere, or to where the tour was before.
theorem skip (ho : a.1.isOwn = false) (hs : ∀ s, m.leadsTo? a.1 = some s → s ∈ t.seen) :
    Toured m i [a] t t :=
  { nil with
    met := by simpa using hs
    sound := fun _ _ h hn => (hn h).elim
    own := by simp [pathsAmong, ho] }

theorem item (ho : a.1.isOwn) (hs : m.leadsTo? a.1 = none) :
    Toured m i [a] t { t with paths := t.paths.push ⟨i, a.2⟩ } where
  kept _ := id
  met := by simp [hs]
  closed _ h hn := (hn h).elim
  sound _ _ h hn := (hn h).elim
  own := by simp [Tour.within, pathsAmong, ho]
  new _ h hn := (hn h).elim
  others j hj _ := by simp [Tour.within, Ne.symm hj]

-- A submodel is visited as a whole where it is entered.
theorem enter (ho : a.1.isOwn = false) (hs : m.leadsTo? a.1 = some s) (hn : s ∉ t.seen)
    (hi : ∀ s ∈ i, s ∈ t.seen)
    (h : Toured m (some s) (m.itemsOf (some s)).toList.zipIdx { t with seen := s :: t.seen } t₁) :
    Toured m i [a] t t₁ := by
  have hs₁ : s ∈ t₁.seen := h.kept s List.mem_cons_self
  have hold : ∀ x, x ∉ t.seen → x ≠ s → x ∉ s :: t.seen := fun x hx hxs => by simp [hxs, hx]
  refine ⟨fun x hx => h.kept x (List.mem_cons_of_mem _ hx), by simp [hs, hs₁], ?_, ?_, ?_, ?_, ?_⟩
  · intro x hx hxn x' hinc
    by_cases hxs : x = s
    · subst hxs
      obtain ⟨b, hb, hlead⟩ := includes_iff.mp hinc
      exact h.met b hb x' hlead
    · exact h.closed x hx (hold x hxn hxs) x' hinc
  · intro hinc x hx hxn
    have hincs : m.Included (some s) := hinc a List.mem_cons_self s hs
    by_cases hxs : x = s
    · exact hxs ▸ hincs
    · refine h.sound (fun b hb s' hlead => ?_) x hx (hold x hxn hxs)
      exact hincs.tail (includes_iff.mpr ⟨b, hb, hlead⟩)
  · have hne : i ≠ some s := fun he => hn (hi s he)
    have hi₁ : t₁.within i = t.within i := h.others i hne fun x _ hxn he =>
      hxn (List.mem_cons_of_mem _ (hi x he))
    simp [hi₁, pathsAmong, ho]
  · intro x hx hxn
    by_cases hxs : x = s
    · exact hxs ▸ h.own
    · exact h.new x hx (hold x hxn hxs)
  · intro j hj hnew
    refine h.others j (hnew s hs₁ hn) fun x hx hxn => hnew x hx ?_
    exact fun hxt => hxn (List.mem_cons_of_mem _ hxt)

theorem cons (hi : ∀ s ∈ i, s ∈ t.seen) (h₁ : Toured m i [a] t t₁) (h₂ : Toured m i slots t₁ t₂) :
    Toured m i (a :: slots) t t₂ where
  kept s hs := h₂.kept s (h₁.kept s hs)
  met := by
    refine List.forall_mem_cons.mpr ⟨fun s hs => ?_, h₂.met⟩
    exact h₂.kept s (h₁.met a List.mem_cons_self s hs)
  closed s hs hn s' hinc := by
    by_cases hs₁ : s ∈ t₁.seen
    · exact h₂.kept s' (h₁.closed s hs₁ hn s' hinc)
    · exact h₂.closed s hs hs₁ s' hinc
  sound hinc s hs hn := by
    have ⟨ha, hrest⟩ := List.forall_mem_cons.mp hinc
    by_cases hs₁ : s ∈ t₁.seen
    · exact h₁.sound (by simpa using ha) s hs₁ hn
    · exact h₂.sound hrest s hs hs₁
  own := by
    rw [h₂.own, h₁.own, List.append_assoc]
    simp only [pathsAmong, ← List.map_append, ← List.filter_append, List.singleton_append]
  new s hs hn := by
    have hne : some s ≠ i := fun he => hn (hi s he.symm)
    by_cases hs₁ : s ∈ t₁.seen
    · rw [h₂.others (some s) hne fun x _ hx he => hx (Option.some.inj he ▸ hs₁), h₁.new s hs₁ hn]
    · rw [h₂.new s hs hs₁, h₁.others (some s) hne fun x hx _ he => hs₁ (Option.some.inj he ▸ hx)]
  others j hj hnew := by
    rw [h₂.others j hj fun x hx hn => hnew x hx fun h => hn (h₁.kept x h),
      h₁.others j hj fun x hx => hnew x (h₂.kept x hx)]

end Toured

section Run

variable {depth depth' : Nat}

theorem tour_succ (m : Model) (depth : Nat) (i : Option Nat) (t : Tour) :
    m.tour (depth + 1) i t = (m.itemsOf i).toList.zipIdx.foldl
      (fun t a => m.visitSlot (fun s => m.tour depth (some s)) i t a.1 a.2) t := rfl

theorem visitSlot_congr {enter enter' : Nat → Tour → Tour} {slot : Slot} {k : Nat}
    (h : ∀ s, m.leadsTo? slot = some s → s ∉ t.seen →
      enter s { t with seen := s :: t.seen } = enter' s { t with seen := s :: t.seen }) :
    m.visitSlot enter i t slot k = m.visitSlot enter' i t slot k := by
  obtain ⟨item, span, removed⟩ := slot
  cases removed with
  | true => simp [visitSlot]
  | false =>
    cases item with
    | submodel s =>
      by_cases hs : s < m.submodels.size ∧ s ∉ t.seen
      · simp [visitSlot, hs, h s (leadsTo_eq_some.mpr ⟨rfl, rfl, hs.1⟩) hs.2]
      · simp [visitSlot, hs]
    | _ => simp [visitSlot]

theorem toured_visitSlot (hi : ∀ s ∈ i, s ∈ t.seen)
    (h : ∀ s, m.leadsTo? a.1 = some s → s ∉ t.seen → Toured m (some s) (m.itemsOf (some s)).toList.zipIdx
      { t with seen := s :: t.seen } (m.tour depth (some s) { t with seen := s :: t.seen })) :
    Toured m i [a] t (m.visitSlot (fun s => m.tour depth (some s)) i t a.1 a.2) := by
  obtain ⟨ho, hs, he⟩ | ⟨ho, s, hs, hn, he⟩ | ⟨ho, hs, he⟩ :=
    m.visitSlot_cases (fun s => m.tour depth (some s)) i t a.1 a.2
  · rw [he]
    exact .item ho hs
  · rw [he]
    exact .enter ho hs hn hi (h s hs hn)
  · rw [he]
    exact .skip ho hs

-- With each submodel that is entered there is one less to enter, so the depth is enough.
theorem toured_tour (hd : (m.unseen t).card < depth) (hi : ∀ s ∈ i, s ∈ t.seen) :
    Toured m i (m.itemsOf i).toList.zipIdx t (m.tour depth i t) := by
  induction depth generalizing i t with
  | zero => omega
  | succ depth ih =>
    rw [tour_succ]
    generalize (m.itemsOf i).toList.zipIdx = slots
    induction slots generalizing t with
    | nil => exact .nil
    | cons a slots ihs =>
      have hstep : Toured m i [a] t (m.visitSlot (fun s => m.tour depth (some s)) i t a.1 a.2) := by
        refine toured_visitSlot hi fun s hs hn => ih ?_ (by simp)
        have := card_unseen_enter hs hn
        omega
      have hle := card_unseen_le (m := m) hstep.kept
      exact hstep.cons hi (ihs (by omega) fun s hs => hstep.kept s (hi s hs))

-- More depth than that changes nothing.
theorem tour_eq_of_lt (hd : (m.unseen t).card < depth) (hd' : (m.unseen t).card < depth')
    (hi : ∀ s ∈ i, s ∈ t.seen) : m.tour depth i t = m.tour depth' i t := by
  induction depth generalizing depth' i t with
  | zero => omega
  | succ depth ih =>
    obtain ⟨depth', rfl⟩ : ∃ n, depth' = n + 1 := ⟨depth' - 1, by omega⟩
    rw [tour_succ, tour_succ]
    generalize (m.itemsOf i).toList.zipIdx = slots
    induction slots generalizing t with
    | nil => rfl
    | cons a slots ihs =>
      have hstep : Toured m i [a] t (m.visitSlot (fun s => m.tour depth (some s)) i t a.1 a.2) := by
        refine toured_visitSlot hi fun s hs hn => toured_tour ?_ (by simp)
        have := card_unseen_enter hs hn
        omega
      have heq : m.visitSlot (fun s => m.tour depth (some s)) i t a.1 a.2 =
          m.visitSlot (fun s => m.tour depth' (some s)) i t a.1 a.2 := by
        refine visitSlot_congr fun s hs hn => ?_
        have := card_unseen_enter hs hn
        exact ih (by omega) (by omega) (by simp)
      have hle := card_unseen_le (m := m) hstep.kept
      rw [List.foldl_cons, List.foldl_cons, ← heq]
      exact ihs (by omega) (fun s hs => hstep.kept s (hi s hs)) (by omega)

end Run

section Root

variable (m : Model)

theorem card_unseen_start : (m.unseen {}).card = m.submodels.size := by
  simp [unseen]

theorem toured_root : Toured m none (m.itemsOf none).toList.zipIdx {} (m.tour (m.submodels.size + 1) none {}) :=
  toured_tour (by rw [card_unseen_start]; omega) (by simp)

-- All that is seen was reached, and all that can be reached is seen.
theorem mem_seen_iff : s ∈ (m.tour (m.submodels.size + 1) none {}).seen ↔ m.Included (some s) := by
  have h := m.toured_root
  constructor
  · intro hs
    refine h.sound (fun a ha s' hlead => ?_) s hs (by simp)
    exact .single (includes_iff.mpr ⟨a, ha, hlead⟩)
  · intro hinc
    generalize he : some s = j at hinc
    induction hinc generalizing s with
    | refl => cases he
    | @tail i j _ hij ih =>
      subst he
      cases i with
      | none =>
        obtain ⟨a, ha, hlead⟩ := includes_iff.mp hij
        exact h.met a ha s hlead
      | some s' => exact h.closed s' (ih rfl) (by simp) s hij

theorem filter_itemPaths (h : m.Included j) : m.itemPaths.filter (·.submodel = j) = m.pathsOf j := by
  cases j with
  | none => exact m.toured_root.own
  | some s => exact m.toured_root.new s (m.mem_seen_iff.mpr h) (by simp)

theorem filter_itemPaths_eq_nil (h : ¬m.Included j) : m.itemPaths.filter (·.submodel = j) = [] := by
  have hne : j ≠ none := fun he => h (he ▸ .refl)
  exact m.toured_root.others j hne fun s hs _ he => h (he ▸ m.mem_seen_iff.mp hs)

theorem mem_itemPaths {p : ItemPath} :
    p ∈ m.itemPaths ↔ m.Included p.submodel ∧ p ∈ m.pathsOf p.submodel := by
  have hf : p ∈ m.itemPaths ↔ p ∈ m.itemPaths.filter (·.submodel = p.submodel) := by simp
  by_cases h : m.Included p.submodel
  · simp only [hf, m.filter_itemPaths h, h, true_and]
  · simp only [hf, m.filter_itemPaths_eq_nil h, h, false_and, List.not_mem_nil]

theorem pairwise_itemPaths : m.itemPaths.Pairwise fun p q => p.submodel = q.submodel → p.index < q.index := by
  refine List.pairwise_iff_forall_sublist.mpr fun {p q} hpq he => ?_
  have hp : m.Included p.submodel := (m.mem_itemPaths.mp (hpq.subset List.mem_cons_self)).1
  have hsub : [p, q].Sublist (m.pathsOf p.submodel) := by
    rw [← m.filter_itemPaths hp]
    simpa [he] using hpq.filter (·.submodel = p.submodel)
  exact List.pairwise_iff_forall_sublist.mp (m.pairwise_pathsOf p.submodel) hsub

theorem nodup_itemPaths : m.itemPaths.Nodup :=
  m.pairwise_itemPaths.imp fun h he => absurd (h (congrArg _ he)) (he ▸ lt_irrefl _)

end Root

-- The items that are visited are those of the lists that can be reached from the root, whatever
-- includes what, each of them once, and those of one list in their order. More depth than there are
-- submodels is never needed.
theorem itemPaths_exact (m : Model) :
    (∀ more, (m.tour (m.submodels.size + 1 + more) none {}).paths.toList = m.itemPaths) ∧
    (∀ p, p ∈ m.itemPaths ↔ m.Included p.submodel ∧
      ∃ slot, m.slot? p = some slot ∧ slot.removed = false ∧ ∀ s, slot.item ≠ .submodel s) ∧
    m.itemPaths.Nodup ∧
    m.itemPaths.Pairwise fun p q => p.submodel = q.submodel → p.index < q.index := by
  refine ⟨fun more => ?_, fun p => ?_, m.nodup_itemPaths, m.pairwise_itemPaths⟩
  · have hc := m.card_unseen_start
    have heq : m.tour (m.submodels.size + 1 + more) none {} = m.tour (m.submodels.size + 1) none {} :=
      tour_eq_of_lt (by omega) (by omega) (by simp)
    rw [itemPaths, heq]
  · simp only [mem_itemPaths, mem_pathsOf, Slot.isOwn_iff]

end Model
end Parvar
