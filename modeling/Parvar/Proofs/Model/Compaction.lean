import Parvar.Proofs.Model.Traversal

/-!
Removed items are dropped without a trace. What a tour meets is told by the contents of the slots
alone: a removed slot adds nothing to it, so a tour of the compacted model meets the same contents in
the same order, even though most of them have moved.
-/

namespace Parvar.Model

-- A tour by the contents of the slots, without their places.
structure Sights where
  seen : List Nat
  slots : List (Option Slot)

def Tour.sights (m : Model) (t : Tour) : Sights := ⟨t.seen, t.paths.toList.map m.slot?⟩

section

variable (m : Model)

def sightSlot (enter : Nat → Sights → Sights) (v : Sights) (slot : Slot) : Sights :=
  if slot.isOwn then { v with slots := v.slots ++ [some slot] }
  else match m.leadsTo? slot with
    | some s => if s ∈ v.seen then v else enter s { v with seen := s :: v.seen }
    | none => v

def sightTour : Nat → Option Nat → Sights → Sights
  | 0, _, v => v
  | depth + 1, i, v => (m.itemsOf i).toList.foldl (m.sightSlot fun s => sightTour depth (some s)) v

-- The model without its removed items.
def compacted : Model :=
  { m with
    items := m.items.filter (!·.removed)
    submodels := m.submodels.map fun s => { s with items := s.items.filter (!·.removed) } }

end

variable {m : Model} {i : Option Nat} {t : Tour} {slot : Slot}

section Contents

variable {enter : Nat → Tour → Tour} {enter' : Nat → Sights → Sights}
  (henter : ∀ s t, (enter s t).sights m = enter' s (t.sights m))

include henter

theorem sights_visitSlot {k : Nat} (hslot : m.slot? ⟨i, k⟩ = some slot) :
    (m.visitSlot enter i t slot k).sights m = m.sightSlot enter' (t.sights m) slot := by
  obtain ⟨ho, -, he⟩ | ⟨ho, s, hs, hn, he⟩ | ⟨ho, hs, he⟩ := m.visitSlot_cases enter i t slot k
  · simp [he, sightSlot, ho, Tour.sights, hslot]
  · rw [he, henter]
    simp [sightSlot, ho, hs, hn, Tour.sights]
  · rw [he, sightSlot, ho]
    cases hl : m.leadsTo? slot with
    | none => rfl
    | some s => simp [Tour.sights, hs s hl]

theorem sights_visitSlots {slots : List (Slot × Nat)} (hslots : ∀ a ∈ slots, m.slot? ⟨i, a.2⟩ = some a.1) :
    (slots.foldl (fun t a => m.visitSlot enter i t a.1 a.2) t).sights m =
      (slots.map Prod.fst).foldl (m.sightSlot enter') (t.sights m) := by
  induction slots generalizing t with
  | nil => rfl
  | cons a slots ih =>
    obtain ⟨ha, hrest⟩ := List.forall_mem_cons.mp hslots
    rw [List.foldl_cons, List.map_cons, List.foldl_cons, ih hrest, sights_visitSlot henter ha]

omit henter

-- The places of the slots do not matter for what is met.
theorem sights_tour (depth : Nat) : (m.tour depth i t).sights m = m.sightTour depth i (t.sights m) := by
  induction depth generalizing i t with
  | zero => rfl
  | succ depth ih =>
    have hslots : ∀ a ∈ (m.itemsOf i).toList.zipIdx, m.slot? ⟨i, a.2⟩ = some a.1 := fun a ha => by
      simpa [slot?] using List.mem_zipIdx_iff_getElem?.mp ha
    have henter : ∀ s t, (m.tour depth (some s) t).sights m = m.sightTour depth (some s) (t.sights m) :=
      fun s t => ih
    rw [tour_succ, sights_visitSlots henter hslots, List.zipIdx_map_fst, sightTour]

theorem map_itemPaths (m : Model) :
    m.itemPaths.map m.slot? = (m.sightTour (m.submodels.size + 1) none ⟨[], []⟩).slots :=
  congrArg Sights.slots (sights_tour (m.submodels.size + 1))

end Contents

section Compacted

theorem sightSlot_removed (enter : Nat → Sights → Sights) (v : Sights) (h : slot.removed) :
    m.sightSlot enter v slot = v := by
  obtain ⟨item, span, removed⟩ := slot
  obtain rfl : removed = true := h
  simp [sightSlot, Slot.isOwn, leadsTo?]

theorem itemsOf_compacted (m : Model) (i : Option Nat) :
    m.compacted.itemsOf i = (m.itemsOf i).filter (!·.removed) := by
  cases i with
  | none => rfl
  | some s => cases h : m.submodels[s]? <;> simp [itemsOf, compacted, h]

theorem sightSlot_compacted (m : Model) : m.compacted.sightSlot = m.sightSlot := by
  have hl : m.compacted.leadsTo? = m.leadsTo? := by
    funext slot
    simp [leadsTo?, compacted]
  funext enter v slot
  rw [sightSlot, sightSlot, hl]

theorem sightTour_compacted (m : Model) : m.compacted.sightTour = m.sightTour := by
  funext depth
  induction depth with
  | zero => rfl
  | succ depth ih =>
    funext i v
    rw [sightTour, sightTour, sightSlot_compacted, ih, itemsOf_compacted, Array.toList_filter, List.foldl_filter]
    congr 1
    funext v slot
    cases h : slot.removed with
    | true => simp [sightSlot_removed _ v h]
    | false => rfl

theorem map_itemPaths_compacted (m : Model) :
    m.compacted.itemPaths.map m.compacted.slot? = m.itemPaths.map m.slot? := by
  have hsize : m.compacted.submodels.size = m.submodels.size := by simp [compacted]
  rw [map_itemPaths, map_itemPaths, sightTour_compacted, hsize]

theorem removed_eq_false_of_mem_compacted (h : slot ∈ m.compacted.itemsOf i) : slot.removed = false := by
  rw [itemsOf_compacted, Array.mem_filter] at h
  simpa using h.2

theorem compacted_compacted (m : Model) : m.compacted.compacted = m.compacted := by
  simp [compacted, Array.filter_filter, Function.comp_def]

end Compacted

section Pauses

-- A model in use while `n` of its pauses last. All else that is done to it leaves their count alone.
inductive Pausing : Nat → Model → Prop
  | fresh : Pausing 0 {}
  | pause {n m} : Pausing n m → Pausing (n + 1) m.pause
  | resume {n m} : Pausing (n + 1) m → Pausing n m.resume
  | change {n m m'} : Pausing n m → m'.pauses = m.pauses → Pausing n m'

theorem Pausing.pauses_eq {n : Nat} (h : Pausing n m) : m.pauses = n := by
  induction h with
  | fresh => rfl
  | pause _ ih => rw [Model.pause, ih]
  | resume _ ih => rw [Model.resume, ih, Nat.add_sub_cancel]
  | change _ he ih => rw [he, ih]

theorem compact_of_paused (h : 0 < m.pauses) : m.compact = (false, m) := by
  simp [compact, paused, h]

theorem compact_of_not_paused (h : m.pauses = 0) : m.compact = (true, m.compacted) := by
  simp [compact, paused, h, compacted]

end Pauses

-- Two submodels that include each other, with removed items and a removed inclusion.
def ringModel : Model where
  items := #[{ item := .constraint ⟨0⟩, removed := true }, { item := .submodel 0 }, { item := .output ⟨1⟩ }]
  submodels := #[
    ⟨"a", #[{ item := .submodel 0, removed := true }, { item := .submodel 1 }, { item := .constraint ⟨2⟩ }]⟩,
    ⟨"b", #[{ item := .output ⟨0⟩ }, { item := .output ⟨3⟩, removed := true }, { item := .submodel 0 }]⟩]

end Parvar.Model
