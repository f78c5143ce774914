import Mathlib
import Parvar.IntSet.Basic

/-! The least and the greatest element of a set. -/

namespace Parvar

namespace Separated

theorem tail {r : Range} {rs : List Range} (h : Separated (r :: rs)) : Separated rs := by
  cases rs with
  | nil => trivial
  | cons s rest => exact h.2.2

theorem head_le {r : Range} {rs : List Range} (h : Separated (r :: rs)) : r.lo.toInt ≤ r.hi.toInt := by
  cases rs with
  | nil => exact Int64.le_iff_toInt_le.mp h
  | cons s rest => exact Int64.le_iff_toInt_le.mp h.1

theorem head_lo_le {r : Range} {rs : List Range} (h : Separated (r :: rs)) :
    ∀ s ∈ r :: rs, r.lo.toInt ≤ s.lo.toInt := by
  induction rs generalizing r with
  | nil => simp
  | cons q rest ih =>
    intro s hs
    rcases List.mem_cons.mp hs with rfl | hs
    · exact le_rfl
    · have := ih h.tail s hs
      have := h.head_le
      have := h.2.1
      omega

theorem le_last_hi {r : Range} {rs : List Range} (h : Separated (r :: rs)) :
    ∀ s ∈ r :: rs, s.hi.toInt ≤ ((r :: rs).getLast (List.cons_ne_nil _ _)).hi.toInt := by
  induction rs generalizing r with
  | nil => simp
  | cons q rest ih =>
    intro s hs
    rw [List.getLast_cons (List.cons_ne_nil _ _)]
    rcases List.mem_cons.mp hs with rfl | hs
    · have := ih h.tail q List.mem_cons_self
      have := h.tail.head_le
      have := h.2.1
      omega
    · exact ih h.tail s hs

end Separated

namespace IntSet

variable {s : IntSet} {v lo hi : Int64}

theorem contains_iff : s.contains v ↔ ∃ r ∈ s.ranges, r.lo.toInt ≤ v.toInt ∧ v.toInt ≤ r.hi.toInt := by
  simp [contains, Range.contains, Int64.le_iff_toInt_le]

theorem min_le (hv : s.contains v) (hm : s.min? = some lo) : lo.toInt ≤ v.toInt := by
  have ⟨r, hr, hl, _⟩ := contains_iff.mp hv
  obtain ⟨ranges, hs⟩ := s
  cases ranges with
  | nil => contradiction
  | cons q rest =>
    obtain rfl : q.lo = lo := by simpa [min?] using hm
    exact (hs.head_lo_le r hr).trans hl

theorem le_max (hv : s.contains v) (hm : s.max? = some hi) : v.toInt ≤ hi.toInt := by
  have ⟨r, hr, _, hu⟩ := contains_iff.mp hv
  obtain ⟨ranges, hs⟩ := s
  cases ranges with
  | nil => contradiction
  | cons q rest =>
    obtain rfl : ((q :: rest).getLast (List.cons_ne_nil _ _)).hi = hi := by
      simpa [max?, List.getLast?_eq_getLast_of_ne_nil] using hm
    exact hu.trans (hs.le_last_hi r hr)

-- Widths only add to the number of elements.
theorem le_foldl_width (rs : List Range) {n : Nat} (hn : n ≤ 0xffffffffffffffff) :
    n ≤ rs.foldl (fun n r => min (n + r.width % 0x10000000000000000) 0xffffffffffffffff) n := by
  induction rs generalizing n with
  | nil => exact le_rfl
  | cons r rest ih =>
    have hr := ih (n := min (n + r.width % 0x10000000000000000) 0xffffffffffffffff) (min_le_right _ _)
    exact (le_min (Nat.le_add_right _ _) hn).trans hr

-- A set of one element is the range from that element to itself.
theorem ranges_of_card (hc : s.card = 1) : ∃ v, s.ranges = [⟨v, v⟩] := by
  obtain ⟨ranges, hs⟩ := s
  match ranges, hs with
  | [], _ => simp [card] at hc
  | [r], hs =>
    have hle := Separated.head_le hs
    have := Int64.le_toInt r.lo
    have := Int64.toInt_lt r.hi
    simp only [card, List.foldl_cons, List.foldl_nil, Range.width] at hc
    have heq : r.lo = r.hi := Int64.toInt_inj.mp (by omega)
    exact ⟨r.hi, congrArg (fun lo => [Range.mk lo r.hi]) heq⟩
  | r :: q :: rest, hs =>
    have hr := Separated.head_le hs
    have hq := Separated.head_le hs.tail
    have hgap := hs.2.1
    have := Int64.le_toInt r.lo
    have := Int64.toInt_lt q.hi
    have hge := le_foldl_width rest (min_le_right
      (min (0 + r.width % 0x10000000000000000) 0xffffffffffffffff + q.width % 0x10000000000000000) _)
    simp only [card, List.foldl_cons] at hc
    rw [hc] at hge
    simp only [Range.width] at hge
    omega

theorem eq_min_of_card (hc : s.card = 1) (hv : s.contains v) (hm : s.min? = some lo) : v = lo := by
  have ⟨w, hw⟩ := ranges_of_card hc
  have ⟨r, hr, hl, hu⟩ := contains_iff.mp hv
  obtain rfl := List.mem_singleton.mp (hw ▸ hr)
  obtain rfl : w = lo := by simpa [min?, hw] using hm
  exact Int64.toInt_inj.mp (le_antisymm hu hl)

theorem eq_of_contains_range {w : Int64} (hv : (range w w).contains v) : v = w := by
  have hr : (range w w).ranges = [⟨w, w⟩] := by
    simp [range, ofRanges, Range.isEmpty, sweep, join]
  obtain ⟨r, hr', hl, hu⟩ := contains_iff.mp hv
  obtain rfl := List.mem_singleton.mp (hr ▸ hr')
  exact Int64.toInt_inj.mp (le_antisymm hu hl)

end IntSet
end Parvar
