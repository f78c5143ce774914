import Parvar.Proofs.IntSet.Membership

/-!
The number of elements of a set. It is counted in 64 bits, which are too few for the set of all
integers and enough for every other one.
-/

namespace Parvar

namespace Range

theorem length_elems (r : Range) : r.elems.length = r.width := by
  simp [elems, take]

end Range

-- With each gap at least one integer is left out.
theorem Separated.widths_le {r : Range} {rs : List Range} (h : Separated (r :: rs)) :
    ((r :: rs).map Range.width).sum + rs.length ≤ 2 ^ 63 - r.lo.toInt := by
  induction rs generalizing r with
  | nil =>
    have hle := h.head_le
    have hlt := r.hi.toInt_lt
    simp only [List.map_cons, List.map_nil, List.sum_cons, List.sum_nil, List.length_nil, Range.width]
    omega
  | cons q rs ih =>
    have hle := h.head_le
    have hgap := h.2.1
    have hrest := ih h.tail
    simp only [List.map_cons, List.sum_cons, List.length_cons, Range.width] at hrest ⊢
    omega

namespace IntSet

variable {s : IntSet}

-- Every integer.
def full : IntSet := range Int64.minValue Int64.maxValue

theorem ranges_full : full.ranges = [⟨Int64.minValue, Int64.maxValue⟩] := by
  have hlo : (Range.mk Int64.minValue Int64.maxValue).isEmpty = false := by decide
  simp [full, range, ofRanges, hlo, sweep, join]

theorem ne_full (h : s.ranges ≠ [⟨Int64.minValue, Int64.maxValue⟩]) : s ≠ full := by
  rintro rfl
  exact h ranges_full

theorem ncard_eq_length_values (s : IntSet) : {v | s.contains v}.ncard = s.values.length := by
  have hset : {v | s.contains v} = (s.values.toFinset : Set Int64) := by
    ext v
    simp [mem_values]
  rw [hset, Set.ncard_coe_finset, List.toFinset_card_of_nodup]
  exact s.pairwise_values.imp fun h => Int64.ne_of_lt h

theorem length_values (s : IntSet) : s.values.length = (s.ranges.map Range.width).sum := by
  rw [values, List.length_flatMap]
  simp only [Range.length_elems]

-- Only one range is wide enough to overflow the count.
theorem widths_lt (hs : s ≠ full) : (s.ranges.map Range.width).sum < 2 ^ 64 := by
  obtain ⟨ranges, h⟩ := s
  cases ranges with
  | nil => simp
  | cons r rs =>
    have hle := h.widths_le
    have hlo := r.lo.le_toInt
    by_contra hlt
    obtain rfl : rs = [] := List.length_eq_zero_iff.mp (by simp only at hlt; omega)
    simp only [List.map_cons, List.map_nil, List.sum_cons, List.sum_nil, Range.width] at hlt
    have hhi := r.hi.toInt_lt
    have hmin : r.lo = Int64.minValue := Int64.toInt_inj.mp (by rw [Int64.toInt_minValue]; omega)
    have hmax : r.hi = Int64.maxValue := Int64.toInt_inj.mp (by rw [Int64.toInt_maxValue]; omega)
    obtain ⟨lo, hi⟩ := r
    obtain rfl : lo = _ := hmin
    obtain rfl : hi = _ := hmax
    exact hs ((IntSet.mk.injEq _ _ _ full.separated).mpr ranges_full.symm)

-- As long as the sum fits, neither step of the count changes it.
theorem foldl_width (rs : List Range) {n : Nat} (h : n + (rs.map Range.width).sum < 2 ^ 64) :
    rs.foldl (fun n r => min (n + r.width % 0x10000000000000000) 0xffffffffffffffff) n =
      n + (rs.map Range.width).sum := by
  induction rs generalizing n with
  | nil => rfl
  | cons r rs ih =>
    simp only [List.map_cons, List.sum_cons] at h
    have hstep : min (n + r.width % 0x10000000000000000) 0xffffffffffffffff = n + r.width := by omega
    rw [List.foldl_cons, hstep, ih (by omega), List.map_cons, List.sum_cons, Nat.add_assoc]

theorem card_eq_sum (hs : s ≠ full) : s.card = (s.ranges.map Range.width).sum := by
  rw [card, foldl_width _ (by simpa using widths_lt hs), Nat.zero_add]

-- The count is the number of elements.
theorem card_eq_ncard (hs : s ≠ full) : s.card = {v | s.contains v}.ncard := by
  rw [ncard_eq_length_values, length_values, card_eq_sum hs]

theorem card_full : full.card = 0 := by
  rw [card, ranges_full]
  decide

theorem ncard_full : {v | full.contains v}.ncard = 2 ^ 64 := by
  rw [ncard_eq_length_values, length_values, ranges_full]
  decide

theorem card_eq_ncard_iff : s.card = {v | s.contains v}.ncard ↔ s ≠ full := by
  refine ⟨?_, card_eq_ncard⟩
  rintro h rfl
  rw [card_full, ncard_full] at h
  contradiction

-- Of two sets, the one that holds the other has as many elements or more.
theorem ncard_mono {t : IntSet} (h : ∀ v, s.contains v → t.contains v) :
    {v | s.contains v}.ncard ≤ {v | t.contains v}.ncard :=
  Set.ncard_le_ncard h (Set.toFinite _)

theorem ne_full_of_subset {t : IntSet} (h : ∀ v, s.contains v → t.contains v) (ht : t ≠ full) : s ≠ full := by
  rintro rfl
  have hle := ncard_mono h
  have hlt := widths_lt ht
  rw [ncard_full, ncard_eq_length_values, length_values] at hle
  omega

end IntSet
end Parvar
