import Parvar.Proofs.Checked
import Parvar.Proofs.IntSet.Ends

/-!
The elements of sets. Whatever a set is built from, its ranges are separated, no bound that is
computed on the way overflows, and its elements are those that the operations on sets give.
-/

namespace Parvar

-- The integer lies in one of the ranges.
def Covers (rs : List Range) (v : Int64) : Prop :=
  ∃ r ∈ rs, r.lo.toInt ≤ v.toInt ∧ v.toInt ≤ r.hi.toInt

section Covers

variable {rs qs : List Range} {r : Range} {v : Int64}

@[simp] theorem not_covers_nil : ¬Covers [] v := by simp [Covers]

@[simp] theorem covers_cons :
    Covers (r :: rs) v ↔ (r.lo.toInt ≤ v.toInt ∧ v.toInt ≤ r.hi.toInt) ∨ Covers rs v := by
  simp [Covers]

@[simp] theorem covers_append : Covers (rs ++ qs) v ↔ Covers rs v ∨ Covers qs v := by
  simp [Covers, or_and_right, exists_or]

theorem covers_head (r : Range) (rs : List Range) : Covers (r :: rs) v ↔ Covers [r] v ∨ Covers rs v := by
  simp

-- Only the order of ranges and empty ones among them were changed.
theorem Covers.of_mem_iff (h : ∀ r, r.lo.toInt ≤ r.hi.toInt → (r ∈ rs ↔ r ∈ qs)) :
    Covers rs v ↔ Covers qs v := by
  refine exists_congr fun r => and_congr_left fun hv => h r (hv.1.trans hv.2)

end Covers

namespace Separated

-- The next range does not touch this one, and neither do those after it.
theorem lt_lo {r : Range} {rs : List Range} (h : Separated (r :: rs)) :
    ∀ s ∈ rs, r.hi.toInt + 1 < s.lo.toInt := by
  intro s hs
  cases rs with
  | nil => simp at hs
  | cons q rest =>
    have hgap := h.2.1
    have hq := h.tail.head_lo_le s hs
    omega

theorem nonempty {rs : List Range} (h : Separated rs) : ∀ r ∈ rs, r.lo.toInt ≤ r.hi.toInt := by
  induction rs with
  | nil => simp
  | cons r rest ih => exact List.forall_mem_cons.mpr ⟨h.head_le, ih h.tail⟩

theorem pairwise {rs : List Range} (h : Separated rs) :
    rs.Pairwise fun r s => r.hi.toInt + 1 < s.lo.toInt := by
  induction rs with
  | nil => exact .nil
  | cons r rest ih => exact .cons h.lt_lo (ih h.tail)

theorem lt_of_covers {r : Range} {rs : List Range} {v : Int64} (h : Separated (r :: rs))
    (hv : Covers rs v) : r.hi.toInt < v.toInt := by
  obtain ⟨s, hs, hl, _⟩ := hv
  have := h.lt_lo s hs
  omega

end Separated

namespace Range

theorem le_trans (r s t : Range) (hrs : r.le s) (hst : s.le t) : r.le t := by
  simp only [le, Bool.or_eq_true, Bool.and_eq_true, decide_eq_true_eq, Int64.lt_iff_toInt_lt,
    Int64.le_iff_toInt_le, ← Int64.toInt_inj] at *
  omega

theorem le_total (r s : Range) : (r.le s || s.le r) = true := by
  simp only [le, Bool.or_eq_true, Bool.and_eq_true, decide_eq_true_eq, Int64.lt_iff_toInt_lt,
    Int64.le_iff_toInt_le, ← Int64.toInt_inj]
  omega

theorem lo_le_of_le {r s : Range} (h : r.le s) : r.lo.toInt ≤ s.lo.toInt := by
  simp only [le, Bool.or_eq_true, Bool.and_eq_true, decide_eq_true_eq, Int64.lt_iff_toInt_lt,
    ← Int64.toInt_inj] at h
  omega

theorem isEmpty_iff {r : Range} : r.isEmpty ↔ r.hi.toInt < r.lo.toInt := by
  simp [isEmpty, Int64.lt_iff_toInt_lt]

variable {r : Range} {rs : List Range}

-- The piece of a range that lies before the next one to be left out.
theorem before_spec (r : Range) (lo : Int64) : ∃ left, r.before lo = some left ∧
    ∀ v, Covers left v ↔ lo.toInt ≤ v.toInt ∧ v.toInt < r.lo.toInt := by
  rw [before]
  split
  · next h =>
    rw [Int64.lt_iff_toInt_lt] at h
    have hlo := toInt_range lo
    obtain ⟨w, hw⟩ : ∃ w, Checked.sub r.lo 1 = some w := by
      refine Option.isSome_iff_exists.mp (Option.isSome_iff_ne_none.mpr fun hn => ?_)
      have := toInt_range r.lo
      have := Checked.ofInt?_eq_none.mp hn
      have : (1 : Int64).toInt = 1 := rfl
      omega
    refine ⟨[⟨lo, w⟩], by rw [hw, Option.map_some], fun v => ?_⟩
    have hw : w.toInt = r.lo.toInt - 1 := Checked.sub_eq_some.mp hw
    simp only [covers_cons, not_covers_nil, or_false, hw]
    omega
  · next h =>
    rw [Int64.lt_iff_toInt_lt] at h
    refine ⟨[], rfl, fun v => ?_⟩
    simp only [not_covers_nil, false_iff]
    omega

-- The cursor `lo` goes past one range after the other; what lies before it has been dealt with.
theorem without_spec (hrs : Separated rs) (hi lo : Int64) :
    ∃ left, without hi lo rs = some left ∧ ∀ v, Covers left v ↔
      (lo.toInt ≤ v.toInt ∧ v.toInt ≤ hi.toInt) ∧ ¬Covers rs v := by
  induction rs generalizing lo with
  | nil => exact ⟨_, rfl, by simp⟩
  | cons r rest ih =>
    have hr := hrs.head_le
    have hrest : ∀ v, Covers rest v → r.hi.toInt < v.toInt := fun v => hrs.lt_of_covers
    rw [without]
    split
    · next hskip =>
      obtain ⟨left, hl, hv⟩ := ih hrs.tail lo
      refine ⟨left, hl, fun v => ?_⟩
      simp only [Bool.or_eq_true, decide_eq_true_eq, Int64.lt_iff_toInt_lt] at hskip
      rw [hv, covers_cons]
      grind
    · next hmeet =>
      simp only [Bool.or_eq_true, decide_eq_true_eq, Int64.lt_iff_toInt_lt, not_or, not_lt] at hmeet
      obtain ⟨left, hb, hleft⟩ := r.before_spec lo
      rw [hb, Option.bind_some]
      split
      · next hend =>
        rw [Int64.le_iff_toInt_le] at hend
        refine ⟨left, rfl, fun v => ?_⟩
        rw [hleft, covers_cons]
        grind
      · next hgo =>
        rw [Int64.le_iff_toInt_le] at hgo
        obtain ⟨w, hw⟩ : ∃ w, Checked.add r.hi 1 = some w := by
          refine Option.isSome_iff_exists.mp (Option.isSome_iff_ne_none.mpr fun hn => ?_)
          have := toInt_range r.hi
          have := toInt_range hi
          have := Checked.ofInt?_eq_none.mp hn
          have : (1 : Int64).toInt = 1 := rfl
          omega
        obtain ⟨more, hm, hmore⟩ := ih hrs.tail w
        refine ⟨left ++ more, by rw [hw, Option.bind_some, hm, Option.map_some], fun v => ?_⟩
        have hw : w.toInt = r.hi.toInt + 1 := Checked.add_eq_some.mp hw
        rw [covers_append, hleft, hmore, covers_cons]
        grind

-- The numbers in a range, one after the other.
theorem toInt_add_ofNat {i : Nat} (hi : i < r.width) : (r.lo + Int64.ofNat i).toInt = r.lo.toInt + i := by
  have hlo := toInt_range r.lo
  have hhi := toInt_range r.hi
  rw [width] at hi
  rw [← Int64.ofInt_eq_ofNat, ← Int64.ofInt_toInt r.lo, ← Int64.ofInt_add, Int64.ofInt_toInt]
  exact Int64.toInt_ofInt_of_le (by omega) (by omega)

theorem mem_elems {v : Int64} : v ∈ r.elems ↔ r.lo.toInt ≤ v.toInt ∧ v.toInt ≤ r.hi.toInt := by
  simp only [elems, take, min_self, List.mem_map, List.mem_range]
  constructor
  · rintro ⟨i, hi, rfl⟩
    rw [toInt_add_ofNat hi]
    rw [width] at hi
    omega
  · intro h
    have hi : (v.toInt - r.lo.toInt).toNat < r.width := by
      rw [width]
      omega
    refine ⟨_, hi, Int64.toInt_inj.mp ?_⟩
    rw [toInt_add_ofNat hi]
    omega

theorem pairwise_elems (r : Range) : r.elems.Pairwise (· < ·) := by
  rw [elems, take, min_self, List.pairwise_map]
  refine (List.pairwise_lt_range (n := r.width)).imp_of_mem fun hi hj hij => ?_
  rw [Int64.lt_iff_toInt_lt, toInt_add_ofNat (List.mem_range.mp hi), toInt_add_ofNat (List.mem_range.mp hj)]
  omega

end Range

namespace IntSet

variable {s t : IntSet} {v : Int64} {rs qs : List Range}

section Building

theorem covers_join {cur : Range} (hrs : rs.Pairwise fun r q => r.lo.toInt ≤ q.lo.toInt)
    (hcur : ∀ r ∈ rs, cur.lo.toInt ≤ r.lo.toInt) : Covers (join cur rs) v ↔ Covers (cur :: rs) v := by
  induction rs generalizing cur with
  | nil => rfl
  | cons r rest ih =>
    obtain ⟨hr, hrest⟩ := List.pairwise_cons.mp hrs
    have hle := hcur r List.mem_cons_self
    rw [join]
    split
    · next htouch =>
      rw [Range.le_next_iff] at htouch
      have hcur : ∀ q ∈ rest, (Range.mk cur.lo (max cur.hi r.hi)).lo.toInt ≤ q.lo.toInt :=
        fun q hq => hle.trans (hr q hq)
      refine (ih hrest hcur).trans ?_
      simp only [covers_cons, toInt_max]
      rw [← or_assoc]
      refine or_congr_left ?_
      omega
    · rw [covers_cons, ih hrest hr, ← covers_cons]

theorem covers_sweep (hrs : rs.Pairwise fun r q => r.lo.toInt ≤ q.lo.toInt) :
    Covers (sweep rs) v ↔ Covers rs v := by
  cases rs with
  | nil => rfl
  | cons r rest =>
    have ⟨hr, hrest⟩ := List.pairwise_cons.mp hrs
    exact covers_join hrest hr

theorem contains_iff_covers : s.contains v ↔ Covers s.ranges v := contains_iff

theorem contains_ofRanges : (ofRanges rs).contains v ↔ Covers rs v := by
  rw [contains_iff_covers, ofRanges, covers_sweep]
  · refine Covers.of_mem_iff fun r hr => ?_
    have : ¬r.isEmpty := by rw [Range.isEmpty_iff]; omega
    simp [this]
  · exact (List.pairwise_mergeSort Range.le_trans Range.le_total _).imp Range.lo_le_of_le

end Building

section Algebra

theorem contains_ofValues {vs : List Int64} : (ofValues vs).contains v ↔ v ∈ vs := by
  rw [ofValues, contains_ofRanges]
  simp only [Covers, List.mem_map, exists_exists_and_eq_and, ← le_antisymm_iff, Int64.toInt_inj]
  exact exists_eq_right

theorem contains_range {lo hi : Int64} : (range lo hi).contains v ↔ lo ≤ v ∧ v ≤ hi := by
  simp [range, contains_ofRanges, Int64.le_iff_toInt_le]

theorem contains_union : (s.union t).contains v ↔ s.contains v ∨ t.contains v := by
  rw [union, contains_ofRanges, covers_append, contains_iff_covers, contains_iff_covers]

theorem covers_overlap {r q : Range} : Covers (if (r.inter q).isEmpty then [] else [r.inter q]) v ↔
    Covers [r] v ∧ Covers [q] v := by
  have hlo : (r.inter q).lo.toInt = max r.lo.toInt q.lo.toInt := toInt_max _ _
  have hhi : (r.inter q).hi.toInt = min r.hi.toInt q.hi.toInt := toInt_min _ _
  split
  · next h =>
    rw [Range.isEmpty_iff, hlo, hhi] at h
    simp only [covers_cons, not_covers_nil, or_false, false_iff]
    omega
  · simp only [covers_cons, not_covers_nil, or_false, hlo, hhi]
    omega

-- Of two ranges, the one that ends first is out of reach of all that comes after the other.
theorem not_covers_of_ends {r q : Range} (hq : Separated (q :: qs)) (h : r.hi.toInt ≤ q.hi.toInt)
    (hv : Covers [r] v) : ¬Covers qs v := by
  intro hqs
  have := hq.lt_of_covers hqs
  simp only [covers_cons, not_covers_nil, or_false] at hv
  omega

theorem covers_common (hr : Separated rs) (hq : Separated qs) :
    Covers (common rs qs) v ↔ Covers rs v ∧ Covers qs v := by
  fun_induction common rs qs with
  | case1 r rs q qs ihr ihq =>
    rw [covers_append, covers_overlap, covers_head r rs, covers_head q qs]
    split
    · next h =>
      have hout := not_covers_of_ends (v := v) hq (Int64.lt_iff_toInt_lt.mp h).le
      rw [ihr hr.tail hq, covers_head q qs]
      grind
    · next h =>
      rw [Int64.lt_iff_toInt_lt, not_lt] at h
      have hout := not_covers_of_ends (v := v) hr h
      rw [ihq hr hq.tail, covers_head r rs]
      grind
  | case2 rs qs h =>
    cases rs with
    | nil => simp
    | cons r rest =>
      cases qs with
      | nil => simp
      | cons q rest => exact (h _ _ _ _ rfl rfl).elim

theorem contains_inter : (s.inter t).contains v ↔ s.contains v ∧ t.contains v := by
  rw [inter, contains_ofRanges, covers_common s.separated t.separated, contains_iff_covers,
    contains_iff_covers]

theorem mapM_without (ht : Separated qs) (rs : List Range) :
    ∃ left, (rs.mapM fun r => Range.without r.hi r.lo qs) = some left ∧
      ∀ v, Covers left.flatten v ↔ Covers rs v ∧ ¬Covers qs v := by
  induction rs with
  | nil => exact ⟨[], rfl, by simp⟩
  | cons r rest ih =>
    obtain ⟨left, hl, hleft⟩ := Range.without_spec ht r.hi r.lo
    have ⟨more, hm, hmore⟩ := ih
    refine ⟨left :: more, by simp [hl, hm], fun v => ?_⟩
    rw [List.flatten_cons, covers_append, hleft, hmore, covers_cons, or_and_right]

theorem diff_spec (s t : IntSet) :
    s.diff? t = some (s.diff t) ∧ ∀ v, (s.diff t).contains v ↔ s.contains v ∧ ¬t.contains v := by
  have ⟨left, hl, hleft⟩ := mapM_without t.separated s.ranges
  have hd : s.diff? t = some (ofRanges left.flatten) := by rw [diff?, hl, Option.map_some]
  rw [diff, hd, Option.getD_some]
  refine ⟨rfl, fun v => ?_⟩
  rw [contains_ofRanges, hleft, contains_iff_covers, contains_iff_covers]

end Algebra

section Values

theorem mem_values : v ∈ s.values ↔ s.contains v := by
  rw [values, List.mem_flatMap, contains_iff]
  exact exists_congr fun r => and_congr_right fun _ => Range.mem_elems

-- Each range is listed in order, and all of it comes before the next.
theorem pairwise_values (s : IntSet) : s.values.Pairwise (· < ·) := by
  refine List.pairwise_flatMap.mpr ⟨fun r _ => r.pairwise_elems, s.separated.pairwise.imp ?_⟩
  intro r q hgap v hv w hw
  rw [Range.mem_elems] at hv hw
  rw [Int64.lt_iff_toInt_lt]
  omega

end Values

section Subsets

theorem within_iff {r q : Range} : r.within q ↔ q.lo.toInt ≤ r.lo.toInt ∧ r.hi.toInt ≤ q.hi.toInt := by
  simp [Range.within, Int64.le_iff_toInt_le]

-- A range that is covered does not reach over a gap, so one range of the others covers all of it.
theorem exists_within {r : Range} (hr : r.lo.toInt ≤ r.hi.toInt) (hq : Separated qs)
    (h : ∀ v, Covers [r] v → Covers qs v) : ∃ q ∈ qs, r.within q := by
  induction qs with
  | nil => exact absurd (h r.lo (by simpa using hr)) not_covers_nil
  | cons q rest ih =>
    have hlo := covers_cons.mp (h r.lo (by simpa using hr))
    rcases hlo with hlo | hlo
    · refine ⟨q, List.mem_cons_self, within_iff.mpr ⟨hlo.1, Int.not_lt.mp fun hgap => ?_⟩⟩
      have hlt := r.hi.toInt_lt
      have hle := q.hi.le_toInt
      -- The integer after `q` is in `r` and before the next range.
      have hv : (Int64.ofInt (q.hi.toInt + 1)).toInt = q.hi.toInt + 1 := Int64.toInt_ofInt_of_le (by omega) (by omega)
      have hcov := h (Int64.ofInt (q.hi.toInt + 1)) (by simp only [covers_cons, not_covers_nil, or_false]; omega)
      rcases covers_cons.mp hcov with hcov | ⟨p, hp, hcov⟩
      · omega
      · have := hq.lt_lo p hp
        omega
    · have hout := hq.lt_of_covers hlo
      have hrest : ∀ v, Covers [r] v → Covers rest v := fun v hv => by
        refine (covers_cons.mp (h v hv)).resolve_left fun hqv => ?_
        simp only [covers_cons, not_covers_nil, or_false] at hv
        omega
      obtain ⟨p, hp, hw⟩ := ih hq.tail hrest
      exact ⟨p, List.mem_cons_of_mem _ hp, hw⟩

theorem subset_iff : s.subset t ↔ ∀ v, s.contains v → t.contains v := by
  rw [subset, List.all_eq_true]
  simp only [List.any_eq_true, contains_iff_covers]
  constructor
  · intro h v hv
    obtain ⟨r, hr, hrv⟩ := hv
    obtain ⟨q, hq, hw⟩ := h r hr
    rw [within_iff] at hw
    exact ⟨q, hq, by omega, by omega⟩
  · intro h r hr
    refine exists_within (s.separated.nonempty r hr) t.separated fun v hv => h v ?_
    simp only [covers_cons, not_covers_nil, or_false] at hv
    exact ⟨r, hr, hv⟩

end Subsets

section Extensionality

variable {r q : Range}

-- The first range of a list that starts no later than another one and is covered by it ends before
-- the first gap of the other.
theorem head_within (hr : Separated (r :: rs)) (hq : Separated (q :: qs)) (hlo : r.lo.toInt ≤ q.lo.toInt)
    (h : ∀ v, Covers (r :: rs) v → Covers (q :: qs) v) : r.within q := by
  obtain ⟨p, hp, hw⟩ := exists_within hr.head_le hq fun v hv => h v ((covers_head r rs).mpr (.inl hv))
  rcases List.mem_cons.mp hp with rfl | hp
  · exact hw
  · have hgap := hq.lt_lo p hp
    have hle := hq.head_le
    rw [within_iff] at hw
    omega

theorem lo_le_of_covers (hr : Separated (r :: rs)) (hq : Separated (q :: qs))
    (h : ∀ v, Covers (r :: rs) v → Covers (q :: qs) v) : q.lo.toInt ≤ r.lo.toInt := by
  obtain ⟨p, hp, hlo, -⟩ := h r.lo (covers_cons.mpr (.inl ⟨le_rfl, hr.head_le⟩))
  exact (hq.head_lo_le p hp).trans hlo

theorem covers_tail (hr : Separated (r :: rs)) : Covers rs v ↔ Covers (r :: rs) v ∧ r.hi.toInt < v.toInt := by
  constructor
  · intro h
    exact ⟨covers_cons.mpr (.inr h), hr.lt_of_covers h⟩
  · rintro ⟨h, hv⟩
    exact (covers_cons.mp h).resolve_left fun hin => by omega

-- Ranges with gaps between them are the only ones with their elements.
theorem ranges_unique (hr : Separated rs) (hq : Separated qs) (h : ∀ v, Covers rs v ↔ Covers qs v) :
    rs = qs := by
  induction rs generalizing qs with
  | nil =>
    cases qs with
    | nil => rfl
    | cons q qs => exact absurd ((h q.lo).mpr (covers_cons.mpr (.inl ⟨le_rfl, hq.head_le⟩))) not_covers_nil
  | cons r rs ih =>
    cases qs with
    | nil => exact absurd ((h r.lo).mp (covers_cons.mpr (.inl ⟨le_rfl, hr.head_le⟩))) not_covers_nil
    | cons q qs =>
      have hrq := within_iff.mp (head_within hr hq (lo_le_of_covers hq hr fun v => (h v).mpr) fun v => (h v).mp)
      have hqr := within_iff.mp (head_within hq hr (lo_le_of_covers hr hq fun v => (h v).mp) fun v => (h v).mpr)
      have hlo : r.lo = q.lo := Int64.toInt_inj.mp (by omega)
      have hhi : r.hi = q.hi := Int64.toInt_inj.mp (by omega)
      have hrest : rs = qs := ih hr.tail hq.tail fun v => by rw [covers_tail hr, covers_tail hq, h v, hhi]
      obtain ⟨lo, hi⟩ := r
      obtain rfl : lo = _ := hlo
      obtain rfl : hi = _ := hhi
      rw [hrest]

theorem eq_iff_contains : s = t ↔ ∀ v, s.contains v ↔ t.contains v := by
  constructor
  · rintro rfl v
    rfl
  · intro h
    obtain ⟨rs, hs⟩ := s
    obtain ⟨qs, ht⟩ := t
    obtain rfl : rs = qs := ranges_unique hs ht fun v => by
      rw [← contains_iff_covers (s := ⟨rs, hs⟩), ← contains_iff_covers (s := ⟨qs, ht⟩), h v]
    rfl

theorem cmpRanges_eq : cmpRanges rs qs = .eq ↔ rs = qs := by
  induction rs generalizing qs with
  | nil => cases qs <;> simp [cmpRanges]
  | cons r rs ih =>
    cases qs with
    | nil => simp [cmpRanges]
    | cons q qs =>
      obtain ⟨lo, hi⟩ := r
      obtain ⟨lo', hi'⟩ := q
      rw [cmpRanges, List.cons.injEq, Range.mk.injEq]
      split
      · next hlo => simp [hlo]
      · next hlo =>
        have hlo : lo = lo' := not_not.mp hlo
        split
        · next hlt =>
          have hhi : hi ≠ hi' := Int64.ne_of_lt hlt
          split <;> simp [hhi]
        · next hle =>
          split
          · next hlt =>
            have hhi : hi ≠ hi' := (Int64.ne_of_lt hlt).symm
            split <;> simp [hhi]
          · next hge =>
            rw [Int64.lt_iff_toInt_lt] at hle hge
            have hhi : hi = hi' := Int64.toInt_inj.mp (by simp only at hle hge; omega)
            simp [ih, hlo, hhi]

-- The order of sets tells any two of them apart.
theorem cmp_eq : s.cmp t = .eq ↔ s = t := by
  rw [cmp, cmpRanges_eq, IntSet.mk.injEq]

end Extensionality

-- A way to build a set.
inductive Construction where
  | ofValues (vs : List Int64)
  | ofRanges (rs : List Range)
  | range (lo hi : Int64)
  | union (a b : Construction)
  | inter (a b : Construction)
  | diff (a b : Construction)
  | symdiff (a b : Construction)

namespace Construction

def set : Construction → IntSet
  | ofValues vs => .ofValues vs
  | ofRanges rs => .ofRanges rs
  | range lo hi => .range lo hi
  | union a b => a.set.union b.set
  | inter a b => a.set.inter b.set
  | diff a b => a.set.diff b.set
  | symdiff a b => a.set.symdiff b.set

-- The same with all arithmetic checked: there is no set if some step overflows.
def checked : Construction → Option IntSet
  | ofValues vs => some (.ofValues vs)
  | ofRanges rs => some (.ofRanges rs)
  | range lo hi => some (.range lo hi)
  | union a b => do return (← a.checked).union (← b.checked)
  | inter a b => do return (← a.checked).inter (← b.checked)
  | diff a b => do (← a.checked).diff? (← b.checked)
  | symdiff a b => do
    let s ← a.checked
    let t ← b.checked
    return (← s.diff? t).union (← t.diff? s)

-- What the set is meant to hold.
def elements : Construction → Set Int64
  | ofValues vs => {v | v ∈ vs}
  | ofRanges rs => {v | ∃ r ∈ rs, r.lo ≤ v ∧ v ≤ r.hi}
  | range lo hi => {v | lo ≤ v ∧ v ≤ hi}
  | union a b => a.elements ∪ b.elements
  | inter a b => a.elements ∩ b.elements
  | diff a b => a.elements \ b.elements
  | symdiff a b => symmDiff a.elements b.elements

theorem checked_eq (c : Construction) : c.checked = some c.set := by
  induction c with
  | ofValues | ofRanges | range => rfl
  | union a b iha ihb | inter a b iha ihb => simp [checked, iha, ihb, set]
  | diff a b iha ihb => simp [checked, iha, ihb, set, (diff_spec a.set b.set).1]
  | symdiff a b iha ihb =>
    simp [checked, iha, ihb, set, IntSet.symdiff, (diff_spec a.set b.set).1, (diff_spec b.set a.set).1]

theorem contains_set (c : Construction) (v : Int64) : c.set.contains v ↔ v ∈ c.elements := by
  induction c with
  | ofValues vs => exact contains_ofValues
  | ofRanges rs =>
    simp only [set, contains_ofRanges, Covers, elements, Set.mem_ofPred_eq, Int64.le_iff_toInt_le]
  | range lo hi => exact contains_range
  | union a b iha ihb => rw [set, contains_union, iha, ihb]; rfl
  | inter a b iha ihb => rw [set, contains_inter, iha, ihb]; rfl
  | diff a b iha ihb => rw [set, (diff_spec _ _).2, iha, ihb]; rfl
  | symdiff a b iha ihb =>
    rw [set, IntSet.symdiff, contains_union, (diff_spec _ _).2, (diff_spec _ _).2, iha, ihb]
    rfl

end Construction

-- Sets are exact: whatever a set is built from, no step overflows, its ranges are not empty and leave
-- a gap between each two, and its elements, as they are looked up and as they are listed, are those
-- that they should be.
theorem construction_exact (c : Construction) :
    c.checked = some c.set ∧
    (∀ r ∈ c.set.ranges, r.lo ≤ r.hi) ∧
    (c.set.ranges.Pairwise fun r q => r.hi.toInt + 1 < q.lo.toInt) ∧
    (∀ v, c.set.contains v ↔ v ∈ c.elements) ∧
    (∀ v, v ∈ c.set.values ↔ v ∈ c.elements) ∧
    c.set.values.Pairwise (· < ·) := by
  refine ⟨c.checked_eq, ?_, c.set.separated.pairwise, c.contains_set, ?_, c.set.pairwise_values⟩
  · exact fun r hr => Int64.le_iff_toInt_le.mpr (c.set.separated.nonempty r hr)
  · exact fun v => mem_values.trans (c.contains_set v)

end IntSet
end Parvar
