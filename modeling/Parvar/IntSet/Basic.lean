import Parvar.Checked

/-!
Finite sets of 64-bit integers, kept as ranges in increasing order with a gap between each two.
That form is unique, so two sets are equal exactly if they have the same elements.
-/

namespace Parvar

-- The integers from `lo` to `hi`, both included; none if `hi` is below `lo`.
structure Range where
  lo : Int64
  hi : Int64
deriving DecidableEq, Repr, Inhabited

namespace Range

def isEmpty (r : Range) : Bool := r.hi < r.lo

def contains (r : Range) (v : Int64) : Bool := r.lo ≤ v && v ≤ r.hi

def width (r : Range) : Nat := (r.hi.toInt - r.lo.toInt + 1).toNat

-- The first `n` elements, fewer if there are not so many.
def take (r : Range) (n : Nat) : List Int64 :=
  (List.range (min n r.width)).map fun i => r.lo + Int64.ofNat i

def elems (r : Range) : List Int64 := r.take r.width

def within (r s : Range) : Bool := s.lo ≤ r.lo && r.hi ≤ s.hi

def inter (r s : Range) : Range := ⟨max r.lo s.lo, min r.hi s.hi⟩

-- The integer after `v`; the last one stays as it is.
def next (v : Int64) : Int64 := (Checked.add v 1).getD Int64.maxValue

theorem le_next_iff {v w : Int64} : w ≤ next v ↔ w.toInt ≤ v.toInt + 1 := by
  have hv := v.toInt_lt
  have hw := w.toInt_lt
  have hl := v.le_toInt
  have hmin : Int64.minValue.toInt = -2 ^ 63 := by decide
  have hmax : Int64.maxValue.toInt = 2 ^ 63 - 1 := by decide
  have hone : (1 : Int64).toInt = 1 := by decide
  rw [Int64.le_iff_toInt_le, next, Checked.add, Checked.ofInt?, hone]
  split
  · next h =>
    rw [Checked.fits, hmin, hmax, Bool.and_eq_true, decide_eq_true_eq, decide_eq_true_eq] at h
    rw [Option.getD_some, Int64.toInt_ofInt_of_le (by omega) (by omega)]
  · next h =>
    rw [Checked.fits, hmin, hmax, Bool.and_eq_true, decide_eq_true_eq, decide_eq_true_eq] at h
    rw [Option.getD_none, hmax]
    omega

-- The integers from `lo` up to where a range begins.
def before (r : Range) (lo : Int64) : Option (List Range) :=
  if lo < r.lo then (Checked.sub r.lo 1).map fun v => [⟨lo, v⟩] else some []

-- What is left of the integers from `lo` to `hi` without ranges in increasing order, or nothing at
-- all if an end of it overflows.
def without (hi lo : Int64) : List Range → Option (List Range)
  | [] => some [⟨lo, hi⟩]
  | r :: rest =>
    if r.hi < lo || hi < r.lo then without hi lo rest
    else (r.before lo).bind fun left =>
      if hi ≤ r.hi then some left
      else (Checked.add r.hi 1).bind fun lo => (without hi lo rest).map (left ++ ·)

-- Increasing in the lower end, then in the upper.
def le (r s : Range) : Bool := r.lo < s.lo || (r.lo = s.lo && r.hi ≤ s.hi)

end Range

-- No range is empty, and each leaves out at least one integer before the next.
def Separated : List Range → Prop
  | [] => True
  | [r] => r.lo ≤ r.hi
  | r :: s :: rest => r.lo ≤ r.hi ∧ r.hi.toInt + 1 < s.lo.toInt ∧ Separated (s :: rest)

structure IntSet where
  ranges : List Range
  separated : Separated ranges
deriving DecidableEq, Repr

namespace IntSet

-- Joins ranges in increasing order to `cur` for as long as they touch it.
def join (cur : Range) : List Range → List Range
  | [] => [cur]
  | r :: rest =>
    if r.lo ≤ Range.next cur.hi then join ⟨cur.lo, max cur.hi r.hi⟩ rest
    else cur :: join r rest

theorem join_ne_nil (cur : Range) (rs : List Range) : join cur rs ≠ [] := by
  induction rs generalizing cur with
  | nil => simp [join]
  | cons r rest ih =>
    rw [join]
    split
    · exact ih _
    · simp

theorem join_head_lo {cur r : Range} {rs rest : List Range} (h : join cur rs = r :: rest) :
    r.lo = cur.lo := by
  induction rs generalizing cur with
  | nil => simp_all [join]
  | cons s rs ih =>
    rw [join] at h
    split at h
    · have := ih h
      exact this
    · simp_all

theorem separated_join {cur : Range} {rs : List Range} (hcur : cur.lo ≤ cur.hi)
    (hrs : ∀ r ∈ rs, r.lo ≤ r.hi) : Separated (join cur rs) := by
  induction rs generalizing cur with
  | nil => exact hcur
  | cons r rest ih =>
    have hrest : ∀ s ∈ rest, s.lo ≤ s.hi := fun s hs => hrs s (List.mem_cons_of_mem _ hs)
    rw [join]
    split
    · refine ih ?_ hrest
      simp only [Int64.le_iff_toInt_le] at hcur ⊢
      have : cur.hi ≤ max cur.hi r.hi := by
        simp only [Max.max]
        split <;> simp_all [Int64.le_iff_toInt_le]
      rw [Int64.le_iff_toInt_le] at this
      omega
    · next gap =>
      have tail := ih (hrs r List.mem_cons_self) hrest
      match h : join r rest with
      | [] => exact absurd h (join_ne_nil _ _)
      | s :: more =>
        rw [h] at tail
        refine ⟨hcur, ?_, tail⟩
        rw [Range.le_next_iff] at gap
        rw [join_head_lo h]
        omega

-- Ranges in increasing order, in separated form.
def sweep : List Range → List Range
  | [] => []
  | r :: rest => join r rest

theorem separated_sweep {rs : List Range} (h : ∀ r ∈ rs, r.lo ≤ r.hi) : Separated (sweep rs) := by
  cases rs with
  | nil => trivial
  | cons r rest =>
    exact separated_join (h r List.mem_cons_self) fun s hs => h s (List.mem_cons_of_mem _ hs)

-- The union of ranges in any order; they may be empty and may overlap.
def ofRanges (rs : List Range) : IntSet where
  ranges := sweep ((rs.filter (!·.isEmpty)).mergeSort Range.le)
  separated := by
    refine separated_sweep fun r hr => ?_
    have := (List.mem_filter.1 (List.mem_mergeSort.1 hr)).2
    simpa [Range.isEmpty, Int64.le_iff_toInt_le, Int64.lt_iff_toInt_lt] using this

def empty : IntSet := ⟨[], trivial⟩

instance : Inhabited IntSet := ⟨empty⟩

def range (lo hi : Int64) : IntSet := ofRanges [⟨lo, hi⟩]

def ofValues (vs : List Int64) : IntSet := ofRanges (vs.map fun v => ⟨v, v⟩)

section Queries

variable (s t : IntSet)

def isEmpty : Bool := s.ranges.isEmpty

def min? : Option Int64 := s.ranges.head?.map Range.lo

def max? : Option Int64 := s.ranges.getLast?.map Range.hi

-- The number of elements in 64 bits: widths are reduced modulo `2 ^ 64`, sums stop below it. The
-- one set this miscounts is that of all integers, which counts as 0.
def card : Nat :=
  s.ranges.foldl (fun n r => min (n + r.width % 0x10000000000000000) 0xffffffffffffffff) 0

def contains (v : Int64) : Bool := s.ranges.any (·.contains v)

-- In separated form, a range lies in a set exactly if it lies in one of its ranges.
def subset : Bool := s.ranges.all fun r => t.ranges.any r.within

-- The elements in increasing order.
def values : List Int64 := s.ranges.flatMap Range.elems

-- The first `n` elements in increasing order.
def first (n : Nat) : List Int64 := (s.ranges.flatMap fun r => r.take n).take n

end Queries

section Algebra

-- The overlaps of two lists of ranges in increasing order. Of the first two ranges, the one that
-- ends first overlaps nothing else.
def common : List Range → List Range → List Range
  | r :: rs, q :: qs =>
    (if (r.inter q).isEmpty then [] else [r.inter q])
      ++ if r.hi < q.hi then common rs (q :: qs) else common (r :: rs) qs
  | _, _ => []
termination_by rs qs => rs.length + qs.length

variable (s t : IntSet)

def union : IntSet := ofRanges (s.ranges ++ t.ranges)

def inter : IntSet := ofRanges (common s.ranges t.ranges)

-- What is left of each range of `s`.
def diff? : Option IntSet :=
  (s.ranges.mapM fun r => Range.without r.hi r.lo t.ranges).map fun left => ofRanges left.flatten

def diff : IntSet := (s.diff? t).getD empty

def symdiff : IntSet := (s.diff t).union (t.diff s)

end Algebra

-- The dictionary order of the increasing sequences of elements, read off the ranges.
def cmpRanges : List Range → List Range → Ordering
  | [], [] => .eq
  | [], _ :: _ => .lt
  | _ :: _, [] => .gt
  | r :: rs, q :: qs =>
    if r.lo ≠ q.lo then compare r.lo q.lo
    else if r.hi < q.hi then if rs.isEmpty then .lt else .gt
    else if q.hi < r.hi then if qs.isEmpty then .gt else .lt
    else cmpRanges rs qs

def cmp (s t : IntSet) : Ordering := cmpRanges s.ranges t.ranges

-- Texts of elements in braces.
def listed (texts : List String) : String := "\x7b" ++ ",".intercalate texts ++ "\x7d"

-- A single range of two or more elements is shown by its ends, any other set by its elements.
def text (s : IntSet) : String :=
  match s.ranges with
  | [r] =>
    if r.lo = r.hi then listed [toString r.lo] else toString r.lo ++ ".." ++ toString r.hi
  | _ => listed (s.values.map toString)

end IntSet
end Parvar
