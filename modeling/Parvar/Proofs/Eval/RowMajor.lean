import Parvar.Eval.Array
import Parvar.Proofs.Checked

/-!
The elements of an array in row-major order. An index counts for as many places as there are tuples
of the indices after it, so the place of a tuple is the number of tuples that come before it, and each
place belongs to one tuple. The places that are computed on the way are no larger than that of the
last tuple: none of them overflows.
-/

namespace Parvar.Eval

-- How many indices a range has.
def width (r : Int64 × Int64) : Int := r.2.toInt - r.1.toInt + 1

-- How many tuples of indices there are.
def volume (dims : Dims) : Int := (dims.map width).prod

-- One index for each range, and in it.
def InRange (dims : Dims) (indices : List Int64) : Prop :=
  List.Forall₂ (fun r i => r.1 ≤ i ∧ i ≤ r.2) dims indices

-- The tuples of indices that have an element.
abbrev Tuple (dims : Dims) := { indices // InRange dims indices }

-- How many tuples come before this one.
def rank : Dims → List Int64 → Int
  | r :: dims, i :: indices => (i.toInt - r.1.toInt) * volume dims + rank dims indices
  | _, _ => 0

-- The widths of the ranges are 64-bit integers.
def Measured (dims : Dims) : Prop := ∀ r ∈ dims, 0 ≤ width r ∧ width r ≤ Int64.maxValue.toInt

variable {dims : Dims} {indices indices' : List Int64} {r : Int64 × Int64} {i pos p : Int64} {k : Int}

section Ranks

@[simp] theorem volume_cons : volume (r :: dims) = width r * volume dims := by simp [volume]

theorem index_bounds (hi : r.1 ≤ i ∧ i ≤ r.2) :
    0 ≤ i.toInt - r.1.toInt ∧ i.toInt - r.1.toInt + 1 ≤ width r := by
  simp only [Int64.le_iff_toInt_le] at hi
  rw [width]
  omega

theorem rank_bounds (h : InRange dims indices) : 0 ≤ rank dims indices ∧ rank dims indices < volume dims := by
  induction h with
  | nil => simp [rank, volume]
  | @cons r i dims indices hi _ ih =>
    obtain ⟨hlo, hhi⟩ := index_bounds hi
    have hv : 0 ≤ volume dims := ih.1.trans ih.2.le
    have hupper := mul_le_mul_of_nonneg_right hhi hv
    rw [add_mul, one_mul] at hupper
    rw [rank, volume_cons]
    exact ⟨add_nonneg (mul_nonneg hlo hv) ih.1, by omega⟩

-- Leading digits decide, and the rest only where these are equal.
theorem digits_lt_iff {v a b x y : Int} (hx : 0 ≤ x ∧ x < v) (hy : 0 ≤ y ∧ y < v) :
    a * v + x < b * v + y ↔ a < b ∨ a = b ∧ x < y := by
  have hstep : ∀ {c d : Int}, c < d → c * v + v ≤ d * v := fun {c d} hcd => by
    have := mul_le_mul_of_nonneg_right (Int.add_one_le_of_lt hcd) (hx.1.trans hx.2.le)
    rwa [add_mul, one_mul] at this
  obtain hab | rfl | hab := lt_trichotomy a b
  · have := hstep hab
    exact iff_of_true (by omega) (.inl hab)
  · simp
  · have := hstep hab
    exact iff_of_false (by omega) (by omega)

theorem rank_lt_iff (h : InRange dims indices) (h' : InRange dims indices') :
    rank dims indices < rank dims indices' ↔ List.Lex (· < ·) indices indices' := by
  induction h generalizing indices' with
  | nil =>
    cases h'
    simp [rank]
  | @cons r i dims indices hi h ih =>
    obtain ⟨j, tail, hj, htail, rfl⟩ := List.forall₂_cons_left_iff.mp h'
    rw [rank, rank, digits_lt_iff (rank_bounds h) (rank_bounds htail), sub_lt_sub_iff_right, sub_left_inj,
      ih htail, List.cons_lex_cons_iff, Int64.lt_iff_toInt_lt, Int64.toInt_inj]

theorem rank_injective (h : InRange dims indices) (h' : InRange dims indices')
    (he : rank dims indices = rank dims indices') : indices = indices' := by
  induction h generalizing indices' with
  | nil =>
    cases h'
    rfl
  | @cons r i dims indices hi h ih =>
    obtain ⟨j, tail, hj, htail, rfl⟩ := List.forall₂_cons_left_iff.mp h'
    rw [rank, rank] at he
    have hlt := digits_lt_iff (a := i.toInt - r.1.toInt) (b := j.toInt - r.1.toInt) (rank_bounds h) (rank_bounds htail)
    have hgt := digits_lt_iff (a := j.toInt - r.1.toInt) (b := i.toInt - r.1.toInt) (rank_bounds htail) (rank_bounds h)
    have hij : i = j := Int64.toInt_inj.mp (by omega)
    rw [hij, ih htail (by omega)]

theorem exists_toInt_eq (hlo : -2 ^ 63 ≤ k) (hhi : k < 2 ^ 63) : ∃ v : Int64, v.toInt = k :=
  ⟨Int64.ofInt k, Int64.toInt_ofInt_of_le hlo hhi⟩

-- Quotient and remainder give the first index and the rank of the others.
theorem exists_rank_eq (hd : Measured dims) (hk : 0 ≤ k) (hlt : k < volume dims) :
    ∃ indices, InRange dims indices ∧ rank dims indices = k := by
  induction dims generalizing k with
  | nil =>
    obtain rfl : k = 0 := by
      simp only [volume, List.map_nil, List.prod_nil] at hlt
      omega
    exact ⟨[], .nil, rfl⟩
  | cons r dims ih =>
    obtain ⟨hr, hdims⟩ := List.forall_mem_cons.mp hd
    rw [volume_cons] at hlt
    have hv : 0 < volume dims := pos_of_mul_pos_right (hk.trans_lt hlt) hr.1
    have hq : 0 ≤ k / volume dims := Int.ediv_nonneg hk hv.le
    have hqlt : k / volume dims < width r := Int.ediv_lt_of_lt_mul hv hlt
    rw [width] at hqlt
    obtain ⟨i, hi⟩ : ∃ i : Int64, i.toInt = r.1.toInt + k / volume dims := by
      have := toInt_range r.1
      have := toInt_range r.2
      exact exists_toInt_eq (by omega) (by omega)
    obtain ⟨indices, hin, hrank⟩ := ih hdims (Int.emod_nonneg k hv.ne') (Int.emod_lt_of_pos k hv)
    refine ⟨i :: indices, .cons ?_ hin, ?_⟩
    · simp only [Int64.le_iff_toInt_le, hi]
      omega
    · rw [rank, hrank, hi, add_sub_cancel_left, Int.ediv_mul_add_emod]

end Ranks

section Places

-- The width of a range and the distance of an index from its start do not wrap.
theorem toInt_width (hr : 0 ≤ width r ∧ width r ≤ Int64.maxValue.toInt) : (r.2 - r.1 + 1).toInt = width r := by
  have hmax := Int64.toInt_maxValue
  have hone : (1 : Int64).toInt = 1 := by decide
  rw [Int64.toInt_add, Int64.toInt_sub, Int.bmod_add_bmod, hone]
  rw [width] at hr ⊢
  exact Int.bmod_eq_of_le (by omega) (by omega)

theorem toInt_distance (hr : width r ≤ Int64.maxValue.toInt) (hi : r.1 ≤ i ∧ i ≤ r.2) :
    (i - r.1).toInt = i.toInt - r.1.toInt := by
  have hmax := Int64.toInt_maxValue
  obtain ⟨hlo, hhi⟩ := index_bounds hi
  rw [Int64.toInt_sub]
  exact Int.bmod_eq_of_le (by omega) (by omega)

theorem inRange_of_position (h : position? dims indices pos = some p) : InRange dims indices := by
  fun_induction position? dims indices pos with
  | case1 pos => exact .nil
  | case2 lo hi dims i indices pos hout => cases h
  | case3 lo hi dims i indices pos hin ih =>
    obtain ⟨row, hrow, h⟩ := Option.bind_eq_some_iff.mp h
    obtain ⟨next, hnext, h⟩ := Option.bind_eq_some_iff.mp h
    simp only [Bool.or_eq_true, decide_eq_true_eq, not_or, Int64.not_lt] at hin
    exact .cons hin (ih next h)
  | case4 => cases h

-- One dimension: the places so far are spread out by its width.
theorem position?_cons (hr : 0 ≤ width r ∧ width r ≤ Int64.maxValue.toInt) (hi : r.1 ≤ i ∧ i ≤ r.2)
    (hpos : 0 ≤ pos.toInt) (hfit : (pos.toInt + 1) * width r ≤ Int64.maxValue.toInt) :
    ∃ p : Int64, p.toInt = pos.toInt * width r + (i.toInt - r.1.toInt) ∧
      ∀ dims indices, position? (r :: dims) (i :: indices) pos = position? dims indices p := by
  obtain ⟨hlo, hhi⟩ := index_bounds hi
  have hrow₀ : 0 ≤ pos.toInt * width r := mul_nonneg hpos hr.1
  rw [add_mul, one_mul] at hfit
  have hmax := Int64.toInt_maxValue
  obtain ⟨row, hrow⟩ : ∃ row : Int64, row.toInt = pos.toInt * width r := exists_toInt_eq (by omega) (by omega)
  obtain ⟨p, hp⟩ : ∃ p : Int64, p.toInt = pos.toInt * width r + (i.toInt - r.1.toInt) :=
    exists_toInt_eq (by omega) (by omega)
  have hmul : Checked.mul pos (r.2 - r.1 + 1) = some row := by
    rw [Checked.mul_eq_some, hrow, toInt_width hr]
  have hadd : Checked.add row (i - r.1) = some p := by
    rw [Checked.add_eq_some, hp, hrow, toInt_distance hr.2 hi]
  have hin : ¬((i < r.1 || r.2 < i) = true) := by
    simpa only [Bool.or_eq_true, decide_eq_true_eq, not_or, Int64.not_lt] using hi
  refine ⟨p, hp, fun dims indices => ?_⟩
  rw [position?, if_neg hin, hmul, Option.bind_eq_bind, Option.bind_some, hadd, Option.bind_some]

-- All dimensions: as long as the last place fits, so do all places on the way.
theorem position?_eq_some (hd : Measured dims) (h : InRange dims indices) (hpos : 0 ≤ pos.toInt)
    (hfit : (pos.toInt + 1) * volume dims ≤ Int64.maxValue.toInt) :
    ∃ p : Int64, p.toInt = pos.toInt * volume dims + rank dims indices ∧ position? dims indices pos = some p := by
  induction h generalizing pos with
  | nil => exact ⟨pos, by simp [volume, rank], rfl⟩
  | @cons r i dims indices hi h ih =>
    obtain ⟨hr, hdims⟩ := List.forall_mem_cons.mp hd
    obtain ⟨hlo, hhi⟩ := index_bounds hi
    have hv : 0 < volume dims := (rank_bounds h).1.trans_lt (rank_bounds h).2
    rw [volume_cons, ← mul_assoc] at hfit
    have hrows : 0 ≤ (pos.toInt + 1) * width r := mul_nonneg (by omega) hr.1
    have hrow : (pos.toInt + 1) * width r ≤ Int64.maxValue.toInt := (le_mul_of_one_le_right hrows hv).trans hfit
    obtain ⟨next, hnext, hstep⟩ := position?_cons hr hi hpos hrow
    have hnext₀ : 0 ≤ next.toInt := hnext ▸ add_nonneg (mul_nonneg hpos hr.1) hlo
    have hle : next.toInt + 1 ≤ (pos.toInt + 1) * width r := by
      rw [hnext, add_mul]
      omega
    obtain ⟨p, hp, hrest⟩ := ih hdims hnext₀ ((mul_le_mul_of_nonneg_right hle hv.le).trans hfit)
    refine ⟨p, ?_, (hstep dims indices).trans hrest⟩
    rw [hp, hnext, rank, volume_cons]
    ring

end Places

section Elements

variable {elems : List ExprId} (hd : Measured dims) (hcount : elems.length = volume dims)
  (hsize : (elems.length : Int) ≤ Int64.maxValue.toInt)

include hd hcount hsize

theorem position?_zero (h : InRange dims indices) :
    (position? dims indices 0).map Int64.toInt = some (rank dims indices) := by
  have hzero : (0 : Int64).toInt = 0 := rfl
  obtain ⟨p, hp, hpos⟩ := position?_eq_some hd h hzero.ge (by rw [hzero]; omega)
  rw [hpos, Option.map_some, hp, hzero, zero_mul, zero_add]

theorem element?_eq (h : InRange dims indices) : element? elems dims indices = elems[(rank dims indices).toNat]? := by
  obtain ⟨p, hpos, hp⟩ := Option.map_eq_some_iff.mp (position?_zero hd hcount hsize h)
  have hneg : ¬p < 0 := by
    rw [Int64.lt_iff_toInt_lt, hp]
    exact (rank_bounds h).1.not_gt
  rw [element?, hpos, Option.bind_eq_bind, Option.bind_some, if_neg hneg, hp]

theorem element?_isSome_iff : (element? elems dims indices).isSome ↔ InRange dims indices := by
  constructor
  · intro h
    obtain ⟨e, he⟩ := Option.isSome_iff_exists.mp h
    obtain ⟨p, hp, -⟩ := Option.bind_eq_some_iff.mp he
    exact inRange_of_position hp
  · intro h
    have := rank_bounds h
    rw [element?_eq hd hcount hsize h, List.getElem?_eq_getElem (by omega), Option.isSome_some]

end Elements

section Place

variable {elems : List ExprId} (hcount : elems.length = volume dims)

def place (t : Tuple dims) : Fin elems.length :=
  ⟨(rank dims t.val).toNat, by have := rank_bounds t.2; omega⟩

theorem val_place (t : Tuple dims) : ((place hcount t).val : Int) = rank dims t.val :=
  Int.toNat_of_nonneg (rank_bounds t.2).1

theorem place_lt_iff (t u : Tuple dims) : place hcount t < place hcount u ↔ List.Lex (· < ·) t.val u.val := by
  rw [← rank_lt_iff t.2 u.2, ← val_place hcount t, ← val_place hcount u, Int.ofNat_lt, Fin.lt_def]

theorem place_bijective (hd : Measured dims) : Function.Bijective (place hcount) := by
  refine ⟨fun t u he => ?_, fun k => ?_⟩
  · exact Subtype.ext (rank_injective t.2 u.2 (by rw [← val_place hcount t, ← val_place hcount u, he]))
  · obtain ⟨indices, hin, hrank⟩ := exists_rank_eq hd (Int.natCast_nonneg k) (by omega)
    refine ⟨⟨indices, hin⟩, Fin.ext (Int.ofNat_inj.mp ?_)⟩
    rw [val_place, hrank]

end Place

-- An array literal with one element for each tuple of indices. Their number is a 64-bit integer, as
-- is the length of every list in memory. There is an element for those tuples whose indices are all
-- in range. Each place is that of one tuple, and places increase with the tuples.
theorem element_row_major (elems : List ExprId) (dims : Dims) (hd : Measured dims)
    (hcount : elems.length = volume dims) (hsize : (elems.length : Int) ≤ Int64.maxValue.toInt) :
    (∀ indices, (element? elems dims indices).isSome ↔ InRange dims indices) ∧
    ∃ place : Tuple dims ≃ Fin elems.length,
      (∀ t : Tuple dims, (position? dims t.val 0).map Int64.toInt = some ((place t).val : Int) ∧
        element? elems dims t.val = some elems[place t]) ∧
      ∀ t u, place t < place u ↔ List.Lex (· < ·) t.val u.val := by
  refine ⟨fun indices => element?_isSome_iff hd hcount hsize,
    .ofBijective (place hcount) (place_bijective hcount hd), fun t => ⟨?_, ?_⟩, place_lt_iff hcount⟩
  · rw [position?_zero hd hcount hsize t.2, Equiv.ofBijective_apply, val_place]
  · rw [element?_eq hd hcount hsize t.2]
    exact List.getElem?_eq_getElem (place hcount t).isLt

-- Two rows, with columns from -1 to 1.
def tableDims : Dims := [(1, 2), (-1, 1)]

def tableElems : List ExprId := [⟨0⟩, ⟨1⟩, ⟨2⟩, ⟨3⟩, ⟨4⟩, ⟨5⟩]

theorem element_row_major_table :
    Measured tableDims ∧ tableElems.length = volume tableDims ∧
    element? tableElems tableDims [2, -1] = some ⟨3⟩ ∧ InRange tableDims [2, -1] ∧ ¬InRange tableDims [2, 2] := by
  have hd : Measured tableDims := by
    simp only [Measured, tableDims, List.forall_mem_cons, width, Int64.toInt_maxValue]
    simp
  have hcount : tableElems.length = volume tableDims := by decide
  have hsize : (tableElems.length : Int) ≤ Int64.maxValue.toInt := by simp [tableElems, Int64.toInt_maxValue]
  have h := (element_row_major tableElems tableDims hd hcount hsize).1
  exact ⟨hd, hcount, by decide, (h _).mp (by decide), fun hin => absurd ((h _).mpr hin) (by decide)⟩

end Parvar.Eval
