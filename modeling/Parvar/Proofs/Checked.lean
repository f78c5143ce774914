import Mathlib
import Parvar.Checked

/-! What checked arithmetic computes, said on unbounded integers. -/

namespace Parvar

section Order

variable (a b : Int64)

theorem toInt_min : (min a b).toInt = min a.toInt b.toInt := by
  simp only [Min.min, Int64.le_iff_toInt_le]
  split <;> simp_all

theorem toInt_max : (max a b).toInt = max a.toInt b.toInt := by
  simp only [Max.max, Int64.le_iff_toInt_le]
  split <;> simp_all

theorem toInt_range : -2 ^ 63 ≤ a.toInt ∧ a.toInt < 2 ^ 63 :=
  ⟨a.le_toInt, a.toInt_lt⟩

end Order

namespace Checked

variable {a b v : Int64} {n : Int}

theorem fits_iff : fits n = true ↔ -2 ^ 63 ≤ n ∧ n < 2 ^ 63 := by
  have hl : Int64.minValue.toInt = -2 ^ 63 := by decide
  have hu : Int64.maxValue.toInt = 2 ^ 63 - 1 := by decide
  simp only [fits, hl, hu, Bool.and_eq_true, decide_eq_true_eq]
  omega

theorem ofInt?_eq_some : ofInt? n = some v ↔ v.toInt = n := by
  unfold ofInt?
  split
  · next h =>
    have ⟨hl, hu⟩ := fits_iff.mp h
    have hv : (Int64.ofInt n).toInt = n := Int64.toInt_ofInt_of_le hl hu
    constructor
    · rintro ⟨rfl⟩
      exact hv
    · rintro rfl
      simp
  · next h =>
    simp only [reduceCtorEq, false_iff]
    rintro rfl
    exact h (fits_iff.mpr (toInt_range v))

theorem ofInt?_eq_none : ofInt? n = none ↔ n < -2 ^ 63 ∨ 2 ^ 63 ≤ n := by
  have h : ofInt? n = none ↔ ¬ fits n := by simp [ofInt?]
  rw [h, fits_iff]
  omega

@[simp] theorem neg_eq_some : neg a = some v ↔ v.toInt = -a.toInt := ofInt?_eq_some

@[simp] theorem abs_eq_some : abs a = some v ↔ v.toInt = |a.toInt| := by
  rw [abs, ofInt?_eq_some, Int.natCast_natAbs]

@[simp] theorem add_eq_some : add a b = some v ↔ v.toInt = a.toInt + b.toInt := ofInt?_eq_some

@[simp] theorem sub_eq_some : sub a b = some v ↔ v.toInt = a.toInt - b.toInt := ofInt?_eq_some

@[simp] theorem mul_eq_some : mul a b = some v ↔ v.toInt = a.toInt * b.toInt := ofInt?_eq_some

theorem div_eq_some : div a b = some v ↔ b ≠ 0 ∧ v.toInt = a.toInt.tdiv b.toInt := by
  unfold div
  split <;> simp_all [ofInt?_eq_some]

theorem toInt_eq_zero : b.toInt = 0 ↔ b = 0 := by
  rw [← Int64.toInt_inj]
  rfl

-- The quotient of two numbers that fit is too large in one case only.
theorem fits_tdiv {x y : Int} (hx : fits x) (hy : y ≠ 0) : fits (x.tdiv y) ↔ ¬(x = -2 ^ 63 ∧ y = -1) := by
  rw [fits_iff] at hx ⊢
  by_cases hneg : y = -1
  · subst hneg
    rw [Int.tdiv_neg, Int.tdiv_one]
    omega
  by_cases hone : y = 1
  · subst hone
    rw [Int.tdiv_one]
    omega
  have habs : (x.tdiv y).natAbs ≤ x.natAbs / 2 := by
    rw [Int.natAbs_tdiv]
    exact Nat.div_le_div_left (by omega) (by decide)
  omega

theorem fits_tmod {x y : Int} (hy : y ≠ 0) (hfit : fits y) : fits (x.tmod y) := by
  rw [fits_iff] at hfit ⊢
  have hlt : (x.tmod y).natAbs < y.natAbs := by
    rw [Int.natAbs_tmod]
    exact Nat.mod_lt _ (by omega)
  omega

theorem mod_eq_some_iff :
    mod a b = some v ↔ b ≠ 0 ∧ ¬(a.toInt = -2 ^ 63 ∧ b.toInt = -1) ∧ v.toInt = a.toInt.tmod b.toInt := by
  have hfits : b ≠ 0 → (fits (a.toInt.tdiv b.toInt) ↔ ¬(a.toInt = -2 ^ 63 ∧ b.toInt = -1)) := fun hb =>
    fits_tdiv (fits_iff.mpr (toInt_range a)) (toInt_eq_zero.not.mpr hb)
  simp only [mod, Option.bind_eq_some_iff, div_eq_some, ofInt?_eq_some]
  constructor
  · rintro ⟨q, ⟨hb, hq⟩, hv⟩
    exact ⟨hb, (hfits hb).mp (hq ▸ fits_iff.mpr (toInt_range q)), hv⟩
  · rintro ⟨hb, hmin, hv⟩
    have ⟨hl, hu⟩ := fits_iff.mp ((hfits hb).mpr hmin)
    exact ⟨Int64.ofInt (a.toInt.tdiv b.toInt), ⟨hb, Int64.toInt_ofInt_of_le hl hu⟩, hv⟩

theorem mod_eq_some (h : mod a b = some v) : b ≠ 0 ∧ v.toInt = a.toInt.tmod b.toInt :=
  have ⟨hb, _, hv⟩ := mod_eq_some_iff.mp h
  ⟨hb, hv⟩

end Checked
end Parvar
