import Parvar.Bounds.Interval
import Parvar.Proofs.Eval.Success
import Parvar.Proofs.Checked

/-!
Intervals hold the results of operations on what they hold. An operation on values that overflows
has no result, so an end that overflowed only has to be right for the results that are left.
-/

namespace Parvar

namespace Bound

-- A bound from below and a bound from above, of any integer.
def Below : Bound → Int → Prop
  | negInf, _ => True
  | finite a, n => a.toInt ≤ n
  | posInf, _ => False

def Above : Bound → Int → Prop
  | negInf, _ => False
  | finite a, n => n ≤ a.toInt
  | posInf, _ => True

variable {a b : Bound} {k v w x : Int64} {n : Int}

@[simp] theorem below_negInf : Below negInf n := trivial

@[simp] theorem not_below_posInf : ¬ Below posInf n := id

@[simp] theorem below_finite : Below (finite v) n ↔ v.toInt ≤ n := .rfl

@[simp] theorem not_above_negInf : ¬ Above negInf n := id

@[simp] theorem above_posInf : Above posInf n := trivial

@[simp] theorem above_finite : Above (finite v) n ↔ n ≤ v.toInt := .rfl

theorem le_finite : a.le (finite v) ↔ a.Below v.toInt := by
  cases a <;> simp [le, Int64.le_iff_toInt_le]

theorem finite_le : (finite v).le a ↔ a.Above v.toInt := by
  cases a <;> simp [le, Int64.le_iff_toInt_le]

theorem Below.mono {n' : Int} (h : a.Below n) (hn : n ≤ n') : a.Below n' := by
  cases a with
  | finite v => exact le_trans h hn
  | _ => exact h

theorem Above.mono {n' : Int} (h : a.Above n) (hn : n' ≤ n) : a.Above n' := by
  cases a with
  | finite v => exact le_trans hn h
  | _ => exact h

section Extremes

theorem Below.of_le (h : a.le b) (hb : b.Below n) : a.Below n := by
  cases a <;> cases b <;> simp_all [le, Int64.le_iff_toInt_le]
  omega

theorem Above.of_le (h : a.le b) (ha : a.Above n) : b.Above n := by
  cases a <;> cases b <;> simp_all [le, Int64.le_iff_toInt_le]
  omega

theorem le_total (a b : Bound) : a.le b ∨ b.le a := by
  cases a <;> cases b <;> simp [le, Int64.le_iff_toInt_le]
  omega

theorem below_min : (a.min b).Below n ↔ a.Below n ∨ b.Below n := by
  unfold min
  split
  · next h => exact ⟨.inl, fun h' => h'.elim id (.of_le h)⟩
  · next h =>
    have h := (le_total a b).resolve_left h
    exact ⟨.inr, fun h' => h'.elim (.of_le h) id⟩

theorem above_max : (a.max b).Above n ↔ a.Above n ∨ b.Above n := by
  unfold max
  split
  · next h => exact ⟨.inr, fun h' => h'.elim (.of_le h) id⟩
  · next h =>
    have h := (le_total a b).resolve_left h
    exact ⟨.inl, fun h' => h'.elim id (.of_le h)⟩

theorem above_min (ha : a.Above n) (hb : b.Above n) : (a.min b).Above n := by
  unfold min
  split <;> assumption

theorem below_max (ha : a.Below n) (hb : b.Below n) : (a.max b).Below n := by
  unfold max
  split <;> assumption

end Extremes

section Negation

variable (hv : v.toInt = -x.toInt)
include hv

theorem below_neg (h : b.Above x.toInt) : b.neg.Below v.toInt := by
  cases b with
  | negInf => simp at h
  | posInf => simp [neg]
  | finite w =>
    simp only [above_finite] at h
    cases e : Checked.neg w with
    | none =>
      have := Checked.ofInt?_eq_none.mp e
      have := toInt_range v
      have := toInt_range w
      omega
    | some u =>
      simp only [Checked.neg_eq_some] at e
      simp only [neg, Checked.neg_eq_some.mpr e, Option.elim_some, below_finite]
      omega

theorem above_neg (h : b.Below x.toInt) : b.neg.Above v.toInt := by
  cases b with
  | negInf => simp [neg]
  | posInf => simp at h
  | finite w =>
    simp only [below_finite] at h
    cases e : Checked.neg w with
    | none => simp [neg, e]
    | some u =>
      simp only [Checked.neg_eq_some] at e
      simp only [neg, Checked.neg_eq_some.mpr e, Option.elim_some, above_finite]
      omega

end Negation

section Scaling

variable {p : Int64}

-- A product that overflows does so on the side of its sign.
theorem scale_finite (hk : k ≠ 0) (v : Int64) :
    (∃ w : Int64, (finite v).scale k = finite w ∧ w.toInt = v.toInt * k.toInt) ∨
      ((finite v).scale k = posInf ∧ 2 ^ 63 ≤ v.toInt * k.toInt) ∨
      ((finite v).scale k = negInf ∧ v.toInt * k.toInt < -2 ^ 63) := by
  simp only [scale, hk, if_false]
  cases e : Checked.mul v k with
  | some w => exact .inl ⟨w, rfl, Checked.mul_eq_some.mp e⟩
  | none =>
    have hk0 : k.toInt ≠ 0 := fun h => hk (Int64.toInt_inj.mp h)
    have ho := Checked.ofInt?_eq_none.mp e
    simp only [Option.elim_none, infinity, Int64.lt_iff_toInt_lt, Int64.toInt_zero]
    by_cases hv : v.toInt < 0 <;> by_cases hk : k.toInt < 0 <;> simp only [hv, hk] <;>
      rcases ho with ho | ho <;> simp <;> nlinarith [hk0.lt_or_gt]

variable (hp : p.toInt = k.toInt * x.toInt)
include hp

theorem below_scale_of_pos (hk : 0 < k.toInt) (h : b.Below x.toInt) :
    (b.scale k).Below p.toInt := by
  have hk0 : k ≠ 0 := fun h => by simp [h] at hk
  cases b with
  | negInf => simp [scale, hk0, infinity, Int64.lt_iff_toInt_lt, hk]
  | posInf => simp at h
  | finite v =>
    simp only [below_finite] at h
    have := toInt_range p
    obtain ⟨w, e, hw⟩ | ⟨e, ho⟩ | ⟨e, ho⟩ := scale_finite hk0 v
    · rw [e, below_finite]
      nlinarith
    · nlinarith
    · simp [e]

theorem above_scale_of_pos (hk : 0 < k.toInt) (h : b.Above x.toInt) :
    (b.scale k).Above p.toInt := by
  have hk0 : k ≠ 0 := fun h => by simp [h] at hk
  cases b with
  | negInf => simp at h
  | posInf =>
    have : ¬ k.toInt < 0 := by omega
    simp [scale, hk0, infinity, Int64.lt_iff_toInt_lt, this]
  | finite v =>
    simp only [above_finite] at h
    have := toInt_range p
    obtain ⟨w, e, hw⟩ | ⟨e, ho⟩ | ⟨e, ho⟩ := scale_finite hk0 v
    · rw [e, above_finite]
      nlinarith
    · simp [e]
    · nlinarith

theorem below_scale_of_neg (hk : k.toInt < 0) (h : b.Above x.toInt) :
    (b.scale k).Below p.toInt := by
  have hk0 : k ≠ 0 := fun h => by simp [h] at hk
  cases b with
  | negInf => simp at h
  | posInf => simp [scale, hk0, infinity, Int64.lt_iff_toInt_lt, hk]
  | finite v =>
    simp only [above_finite] at h
    have := toInt_range p
    obtain ⟨w, e, hw⟩ | ⟨e, ho⟩ | ⟨e, ho⟩ := scale_finite hk0 v
    · rw [e, below_finite]
      nlinarith
    · nlinarith
    · simp [e]

theorem above_scale_of_neg (hk : k.toInt < 0) (h : b.Below x.toInt) :
    (b.scale k).Above p.toInt := by
  have hk0 : k ≠ 0 := fun h => by simp [h] at hk
  cases b with
  | negInf =>
    have : ¬ 0 < k.toInt := by omega
    simp [scale, hk0, infinity, Int64.lt_iff_toInt_lt, this]
  | posInf => simp at h
  | finite v =>
    simp only [below_finite] at h
    have := toInt_range p
    obtain ⟨w, e, hw⟩ | ⟨e, ho⟩ | ⟨e, ho⟩ := scale_finite hk0 v
    · rw [e, above_finite]
      nlinarith
    · simp [e]
    · nlinarith

end Scaling

section Addition

-- A sum that overflows does so on the side of both of its parts.
theorem add_finite (v w : Int64) :
    (∃ u : Int64, (finite v).add? (finite w) = some (finite u) ∧ u.toInt = v.toInt + w.toInt) ∨
      ((finite v).add? (finite w) = some posInf ∧ 2 ^ 63 ≤ v.toInt + w.toInt) ∨
      ((finite v).add? (finite w) = some negInf ∧ v.toInt + w.toInt < -2 ^ 63) := by
  have hi : (finite v).add? (finite w) = some ((Checked.add v w).elim (infinity (v < 0)) finite) :=
    rfl
  cases e : Checked.add v w with
  | some u => exact .inl ⟨u, by rw [hi, e]; rfl, Checked.add_eq_some.mp e⟩
  | none =>
    have ho := Checked.ofInt?_eq_none.mp e
    have hw := toInt_range w
    rw [hi, e, Option.elim_none]
    by_cases hv : v < 0
    · have hv' := Int64.lt_iff_toInt_lt.mp hv
      rw [Int64.toInt_zero] at hv'
      exact .inr (.inr ⟨by rw [decide_eq_true hv]; rfl, by omega⟩)
    · have hv' : ¬ v.toInt < 0 := fun h => hv (Int64.lt_iff_toInt_lt.mpr (by simpa using h))
      exact .inr (.inl ⟨by rw [decide_eq_false hv]; rfl, by omega⟩)

variable {c : Bound} {s p : Int64} (hs : s.toInt = x.toInt + p.toInt)
include hs

theorem below_add (h : a.add? b = some c) (ha : a.Below x.toInt) (hb : b.Below p.toInt) :
    c.Below s.toInt := by
  match a, b with
  | finite v, finite w =>
    simp only [below_finite] at ha hb
    have := toInt_range s
    obtain ⟨u, e, hu⟩ | ⟨e, ho⟩ | ⟨e, ho⟩ := add_finite v w <;> cases e.symm.trans h
    · rw [below_finite]
      omega
    · omega
    · trivial
  | posInf, _ => exact ha.elim
  | _, posInf => exact hb.elim
  | negInf, negInf | negInf, finite _ | finite _, negInf =>
    cases h
    trivial

theorem above_add (h : a.add? b = some c) (ha : a.Above x.toInt) (hb : b.Above p.toInt) :
    c.Above s.toInt := by
  match a, b with
  | finite v, finite w =>
    simp only [above_finite] at ha hb
    have := toInt_range s
    obtain ⟨u, e, hu⟩ | ⟨e, ho⟩ | ⟨e, ho⟩ := add_finite v w <;> cases e.symm.trans h
    · rw [above_finite]
      omega
    · trivial
    · omega
  | negInf, _ => exact ha.elim
  | _, negInf => exact hb.elim
  | posInf, posInf | posInf, finite _ | finite _, posInf =>
    cases h
    trivial

end Addition
end Bound

namespace Interval

-- The integers between the ends, where every integer is between the two infinities.
instance : Membership Int64 Interval := ⟨fun i v => i.lo.le (.finite v) ∧ (Bound.finite v).le i.hi⟩

variable {i j r : Interval} {k v x y : Int64}

theorem mem_iff : v ∈ i ↔ i.lo.Below v.toInt ∧ i.hi.Above v.toInt :=
  and_congr Bound.le_finite Bound.finite_le

theorem mem_ofInts {a b : Int64} : v ∈ ofInts a b ↔ a.toInt ≤ v.toInt ∧ v.toInt ≤ b.toInt := mem_iff

theorem mem_ofInts_self (v : Int64) : v ∈ ofInts v v := mem_ofInts.mpr ⟨le_rfl, le_rfl⟩

theorem eq_ofInts {a b : Int64} (h : i.finite? = some (a, b)) : i = ofInts a b := by
  obtain ⟨lo, hi⟩ := i
  cases lo <;> cases hi <;> simp_all [finite?, Bound.finite?, ofInts]

theorem mem_hull (h : v ∈ i ∨ v ∈ j) : v ∈ i.hull j := by
  simp only [mem_iff, hull, Bound.below_min, Bound.above_max] at h ⊢
  tauto

theorem mem_neg (hx : x ∈ i) (hv : v.toInt = -x.toInt) : v ∈ i.neg :=
  mem_iff.mpr ⟨Bound.below_neg hv (mem_iff.mp hx).2, Bound.above_neg hv (mem_iff.mp hx).1⟩

theorem mem_abs (hx : x ∈ i) (hv : v.toInt = |x.toInt|) : v ∈ i.abs := by
  have ⟨hl, hu⟩ := mem_iff.mp hx
  unfold abs
  dsimp only
  split
  · next h =>
    have h0 : 0 ≤ x.toInt := Bound.Below.of_le h hl
    rw [abs_of_nonneg h0, Int64.toInt_inj] at hv
    exact hv ▸ hx
  · split
    · next h =>
      have h0 : x.toInt ≤ 0 := by
        have hle := (Bound.le_total (.finite 0) i.hi).resolve_left (by simpa using h)
        exact Bound.Above.of_le hle hu
      exact mem_neg hx (hv.trans (abs_of_nonpos h0))
    · refine mem_iff.mpr ⟨?_, Bound.above_max.mpr ?_⟩
      · rw [Bound.below_finite, hv]
        exact abs_nonneg _
      · rcases abs_choice x.toInt with h | h
        · exact .inr ((hv.trans h) ▸ hu)
        · exact .inl (Bound.above_neg (hv.trans h) hl)

theorem mem_min (hx : x ∈ i) (hy : y ∈ j) : Min.min x y ∈ i.min j := by
  simp only [mem_iff, toInt_min] at hx hy ⊢
  refine ⟨Bound.below_min.mpr ?_, Bound.above_min ?_ ?_⟩
  · rcases min_choice x.toInt y.toInt with h | h <;> rw [h]
    · exact .inl hx.1
    · exact .inr hy.1
  · exact hx.2.mono (min_le_left _ _)
  · exact hy.2.mono (min_le_right _ _)

theorem mem_max (hx : x ∈ i) (hy : y ∈ j) : Max.max x y ∈ i.max j := by
  simp only [mem_iff, toInt_max] at hx hy ⊢
  refine ⟨Bound.below_max ?_ ?_, Bound.above_max.mpr ?_⟩
  · exact hx.1.mono (le_max_left _ _)
  · exact hy.1.mono (le_max_right _ _)
  · rcases max_choice x.toInt y.toInt with h | h <;> rw [h]
    · exact .inl hx.2
    · exact .inr hy.2

-- Neither the product nor the sum overflows, so an end that did lies beyond them.
theorem mem_addScaled {p s : Int64} (h : i.addScaled? k j = some r) (hx : x ∈ i) (hy : y ∈ j)
    (hp : p.toInt = k.toInt * y.toInt) (hs : s.toInt = x.toInt + p.toInt) : s ∈ r := by
  have hl : ((j.lo.scale k).min (j.hi.scale k)).Below p.toInt ∧
      ((j.lo.scale k).max (j.hi.scale k)).Above p.toInt := by
    have ⟨hlo, hhi⟩ := mem_iff.mp hy
    rw [Bound.below_min, Bound.above_max]
    rcases lt_trichotomy k.toInt 0 with hk | hk | hk
    · exact ⟨.inr (Bound.below_scale_of_neg hp hk hhi), .inl (Bound.above_scale_of_neg hp hk hlo)⟩
    · have hk0 : k = 0 := Int64.toInt_inj.mp hk
      have hp0 : p.toInt = 0 := by rw [hp, hk, zero_mul]
      simp [Bound.scale, hk0, hp0]
    · exact ⟨.inl (Bound.below_scale_of_pos hp hk hlo), .inr (Bound.above_scale_of_pos hp hk hhi)⟩
  simp only [addScaled?, Option.bind_eq_bind, Option.bind_eq_some_iff, Option.pure_def,
    Option.some.injEq] at h
  have ⟨lo, hlo, hi, hhi, hr⟩ := h
  subst hr
  exact mem_iff.mpr ⟨Bound.below_add hs hlo (mem_iff.mp hx).1 hl.1,
    Bound.above_add hs hhi (mem_iff.mp hx).2 hl.2⟩

section Corners

theorem foldl_min_le (vs : List Int64) (v : Int64) :
    (vs.foldl Min.min v).toInt ≤ v.toInt ∧ ∀ w ∈ vs, (vs.foldl Min.min v).toInt ≤ w.toInt := by
  induction vs generalizing v with
  | nil => simp
  | cons u vs ih =>
    have ⟨hv, hvs⟩ := ih (Min.min v u)
    rw [toInt_min] at hv
    refine ⟨hv.trans (min_le_left _ _), fun w hw => ?_⟩
    rcases List.mem_cons.mp hw with rfl | hw
    · exact hv.trans (min_le_right _ _)
    · exact hvs w hw

theorem le_foldl_max (vs : List Int64) (v : Int64) :
    v.toInt ≤ (vs.foldl Max.max v).toInt ∧ ∀ w ∈ vs, w.toInt ≤ (vs.foldl Max.max v).toInt := by
  induction vs generalizing v with
  | nil => simp
  | cons u vs ih =>
    have ⟨hv, hvs⟩ := ih (Max.max v u)
    rw [toInt_max] at hv
    refine ⟨(le_max_left _ _).trans hv, fun w hw => ?_⟩
    rcases List.mem_cons.mp hw with rfl | hw
    · exact (le_max_right _ _).trans hv
    · exact hvs w hw

theorem spanning_spec {vs : List Int64} {lo hi : Int64} (h : spanning? vs = some (lo, hi)) :
    ∀ v ∈ vs, lo.toInt ≤ v.toInt ∧ v.toInt ≤ hi.toInt := by
  cases vs with
  | nil => contradiction
  | cons u vs =>
    cases h
    intro v hv
    rcases List.mem_cons.mp hv with rfl | hv
    · exact ⟨(foldl_min_le vs v).1, (le_foldl_max vs v).1⟩
    · exact ⟨(foldl_min_le vs u).2 v hv, (le_foldl_max vs u).2 v hv⟩

-- At every corner there is a value, and it lies between the extremes.
theorem corners_spec {op : Int64 → Int64 → Option Int64} {xs ys : List Int64} {lo hi : Int64}
    (h : corners? op xs ys = some (lo, hi)) (hx : x ∈ xs) (hy : y ∈ ys) :
    ∃ v, op x y = some v ∧ lo.toInt ≤ v.toInt ∧ v.toInt ≤ hi.toInt := by
  simp only [corners?, Option.bind_eq_bind, Option.bind_eq_some_iff] at h
  have ⟨vs, hvs, hs⟩ := h
  have hm : (x, y) ∈ xs.flatMap fun x => ys.map fun y => (x, y) := by simp [hx, hy]
  have ⟨v, hv, e⟩ := forall₂_exists (mapM_eq_some_iff.mp hvs) _ hm
  exact ⟨v, e, spanning_spec hs v hv⟩

theorem foldl_min_mem (vs : List Int64) (v : Int64) : vs.foldl Min.min v ∈ v :: vs := by
  induction vs generalizing v with
  | nil => simp
  | cons u vs ih =>
    have hm : Min.min v u = v ∨ Min.min v u = u := by
      simp only [Min.min]
      split <;> simp
    rcases List.mem_cons.mp (ih (Min.min v u)) with h | h
    · rcases hm with hm | hm <;> simp_all
    · simp [List.foldl_cons, h]

theorem foldl_max_mem (vs : List Int64) (v : Int64) : vs.foldl Max.max v ∈ v :: vs := by
  induction vs generalizing v with
  | nil => simp
  | cons u vs ih =>
    have hm : Max.max v u = v ∨ Max.max v u = u := by
      simp only [Max.max]
      split <;> simp
    rcases List.mem_cons.mp (ih (Max.max v u)) with h | h
    · rcases hm with hm | hm <;> simp_all
    · simp [List.foldl_cons, h]

-- The extremes are values at corners.
theorem corners_attained {op : Int64 → Int64 → Option Int64} {xs ys : List Int64} {lo hi : Int64}
    (h : corners? op xs ys = some (lo, hi)) :
    ∀ v ∈ [lo, hi], ∃ x ∈ xs, ∃ y ∈ ys, op x y = some v := by
  simp only [corners?, Option.bind_eq_bind, Option.bind_eq_some_iff] at h
  have ⟨vs, hvs, hs⟩ := h
  have hmem {v : Int64} (hv : v ∈ vs) : ∃ x ∈ xs, ∃ y ∈ ys, op x y = some v := by
    have ⟨(x, y), hxy, e⟩ := forall₂_exists (mapM_eq_some_iff.mp hvs).flip v hv
    simp only [List.mem_flatMap, List.mem_map, Prod.mk.injEq] at hxy
    obtain ⟨_, hx, _, hy, rfl, rfl⟩ := hxy
    exact ⟨_, hx, _, hy, e⟩
  cases vs with
  | nil => contradiction
  | cons u vs =>
    cases hs
    intro v hv
    simp only [List.mem_cons, List.not_mem_nil, or_false] at hv
    rcases hv with rfl | rfl
    · exact hmem (foldl_min_mem vs u)
    · exact hmem (foldl_max_mem vs u)

-- What only grows or only falls is between two bounds if it is there at both ends.
theorem between_of_ends {f : Int → Int} (hf : Monotone f ∨ Antitone f) {a₀ a₁ x lo hi : Int}
    (h₀ : a₀ ≤ x) (h₁ : x ≤ a₁) (hl : lo ≤ f a₀ ∧ f a₀ ≤ hi) (hu : lo ≤ f a₁ ∧ f a₁ ≤ hi) :
    lo ≤ f x ∧ f x ≤ hi := by
  rcases hf with hf | hf
  · exact ⟨hl.1.trans (hf h₀), (hf h₁).trans hu.2⟩
  · exact ⟨hu.1.trans (hf h₁), (hf h₀).trans hl.2⟩

theorem mul_monotone_or (y : Int) : Monotone (· * y) ∨ Antitone (· * y) := by
  rcases le_total 0 y with h | h
  · exact .inl fun _ _ hab => mul_le_mul_of_nonneg_right hab h
  · exact .inr fun _ _ hab => mul_le_mul_of_nonpos_right hab h

theorem tdiv_monotone_or {y : Int} (h : y ≠ 0) :
    Monotone (fun x : Int => x.tdiv y) ∨ Antitone (fun x : Int => x.tdiv y) := by
  rcases lt_or_gt_of_ne h with h | h
  · refine .inr fun a b hab => ?_
    have := Int.tdiv_le_tdiv (show 0 < -y by omega) hab
    rw [Int.tdiv_neg, Int.tdiv_neg] at this
    exact neg_le_neg_iff.mp this
  · exact .inl fun _ _ hab => Int.tdiv_le_tdiv h hab

theorem tdiv_anti {x p q : Int} (hx : 0 ≤ x) (hp : 0 < p) (hpq : p ≤ q) : x.tdiv q ≤ x.tdiv p := by
  rw [Int.tdiv_eq_ediv_of_nonneg hx, Int.tdiv_eq_ediv_of_nonneg hx, Int.le_ediv_iff_mul_le hp]
  have hq : 0 < q := hp.trans_le hpq
  calc x / q * p ≤ x / q * q := mul_le_mul_of_nonneg_left hpq (Int.ediv_nonneg hx hq.le)
    _ ≤ x := Int.ediv_mul_le x hq.ne'

-- Over divisors of one sign, quotients are between those by the ends.
theorem tdiv_between_of_pos {x y p q lo hi : Int} (hp : 0 < p) (hpy : p ≤ y) (hyq : y ≤ q)
    (hlp : lo ≤ x.tdiv p ∧ x.tdiv p ≤ hi) (hlq : lo ≤ x.tdiv q ∧ x.tdiv q ≤ hi) :
    lo ≤ x.tdiv y ∧ x.tdiv y ≤ hi := by
  rcases le_total 0 x with hx | hx
  · exact ⟨hlq.1.trans (tdiv_anti hx (hp.trans_le hpy) hyq), (tdiv_anti hx hp hpy).trans hlp.2⟩
  · have h₁ := tdiv_anti (neg_nonneg.mpr hx) (hp.trans_le hpy) hyq
    have h₂ := tdiv_anti (neg_nonneg.mpr hx) hp hpy
    simp only [Int.neg_tdiv] at h₁ h₂
    omega

theorem tdiv_between_of_neg {x y p q lo hi : Int} (hq : q < 0) (hpy : p ≤ y) (hyq : y ≤ q)
    (hlp : lo ≤ x.tdiv p ∧ x.tdiv p ≤ hi) (hlq : lo ≤ x.tdiv q ∧ x.tdiv q ≤ hi) :
    lo ≤ x.tdiv y ∧ x.tdiv y ≤ hi := by
  have h := @tdiv_between_of_pos x (-y) (-q) (-p) (-hi) (-lo)
  simp only [Int.tdiv_neg] at h
  have := h (by omega) (by omega) (by omega) (by omega) (by omega)
  omega

end Corners

section Arithmetic

variable {a₀ a₁ b₀ b₁ lo hi : Int64}

theorem mul_between (h : corners? Checked.mul [a₀, a₁] [b₀, b₁] = some (lo, hi))
    (hx : x ∈ ofInts a₀ a₁) (hy : y ∈ ofInts b₀ b₁) :
    lo.toInt ≤ x.toInt * y.toInt ∧ x.toInt * y.toInt ≤ hi.toInt := by
  have ⟨hx₀, hx₁⟩ := mem_ofInts.mp hx
  have ⟨hy₀, hy₁⟩ := mem_ofInts.mp hy
  have hc {a b : Int64} (ha : a ∈ [a₀, a₁]) (hb : b ∈ [b₀, b₁]) :
      lo.toInt ≤ a.toInt * b.toInt ∧ a.toInt * b.toInt ≤ hi.toInt := by
    have ⟨v, hv, hlv⟩ := corners_spec h ha hb
    rwa [Checked.mul_eq_some.mp hv] at hlv
  have hb {b : Int64} (hb : b ∈ [b₀, b₁]) :
      lo.toInt ≤ b.toInt * x.toInt ∧ b.toInt * x.toInt ≤ hi.toInt := by
    rw [mul_comm]
    exact between_of_ends (mul_monotone_or b.toInt) hx₀ hx₁ (hc (by simp) hb) (hc (by simp) hb)
  rw [mul_comm]
  exact between_of_ends (mul_monotone_or x.toInt) hy₀ hy₁ (hb (by simp)) (hb (by simp))

theorem mem_divisors : v ∈ divisors b₀ b₁ ↔
    (v = b₀ ∨ v = b₁ ∨ v = -1 ∨ v = 1) ∧ v.toInt ≠ 0 ∧ b₀.toInt ≤ v.toInt ∧ v.toInt ≤ b₁.toInt := by
  have h0 : v.toInt = 0 ↔ v = 0 := by rw [← Int64.toInt_inj, Int64.toInt_zero]
  simp only [divisors, List.mem_filter, List.mem_cons, List.not_mem_nil, or_false, Bool.and_eq_true,
    decide_eq_true_eq, Int64.le_iff_toInt_le, ne_eq, h0, and_assoc]

theorem div_between (h : corners? Checked.div [a₀, a₁] (divisors b₀ b₁) = some (lo, hi))
    (hx : x ∈ ofInts a₀ a₁) (hy : y ∈ ofInts b₀ b₁) (hy0 : y.toInt ≠ 0) :
    lo.toInt ≤ x.toInt.tdiv y.toInt ∧ x.toInt.tdiv y.toInt ≤ hi.toInt := by
  have ⟨hx₀, hx₁⟩ := mem_ofInts.mp hx
  have ⟨hy₀, hy₁⟩ := mem_ofInts.mp hy
  have hb {b : Int64} (hb : b ∈ divisors b₀ b₁) :
      lo.toInt ≤ x.toInt.tdiv b.toInt ∧ x.toInt.tdiv b.toInt ≤ hi.toInt := by
    have hc {a : Int64} (ha : a ∈ [a₀, a₁]) :
        lo.toInt ≤ a.toInt.tdiv b.toInt ∧ a.toInt.tdiv b.toInt ≤ hi.toInt := by
      have ⟨v, hv, hlv⟩ := corners_spec h ha hb
      rwa [(Checked.div_eq_some.mp hv).2] at hlv
    exact between_of_ends (tdiv_monotone_or (mem_divisors.mp hb).2.1) hx₀ hx₁ (hc (by simp))
      (hc (by simp))
  have h1 : (1 : Int64).toInt = 1 := by decide
  have hm1 : (-1 : Int64).toInt = -1 := by decide
  rcases lt_or_gt_of_ne hy0 with hneg | hpos
  · have hlo : b₀ ∈ divisors b₀ b₁ := mem_divisors.mpr ⟨.inl rfl, by omega⟩
    by_cases h' : b₁.toInt ≤ -1
    · have hhi : b₁ ∈ divisors b₀ b₁ := mem_divisors.mpr ⟨.inr (.inl rfl), by omega⟩
      exact tdiv_between_of_neg (by omega) hy₀ hy₁ (hb hlo) (hb hhi)
    · have hhi : -1 ∈ divisors b₀ b₁ := mem_divisors.mpr ⟨.inr (.inr (.inl rfl)), by omega⟩
      exact tdiv_between_of_neg (by omega) hy₀ (by omega) (hb hlo) (hb hhi)
  · have hhi : b₁ ∈ divisors b₀ b₁ := mem_divisors.mpr ⟨.inr (.inl rfl), by omega⟩
    by_cases h' : 1 ≤ b₀.toInt
    · have hlo : b₀ ∈ divisors b₀ b₁ := mem_divisors.mpr ⟨.inl rfl, by omega⟩
      exact tdiv_between_of_pos (by omega) hy₀ hy₁ (hb hlo) (hb hhi)
    · have hlo : 1 ∈ divisors b₀ b₁ := mem_divisors.mpr ⟨.inr (.inr (.inr rfl)), by omega⟩
      exact tdiv_between_of_pos (by omega) (by omega) hy₁ (hb hlo) (hb hhi)

-- The greatest size of a divisor.
def widest (b₀ b₁ : Int64) : Int := Max.max |b₀.toInt| |b₁.toInt|

-- The ends of remainders are taken without a test for overflow, and there is none.
theorem mod?_exact (h : mod? a₀ a₁ b₀ b₁ = some (lo, hi)) :
    0 < widest b₀ b₁ ∧
      lo.toInt = (if 0 ≤ a₀.toInt then 0 else Max.max a₀.toInt (-(widest b₀ b₁ - 1))) ∧
      hi.toInt = (if a₁.toInt ≤ 0 then 0 else Min.min a₁.toInt (widest b₀ b₁ - 1)) := by
  have hw : ((Max.max b₀.toInt.natAbs b₁.toInt.natAbs : Nat) : Int) = widest b₀ b₁ := by
    simp [widest]
  have hn : Max.max b₀.toInt.natAbs b₁.toInt.natAbs ≤ 2 ^ 63 := by
    have := toInt_range b₀
    have := toInt_range b₁
    omega
  simp only [mod?] at h
  generalize Max.max b₀.toInt.natAbs b₁.toInt.natAbs = n at h hw hn
  split at h
  · contradiction
  · next h0 =>
    have hm : (Int64.ofNat (n - 1)).toInt = widest b₀ b₁ - 1 := by
      rw [Int64.toInt_ofNat_of_lt (by omega)]
      omega
    have hneg : (-Int64.ofNat (n - 1)).toInt = -(widest b₀ b₁ - 1) := by
      rw [Int64.toInt_neg, hm, Int.bmod_eq_of_le (by omega) (by omega)]
    cases h
    refine ⟨by omega, ?_, ?_⟩
    · simp only [Int64.le_iff_toInt_le, Int64.toInt_zero]
      split
      · rfl
      · rw [toInt_max, hneg]
    · simp only [Int64.le_iff_toInt_le, Int64.toInt_zero]
      split
      · rfl
      · rw [toInt_min, hm]

theorem mod_between (h : mod? a₀ a₁ b₀ b₁ = some (lo, hi))
    (hx : x ∈ ofInts a₀ a₁) (hy : y ∈ ofInts b₀ b₁) (hy0 : y.toInt ≠ 0) :
    lo.toInt ≤ x.toInt.tmod y.toInt ∧ x.toInt.tmod y.toInt ≤ hi.toInt := by
  have ⟨hx₀, hx₁⟩ := mem_ofInts.mp hx
  have ⟨hy₀, hy₁⟩ := mem_ofInts.mp hy
  have ⟨_, hlo, hhi⟩ := mod?_exact h
  have hw : |y.toInt| ≤ widest b₀ b₁ := abs_le_max_abs_abs hy₀ hy₁
  have hlt : |x.toInt.tmod y.toInt| < |y.toInt| := by
    simp only [Int.abs_eq_natAbs, Int.natAbs_tmod]
    exact_mod_cast Nat.mod_lt _ (Int.natAbs_pos.mpr hy0)
  have hle : |x.toInt.tmod y.toInt| ≤ |x.toInt| := by
    simp only [Int.abs_eq_natAbs, Int.natAbs_tmod]
    exact_mod_cast Nat.mod_le _ _
  rw [hlo, hhi]
  rcases le_total 0 x.toInt with h0 | h0
  · have hr := Int.tmod_nonneg y.toInt h0
    rw [abs_of_nonneg hr] at hlt hle
    rw [abs_of_nonneg h0] at hle
    constructor <;> split <;> omega
  · have hr := Int.tmod_nonneg y.toInt (neg_nonneg.mpr h0)
    rw [Int.neg_tmod, neg_nonneg] at hr
    rw [abs_of_nonpos hr] at hlt hle
    rw [abs_of_nonpos h0] at hle
    constructor <;> split <;> omega

theorem toInt_ne_zero (h : y ≠ 0) : y.toInt ≠ 0 := fun h' => h (Int64.toInt_inj.mp h')

-- The result of an operator on two values lies in its result on their intervals.
theorem mem_bin {op : BinOp} (h : bin? op i j = some r) (hx : x ∈ i) (hy : y ∈ j)
    (hv : Eval.intOp op x y = .ok v) : v ∈ r := by
  simp only [bin?, Option.bind_eq_bind, Option.bind_eq_some_iff, Option.pure_def,
    Option.some.injEq] at h
  obtain ⟨⟨a₀, a₁⟩, ha, ⟨b₀, b₁⟩, hb, ⟨lo, hi⟩, he, hr⟩ := h
  subst hr
  have hi : i = ofInts a₀ a₁ := eq_ofInts ha
  have hj : j = ofInts b₀ b₁ := eq_ofInts hb
  subst hi hj
  change v ∈ ofInts lo hi
  rw [mem_ofInts]
  obtain ⟨hx₀, hx₁⟩ := mem_ofInts.mp hx
  obtain ⟨hy₀, hy₁⟩ := mem_ofInts.mp hy
  cases op <;> simp only [ends?, reduceCtorEq, Option.bind_eq_bind, Option.bind_eq_some_iff,
    Option.pure_def, Option.some.injEq, Prod.mk.injEq, Checked.add_eq_some,
    Checked.sub_eq_some] at he
  case add =>
    have hv := Checked.add_eq_some.mp (overflowing_eq_ok.mp hv)
    obtain ⟨_, h₁, _, h₂, rfl, rfl⟩ := he
    omega
  case sub =>
    have hv := Checked.sub_eq_some.mp (overflowing_eq_ok.mp hv)
    obtain ⟨_, h₁, _, h₂, rfl, rfl⟩ := he
    omega
  case mul =>
    rw [Checked.mul_eq_some.mp (overflowing_eq_ok.mp hv)]
    exact mul_between he hx hy
  case idiv =>
    simp only [Eval.intOp] at hv
    split at hv
    · contradiction
    · next hy0 =>
      rw [(Checked.div_eq_some.mp (overflowing_eq_ok.mp hv)).2]
      exact div_between he hx hy (toInt_ne_zero hy0)
  case mod =>
    simp only [Eval.intOp] at hv
    split at hv
    · contradiction
    · next hy0 =>
      rw [(Checked.mod_eq_some (overflowing_eq_ok.mp hv)).2]
      exact mod_between he hx hy (toInt_ne_zero hy0)

end Arithmetic
end Interval
end Parvar
