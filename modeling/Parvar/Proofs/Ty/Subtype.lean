import Parvar.Proofs.Typing.Specific

/-!
Subtypes form an order, as long as no base is `bot`: every type stands for itself, standing for another type
is transitive, and two types that stand for each other differ in the mark for contained variables at most.
The base `bot` takes every fixed value and goes into every base, so it would lead from any type to any other.
-/

namespace Parvar

section Bases

variable {a b c : Base}

theorem Base.eq_top_of_top_sub (h : top.sub c) : c = .top := by
  cases c <;> simp_all [Base.sub]

theorem Base.sub_antisymm (h : b.sub c) (h' : c.sub b) : b = c := by
  cases b <;> cases c <;> simp_all [Base.sub]

-- Widening goes on after widening, and nothing but `top` comes after `top`.
theorem Base.sub_or_top_trans (h : a.sub b ∨ b = .top) (h' : b.sub c ∨ c = .top) : a.sub c ∨ c = .top := by
  rcases h' with h' | h'
  · rcases h with h | rfl
    · exact .inl (Base.sub_trans h h')
    · exact .inr (Base.eq_top_of_top_sub h')
  · exact .inr h'

end Bases

namespace Ty

variable {t u v : Ty}

-- The elements of arrays, and single values, fit: their bases widen, and only `top` stands for sets and others alike.
def ElemFits (t u : Ty) : Prop := t.base.sub u.base ∧ t.isSet = u.isSet ∨ u.base = .top ∧ (u.isSet → t.isSet)

theorem ElemFits.base (h : t.ElemFits u) : t.base.sub u.base ∨ u.base = .top := h.imp And.left And.left

theorem ElemFits.isSet (h : t.ElemFits u) : u.isSet → t.isSet := by
  rcases h with ⟨-, h⟩ | ⟨-, h⟩
  · exact fun hu => h ▸ hu
  · exact h

theorem ElemFits.trans (h₁ : t.ElemFits u) (h₂ : u.ElemFits v) : t.ElemFits v := by
  rcases Base.sub_or_top_trans h₁.base h₂.base with hb | hb
  · by_cases htop : v.base = .top
    · exact .inr ⟨htop, fun hv => h₁.isSet (h₂.isSet hv)⟩
    · -- Below a base other than `top` there is no `top`, so neither step can have changed what is a set.
      obtain ⟨hb₂, hs₂⟩ := h₂.resolve_right fun h => htop h.1
      obtain ⟨-, hs₁⟩ := h₁.resolve_right fun h => htop (Base.eq_top_of_top_sub (h.1 ▸ hb₂))
      exact .inl ⟨hb, hs₁.trans hs₂⟩
  · exact .inr ⟨hb, fun hv => h₁.isSet (h₂.isSet hv)⟩

-- Arrays keep their rank or go where any rank does.
def RankFits (t u : Ty) : Prop := t.dim = u.dim ∨ t.dim ≠ 0 ∧ u.dim = -1

theorem RankFits.trans (h₁ : t.RankFits u) (h₂ : u.RankFits v) : t.RankFits v := by
  unfold RankFits at *
  omega

theorem RankFits.antisymm (h₁ : t.RankFits u) (h₂ : u.RankFits t) : t.dim = u.dim := by
  unfold RankFits at *
  omega

-- A fixed set as an array of its elements.
structure ListFits (t u : Ty) : Prop where
  set : t.isSetTy
  fixed : t.isPar
  array : u.dim ≠ 0
  plain : ¬u.isSet
  base : t.base.sub u.base ∨ u.base = .top

theorem ListFits.dim_eq (h : t.ListFits u) : t.dim = 0 := by
  have h := h.set
  simp_all [isSetTy]

-- A type stands for another one if it does so in each respect.
theorem sub_iff_fits (ht : t.base ≠ .bot) (hu : u.base ≠ .bot) : t.sub u ↔
    (t.isOpt → u.isOpt) ∧ (t.isPar ∨ u.isVar) ∧ (t.ListFits u ∨ t.RankFits u ∧ t.ElemFits u) := by
  rw [sub_iff ht hu]
  refine and_congr_right fun _ => and_congr_right fun _ => or_congr ⟨?_, ?_⟩ Iff.rfl
  · rintro ⟨hset, harray, hplain, hpar, hbase⟩
    exact ⟨hset, hpar, harray, hplain, hbase⟩
  · rintro ⟨hset, hpar, harray, hplain, hbase⟩
    exact ⟨hset, harray, hplain, hpar, hbase⟩

theorem not_isPar_of_isVar (h : t.isVar) : ¬t.isPar := by
  simp_all [isVar, isPar]

theorem inst_eq_of_isPar (h : t.isPar) (h' : u.isPar) : t.inst = u.inst := by
  simp_all [isPar]

theorem inst_eq_of_isVar (h : t.isVar) (h' : u.isVar) : t.inst = u.inst := by
  simp_all [isVar]

-- Before and after a set is taken as an array only the elements can widen.
theorem ListFits.trans (h₁ : t.ListFits u) (h₂ : u.RankFits v) (h₃ : u.ElemFits v) : t.ListFits v where
  set := h₁.set
  fixed := h₁.fixed
  array := by
    have harray := h₁.array
    unfold RankFits at h₂
    omega
  plain hv := h₁.plain (h₃.isSet hv)
  base := Base.sub_or_top_trans h₁.base h₃.base

theorem ListFits.of_elems (h₁ : t.RankFits u) (h₂ : t.ElemFits u) (hp : t.isPar ∨ u.isVar) (h₃ : u.ListFits v) :
    t.ListFits v where
  set := by
    have hdim := h₃.dim_eq
    have hset : u.isSet := by
      have h := h₃.set
      simp_all [isSetTy]
    have hz : t.dim = 0 := by
      unfold RankFits at h₁
      omega
    simp [isSetTy, hz, h₂.isSet hset]
  fixed := hp.resolve_right fun hv => not_isPar_of_isVar hv h₃.fixed
  array := h₃.array
  plain := h₃.plain
  base := Base.sub_or_top_trans h₂.base h₃.base

theorem sub_self (t : Ty) : t.sub t := Alike.sub ⟨rfl, rfl, rfl, rfl, rfl⟩

theorem sub_trans (ht : t.base ≠ .bot) (hu : u.base ≠ .bot) (hv : v.base ≠ .bot) (h₁ : t.sub u) (h₂ : u.sub v) :
    t.sub v := by
  rw [sub_iff_fits ht hu] at h₁
  rw [sub_iff_fits hu hv] at h₂
  rw [sub_iff_fits ht hv]
  obtain ⟨hopt₁, hinst₁, hfits₁⟩ := h₁
  obtain ⟨hopt₂, hinst₂, hfits₂⟩ := h₂
  refine ⟨fun h => hopt₂ (hopt₁ h), ?_, ?_⟩
  · rcases hinst₁ with h | h
    · exact .inl h
    · exact .inr (hinst₂.resolve_left (not_isPar_of_isVar h))
  · rcases hfits₁ with hlist₁ | ⟨hrank₁, helem₁⟩
    · rcases hfits₂ with hlist₂ | ⟨hrank₂, helem₂⟩
      · exact absurd hlist₂.dim_eq hlist₁.array
      · exact .inl (hlist₁.trans hrank₂ helem₂)
    · rcases hfits₂ with hlist₂ | ⟨hrank₂, helem₂⟩
      · exact .inl (.of_elems hrank₁ helem₁ hinst₁ hlist₂)
      · exact .inr ⟨hrank₁.trans hrank₂, helem₁.trans helem₂⟩

-- A set is not taken as an array on a way that leads back.
theorem fits_of_sub_of_sub (ht : t.base ≠ .bot) (hu : u.base ≠ .bot) (h₁ : t.sub u) (h₂ : u.sub t) :
    t.RankFits u ∧ t.ElemFits u := by
  obtain ⟨-, -, hfits₁⟩ := (sub_iff_fits ht hu).mp h₁
  obtain ⟨-, -, hfits₂⟩ := (sub_iff_fits hu ht).mp h₂
  refine hfits₁.resolve_left fun hlist => ?_
  rcases hfits₂ with h | ⟨hrank, -⟩
  · exact hlist.array h.dim_eq
  · have hz := hlist.dim_eq
    have harray := hlist.array
    unfold RankFits at hrank
    omega

theorem sub_antisymm (ht : t.base ≠ .bot) (hu : u.base ≠ .bot) (h₁ : t.sub u) (h₂ : u.sub t) : t.Alike u := by
  obtain ⟨hopt₁, hinst₁, -⟩ := (sub_iff_fits ht hu).mp h₁
  obtain ⟨hopt₂, hinst₂, -⟩ := (sub_iff_fits hu ht).mp h₂
  obtain ⟨hrank₁, helem₁⟩ := fits_of_sub_of_sub ht hu h₁ h₂
  obtain ⟨hrank₂, helem₂⟩ := fits_of_sub_of_sub hu ht h₂ h₁
  constructor
  case inst =>
    rcases hinst₁ with hp | hv
    · exact inst_eq_of_isPar hp (hinst₂.resolve_right fun hv => not_isPar_of_isVar hv hp)
    · exact inst_eq_of_isVar (hinst₂.resolve_left (not_isPar_of_isVar hv)) hv
  case base =>
    rcases helem₁.base with hb₁ | hb₁ <;> rcases helem₂.base with hb₂ | hb₂
    · exact Base.sub_antisymm hb₁ hb₂
    · exact hb₂.trans (Base.eq_top_of_top_sub (hb₂ ▸ hb₁)).symm
    · exact (Base.eq_top_of_top_sub (hb₁ ▸ hb₂)).trans hb₁.symm
    · exact hb₂.trans hb₁.symm
  case isSet => exact Bool.eq_iff_iff.mpr ⟨helem₂.isSet, helem₁.isSet⟩
  case isOpt => exact Bool.eq_iff_iff.mpr ⟨hopt₁, hopt₂⟩
  case dim => exact hrank₁.antisymm hrank₂

-- On the types whose base is not `bot`, whatever their rank, being a subtype is reflexive and transitive, and two types
-- are subtypes of each other if and only if they agree in all but the mark for contained variables.
theorem sub_partial_order :
    (∀ t : Ty, t.base ≠ .bot → t.sub t) ∧
    (∀ t u v : Ty, t.base ≠ .bot → u.base ≠ .bot → v.base ≠ .bot → t.sub u → u.sub v → t.sub v) ∧
    ∀ t u : Ty, t.base ≠ .bot → u.base ≠ .bot → (t.sub u ∧ u.sub t ↔ t.Alike u) := by
  refine ⟨fun t _ => t.sub_self, fun t u v => sub_trans, fun t u ht hu => ⟨fun h => sub_antisymm ht hu h.1 h.2, ?_⟩⟩
  exact fun h => ⟨Alike.sub ⟨h.inst.symm, h.base.symm, h.isSet.symm, h.isOpt.symm, h.dim.symm⟩, h.sub⟩

-- A set of truth values, an array of numbers, and an array of anything of any rank.
theorem sub_partial_order_chain :
    parSetBool.sub (parFloat.withDim 1) ∧ (parFloat.withDim 1).sub (optVarTop.withDim (-1)) ∧
      parSetBool.sub (optVarTop.withDim (-1)) ∧ parSetBool.sub parSetBool ∧
      (parInt.withCv true).Alike parInt := by
  obtain ⟨hself, htrans, halike⟩ := sub_partial_order
  have h₁ : parSetBool.sub (parFloat.withDim 1) := by decide
  have h₂ : (parFloat.withDim 1).sub (optVarTop.withDim (-1)) := by decide
  refine ⟨h₁, h₂, htrans _ _ _ (by decide) (by decide) (by decide) h₁ h₂, hself _ (by decide), ?_⟩
  exact (halike _ _ (by decide) (by decide)).mp ⟨by decide, by decide⟩

-- The base `bot` is where both laws end.
example : parInt.sub bot ∧ bot.sub parInt ∧ bot.sub parString ∧ ¬parInt.sub parString := by decide

end Ty
end Parvar
