import Mathlib
import Parvar.Coercion

/-!
What coercion does to types. Where an expression is turned into one of a wider type, the result is taken
as it is from then on, and every place that takes the result would have taken the expression too.
-/

namespace Parvar

theorem Base.sub_self (b : Base) : b.sub b := by
  cases b <;> rfl

theorem Base.sub_trans {a b c : Base} (h₁ : a.sub b) (h₂ : b.sub c) : a.sub c := by
  cases a <;> cases b <;> cases c <;> simp_all [Base.sub]

theorem Base.eq_top_of_sub {b : Base} (h : b.sub .top) : b = .top := by
  cases b <;> simp_all [Base.sub]

namespace Ty

-- The base is that of a value.
structure Concrete (t : Ty) : Prop where
  not_bot : t.base ≠ .bot
  known : t.base ≠ .unknown

-- A scalar, an array of one dimension, or an array of any number of dimensions.
def Flat (t : Ty) : Prop := t.dim = -1 ∨ t.dim = 0 ∨ t.dim = 1

-- An expression of type `a` is taken as it is where one of type `t` is expected.
def Meets (a t : Ty) : Prop :=
  a.dim = t.dim ∧ (t.base = .bot ∨ Model.baseAgrees a t) ∨ ¬(a.dim = 0 ∧ t.dim ≠ 0) ∧ Model.baseAgrees a t

-- The type of an expression of type `a` after its coercion to `t`.
inductive Becomes (a t : Ty) : Ty → Prop
  | same (h : a.Meets t) : Becomes a t a
  | listed (h : a.isSetTy) (hp : a.isPar) (ho : a.isOpt = false) (ht : t.dim ≠ 0) (hb : Model.baseAgrees a t) :
      Becomes a t ((a.withSet false).withDim 1)
  | widened (h : a.isPlain) (ht : t.dim = 0) (hb : a.base.sub t.base) (hne : a.base ≠ t.base) :
      Becomes a t (a.withBase t.base)

-- Only a set is made an array.
def Listable (a t : Ty) : Prop := a.dim = 0 → t.dim ≠ 0 → a.base = .bot → a.isSet

variable {a b t u : Ty}

theorem Concrete.listable (h : a.Concrete) (t : Ty) : a.Listable t := fun _ _ hb => absurd hb h.not_bot

-- A scalar can only stand for an array if it is a set.
theorem setAsArray_of_sub (h : a.sub t) (ha : a.dim = 0) (ht : t.dim ≠ 0) : setAsArray a t := by
  have hdim : dimFits a t = false := by simp [dimFits, ha, Ne.symm ht]
  simpa [Ty.sub, hdim] using h

theorem isSet_of_setAsArray (h : setAsArray a t) : a.isSet ∧ a.isPar := by
  simp only [setAsArray, Bool.and_eq_true] at h
  exact ⟨h.1.1.1.1.2, h.1.2⟩

theorem listable_of_sub (h : a.sub t) : a.Listable t :=
  fun ha ht _ => (isSet_of_setAsArray (setAsArray_of_sub h ha ht)).1

theorem elemSub_iff (ha : a.base ≠ .bot) (hu : u.base ≠ .bot) : elemSub a u ↔
    (a.isOpt → u.isOpt) ∧ (a.isPar ∨ u.isVar) ∧
      (a.base.sub u.base ∧ a.isSet = u.isSet ∨ u.base = .top ∧ (u.isSet → a.isSet)) := by
  have hinst : instFits a u = (a.isPar || u.isVar) := by
    unfold instFits isPar isVar
    cases a.inst <;> cases u.inst <;> rfl
  simp only [elemSub, optFits, hinst, ha, hu, decide_false, Bool.and_false, Bool.false_and, Bool.false_eq_true,
    if_false]
  rw [← Bool.or_eq_true a.isPar]
  generalize (a.isPar || u.isVar) = fits, a.base.sub u.base = wide, a.isOpt = o, u.isOpt = o', a.isSet = s, u.isSet = s'
  cases fits <;> cases wide <;> cases o <;> cases o' <;> cases s <;> cases s' <;> simp

-- Where no type is empty the rules come down to what may be absent, free, widened and how it is built.
theorem sub_iff (ha : a.base ≠ .bot) (hu : u.base ≠ .bot) : a.sub u ↔
    (a.isOpt → u.isOpt) ∧ (a.isPar ∨ u.isVar) ∧
      (a.isSetTy ∧ u.dim ≠ 0 ∧ ¬u.isSet ∧ a.isPar ∧ (a.base.sub u.base ∨ u.base = .top) ∨
        (a.dim = u.dim ∨ a.dim ≠ 0 ∧ u.dim = -1) ∧
          (a.base.sub u.base ∧ a.isSet = u.isSet ∨ u.base = .top ∧ (u.isSet → a.isSet))) := by
  rw [sub, Bool.or_eq_true, Bool.and_eq_true, elemSub_iff ha hu]
  simp only [setAsArray, dimFits, optFits, isSetTy, ha, decide_false, Bool.false_or, Bool.and_eq_true,
    Bool.or_eq_true, decide_eq_true_eq]
  grind

theorem baseAgrees_iff (ha : a.Concrete) : Model.baseAgrees a t ↔ t.base = .top ∨ a.base = t.base := by
  simp [Model.baseAgrees, ha.not_bot]

-- What a value widens to is a type of values.
theorem Concrete.mono (ha : a.Concrete) (h : a.base.sub t.base) : t.Concrete := by
  have ⟨hn, hk⟩ := ha
  generalize a.base = b at h hn hk
  constructor <;> intro ht <;> rw [ht] at h <;> cases b <;> simp_all [Base.sub]

-- The array of the elements of a set fits where the set does.
theorem sub_listed (ha : a.Concrete) (ht : t.base ≠ .bot) (hflat : t.Flat) (hdim : t.dim ≠ 0) (hset : a.isSetTy)
    (h : a.sub t) : ((a.withSet false).withDim 1).sub t := by
  have hb : ((a.withSet false).withDim 1).Concrete := ⟨ha.not_bot, ha.known⟩
  have hz : a.dim = 0 := by simp_all [isSetTy]
  rw [sub_iff ha.not_bot ht] at h
  rw [sub_iff hb.not_bot ht]
  obtain ⟨hopt, hinst, ⟨-, -, hs, -, hbase⟩ | ⟨hd, -⟩⟩ := h
  · have hf : ((a.withSet false).withDim 1).isSet = t.isSet := by simpa [withDim, withSet] using hs
    refine ⟨hopt, hinst, .inr ⟨?_, hbase.imp (⟨·, hf⟩) fun h => ⟨h, fun h => absurd h hs⟩⟩⟩
    rcases hflat with h | h | h
    · exact .inr ⟨by simp [withDim], h⟩
    · exact absurd h hdim
    · exact .inl h.symm
  · omega

theorem sub_widened (ha : a.Concrete) (ht : t.base ≠ .bot) (hp : a.isPlain) (hb : (a.withBase t.base).Concrete)
    (h : a.sub t) : (a.withBase t.base).sub t := by
  rw [sub_iff ha.not_bot ht] at h
  rw [sub_iff hb.not_bot ht]
  obtain ⟨hopt, hinst, ⟨hs, -⟩ | ⟨hd, hbase⟩⟩ := h
  · simp_all [isPlain, isSetTy]
  · exact ⟨hopt, hinst, .inr ⟨hd, hbase.imp_left fun h => ⟨Base.sub_self _, h.2⟩⟩⟩

namespace Becomes

theorem marks (h : a.Becomes t b) : b.inst = a.inst ∧ b.isOpt = a.isOpt ∧ b.cv = a.cv := by
  cases h <;> exact ⟨rfl, rfl, rfl⟩

-- What was turned once is not turned again.
theorem meets (h : a.Becomes t b) : b.Meets t := by
  cases h with
  | same h => exact h
  | listed _ _ _ _ hb => exact .inr ⟨fun h => Int.one_ne_zero h.1, hb⟩
  | widened h ht _ _ =>
    have hdim : a.dim = 0 := by simp_all [isPlain]
    exact .inl ⟨hdim.trans ht.symm, .inr (by simp [Model.baseAgrees, withBase])⟩

theorem concrete (ha : a.Concrete) (h : a.Becomes t b) : b.Concrete := by
  cases h with
  | same | listed => exact ⟨ha.not_bot, ha.known⟩
  | widened _ _ hb _ => exact ha.mono hb

-- No overload comes into play that was out of it before.
theorem sub_of_sub (ha : a.Concrete) (h : a.Becomes t b) (hu : u.base ≠ .bot) (hb : b.sub u) : a.sub u := by
  rw [sub_iff (h.concrete ha).not_bot hu] at hb
  rw [sub_iff ha.not_bot hu]
  cases h with
  | same => exact hb
  | listed hs hp ho _ _ =>
    obtain ⟨-, -, ⟨hs', -⟩ | ⟨hdim, hbase⟩⟩ := hb
    · cases hs'
    · have hdim : u.dim ≠ 0 := by
        intro h
        simp [h, withDim] at hdim
      refine ⟨by simp [ho], .inl hp, .inl ⟨hs, hdim, ?_, hp, hbase.imp And.left And.left⟩⟩
      rcases hbase with ⟨-, h⟩ | ⟨-, h⟩
      · simpa [withDim, withSet] using h.symm
      · simpa [withDim, withSet] using h
  | widened h _ hsub _ =>
    have hset : ¬a.isSetTy := by simp_all [isPlain, isSetTy]
    refine hb.imp_right (And.imp_right (Or.imp (fun h => absurd h.1 hset) (And.imp_right (Or.imp_left ?_))))
    exact And.imp_left (Base.sub_trans hsub)

-- A value that fits its declared type still does.
theorem sub (ha : a.Concrete) (ht : t.base ≠ .bot) (hflat : t.Flat) (hs : a.sub t) (h : a.Becomes t b) : b.sub t := by
  cases h with
  | same => exact hs
  | listed hset _ _ hdim _ => exact sub_listed ha ht hflat hdim hset hs
  | widened hp _ hsub _ => exact sub_widened ha ht hp (ha.mono hsub) hs

-- Where no array is made of a set, only the base changes.
theorem eq_withBase (ha : a.Concrete) (h : a.Becomes t b) (hdim : a.dim = 0 → t.dim = 0) (ht : t.base ≠ .bot)
    (hsub : a.base.sub t.base) : b = a.withBase t.base := by
  cases h with
  | widened => rfl
  | listed h _ _ hd => exact absurd (hdim (by simp_all [isSetTy])) hd
  | same h =>
    have hagree : t.base = .top ∨ a.base = t.base := by
      rw [← baseAgrees_iff ha]
      exact h.elim (fun h => h.2.resolve_left ht) And.right
    have hbase : a.base = t.base := by
      refine hagree.elim (fun h => ?_) id
      rw [h] at hsub ⊢
      exact Base.eq_top_of_sub hsub
    rw [← hbase]
    rfl

end Becomes

section Parameters

-- What an argument of type `a` is turned into for a parameter of type `t`.
def target (generic : Bool) (t a : Ty) : Ty :=
  let dim := if t.dim = -1 then a.dim else t.dim
  if generic || t.base = .top then (a.withSet t.isSet).withDim dim else t.withDim dim

variable {generic : Bool}

theorem dim_target : (target generic t a).dim = if t.dim = -1 then a.dim else t.dim := by
  simp only [target]
  split <;> rfl

theorem base_target : (target generic t a).base = if generic || t.base = .top then a.base else t.base := by
  simp only [target]
  split <;> rfl

-- An argument that a parameter takes is not made an array unless it is a set.
theorem listable_target (h : a.sub t) : a.Listable (target generic t a) := by
  intro hz hdim
  rw [dim_target] at hdim
  split at hdim
  · exact absurd hz hdim
  · exact listable_of_sub h hz hdim

-- The base of an argument is that of the parameter, or may be any.
theorem baseAgrees_target (ha : a.Concrete) :
    Model.baseAgrees a (target generic t a) ↔ generic ∨ t.base = .top ∨ a.base = t.base := by
  rw [baseAgrees_iff ha, base_target]
  by_cases h : generic || t.base = .top
  · simp only [if_pos h, or_true, true_iff]
    simp only [Bool.or_eq_true, decide_eq_true_eq] at h
    exact h.imp_right .inl
  · simp only [if_neg h]
    simp only [Bool.or_eq_true, decide_eq_true_eq, not_or] at h
    simp [h]

theorem meets_target (hdim : t.dim = -1 ∨ a.dim = t.dim) (hb : generic ∨ t.base = .top ∨ a.base = t.base) :
    a.Meets (target generic t a) := by
  have hbase : a.base = (target generic t a).base := by
    rw [base_target]
    split
    · rfl
    · next h =>
      simp only [Bool.or_eq_true, decide_eq_true_eq, not_or] at h
      exact (hb.resolve_left h.1).resolve_left h.2
  refine .inl ⟨?_, .inr (by simp [Model.baseAgrees, hbase])⟩
  rw [dim_target]
  split
  · rfl
  · next h => exact hdim.resolve_left h

-- An argument that a parameter takes is still taken when it has been turned, and then as it is.
theorem Becomes.argument (ha : a.Concrete) (ht : t.base ≠ .bot) (hflat : t.Flat) (hs : a.sub t)
    (h : a.Becomes (target generic t a) b) : b.sub t ∧ b.Meets (target generic t b) := by
  have hb := h.concrete ha
  cases h with
  | same h => exact ⟨hs, h⟩
  | listed hset _ _ hdim hbase =>
    have hz : a.dim = 0 := by simp_all [isSetTy]
    have hone : t.dim = 1 := by
      rw [dim_target] at hdim
      rcases hflat with h | h | h
      · simp [h, hz] at hdim
      · simp [h] at hdim
      · exact h
    refine ⟨sub_listed ha ht hflat (by omega) hset hs, meets_target (.inr hone.symm) ?_⟩
    exact (baseAgrees_target ha).mp hbase
  | widened hp hdim hsub hne =>
    have hbase : (target generic t a).base = t.base := by
      rw [base_target] at hne ⊢
      split at hne
      · exact absurd rfl hne
      · next h => rw [if_neg h]
    rw [hbase] at hb ⊢
    refine ⟨sub_widened ha ht hp hb hs, meets_target ?_ (.inr (.inr rfl))⟩
    have hz : a.dim = 0 := by simp_all [isPlain]
    rw [dim_target] at hdim
    split at hdim
    · next h => exact .inl h
    · exact .inr (hz.trans hdim.symm)

end Parameters

end Ty
end Parvar
