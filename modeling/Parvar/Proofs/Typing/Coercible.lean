import Parvar.Proofs.Typing.Settled

/-!
Which types coercion leads to which. Wherever a value of one type may stand for one of another, a coercion is
asked for. It widens single numbers and makes arrays of one dimension of present sets, and this is all that it
does: numbers in an array or a set, or behind an option, are not widened.
-/

namespace Parvar

open Model Library

theorem Library.widening_of_ne {b c : Base} (h : b.sub c) (hne : b ≠ c) : ∃ name, widening? b c = some name := by
  cases b <;> cases c <;> simp_all [Base.sub, widening?]

namespace Ty

-- How a type has to relate to a wider one for a coercion between them.
structure Coercible (a t : Ty) : Prop where
  listed : a.dim = 0 → t.dim ≠ 0 → a.isOpt = false ∧ t.Flat ∧ baseAgrees a t
  widened : (a.dim = 0 → t.dim = 0) → t.base ≠ .bot → ¬baseAgrees a t → a.isPlain
  empty : t.base = .bot → a.dim = t.dim ∨ a.base = .bot

-- What the type of a coerced expression has to be like, where it was `a` before.
structure Reaches (a t b : Ty) : Prop where
  sub : b.sub t
  array : t.dim ≠ 0 → b.dim ≠ 0
  base : t.base ≠ .top → t.base ≠ .bot → a.base ≠ .bot → b.base = t.base

variable {a b t : Ty}

theorem base_eq_of_agrees (h : baseAgrees a t) (ht : t.base ≠ .top) (ha : a.base ≠ .bot) : a.base = t.base := by
  simpa [baseAgrees, ht, ha] using h

-- A number that does not have the base to be had is to be widened.
theorem widening_of_sub (h : a.sub t) (hdim : ¬(a.dim = 0 ∧ t.dim ≠ 0)) (hb : ¬baseAgrees a t) (ht : t.base ≠ .bot) :
    ∃ name, widening? a.base t.base = some name := by
  simp only [baseAgrees, Bool.or_eq_true, decide_eq_true_eq, not_or] at hb
  have hset : setAsArray a t = false := by
    simp only [setAsArray]
    grind
  have hsub : a.base.sub t.base := by
    simp only [Ty.sub, hset, elemSub] at h
    grind
  exact widening_of_ne hsub hb.1.2

theorem Meets.coercible (h : a.Meets t) : a.Coercible t where
  listed ha ht := by
    rcases h with ⟨hd, -⟩ | ⟨hd, -⟩
    · exact absurd (hd.symm.trans ha) ht
    · exact absurd ⟨ha, ht⟩ hd
  widened _ ht hn := by
    rcases h with ⟨-, hb⟩ | ⟨-, hb⟩
    · exact absurd (hb.resolve_left ht) hn
    · exact absurd hb hn
  empty ht := by
    rcases h with ⟨hd, -⟩ | ⟨-, hb⟩
    · exact .inl hd
    · exact .inr (by simpa [baseAgrees, ht] using hb)

theorem Meets.reaches (h : a.Meets t) (hs : a.sub t) : a.Reaches t a where
  sub := hs
  array ht ha := by
    rcases h with ⟨hd, -⟩ | ⟨hd, -⟩
    · exact ht (hd.symm.trans ha)
    · exact hd ⟨ha, ht⟩
  base htop hbot ha := by
    rcases h with ⟨-, hb⟩ | ⟨-, hb⟩
    · exact base_eq_of_agrees (hb.resolve_left hbot) htop ha
    · exact base_eq_of_agrees hb htop ha

theorem Becomes.coercible (h : a.Becomes t b) (hs : b.sub t) : a.Coercible t := by
  cases h with
  | same h => exact h.coercible
  | listed hset _ hopt ht hb =>
    have ha : a.dim = 0 := by simp_all [isSetTy]
    refine ⟨fun _ _ => ⟨hopt, ?_, hb⟩, fun hd => absurd (hd ha) ht, fun ht => .inr ?_⟩
    · have hdim : dimFits ((a.withSet false).withDim 1) t := by
        simp only [Ty.sub, setAsArray, withDim, withSet, Bool.false_and, Bool.and_false, Bool.false_or,
          Bool.and_eq_true] at hs
        exact hs.1
      simp only [dimFits, Bool.or_eq_true, Bool.and_eq_true, decide_eq_true_eq] at hdim
      exact hdim.elim (fun h => .inr (.inr h.symm)) fun h => .inl h.2
    · simpa [baseAgrees, ht] using hb
  | widened hp ht hb hne =>
    refine ⟨fun _ h => absurd ht h, fun _ _ _ => hp, fun htbot => absurd ?_ hne⟩
    rw [htbot] at hb ⊢
    revert hb
    cases a.base <;> decide

theorem reaches_listed (hs : setAsArray a t) (hflat : t.Flat) (ht : t.dim ≠ 0) (hb : baseAgrees a t) :
    a.Reaches t ((a.withSet false).withDim 1) where
  sub := by
    have hdim : t.dim = 1 ∨ t.dim = -1 := by
      rcases hflat with h | h | h
      · exact .inr h
      · exact absurd h ht
      · exact .inl h
    obtain ⟨inst, base, isSet, isOpt, cv, dim, hcv⟩ := a
    simp only [setAsArray, Ty.sub, dimFits, elemSub, instFits, optFits, isPar, isVar, withDim, withSet] at hs ⊢
    grind
  array _ := Int.one_ne_zero
  base htop _ ha := base_eq_of_agrees hb htop ha

theorem reaches_widened {name : String} (hs : a.sub t) (hp : a.isPlain) (hw : widening? a.base t.base = some name) :
    a.Reaches t (a.withBase t.base) := by
  have ha : a.Concrete := by
    constructor <;> intro h <;> rw [h] at hw <;> cases hb : t.base <;> rw [hb] at hw <;> cases hw
  have ht : t.Concrete := ha.mono (sub_of_widening hw).1
  refine ⟨sub_widened ha ht.not_bot hp ⟨ht.not_bot, ht.known⟩ hs, fun hdim hz => ?_, fun _ _ _ => rfl⟩
  have hset := setAsArray_of_sub hs hz hdim
  simp_all [setAsArray, isPlain]

end Ty

section Coercion

variable {m : Model} {a : ExprId} {t : Ty} {name : String}

-- Some overload is found for arguments that a function of the name accepts.
theorem Model.Overload.exists_match {f : FuncId} {args : List Ty} (h : m.Overload name f) (hacc : m.accepts f args) :
    ∃ g, m.matchOverload? name args = some g := by
  obtain ⟨fs, hfs, hf⟩ := h
  have hfind : (fs.find? (m.accepts · args)).isSome := List.find?_isSome.mpr ⟨f, hf, hacc⟩
  obtain ⟨g, hg⟩ := Option.isSome_iff_exists.mp hfind
  exact ⟨g, by rw [matchOverload?, hfs]; exact hg⟩

theorem Model.Promotes.exists_match (hm : m.Promotes) {s : Signature} (hs : s ∈ signatures) (hn : s.name ∈ coercions)
    {args : List Ty} (hacc : s.accepts args) :
    ∃ f s', m.matchOverload? s.name args = some f ∧ m.Declares f s' ∧ Chosen s.name args s' := by
  obtain ⟨g, hover, hg⟩ := hm.declared s hs hn
  obtain ⟨f, hf⟩ := hover.exists_match (accepts_eq hg.params ▸ hacc)
  obtain ⟨s', hd, hc⟩ := hm.chosen hn hf
  exact ⟨f, s', hf, hd, hc⟩

theorem Model.wrap_ok {f : FuncId} {u : Ty} (hf : m.matchOverload? name [m.ty a] = some f)
    (hr : m.returnTy f [m.ty a] (m.spanOf a) = .ok u) : ∃ r, m.wrap name a = .ok r := by
  simp only [Model.ty, spanOf] at hf hr
  simp only [wrap, hf, hr]
  exact ⟨_, rfl⟩

theorem Model.Promotes.wrap_listing (hm : m.Promotes) (ha : (m.ty a).sub (Ty.top.withSet true)) :
    ∃ r, m.wrap "set2array" a = .ok r := by
  have hmem : listing ∈ signatures.filter (·.name = "set2array") := by simp [filter_listing]
  have hacc : listing.accepts [m.ty a] := by simpa [Signature.accepts, listing] using ha
  obtain ⟨f, s, hf, hd, hs⟩ := hm.exists_match (List.mem_filter.mp hmem).1 (by decide) hacc
  obtain ⟨rfl, -⟩ := chosen_listing hs
  exact wrap_ok hf hd.returnTy_listing

theorem Model.Promotes.wrap_widening {c : Base} (hm : m.Promotes) (hw : widening? (m.ty a).base c = some name)
    (ha : (m.ty a).isPlain) : ∃ r, m.wrap name a = .ok r := by
  let s : Signature := ⟨name, [scalar (m.ty a).inst (m.ty a).base], scalar (m.ty a).inst c⟩
  have hs : s ∈ signatures := by
    have hmem : s ∈ signatures.filter (·.name = name) := by
      rw [filter_widening hw]
      simp only [s]
      cases (m.ty a).inst <;> simp
    exact (List.mem_filter.mp hmem).1
  have hacc : s.accepts [m.ty a] := by
    have hsub : (m.ty a).sub (scalar (m.ty a).inst (m.ty a).base) := by
      rw [sub_scalar_iff hw rfl]
      simp only [Ty.isPlain, Bool.and_eq_true, Bool.not_eq_true', decide_eq_true_eq] at ha
      refine ⟨ha.2, ?_, ha.1⟩
      cases hi : (m.ty a).inst
      · exact .inl (by simp [Ty.isPar, hi])
      · exact .inr rfl
    simpa [Signature.accepts, s] using hsub
  obtain ⟨f, s', hf, hd, hs'⟩ := hm.exists_match hs (coercions_of_widening hw) hacc
  exact wrap_ok hf (hd.returnTy_scalar (chosen_widening hw rfl hs').2.1 (widening_ne_top hw))

theorem Model.ty_of_wrap {b : Ty} {f : FuncId} {a' : ExprId} {m' : Model}
    (h : m.addExpr (m.callOn name f a b) = (a', m')) : m'.ty a' = b := by
  have hnew := expr_addExpr_new m (m.callOn name f a b)
  rw [h] at hnew
  rw [Model.ty, hnew, callOn]

-- A coercion that leaves nothing as it is, in its two steps.
theorem Model.coerce_eq (h : ¬(m.ty a).Meets t) :
    m.coerce a t = m.asArray a t >>= fun r => r.2.widen r.1 t (m.spanOf a) := by
  refine if_neg fun hc => h (.inl ?_)
  simp only [Bool.and_eq_true, Bool.or_eq_true, decide_eq_true_eq] at hc
  exact hc

theorem Model.asArray_of_isPar (hdim : (m.ty a).dim = 0 ∧ t.dim ≠ 0) (hp : (m.ty a).isPar) :
    m.asArray a t = m.wrap "set2array" a := by
  have hvar : ¬(m.ty a).isVar := by
    simp only [Ty.isPar, decide_eq_true_eq] at hp
    simp [Ty.isVar, hp]
  refine (if_pos ?_).trans (if_neg hvar)
  simp only [Bool.and_eq_true, decide_eq_true_eq]
  exact hdim

theorem Model.asArray_self (hdim : ¬((m.ty a).dim = 0 ∧ t.dim ≠ 0)) : m.asArray a t = .ok (a, m) := by
  refine if_neg fun h => hdim ?_
  simp only [Bool.and_eq_true, decide_eq_true_eq] at h
  exact h

theorem Model.widen_self {span : Span} (h : baseAgrees (m.ty a) t) : m.widen a t span = .ok (a, m) := if_pos h

theorem Model.widen_eq {span : Span} (h : ¬baseAgrees (m.ty a) t) (hw : widening? (m.ty a).base t.base = some name) :
    m.widen a t span = m.wrap name a := by
  simp only [widen, if_neg h, hw]

-- A coercion that has a way to go is made.
theorem Model.Promotes.exists_coerce (hm : m.Promotes) (hs : (m.ty a).sub t) (h : (m.ty a).Coercible t) :
    ∃ r, m.coerce a t = .ok r := by
  by_cases hmeets : (m.ty a).Meets t
  · exact ⟨_, coerce_self hmeets⟩
  · rw [coerce_eq hmeets]
    by_cases hdim : (m.ty a).dim = 0 ∧ t.dim ≠ 0
    · obtain ⟨hopt, -, hb⟩ := h.listed hdim.1 hdim.2
      obtain ⟨hset, hpar⟩ := Ty.isSet_of_setAsArray (Ty.setAsArray_of_sub hs hdim.1 hdim.2)
      obtain ⟨⟨a₁, m₁⟩, hr⟩ := hm.wrap_listing (sub_set_iff.mpr ⟨hdim.1, hpar, hopt, .inl hset⟩)
      obtain ⟨f, -, -, hadd⟩ := Model.wrap_listing hm hr
      refine ⟨(a₁, m₁), ?_⟩
      rw [asArray_of_isPar hdim hpar, hr]
      exact widen_self (by rw [ty_of_wrap hadd]; exact hb)
    · have hagrees : ¬baseAgrees (m.ty a) t := fun hb => hmeets (.inr ⟨hdim, hb⟩)
      have hbot : t.base ≠ .bot := by
        intro hbot
        rcases h.empty hbot with hd | hb
        · exact hmeets (.inl ⟨hd, .inl hbot⟩)
        · exact hagrees (by simp [baseAgrees, hb])
      obtain ⟨name, hw⟩ := Ty.widening_of_sub hs hdim hagrees hbot
      obtain ⟨r, hr⟩ := hm.wrap_widening hw (h.widened (fun hz => not_not.mp fun ht => hdim ⟨hz, ht⟩) hbot hagrees)
      exact ⟨r, by rw [asArray_self hdim]; exact (widen_eq hagrees hw).trans hr⟩

theorem Model.Promotes.coerce_becomes_of_sub {a' : ExprId} {m' : Model} (hm : m.Promotes) (hs : (m.ty a).sub t)
    (hc : m.coerce a t = .ok (a', m')) : (a' = a ∧ m' = m ∧ (m.ty a).Meets t) ∨
      ∃ name f b, ¬(m.ty a).Meets t ∧ (m.ty a).Becomes t b ∧ m.Applies name [a] (m.spanOf a) f b ∧
        m.addExpr (m.callOn name f a b) = (a', m') :=
  coerce_becomes hm (Ty.listable_of_sub hs) hc

-- What a coercion is asked for and what it gives.
theorem Model.Promotes.reaches_of_coerce {a' : ExprId} {m' : Model} (hm : m.Promotes) (hs : (m.ty a).sub t)
    (h : (m.ty a).Coercible t) (hc : m.coerce a t = .ok (a', m')) : (m.ty a).Reaches t (m'.ty a') := by
  obtain ⟨rfl, rfl, hmeets⟩ | ⟨name, f, b, -, hb, -, hadd⟩ := hm.coerce_becomes_of_sub hs hc
  · exact hmeets.reaches hs
  · rw [ty_of_wrap hadd]
    cases hb with
    | same hmeets => exact hmeets.reaches hs
    | listed hset _ _ ht hb =>
      have hz : (m.ty a).dim = 0 := by simp_all [Ty.isSetTy]
      exact Ty.reaches_listed (Ty.setAsArray_of_sub hs hz ht) (h.listed hz ht).2.1 ht hb
    | widened hp _ hb hne =>
      obtain ⟨name, hw⟩ := widening_of_ne hb hne
      exact Ty.reaches_widened hs hp hw

theorem Model.Promotes.coercible_of_coerce {a' : ExprId} {m' : Model} (hm : m.Promotes) (hs : (m.ty a).sub t)
    (hc : m.coerce a t = .ok (a', m')) (hr : (m'.ty a').sub t) : (m.ty a).Coercible t := by
  obtain ⟨rfl, rfl, hmeets⟩ | ⟨name, f, b, -, hb, -, hadd⟩ := hm.coerce_becomes_of_sub hs hc
  · exact hmeets.coercible
  · exact hb.coercible (ty_of_wrap hadd ▸ hr)

-- Where one type may stand for another, a coercion leads from the one to the other if and only if it has a way to
-- go that it knows.
theorem coerce_reaches_iff (hm : m.Promotes) (hs : (m.ty a).sub t) :
    (∃ a' m', m.coerce a t = .ok (a', m') ∧ (m.ty a).Reaches t (m'.ty a')) ↔ (m.ty a).Coercible t := by
  refine ⟨?_, fun h => ?_⟩
  · rintro ⟨a', m', hc, hr⟩
    exact hm.coercible_of_coerce hs hc hr.sub
  · obtain ⟨⟨a', m'⟩, hc⟩ := hm.exists_coerce hs h
    exact ⟨a', m', hc, hm.reaches_of_coerce hs h hc⟩

end Coercion

section Samples

-- The library, and an expression of some type.
def valueModel (t : Ty) : Model := ({ exprs := #[{ kind := .int 1, ty := t }] } : Model).withLibrary.sortOverloads

theorem promotes_valueModel (t : Ty) : (valueModel t).Promotes := by
  refine promotes_withLibrary fun name _ => ?_
  rfl

theorem Model.ty_sortOverloads (m : Model) (e : ExprId) : m.sortOverloads.ty e = m.ty e := rfl

theorem ty_valueModel (t : Ty) : (valueModel t).ty ⟨0⟩ = t := by
  have hext := (Stocked.withLibrary { exprs := #[{ kind := .int 1, ty := t }] }).toExtends
  rw [valueModel, ty_sortOverloads, ty, hext.expr_eq (e := ⟨0⟩) Nat.zero_lt_one]
  rfl

-- A fixed set of numbers, where an array of any rank and any elements that may be absent is expected.
theorem coerce_reaches_any : ∃ a' m', (valueModel .parSetInt).coerce ⟨0⟩ (Ty.optVarTop.withDim (-1)) = .ok (a', m') ∧
    Ty.parSetInt.Reaches (Ty.optVarTop.withDim (-1)) (m'.ty a') := by
  have hty := ty_valueModel .parSetInt
  have h := coerce_reaches_iff (promotes_valueModel .parSetInt) (a := ⟨0⟩) (t := Ty.optVarTop.withDim (-1))
    (by rw [hty]; decide)
  rw [hty] at h
  exact h.mpr ⟨fun _ _ => ⟨rfl, .inl rfl, rfl⟩, by decide, by decide⟩

-- Numbers in an array are not widened, and no array of two dimensions is made of a set.
theorem coerce_misses : (Ty.parInt.withDim 1).sub (Ty.parFloat.withDim 1) ∧ Ty.parSetInt.sub (Ty.parInt.withDim 2) ∧
    (∀ r, (valueModel (Ty.parInt.withDim 1)).coerce ⟨0⟩ (Ty.parFloat.withDim 1) ≠ .ok r) ∧
      ∀ a' m', (valueModel .parSetInt).coerce ⟨0⟩ (Ty.parInt.withDim 2) = .ok (a', m') →
        ¬(m'.ty a').sub (Ty.parInt.withDim 2) := by
  refine ⟨by decide, by decide, fun r hc => ?_, fun a' m' hc hr => ?_⟩
  · obtain ⟨a', m'⟩ := r
    have hty := ty_valueModel (Ty.parInt.withDim 1)
    have hmeets : ¬(Ty.parInt.withDim 1).Meets (Ty.parFloat.withDim 1) := by
      unfold Ty.Meets
      decide
    have hb := (promotes_valueModel _).coerce_becomes_of_sub (by rw [hty]; decide) hc
    rw [hty] at hb
    obtain ⟨-, -, h⟩ | ⟨-, -, b, -, hb, -⟩ := hb
    · exact hmeets h
    · cases hb with
      | same h => exact hmeets h
      | listed hset => cases hset
      | widened hp => cases hp
  · have hty := ty_valueModel .parSetInt
    have h := (promotes_valueModel _).coercible_of_coerce (by rw [hty]; decide) hc hr
    rw [hty] at h
    obtain ⟨-, hflat, -⟩ := h.listed (by decide) (by decide)
    revert hflat
    unfold Ty.Flat
    decide

end Samples
end Parvar
