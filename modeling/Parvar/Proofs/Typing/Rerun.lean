import Parvar.Proofs.Typing.Promotion
import Parvar.Proofs.Typing.Sorted

/-!
The typing rules applied again. Each rule finds a type, its parts are turned into that type, and on the
turned parts the rule finds the same type.
-/

namespace Parvar

variable {t u : Ty} {whole whole' : Span} {b : Base}

theorem Base.eq_unknown_of_sub (h : b.sub .unknown) : b = .unknown := by
  cases b <;> simp_all [Base.sub]

namespace Ty

@[simp] theorem withBase_withBase (t : Ty) (b c : Base) : (t.withBase b).withBase c = t.withBase c := rfl

@[simp] theorem withBase_base (t : Ty) : t.withBase t.base = t := rfl

theorem withCv_of_cv (h : t.cv) : t.withCv true = t := by
  obtain ⟨_, _, _, _, cv, _, _⟩ := t
  cases h
  rfl

end Ty

namespace Rules

theorem markedBy_withBase (t part : Ty) (b : Base) : markedBy (t.withBase b) part = (markedBy t part).withBase b := by
  simp only [markedBy]
  split <;> rfl

section SetLiteral

variable {x x' : Operand} {xs xs' : List Operand}

-- What an element adds to the type of a set, its base aside.
def setMarks (t x : Ty) : Ty := markedBy (if x.isVar then t.withInst .var else t) x

theorem base_setMarks (t x : Ty) : (setMarks t x).base = t.base := by
  simp only [setMarks, markedBy]
  split <;> split <;> rfl

theorem setMarks_withBase (t x : Ty) (b c : Base) : setMarks (t.withBase b) (x.withBase c) = (setMarks t x).withBase b := by
  have hinst : (if x.isVar then (t.withBase b).withInst .var else t.withBase b) =
      (if x.isVar then t.withInst .var else t).withBase b := by
    split <;> rfl
  change markedBy (if x.isVar then (t.withBase b).withInst .var else t.withBase b) x = _
  rw [hinst, markedBy_withBase]
  rfl

theorem setElem_eq (whole : Span) (t : Ty) (x : Operand) : setElem whole t x =
    if 0 < x.ty.dim then raise .arrayInSet x.span
    else if x.ty.base.sub t.base then .ok (setMarks t x.ty)
    else if t.base = .unknown ∨ t.base.sub x.ty.base then .ok ((setMarks t x.ty).withBase x.ty.base)
    else raise .mixedSet whole := by
  have hbase := base_setMarks t x.ty
  rw [setElem]
  split
  · rfl
  · rw [← setMarks]
    generalize setMarks t x.ty = v at hbase
    simp only [hbase, Bool.or_eq_true, decide_eq_true_eq]
    rfl

theorem setElem_eq_ok (h : setElem whole t x = .ok u) : ¬0 < x.ty.dim ∧ u = (setMarks t x.ty).withBase u.base ∧
    (u.base = t.base ∧ x.ty.base.sub u.base ∨ u.base = x.ty.base ∧ (t.base = .unknown ∨ t.base.sub u.base)) := by
  rw [setElem_eq] at h
  split at h
  · cases h
  · next hdim =>
    refine ⟨hdim, ?_⟩
    split at h
    · next hs =>
      cases h
      exact ⟨rfl, .inl ⟨base_setMarks t x.ty, base_setMarks t x.ty ▸ hs⟩⟩
    · split at h
      · next hs =>
        cases h
        exact ⟨rfl, .inr ⟨rfl, hs⟩⟩
      · cases h

-- The base of a set is one that all its elements widen to.
theorem sub_setElems (h : setElems whole xs = .ok t) (hx : ∀ x ∈ xs, x.ty.Concrete) : ∀ x ∈ xs, x.ty.base.sub t.base := by
  suffices hall : ∀ (xs : List Operand) (u : Ty), (∀ x ∈ xs, x.ty.Concrete) → xs.foldlM (setElem whole) u = .ok t →
      (u.base = .unknown ∨ u.base.sub t.base) ∧ ∀ x ∈ xs, x.ty.base.sub t.base from (hall xs _ hx h).2
  intro xs
  induction xs with
  | nil =>
    intro u _ h
    cases h
    exact ⟨.inr (Base.sub_self _), by simp⟩
  | cons x xs ih =>
    intro u hx h
    have ⟨hcx, hxs⟩ := List.forall_mem_cons.mp hx
    rw [List.foldlM_cons] at h
    obtain ⟨v, hv, h⟩ := except_bind_eq_ok.mp h
    have ⟨hvt, hall⟩ := ih v hxs h
    have ⟨_, _, hstep⟩ := setElem_eq_ok hv
    have hxv : x.ty.base.sub v.base := hstep.elim And.right fun h => h.1 ▸ Base.sub_self _
    have hvk : v.base ≠ .unknown := by
      intro hk
      rw [hk] at hxv
      exact hcx.known (Base.eq_unknown_of_sub hxv)
    have hvt : v.base.sub t.base := hvt.resolve_left hvk
    refine ⟨?_, List.forall_mem_cons.mpr ⟨Base.sub_trans hxv hvt, hall⟩⟩
    rcases hstep with ⟨hb, _⟩ | ⟨hb, hu⟩
    · exact .inr (hb ▸ hvt)
    · exact hu.imp_right (Base.sub_trans · hvt)

-- An element that was turned into one of the base of the set, the set so far being of that base or of none.
theorem setElem_widened {v : Ty} (h : setElem whole t x = .ok u) (hb : b ≠ .unknown) (hx : x'.ty = x.ty.withBase b)
    (hv : v = t.withBase b ∨ v = t ∧ t.base = .unknown) : setElem whole' v x' = .ok (u.withBase b) := by
  have ⟨hdim, hu, _⟩ := setElem_eq_ok h
  rw [setElem_eq, hx, if_neg (by exact hdim)]
  obtain rfl | ⟨rfl, hk⟩ := hv
  · rw [if_pos (by exact Base.sub_self b), setMarks_withBase, hu, Ty.withBase_withBase]
  · have hne : ¬(x.ty.withBase b).base.sub v.base := by
      rw [hk]
      exact fun h => hb (Base.eq_unknown_of_sub h)
    rw [if_neg hne, if_pos (.inl hk), hu, Ty.withBase_withBase]
    rfl

-- On elements of one base the rule finds a set of that base.
theorem setElems_widened (hxs : xs ≠ []) (h : setElems whole xs = .ok t) (hb : b ≠ .unknown)
    (hall : List.Forall₂ (fun x x' => x'.ty = x.ty.withBase b) xs xs') : setElems whole' xs' = .ok (t.withBase b) := by
  suffices hrest : ∀ {xs xs' : List Operand} {u : Ty}, List.Forall₂ (fun x x' => x'.ty = x.ty.withBase b) xs xs' →
      xs.foldlM (setElem whole) u = .ok t → xs'.foldlM (setElem whole') (u.withBase b) = .ok (t.withBase b) by
    cases hall with
    | nil => exact absurd rfl hxs
    | cons hx hall =>
      rw [setElems, List.foldlM_cons] at h ⊢
      obtain ⟨u, hu, h⟩ := except_bind_eq_ok.mp h
      exact except_bind_eq_ok.mpr ⟨_, setElem_widened hu hb hx (.inr ⟨rfl, rfl⟩), hrest hall h⟩
  intro xs xs' u hall
  induction hall generalizing u with
  | nil =>
    intro h
    cases h
    rfl
  | cons hx _ ih =>
    intro h
    rw [List.foldlM_cons] at h ⊢
    obtain ⟨v, hv, h⟩ := except_bind_eq_ok.mp h
    exact except_bind_eq_ok.mpr ⟨_, setElem_widened hv hb hx (.inl rfl), ih h⟩

theorem setLit_eq_ok (h : setLit whole t = .ok u) :
    u = t.withBase u.base ∧ t.base.sub u.base ∧ ∀ whole', setLit whole' u = .ok u := by
  rw [setLit] at h
  split at h
  · split at h
    · next hv hb =>
      cases h
      refine ⟨rfl, by rw [hb]; rfl, fun whole' => ?_⟩
      rw [setLit, if_neg (by simp [Ty.withBase])]
      rfl
    · cases h
  · next hv =>
    cases h
    exact ⟨rfl, Base.sub_self _, fun whole' => by rw [setLit, if_neg hv]; rfl⟩

end SetLiteral

section ArrayLiteral

variable {x : Operand} {xs : List Operand}

theorem arrayElem_eq_ok {i j : Bool} (hx : x.ty.Concrete) (ha : x.isAnon = false)
    (h : arrayElem whole (t, i) x = .ok (u, j)) : ¬0 < x.ty.dim ∧ x.ty.base = u.base ∧ x.ty.isSet = u.isSet ∧
      (t.base = .unknown ∨ u.base = t.base ∧ u.isSet = t.isSet) := by
  simp only [arrayElem, ha, Bool.false_or, Bool.false_eq_true, if_false] at h
  split at h
  · cases h
  · next hdim =>
    refine ⟨hdim, ?_⟩
    generalize hv : (if x.ty.isOpt = true then
        (markedBy (if x.ty.isVar = true then t.withInst .var else t) x.ty).withOpt true
      else markedBy (if x.ty.isVar = true then t.withInst .var else t) x.ty) = v at h
    have hvt : v.base = t.base ∧ v.isSet = t.isSet := by
      rw [← hv]
      simp only [markedBy]
      split <;> split <;> split <;> exact ⟨rfl, rfl⟩
    split at h
    · next hk =>
      split at h
      · cases h
      · simp only [hx.not_bot, if_false] at h
        cases h
        exact ⟨rfl, rfl, .inl (hvt.1 ▸ hk)⟩
    · split at h
      · cases h
      · next hne =>
        cases h
        simp only [hx.not_bot, Bool.or_eq_true, Bool.and_eq_true, decide_eq_true_eq, ne_eq, not_or, not_and,
          not_false_iff, true_imp_iff, not_not] at hne
        exact ⟨hne.1, hne.2, .inr hvt⟩

-- Elements of an array are all of one base, and all of them are sets or none.
theorem arrayElems_alike {rank : Nat} (h : arrayElems whole rank xs = .ok t)
    (hx : ∀ x ∈ xs, x.ty.Concrete ∧ x.isAnon = false) :
    ∀ x ∈ xs, ¬0 < x.ty.dim ∧ x.ty.base = t.base ∧ x.ty.isSet = t.isSet := by
  obtain ⟨⟨t, j⟩, h, ht⟩ := except_bind_eq_ok.mp h
  cases ht
  suffices hall : ∀ (xs : List Operand) (u : Ty) (i : Bool), (∀ x ∈ xs, x.ty.Concrete ∧ x.isAnon = false) →
      xs.foldlM (arrayElem whole) (u, i) = .ok (t, j) → (u.base = .unknown ∨ t.base = u.base ∧ t.isSet = u.isSet) ∧
        ∀ x ∈ xs, ¬0 < x.ty.dim ∧ x.ty.base = t.base ∧ x.ty.isSet = t.isSet from (hall xs _ _ hx h).2
  intro xs
  induction xs with
  | nil =>
    intro u i _ h
    cases h
    exact ⟨.inr ⟨rfl, rfl⟩, by simp⟩
  | cons x xs ih =>
    intro u i hx h
    have ⟨hcx, hxs⟩ := List.forall_mem_cons.mp hx
    rw [List.foldlM_cons] at h
    obtain ⟨⟨v, k⟩, hv, h⟩ := except_bind_eq_ok.mp h
    have ⟨hvt, hall⟩ := ih v k hxs h
    have ⟨hdim, hbase, hset, hstep⟩ := arrayElem_eq_ok hcx.1 hcx.2 hv
    have ⟨hb, hs⟩ := hvt.resolve_left (hbase ▸ hcx.1.known)
    refine ⟨hstep.imp_right fun h => ⟨hb.trans h.1, hs.trans h.2⟩, ?_⟩
    exact List.forall_mem_cons.mpr ⟨⟨hdim, hbase.trans hb.symm, hset.trans hs.symm⟩, hall⟩

theorem arrayLit_eq_ok (h : arrayLit whole t = .ok u) :
    u = t ∨ t.isSet ∧ t.base = .bool ∧ u = t.withBase .int := by
  rw [arrayLit] at h
  split at h
  · next hv =>
    split at h
    · next hb =>
      cases h
      simp only [Bool.and_eq_true] at hv
      exact .inr ⟨hv.1.2, hb, rfl⟩
    · cases h
  · cases h
    exact .inl rfl

end ArrayLiteral

section Conditionals

-- What is known of a conditional, with another base.
def Conditional.withBase (c : Conditional) (b : Base) : Conditional := { c with ty := c.ty.withBase b }

variable {c c' : Conditional} {x : Operand}

theorem condition_eq_ok (h : condition c x = .ok c') :
    c'.ty.base = c.ty.base ∧ c'.ty.dim = c.ty.dim ∧ c'.anons = c.anons ∧
      ∀ b, c.ty.base.sub b → condition (c.withBase b) x = .ok (c'.withBase b) := by
  have hmark : ∀ {t : Ty}, (markedBy t x.ty).base = t.base ∧ (markedBy t x.ty).dim = t.dim := by
    intro t
    rw [markedBy]
    split <;> exact ⟨rfl, rfl⟩
  simp only [condition] at h
  split at h
  · next hann =>
    split at h
    · cases h
    · next hall =>
      split at h
      · cases h
      · next hty =>
        cases h
        have hall : c.allAnn = true := by simpa using hall
        have hty : c.ty.same .ann = true := by simpa using hty
        have hbase : c.ty.base = .ann := Ty.base_of_same hty
        refine ⟨hmark.1, hmark.2, rfl, fun b hb => ?_⟩
        have hb : b = .ann := by
          rw [hbase] at hb
          cases b <;> simp_all [Base.sub]
        have hself : c.withBase b = c := by rw [Conditional.withBase, hb, ← hbase, Ty.withBase_base]
        rw [hself]
        simp only [condition, hann, hall, hty, Bool.not_true, Bool.false_eq_true, if_false, if_true, Conditional.withBase,
          hb, ← hbase, ← markedBy_withBase, Ty.withBase_base]
        rfl
  · next hann =>
    split at h
    · cases h
    · next hty =>
      cases h
      refine ⟨hmark.1, hmark.2, rfl, fun b _ => ?_⟩
      simp only [condition, hann, hty, Conditional.withBase, markedBy_withBase]
      rfl

theorem branch_eq_ok (h : branch c x = .ok c') (hc : c.ty.Concrete) (hx : x.ty.Concrete) :
    c'.ty.Concrete ∧ c.ty.base.sub c'.ty.base ∧ x.ty.base.sub c'.ty.base ∧ x.ty.dim = c.ty.dim ∧
      c'.ty.dim = c.ty.dim ∧ c'.anons = c.anons ∧
      ∀ b x', c'.ty.base.sub b → x'.ty = x.ty.withBase b → branch (c.withBase b) x' = .ok (c'.withBase b) := by
  have hopen : (c.ty.isBot || c.ty.isUnknown) = false := by simp [Ty.isBot, Ty.isUnknown, hc.not_bot, hc.known]
  have hxk : x.ty.isUnknown = false := by simp [Ty.isUnknown, hx.known]
  have hxb : x.ty.isBot = false := by simp [Ty.isBot, hx.not_bot]
  simp only [branch, hxk, Bool.false_eq_true, if_false, hopen, hxb, Bool.not_false, Bool.true_and] at h
  split at h
  · cases h
  · next hfits =>
    cases h
    simp only [Bool.or_eq_true, Bool.not_eq_true', Bool.or_eq_false_iff, decide_eq_true_eq, not_or, not_and,
      Bool.not_eq_false, ne_eq, not_not] at hfits
    obtain ⟨⟨hwide, hset⟩, hdim⟩ := hfits
    have hb : ∀ {t : Ty}, (markedBy t x.ty).base = t.base ∧ (markedBy t x.ty).dim = t.dim := by
      intro t
      rw [markedBy]
      split <;> exact ⟨rfl, rfl⟩
    generalize ht : (if c.ty.base.sub x.ty.base = true then c.ty.withBase x.ty.base else c.ty) = t
    have hct : c.ty.base.sub t.base ∧ x.ty.base.sub t.base ∧ t.dim = c.ty.dim ∧ ∀ b, t.withBase b = c.ty.withBase b := by
      rw [← ht]
      split
      · next hs => exact ⟨hs, Base.sub_self _, rfl, fun _ => rfl⟩
      · next hs => exact ⟨Base.sub_self _, by_contra fun h => hs (hwide (by simpa using h)), rfl, fun _ => rfl⟩
    obtain ⟨hct, hxt, hd, hself⟩ := hct
    have ht : t.Concrete := hx.mono hxt
    refine ⟨ht.mono (by rw [hb.1]; exact Base.sub_self _), by rw [hb.1]; exact hct, by rw [hb.1]; exact hxt, hdim,
      by rw [hb.2]; exact hd, rfl, fun b x' hsub hx' => ?_⟩
    have hself := hself b
    rw [hb.1] at hsub
    have hbc : (t.withBase b).Concrete := ht.mono hsub
    have hk : b ≠ .unknown := hbc.known
    have hn : b ≠ .bot := hbc.not_bot
    have hmark : markedBy (c.ty.withBase b) (x.ty.withBase b) = (markedBy t x.ty).withBase b := by
      rw [← hself]
      exact markedBy_withBase t x.ty b
    have hopen : ((c.ty.withBase b).isBot || (c.ty.withBase b).isUnknown) = false := by
      simp [Ty.isBot, Ty.isUnknown, Ty.withBase, hk, hn]
    have hxk : (x.ty.withBase b).isUnknown = false := by simp [Ty.isUnknown, Ty.withBase, hk]
    have hself : (c.ty.withBase b).base.sub (x.ty.withBase b).base = true := Base.sub_self b
    have hfits : ¬(((!(x.ty.withBase b).isBot) && !((x.ty.withBase b).base.sub (c.ty.withBase b).base ||
        (c.ty.withBase b).base.sub (x.ty.withBase b).base)) || decide ((x.ty.withBase b).isSet ≠ (c.ty.withBase b).isSet) ||
        decide ((x.ty.withBase b).dim ≠ (c.ty.withBase b).dim)) = true := by
      simp only [hself, Bool.or_true, Bool.not_true, Bool.and_false, Bool.false_or, Bool.or_eq_true, decide_eq_true_eq,
        ne_eq, not_or, not_not]
      exact ⟨hset, hdim⟩
    simp only [branch, hx', Conditional.withBase, hxk, hopen, ← hmark, Bool.false_eq_true, if_false, if_neg hfits,
      if_pos hself]
    rfl

-- One more condition and its value.
def conditionalStep (c : Conditional) (p : Operand × Operand) : Except TypeError Conditional := do
  branch (← condition c p.1) p.2

-- Branches that were turned into values of the base of the whole.
def Widened (b : Base) : List (Operand × Operand) → List (Operand × Operand) → Prop :=
  List.Forall₂ fun p p' => p'.1 = p.1 ∧ p'.2.ty = p.2.ty.withBase b

theorem branches_eq_ok {ps : List (Operand × Operand)} (h : ps.foldlM conditionalStep c = .ok c') (hc : c.ty.Concrete)
    (hps : ∀ p ∈ ps, p.2.ty.Concrete) :
    c'.ty.Concrete ∧ c.ty.base.sub c'.ty.base ∧ c'.ty.dim = c.ty.dim ∧ c'.anons = c.anons ∧
      (∀ p ∈ ps, p.2.ty.base.sub c'.ty.base ∧ p.2.ty.dim = c'.ty.dim) ∧
      ∀ ps', Widened c'.ty.base ps ps' → ps'.foldlM conditionalStep (c.withBase c'.ty.base) = .ok c' := by
  induction ps generalizing c with
  | nil =>
    cases h
    refine ⟨hc, Base.sub_self _, rfl, rfl, by simp, fun ps' hps' => ?_⟩
    cases hps'
    rfl
  | cons p ps ih =>
    rw [List.foldlM_cons] at h
    obtain ⟨c₂, h₂, h⟩ := except_bind_eq_ok.mp h
    obtain ⟨c₁, h₁, h₂⟩ := except_bind_eq_ok.mp h₂
    have ⟨hp, hps⟩ := List.forall_mem_cons.mp hps
    have ⟨hb₁, hd₁, ha₁, h₁'⟩ := condition_eq_ok h₁
    have hc₁ : c₁.ty.Concrete := hc.mono (hb₁ ▸ Base.sub_self _)
    have ⟨hc₂, hb₂, hx₂, hdx₂, hd₂, ha₂, h₂'⟩ := branch_eq_ok h₂ hc₁ hp
    have ⟨hc', hb, hd, ha, hall, hagain⟩ := ih h hc₂ hps
    have hb₁' : c.ty.base.sub c'.ty.base := Base.sub_trans (hb₁ ▸ hb₂) hb
    refine ⟨hc', hb₁', hd.trans (hd₂.trans hd₁), ha.trans (ha₂.trans ha₁), ?_, fun ps' hps' => ?_⟩
    · exact List.forall_mem_cons.mpr ⟨⟨Base.sub_trans hx₂ hb, hdx₂.trans (hd₂.symm.trans hd.symm)⟩, hall⟩
    · cases hps' with
      | cons hp' hps' =>
        rw [List.foldlM_cons]
        refine except_bind_eq_ok.mpr ⟨_, except_bind_eq_ok.mpr ⟨_, ?_, h₂' _ _ hb hp'.2⟩, hagain _ hps'⟩
        rw [hp'.1]
        exact h₁' _ hb₁'

theorem otherwise_eq_ok (h : otherwise x = .ok c) (hx : x.ty.Concrete) : c.ty = x.ty ∧ c.anons = [] ∧
    ∀ b x', b ≠ .unknown → x'.ty = x.ty.withBase b → otherwise x' = .ok (c.withBase b) := by
  have hk : x.ty.isUnknown = false := by simp [Ty.isUnknown, hx.known]
  simp only [otherwise, hk, Bool.false_and, Bool.false_eq_true, if_false] at h
  cases h
  refine ⟨rfl, rfl, fun b x' hb hx' => ?_⟩
  have hk' : (x.ty.withBase b).isUnknown = false := by simp [Ty.isUnknown, Ty.withBase, hb]
  simp only [otherwise, hx', hk', Bool.false_and, Bool.false_eq_true, if_false]
  rfl

variable {ps : List (Operand × Operand)}

theorem conditional_eq_ok (h : conditional ps x = .ok c) (hps : ∀ p ∈ ps, p.2.ty.Concrete) (hx : x.ty.Concrete) :
    c.ty.Concrete ∧ c.anons = [] ∧ (x.ty.base.sub c.ty.base ∧ x.ty.dim = c.ty.dim) ∧
      (∀ p ∈ ps, p.2.ty.base.sub c.ty.base ∧ p.2.ty.dim = c.ty.dim) ∧
      ∀ ps' x', Widened c.ty.base ps ps' → x'.ty = x.ty.withBase c.ty.base → conditional ps' x' = .ok c := by
  obtain ⟨c₀, h₀, h⟩ := except_bind_eq_ok.mp h
  have ⟨ht₀, ha₀, h₀'⟩ := otherwise_eq_ok h₀ hx
  have ⟨hc, hb, hd, ha, hall, hagain⟩ := branches_eq_ok h (ht₀ ▸ hx) hps
  refine ⟨hc, ha.trans ha₀, ⟨ht₀ ▸ hb, ht₀ ▸ hd.symm⟩, hall, fun ps' x' hps' hx' => ?_⟩
  exact except_bind_eq_ok.mpr ⟨_, h₀' _ _ hc.known hx', hagain ps' hps'⟩

end Conditionals

section TypeInsts

theorem markedBy_self {v part : Ty} (h : part.cv → v.cv) : markedBy v part = v := by
  rw [markedBy]
  split
  · next hp => exact Ty.withCv_of_cv (h hp)
  · rfl

theorem cv_markedBy (t part : Ty) : (t.cv → (markedBy t part).cv) ∧ (part.cv → (markedBy t part).cv) := by
  simp only [markedBy]
  split
  · exact ⟨fun _ => rfl, fun _ => rfl⟩
  · next h => exact ⟨id, fun hp => absurd hp h⟩

-- One more index.
def rankStep (r : Ty × Bool) (i : Ty × Span) : Except TypeError (Ty × Bool) := do
  let t := markedBy r.1 i.1
  if i.1.same .top then
    if r.2 then raise .secondTypeVarIndex i.2
    return (t, true)
  if !i.1.same .parInt then raise (.indexDomain i.1) i.2
  return (t, r.2)

theorem rankStep_eq_ok {g g' : Bool} {i : Ty × Span} (h : rankStep (t, g) i = .ok (u, g')) :
    u = markedBy t i.1 ∧ ∀ v, rankStep (v, g) i = .ok (markedBy v i.1, g') := by
  simp only [rankStep] at h
  split at h
  · next htop =>
    split at h
    · cases h
    · next hg =>
      cases h
      refine ⟨rfl, fun v => ?_⟩
      simp only [rankStep, if_pos htop, if_neg hg]
      rfl
  · next htop =>
    split at h
    · cases h
    · next hint =>
      cases h
      refine ⟨rfl, fun v => ?_⟩
      simp only [rankStep, if_neg htop, if_neg hint]
      rfl

-- The rank is kept by a type that has it, with all that its indices mark it with.
theorem rank_again {is : List (Ty × Span)} {v : Ty} (h : rank t is = .ok u) (hd : v.dim = u.dim) (hcv : u.cv → v.cv) :
    rank v is = .ok v := by
  have hfold : ∀ {is : List (Ty × Span)} {t u : Ty} {g g' : Bool}, is.foldlM rankStep (t, g) = .ok (u, g') →
      (t.cv → u.cv) ∧ ∀ v : Ty, (u.cv → v.cv) → is.foldlM rankStep (v, g) = .ok (v, g') := by
    intro is
    induction is with
    | nil =>
      intro t u g g' h
      cases h
      exact ⟨id, fun _ _ => rfl⟩
    | cons i is ih =>
      intro t u g g' h
      rw [List.foldlM_cons] at h
      obtain ⟨⟨w, k⟩, hw, h⟩ := except_bind_eq_ok.mp h
      obtain ⟨rfl, hagain⟩ := rankStep_eq_ok hw
      have ⟨hmono, hrest⟩ := ih h
      have ⟨ht, hi⟩ := cv_markedBy t i.1
      refine ⟨fun hc => hmono (ht hc), fun v hv => ?_⟩
      rw [List.foldlM_cons, hagain, markedBy_self fun hc => hv (hmono (hi hc))]
      exact hrest v hv
  rw [rank] at h ⊢
  split at h
  · next he =>
    rw [if_pos he]
    rfl
  · next he =>
    rw [if_neg he]
    obtain ⟨⟨w, g⟩, hw, h⟩ := except_bind_eq_ok.mp h
    cases h
    refine except_bind_eq_ok.mpr ⟨(v, g), (hfold hw).2 v hcv, ?_⟩
    have hdim : v.dim = if g then -1 else (is.length : Int) := hd
    change Except.ok (v.withDim (if g then -1 else (is.length : Int))) = _
    rw [← hdim]
    rfl

theorem domain_again {x : Operand} {isTypeVar : Bool} {v : Ty} (h : domain t x isTypeVar = .ok u) (hcv : u.cv → v.cv) :
    domain v x isTypeVar = .ok v := by
  obtain rfl := domain_eq_ok h
  have hv : markedBy v x.ty = v := markedBy_self fun hx => hcv ((cv_markedBy t x.ty).2 hx)
  simp only [domain, hv] at h ⊢
  split at h
  · split at h
    · cases h
    · split at h
      · cases h
      · next h₁ h₂ h₃ => simp only [if_pos h₁, if_neg h₂, if_neg h₃]; rfl
  · next h₁ => simp only [if_neg h₁]; rfl

end TypeInsts

end Rules
end Parvar
