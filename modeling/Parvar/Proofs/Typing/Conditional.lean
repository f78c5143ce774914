import Parvar.Proofs.Ty.Subtype
import Parvar.Proofs.Typing.Coercible
import Parvar.Proofs.Typing.Stages

/-!
Conditionals. The type of a conditional is put together branch by branch, starting from the last, and every branch is
turned into it at the end. What is known after some branches takes all of these, and goes on to do so.
-/

namespace Parvar

open Model Library Typing

theorem Ty.inst_of_same {t u : Ty} (h : t.same u) : t.inst = u.inst := by
  have heq : t.encode = u.encode := by simpa [same] using h
  obtain ⟨-, -, -, ht, -⟩ := t.bits_encode
  obtain ⟨-, -, -, hu, -⟩ := u.bits_encode
  rw [heq, hu] at ht
  exact Option.some.inj (t.inst.ofCode_code.symm.trans (ht ▸ u.inst.ofCode_code))

theorem Base.eq_bot_of_sub {b : Base} (h : b.sub .bot) : b = .bot := by
  cases b <;> simp_all [Base.sub]

namespace Rules

variable {c c' : Conditional} {x y : Operand} {ps : List (Operand × Operand)}

-- More is known of a conditional than before.
structure Conditional.Leads (c c' : Conditional) : Prop where
  dim : c'.ty.dim = c.ty.dim
  set : c'.ty.isSet = c.ty.isSet
  base : c.ty.base = .bot ∨ c.ty.base = .unknown ∨ c.ty.base.sub c'.ty.base
  cv : c.ty.cv → c'.ty.cv
  free : c.allPar = false → c'.allPar = false
  absent : c.allPresent = false → c'.allPresent = false
  condition : c.varCondition → c'.varCondition
  anons : ∀ a ∈ c.anons, a ∈ c'.anons

-- What is known of a conditional allows for a branch.
structure Conditional.Takes (c : Conditional) (x : Operand) : Prop where
  marks : x.ty.cv → c.ty.cv ∨ c.allPar = false
  free : x.ty.isVar → c.allPar = false
  typed : x.isAnon = false → x.ty.base ≠ .unknown
  left : x.ty.base = .unknown → x.id ∈ c.anons
  fits : x.ty.base ≠ .unknown → x.ty.dim = c.ty.dim ∧ x.ty.isSet = c.ty.isSet ∧
    (x.ty.base = .bot ∨ x.ty.base.sub c.ty.base) ∧ (x.ty.isOpt → c.allPresent = false)

-- The same for a condition.
structure Conditional.Heeds (c : Conditional) (x : Operand) : Prop where
  marks : x.ty.cv → c.ty.cv
  free : x.ty.isVar → c.varCondition

theorem Conditional.Takes.leads (h : c.Takes x) (hc : c.Leads c') : c'.Takes x where
  marks hx := (h.marks hx).imp hc.cv hc.free
  free hx := hc.free (h.free hx)
  typed := h.typed
  left hx := hc.anons _ (h.left hx)
  fits hx := by
    obtain ⟨hdim, hset, hbase, hopt⟩ := h.fits hx
    refine ⟨hdim.trans hc.dim.symm, hset.trans hc.set.symm, ?_, fun ho => hc.absent (hopt ho)⟩
    rcases hbase with hb | hb
    · exact .inl hb
    · rcases hc.base with hbot | hunknown | hsub
      · rw [hbot] at hb
        exact .inl (Base.eq_bot_of_sub hb)
      · rw [hunknown] at hb
        exact absurd (Base.eq_unknown_of_sub hb) hx
      · exact .inr (Base.sub_trans hb hsub)

theorem Conditional.Heeds.leads (h : c.Heeds x) (hc : c.Leads c') : c'.Heeds x :=
  ⟨fun hx => hc.cv (h.marks hx), fun hx => hc.condition (h.free hx)⟩

theorem fields_markedBy (t part : Ty) : (markedBy t part).dim = t.dim ∧ (markedBy t part).isSet = t.isSet ∧
    (markedBy t part).base = t.base := by
  rw [markedBy]
  split <;> exact ⟨rfl, rfl, rfl⟩

theorem condition_leads (h : condition c x = .ok c') : c.Leads c' ∧ c'.Heeds x ∧ c'.anons = c.anons := by
  obtain ⟨hdim, hset, hbase⟩ := fields_markedBy c.ty x.ty
  obtain ⟨hcv, hxcv⟩ := cv_markedBy c.ty x.ty
  have hsub : c.ty.base.sub (markedBy c.ty x.ty).base := hbase ▸ Base.sub_self _
  simp only [condition] at h
  split at h
  · next hann =>
    have hpar : ¬x.ty.isVar := by
      simp [Ty.isVar, Ty.inst_of_same hann, Ty.ann, Ty.of]
    split at h
    · cases h
    · split at h
      · cases h
      · cases h
        refine ⟨⟨hdim, hset, .inr (.inr hsub), hcv, id, id, fun h => by simp [h], fun _ => id⟩, ⟨hxcv, ?_⟩, rfl⟩
        exact fun h => absurd h hpar
  · split at h
    · cases h
    · next hty =>
      cases h
      have hfree : x.ty.isVar → x.ty.same .varBool := by
        intro hv
        by_contra hn
        have hpar : x.ty.same .parBool := by simpa [hn] using hty
        simp [Ty.isVar, Ty.inst_of_same hpar, Ty.parBool, Ty.of] at hv
      refine ⟨⟨hdim, hset, .inr (.inr hsub), hcv, id, id, fun h => by simp [h], fun _ => id⟩, ⟨hxcv, ?_⟩, rfl⟩
      exact fun h => by simp [hfree h]

section Branches

variable {t u : Ty} {b : Base}

-- A base that was left open is that of the branch.
theorem fields_opened (h : (if (t.isBot || t.isUnknown) = true then t.withBase b else t) = u) :
    u.dim = t.dim ∧ u.isSet = t.isSet ∧ u.cv = t.cv ∧ (t.base = .bot ∨ t.base = .unknown ∨ t.base = u.base) := by
  rw [← h]
  split
  · next hopen => exact ⟨rfl, rfl, rfl, by simpa [Ty.isBot, Ty.isUnknown, or_assoc] using Or.inl hopen⟩
  · exact ⟨rfl, rfl, rfl, .inr (.inr rfl)⟩

-- Of two bases, one of which widens into the other, the wider one is taken.
theorem fields_widened (h : (if t.base.sub b = true then t.withBase b else t) = u)
    (hb : b.sub t.base ∨ t.base.sub b ∨ b = .bot) :
    u.dim = t.dim ∧ u.isSet = t.isSet ∧ u.cv = t.cv ∧ t.base.sub u.base ∧ (b = .bot ∨ b.sub u.base) := by
  rw [← h]
  split
  · next hs => exact ⟨rfl, rfl, rfl, hs, .inr (Base.sub_self _)⟩
  · next hs => exact ⟨rfl, rfl, rfl, Base.sub_self _, by tauto⟩

theorem branch_unknown (hx : x.ty.base = .unknown) (h : branch c x = .ok c') :
    x.isAnon ∧ c' = { c with allPar := false, anons := c.anons ++ [x.id] } := by
  simp only [branch, Ty.isUnknown, hx, decide_true, if_true] at h
  split at h
  · cases h
  · next hanon =>
    cases h
    exact ⟨by simpa using hanon, rfl⟩

theorem branch_known (hx : x.ty.base ≠ .unknown) (h : branch c x = .ok c') :
    c.Leads c' ∧ c'.Takes x ∧ c'.anons = c.anons := by
  have hk : x.ty.isUnknown = false := by simpa [Ty.isUnknown] using hx
  simp only [branch, hk, Bool.false_eq_true, if_false] at h
  generalize ht : (if (c.ty.isBot || c.ty.isUnknown) = true then c.ty.withBase x.ty.base else c.ty) = t at h
  obtain ⟨htdim, htset, htcv, htbase⟩ := fields_opened ht
  split at h
  · cases h
  · next hfits =>
    simp only [Bool.or_eq_true, Bool.and_eq_true, Bool.not_eq_true', Bool.or_eq_false_iff, decide_eq_true_eq, not_or,
      not_and, Bool.not_eq_false, ne_eq, not_not] at hfits
    obtain ⟨⟨hwide, hset⟩, hdim⟩ := hfits
    have hb : x.ty.base.sub t.base ∨ t.base.sub x.ty.base ∨ x.ty.base = .bot := by
      by_cases hbot : x.ty.isBot
      · exact .inr (.inr (by simpa [Ty.isBot] using hbot))
      · by_cases hsub : x.ty.base.sub t.base
        · exact .inl hsub
        · exact .inr (.inl (hwide (by simpa using hbot) (by simpa using hsub)))
    generalize hu : (if t.base.sub x.ty.base = true then t.withBase x.ty.base else t) = u at h
    obtain ⟨hudim, huset, hucv, hubase, hxbase⟩ := fields_widened hu hb
    obtain ⟨hmdim, hmset, hmbase⟩ := fields_markedBy u x.ty
    obtain ⟨hmcv, hxcv⟩ := cv_markedBy u x.ty
    cases h
    refine ⟨⟨hmdim.trans (hudim.trans htdim), hmset.trans (huset.trans htset), ?_, fun h => hmcv ?_, ?_, ?_, id,
      fun _ => id⟩, ?_, rfl⟩
    · rw [hmbase]
      refine htbase.imp_right (Or.imp_right fun h => ?_)
      rw [h]
      exact hubase
    · rw [hucv, htcv]
      exact h
    · intro h
      simp [h]
    · intro h
      simp [h]
    · refine ⟨fun h => .inl (hxcv h), fun h => by simp [h], fun _ => hx, fun h => absurd h hx, fun _ => ?_⟩
      refine ⟨hdim.trans (hmdim.trans hudim).symm, hset.trans (hmset.trans huset).symm, hmbase ▸ hxbase, ?_⟩
      exact fun h => by simp [h]

theorem branch_leads (h : branch c x = .ok c') : c.Leads c' ∧ c'.Takes x ∧
    (c'.anons = c.anons ∨ x.isAnon ∧ c'.allPar = false ∧ c'.anons = c.anons ++ [x.id]) := by
  by_cases hx : x.ty.base = .unknown
  · obtain ⟨hanon, rfl⟩ := branch_unknown hx h
    refine ⟨⟨rfl, rfl, .inr (.inr (Base.sub_self _)), id, fun _ => rfl, id, id, ?_⟩, ?_, .inr ⟨hanon, rfl, rfl⟩⟩
    · exact fun a ha => List.mem_append_left _ ha
    · refine ⟨fun _ => .inr rfl, fun _ => rfl, fun h => absurd hanon (by simp [h]), fun _ => ?_, fun h => absurd hx h⟩
      exact List.mem_append_right _ (List.mem_singleton_self _)
  · obtain ⟨hleads, htakes, hanons⟩ := branch_known hx h
    exact ⟨hleads, htakes, .inl hanons⟩

theorem otherwise_takes (h : otherwise x = .ok c) :
    c.Takes x ∧ ∀ a ∈ c.anons, c.allPar = false ∧ x.isAnon ∧ x.id = a := by
  simp only [otherwise] at h
  split at h
  · cases h
  · next hx =>
    cases h
    by_cases hk : x.ty.base = .unknown
    · have hk' : x.ty.isUnknown := by simpa [Ty.isUnknown] using hk
      have hanon : x.isAnon := by simpa [hk'] using hx
      refine ⟨⟨fun h => .inl h, fun h => by simp [h], fun h => absurd hanon (by simp [h]), fun _ => by simp [hk'],
        fun h => absurd hk h⟩, ?_⟩
      intro a ha
      simp only [hk', if_true, List.mem_singleton] at ha
      exact ⟨by simp [hk'], hanon, ha.symm⟩
    · have hk' : x.ty.isUnknown = false := by simpa [Ty.isUnknown] using hk
      refine ⟨⟨fun h => .inl h, fun h => by simp [h], fun _ => hk, fun h => absurd h hk, fun _ => ?_⟩, fun a ha => ?_⟩
      · exact ⟨rfl, rfl, .inr (Base.sub_self _), fun h => by simp [h]⟩
      · simp [hk'] at ha

end Branches

-- What is known of a conditional allows for conditions and branches, and only anonymous branches are left to be typed.
structure Conditional.Covers (c : Conditional) (xs ys : List Operand) : Prop where
  conditions : ∀ x ∈ xs, c.Heeds x
  values : ∀ y ∈ ys, c.Takes y
  anons : ∀ a ∈ c.anons, c.allPar = false ∧ ∃ y ∈ ys, y.isAnon ∧ y.id = a

variable {xs ys : List Operand} {p : Operand × Operand}

theorem Conditional.Covers.step (hc : c.Covers xs ys) (h : conditionalStep c p = .ok c') :
    c'.Covers (p.1 :: xs) (p.2 :: ys) := by
  obtain ⟨c₁, h₁, h₂⟩ := except_bind_eq_ok.mp h
  obtain ⟨hleads₁, hheeds, hanons₁⟩ := condition_leads h₁
  obtain ⟨hleads₂, htakes, hanons₂⟩ := branch_leads h₂
  refine ⟨?_, ?_, fun a ha => ?_⟩
  · refine List.forall_mem_cons.mpr ⟨hheeds.leads hleads₂, fun x hx => ?_⟩
    exact ((hc.conditions x hx).leads hleads₁).leads hleads₂
  · exact List.forall_mem_cons.mpr ⟨htakes, fun x hx => ((hc.values x hx).leads hleads₁).leads hleads₂⟩
  · have hold : a ∈ c.anons → c'.allPar = false ∧ ∃ x ∈ p.2 :: ys, x.isAnon ∧ x.id = a := by
      intro ha
      obtain ⟨hpar, x, hx, hanon⟩ := hc.anons a ha
      exact ⟨hleads₂.free (hleads₁.free hpar), x, List.mem_cons_of_mem _ hx, hanon⟩
    rcases hanons₂ with hsame | ⟨hanon, hpar, hmore⟩
    · rw [hsame, hanons₁] at ha
      exact hold ha
    · rw [hmore, hanons₁, List.mem_append, List.mem_singleton] at ha
      rcases ha with ha | rfl
      · exact hold ha
      · exact ⟨hpar, p.2, List.mem_cons_self, hanon, rfl⟩

theorem Conditional.Covers.run (hc : c.Covers xs ys) (h : ps.foldlM conditionalStep c = .ok c') :
    c'.Covers (ps.map (·.1) ++ xs) (ps.map (·.2) ++ ys) := by
  induction ps generalizing c xs ys with
  | nil =>
    cases h
    exact hc
  | cons p ps ih =>
    rw [List.foldlM_cons] at h
    obtain ⟨c₁, h₁, h⟩ := except_bind_eq_ok.mp h
    obtain ⟨hconditions, hvalues, hanons⟩ := ih (hc.step h₁) h
    have hmem : ∀ {x q : Operand} {qs zs : List Operand}, x ∈ q :: qs ++ zs ↔ x ∈ qs ++ q :: zs := by
      intro x q qs zs
      simp only [List.mem_append, List.mem_cons]
      tauto
    refine ⟨fun x hx => hconditions x (hmem.mp hx), fun x hx => hvalues x (hmem.mp hx), fun a ha => ?_⟩
    obtain ⟨hpar, x, hx, hanon⟩ := hanons a ha
    exact ⟨hpar, x, hmem.mpr hx, hanon⟩

theorem conditional_covers (h : conditional ps x = .ok c) : c.Covers (ps.map (·.1)) (ps.map (·.2) ++ [x]) := by
  obtain ⟨c₀, h₀, h⟩ := except_bind_eq_ok.mp h
  obtain ⟨htakes, hanons⟩ := otherwise_takes h₀
  have hc₀ : c₀.Covers [] [x] := by
    refine ⟨by simp, by simpa using htakes, fun a ha => ?_⟩
    obtain ⟨hpar, hanon⟩ := hanons a ha
    exact ⟨hpar, x, List.mem_singleton_self x, hanon⟩
  have hc := hc₀.run h
  rwa [List.append_nil] at hc

-- The type of the whole is free and optional as its parts are.
theorem Conditional.result_fields (c : Conditional) : c.result.dim = c.ty.dim ∧ c.result.isSet = c.ty.isSet ∧
    c.result.base = c.ty.base ∧ (c.ty.cv → c.result.cv) ∧ (c.varCondition ∨ c.allPar = false → c.result.isVar) ∧
    (c.allPresent = false → c.result.isOpt) := by
  unfold result
  split <;> split <;> simp_all [Ty.withInst, Ty.withOpt, Ty.isVar]

end Rules

-- A type stands for another one if it is built alike and its base widens.
theorem Ty.sub_of_fields {t u : Ty} (hdim : t.dim = u.dim) (hset : t.isSet = u.isSet)
    (hbase : t.base = .bot ∨ t.base.sub u.base) (hinst : t.isVar → u.isVar) (hopt : t.isOpt → u.isOpt) : t.sub u := by
  have hinst : instFits t u := by
    simp only [instFits, isVar, isPar] at hinst ⊢
    cases ht : t.inst <;> simp_all
  have hopt : optFits t u := by
    simp only [optFits]
    cases ho : t.isOpt <;> simp_all
  simp only [Ty.sub, dimFits, elemSub, hdim, hinst, hopt, hset]
  rcases hbase with hb | hb <;> simp [hb]

-- A branch that has been turned into the type of the whole stands for it.
theorem Rules.Conditional.Takes.sub_result {c : Conditional} {x : Operand} {b : Ty} (h : c.Takes x)
    (hx : x.ty.base ≠ .unknown) (hb : x.ty.Becomes c.ty b) : b.sub c.result := by
  obtain ⟨hdim, hset, hbase, hopt⟩ := h.fits hx
  obtain ⟨hrdim, hrset, hrbase, -, hrinst, hropt⟩ := c.result_fields
  have hinst : x.ty.isVar → c.result.isVar := fun hv => hrinst (.inr (h.free hv))
  have hopt : x.ty.isOpt → c.result.isOpt := fun ho => hropt (hopt ho)
  rw [← hrbase] at hbase
  cases hb with
  | same => exact Ty.sub_of_fields (hdim.trans hrdim.symm) (hset.trans hrset.symm) hbase hinst hopt
  | listed hs _ _ hd =>
    have hz : x.ty.dim = 0 := by simp_all [Ty.isSetTy]
    exact absurd (hdim ▸ hz) hd
  | widened =>
    exact Ty.sub_of_fields (hdim.trans hrdim.symm) (hset.trans hrset.symm) (.inr (hrbase ▸ Base.sub_self _)) hinst hopt

namespace Model

section Retyping

variable {m : Model} {es : List ExprId} {x : ExprId} {t : Ty}

-- Some expressions take a type.
def retype (m : Model) (es : List ExprId) (t : Ty) : Model := es.foldl (fun m e => m.setTy e t) m

theorem retype_nil : m.retype [] t = m := rfl

theorem forM_setTy (errors : Array TypeError) : (es.forM fun e => CheckM.setTy e t) { model := m, errors } =
    .ok ⟨⟩ { model := m.retype es t, errors } := by
  induction es generalizing m with
  | nil => rfl
  | cons e es ih => exact ih

theorem size_setTy {e : ExprId} : (m.setTy e t).exprs.size = m.exprs.size := by
  simp [setTy, modifyExpr]

theorem size_retype : (m.retype es t).exprs.size = m.exprs.size := by
  induction es generalizing m with
  | nil => rfl
  | cons e es ih => exact ih.trans size_setTy

theorem tables_retype : m.retype es t = { m with exprs := (m.retype es t).exprs } := by
  induction es generalizing m with
  | nil => rfl
  | cons e es ih => exact ih

-- Nothing but the type of an expression changes, and only if it is one of those.
theorem expr_retype : (m.retype es t).expr x =
    if x ∈ es ∧ x.index < m.exprs.size then { m.expr x with ty := t } else m.expr x := by
  induction es generalizing m with
  | nil => simp [retype]
  | cons e es ih =>
    have h : ((m.setTy e t).retype es t).expr x = _ := ih
    rw [size_setTy, setTy, expr_modifyExpr] at h
    refine h.trans ?_
    by_cases hx : x = e
    · subst hx
      by_cases hlt : x.index < m.exprs.size <;> simp [hlt]
    · simp [hx]

theorem kind_retype : (m.retype es t).kind x = m.kind x := by
  rw [kind, expr_retype]
  split <;> rfl

theorem ty_retype (h : x ∉ es) : (m.retype es t).ty x = m.ty x := by
  rw [ty, expr_retype, if_neg fun hx => h hx.1, ty]

theorem ty_retype_of_mem (h : x ∈ es) (hx : x.index < m.exprs.size) : (m.retype es t).ty x = t := by
  rw [ty, expr_retype, if_pos ⟨h, hx⟩]

theorem sameHeads_retype : m.SameHeads (m.retype es t) :=
  .of_exprs tables_retype fun _ _ => by rw [kind_retype]

end Retyping

section Around

variable {m m' : Model} {n : Nat} {a a' e : ExprId} {k : ExprKind} {t : Ty}

-- `a'` is `a` or a call around it, past the first `n` nodes.
inductive Around (m : Model) (n : Nat) (a : ExprId) : ExprId → Prop
  | same : Around m n a a
  | call {b b' name fn} (inner : Around m n a b) (kind : m.kind b' = .call name [b] fn) (new : n ≤ b'.index) :
      Around m n a b'

theorem Around.grows (h : m.Around n a a') (hg : m.Grows m') : m'.Around n a a' := by
  induction h with
  | same => exact .same
  | call _ kind new ih =>
    have hlt := lt_of_kind_ne_anon fun h => by rw [kind] at h; cases h
    exact .call ih ((hg.kind_eq hlt).trans kind) new

theorem Around.setNode (h : m.Around n a a') (he : e.index < n) : (m.setNode e k t).Around n a a' := by
  induction h with
  | same => exact .same
  | @call b b' name fn _ kind new ih =>
    have hne : b' ≠ e := fun h => absurd new (Nat.not_le.mpr (h ▸ he))
    exact .call ih ((kind_setNode_ne hne).trans kind) new

theorem Coerced.around (h : m.Coerced a a' m') (hn : n ≤ m.exprs.size) : m.Grows m' ∧ m'.Around n a a' := by
  induction h with
  | same => exact ⟨.refl m, .same⟩
  | @wrap a₁ m₁ x name fn h kind ann ih =>
    have hg := grows_addExpr m₁ x
    have hkind : (m₁.addExpr x).2.kind (m₁.addExpr x).1 = .call name [a₁] fn := by
      rw [Model.kind, expr_addExpr_new, kind]
    exact ⟨ih.1.trans hg, .call (ih.2.grows hg) hkind (Nat.le_trans hn ih.1.size_le)⟩

theorem coerceAll_around {β γ : Type} {bs : List β} {cs : List γ} {src : β → ExprId} {tgt : β → Ty} {k : β → ExprId → γ}
    {c c' : Checking} (hn : n ≤ c.model.exprs.size)
    (h : (bs.mapM fun b => k b <$> CheckM.coerce (src b) (tgt b) : CheckM (List γ)) c = .ok cs c') :
    c.model.Grows c'.model ∧ List.Forall₂ (fun b x => ∃ a', x = k b a' ∧ c'.model.Around n (src b) a') bs cs := by
  induction bs generalizing c cs with
  | nil =>
    obtain ⟨rfl, rfl⟩ := pure_eq_ok.mp h
    exact ⟨.refl _, .nil⟩
  | cons b bs ih =>
    rw [List.mapM_cons] at h
    obtain ⟨x, c₁, h₁, h⟩ := bind_eq_ok.mp h
    obtain ⟨xs, c₂, h₂, h⟩ := bind_eq_ok.mp h
    obtain ⟨rfl, rfl⟩ := pure_eq_ok.mp h
    obtain ⟨a', hx₁, rfl⟩ := map_eq_ok.mp h₁
    obtain ⟨m₁, hc₁, rfl⟩ := coerce_eq_ok hx₁
    obtain ⟨hg₁, ha₁⟩ := (coerced_of_coerce hc₁).around hn
    obtain ⟨hg₂, hall⟩ := ih (Nat.le_trans hn hg₁.size_le) h₂
    exact ⟨hg₁.trans hg₂, .cons ⟨a', rfl, ha₁.grows hg₂⟩ hall⟩

end Around
end Model

section Inversion

variable {m : Model} {e otherwise : ExprId} {branches : List (ExprId × ExprId)} {c' : Checking}
  {errors : Array TypeError}

-- What a conditional chooses from.
def choices (branches : List (ExprId × ExprId)) (otherwise : ExprId) : List ExprId := branches.map (·.2) ++ [otherwise]

-- A conditional whose parts have been typed: anonymous branches take a type, and all branches are turned into it.
structure Model.Chooses (m : Model) (branches : List (ExprId × ExprId)) (otherwise : ExprId) (c : Rules.Conditional)
    (m₁ : Model) (branches' : List (ExprId × ExprId)) (otherwise' : ExprId) : Prop where
  rule : Rules.conditional (branches.map fun b => (m.operand b.1, m.operand b.2)) (m.operand otherwise) = .ok c
  wraps : (m.retype c.anons (c.ty.withInst .var)).Wraps (· ∈ choices branches otherwise) m₁
  turned : List.Forall₂ (fun b b' => b'.1 = b.1 ∧ (m.retype c.anons (c.ty.withInst .var)).Turned b.2 c.ty m₁ b'.2 ∧
    m₁.Around m.exprs.size b.2 b'.2) branches branches'
  last : (m.retype c.anons (c.ty.withInst .var)).Turned otherwise c.ty m₁ otherwise' ∧
    m₁.Around m.exprs.size otherwise otherwise'

section Rule

variable {c : Rules.Conditional} {a : ExprId}
  (hrule : Rules.conditional (branches.map fun b => (m.operand b.1, m.operand b.2)) (m.operand otherwise) = .ok c)

include hrule

theorem Model.covers_choices :
    c.Covers ((branches.map (·.1)).map m.operand) ((choices branches otherwise).map m.operand) := by
  have h := Rules.conditional_covers hrule
  simp only [List.map_map] at h
  rw [choices, List.map_append, List.map_map, List.map_map]
  exact h

-- Where ranks agree nothing is made an array.
theorem Model.listable_choice (ha : a ∈ choices branches otherwise) (hlt : a.index < m.exprs.size) :
    ((m.retype c.anons (c.ty.withInst .var)).ty a).Listable c.ty := by
  have htakes := (covers_choices hrule).values _ (List.mem_map_of_mem ha)
  intro hz hd
  by_cases hanon : a ∈ c.anons
  · rw [ty_retype_of_mem hanon hlt] at hz
    exact absurd hz hd
  · rw [ty_retype hanon] at hz
    have hknown : (m.ty a).base ≠ .unknown := fun h => hanon (htakes.left h)
    exact absurd ((htakes.fits hknown).1 ▸ hz) hd

end Rule

theorem Typing.ite_eq_ok (hm : m.Promotes) (hp : ∀ a ∈ choices branches otherwise, a.index < m.exprs.size)
    (h : ite e branches otherwise { model := m, errors } = .ok ⟨⟩ c') :
    ∃ c m₁ branches' otherwise', m.Chooses branches otherwise c m₁ branches' otherwise' ∧
      c' = { model := m₁.setNode e (.ite branches' otherwise') c.result, errors } := by
  rw [ite, checkM_model_bind] at h
  obtain ⟨c, _, hc, h⟩ := bind_eq_ok.mp h
  obtain ⟨hrule, rfl⟩ := ofExcept_eq_ok.mp hc
  rw [bind_of_ok (forM_setTy errors)] at h
  let m₀ := m.retype c.anons (c.ty.withInst .var)
  have hm₀ : m₀.Promotes := sameHeads_retype.promotes hm
  have hsize : m₀.exprs.size = m.exprs.size := size_retype
  have hlist : ∀ a ∈ choices branches otherwise, a.index < m₀.exprs.size ∧ (m₀.ty a).Listable c.ty := fun a ha =>
    ⟨hsize ▸ hp a ha, listable_choice hrule ha (hp a ha)⟩
  have hbranch : ∀ b ∈ branches, b.2 ∈ choices branches otherwise := fun b hb =>
    List.mem_append_left _ (List.mem_map_of_mem hb)
  have hlast : otherwise ∈ choices branches otherwise := List.mem_append_right _ (List.mem_singleton_self _)
  have hmap : (fun b : ExprId × ExprId => (do return (b.1, ← CheckM.coerce b.2 c.ty) : CheckM (ExprId × ExprId))) =
      fun b => (fun v => (b.1, v)) <$> CheckM.coerce b.2 c.ty := by
    funext b
    rw [bind_pure_comp]
  obtain ⟨branches', _, hx, h⟩ := bind_eq_ok.mp h
  have hx := hmap ▸ hx
  obtain ⟨m₁, rfl, hw₁, hall⟩ := coerceAll_wraps (k := fun (b : ExprId × ExprId) v => (b.1, v)) hm₀
    (fun b hb => hlist b.2 (hbranch b hb)) hx
  obtain ⟨-, haround⟩ :=
    coerceAll_around (k := fun (b : ExprId × ExprId) v => (b.1, v)) (n := m.exprs.size) hsize.ge hx
  obtain ⟨otherwise', _, hx, h⟩ := bind_eq_ok.mp h
  obtain ⟨m₂, hcoerce, rfl⟩ := coerce_eq_ok hx
  obtain ⟨hlt, hty⟩ := hlist otherwise hlast
  obtain ⟨hw₂, hturned⟩ := coerce_wraps (hw₁.heads.promotes hm₀) (hw₁.ty_eq hlt ▸ hty) hcoerce
  obtain ⟨hg₂, halast⟩ := (coerced_of_coerce hcoerce).around (hsize ▸ hw₁.grows.size_le)
  have hw : m₀.Wraps (· ∈ choices branches otherwise) m₂ := by
    refine (hw₁.mono fun a ha => ?_).trans (hw₂.mono fun a (ha : a = otherwise) => ha ▸ hlast)
      fun a ha => (hlist a ha).1
    obtain ⟨b, hb, rfl⟩ := List.mem_map.mp ha
    exact hbranch b hb
  obtain ⟨_, _, hset, h⟩ := bind_eq_ok.mp h
  cases hset
  split at h
  · cases h
  · cases h
    refine ⟨c, m₂, branches', otherwise', ⟨hrule, hw, ?_, hturned.of_adds hw₁.toAdds hlt, halast⟩, rfl⟩
    have hboth := (List.forall₂_and_left _ _).mpr ⟨fun b hb => (hlist b.2 (hbranch b hb)).1, hall⟩
    refine List.Forall₂.mp ?_ hboth haround
    rintro b b' ⟨hb, a', rfl, ht⟩ ⟨a'', heq, ha⟩
    obtain rfl : a' = a'' := congrArg Prod.snd heq
    exact ⟨rfl, ht.mono hw₂.toAdds hw₁.toAdds hb, ha.grows hg₂⟩

end Inversion

-- No node is taken away.
theorem stable_size (n : Nat) : Stable fun c => n ≤ c.model.exprs.size where
  report _ h := h
  setTy _ _ h := h.trans size_setTy.ge
  setKind _ _ _ h := by simpa [Checking.onModel, setKind, modifyExpr] using h
  addExpr x _ h := h.trans (grows_addExpr _ x).size_le
  setInit _ _ h := h
  setBody _ _ h := h
  declare _ _ _ h := h
  generate _ _ _ _ _ _ h := ⟨h, h⟩
  typeInst _ _ h _ _ := h

-- What is known before a conditional itself is typed: numbers are promoted as in the library, and no branch is
-- anonymous.
structure Model.Decided (m : Model) (branches : List (ExprId × ExprId)) (otherwise : ExprId) : Prop where
  promotes : m.Promotes
  named : ∀ a ∈ choices branches otherwise, (m.kind a).isAnon = false

section Bounds

variable {pass : Pass} {fuel : Nat} {c c' : Checking} {m m₁ : Model} {e otherwise otherwise' a a' : ExprId}
  {branches branches' : List (ExprId × ExprId)} {r : Rules.Conditional} {xs : List Operand} {k : ExprKind}

theorem Model.Decided.present (h : m.Decided branches otherwise) (ha : a ∈ choices branches otherwise) :
    a.index < m.exprs.size :=
  lt_of_kind_ne_anon fun hk => by
    have hn := h.named a ha
    rw [hk] at hn
    cases hn

-- Without anonymous branches none is left to be typed.
theorem Model.Decided.anons_eq (hm : m.Decided branches otherwise)
    (hr : r.Covers xs ((choices branches otherwise).map m.operand)) : r.anons = [] := by
  refine List.eq_nil_iff_forall_not_mem.mpr fun a ha => ?_
  obtain ⟨-, y, hy, hanon, -⟩ := hr.anons a ha
  obtain ⟨x, hx, rfl⟩ := List.mem_map.mp hy
  exact Bool.noConfusion ((hm.named x hx).symm.trans hanon)

-- A branch stands for the conditional as it has been turned.
theorem Model.Decided.sub_result (hm : m.Decided branches otherwise) (he : e.index < m.exprs.size)
    (hr : r.Covers xs ((choices branches otherwise).map m.operand)) (ha : a ∈ choices branches otherwise)
    (hw : m.Adds m₁) (ht : m.Turned a r.ty m₁ a') :
    ((m₁.setNode e k r.result).ty a').sub ((m₁.setNode e k r.result).ty e) := by
  have htakes := hr.values _ (List.mem_map_of_mem ha)
  have hknown : (m.ty a).base ≠ .unknown := htakes.typed (hm.named a ha)
  by_cases hae : a' = e
  · rw [hae]
    exact Ty.sub_self _
  · rw [ty_setNode_ne hae, ty_setNode (Nat.lt_of_lt_of_le he hw.grows.size_le)]
    exact htakes.sub_result hknown ht.becomes

theorem Typing.present_of_gather (hk : c.model.kind e = .ite branches otherwise)
    (h : gather (walk pass fuel) (.ite branches otherwise) c = .ok ⟨⟩ c') : e.index < c'.model.exprs.size := by
  have he : e.index < c.model.exprs.size := lt_of_kind_ne_anon fun h => by rw [hk] at h; cases h
  have hup : Upholds (fun c => e.index + 1 ≤ c.model.exprs.size) (gather (walk pass fuel) (.ite branches otherwise)) :=
    .forM fun s _ => upholds_walk (stable_size _) pass fuel s
  exact final_of_ok h ▸ (hup c he).1

-- `m'` has a conditional for `e` whose branches, each of them one of those that `m` has or a call around it, stand for
-- the whole. This is free where one of its parts is, and optional where one of its branches is.
structure Model.Bounds (m m' : Model) (e : ExprId) (branches branches' : List (ExprId × ExprId))
    (otherwise otherwise' : ExprId) : Prop where
  kind : m'.kind e = .ite branches' otherwise'
  ann : (m'.expr e).ann = (m.expr e).ann
  all : List.Forall₂ (fun b b' => b'.1 = b.1 ∧ m'.Around m.exprs.size b.2 b'.2) branches branches'
  last : m'.Around m.exprs.size otherwise otherwise'
  sub : ∀ a ∈ choices branches' otherwise', (m'.ty a).sub (m'.ty e)
  free : (∃ a ∈ branches.map (·.1) ++ choices branches otherwise, (m.ty a).isVar) → (m'.ty e).isVar
  absent : (∃ a ∈ choices branches otherwise, (m.ty a).isOpt) → (m'.ty e).isOpt

theorem Model.Decided.bounds {errors : Array TypeError} (hm : m.Decided branches otherwise)
    (he : e.index < m.exprs.size) (h : ite e branches otherwise { model := m, errors } = .ok ⟨⟩ c') :
    ∃ branches' otherwise', m.Bounds c'.model e branches branches' otherwise otherwise' := by
  obtain ⟨r, m₂, branches', otherwise', hchooses, rfl⟩ := ite_eq_ok hm.promotes (fun a => hm.present) h
  have hcovers := covers_choices hchooses.rule
  obtain ⟨-, hwraps, hturned, hlast, haround⟩ := hchooses
  rw [hm.anons_eq hcovers, retype_nil] at hwraps hturned hlast
  have he₂ : e.index < m₂.exprs.size := Nat.lt_of_lt_of_le he hwraps.grows.size_le
  refine ⟨branches', otherwise', kind_setNode he₂, ?_, ?_, haround.setNode he, ?_, ?_, ?_⟩
  · rw [expr_setNode_self he₂, hwraps.grows.expr_eq he]
  · exact hturned.imp fun b b' h => ⟨h.1, h.2.2.setNode he⟩
  · intro a' ha'
    obtain ha' | ha' := List.mem_append.mp ha'
    · obtain ⟨b', hb', rfl⟩ := List.mem_map.mp ha'
      obtain ⟨b, hb, -, ht, -⟩ := forall₂_exists hturned.flip b' hb'
      exact hm.sub_result he hcovers (List.mem_append_left _ (List.mem_map_of_mem hb)) hwraps.toAdds ht
    · obtain rfl := List.mem_singleton.mp ha'
      exact hm.sub_result he hcovers (List.mem_append_right _ (List.mem_singleton_self _)) hwraps.toAdds hlast
  · rintro ⟨a, ha, hvar⟩
    rw [ty_setNode he₂]
    refine r.result_fields.2.2.2.2.1 ?_
    obtain ha | ha := List.mem_append.mp ha
    · exact .inl ((hcovers.conditions _ (List.mem_map_of_mem ha)).free hvar)
    · exact .inr ((hcovers.values _ (List.mem_map_of_mem ha)).free hvar)
  · rintro ⟨a, ha, hopt⟩
    rw [ty_setNode he₂]
    have htakes := hcovers.values _ (List.mem_map_of_mem ha)
    obtain ⟨-, -, -, habsent⟩ := htakes.fits (htakes.typed (hm.named a ha))
    exact r.result_fields.2.2.2.2.2 (habsent hopt)

-- A conditional that has been typed is bounded by its type.
theorem conditional_bounds_branches (hk : c.model.kind e = .ite branches otherwise)
    (hready : ∀ c₁, gather (walk pass fuel) (.ite branches otherwise) c = .ok ⟨⟩ c₁ →
      c₁.model.Decided branches otherwise)
    (h : walk pass (fuel + 1) (.expr e) c = .ok ⟨⟩ c') :
    ∃ c₁ c₂ branches' otherwise', gather (walk pass fuel) (.ite branches otherwise) c = .ok ⟨⟩ c₁ ∧
      annotations (walk pass fuel) (c₂.model.expr e).ann c₂ = .ok ⟨⟩ c' ∧
      c₁.model.Bounds c₂.model e branches branches' otherwise otherwise' := by
  rw [walk, site, Typing.expr, checkM_model_bind] at h
  obtain ⟨⟨⟩, c₂, hnode, hann⟩ := bind_eq_ok.mp h
  rw [hk, node_eq] at hnode
  obtain ⟨⟨⟩, ⟨m₁, errors⟩, hparts, hite⟩ := bind_eq_ok.mp hnode
  have hm := hready _ hparts
  have he := present_of_gather hk hparts
  obtain ⟨branches', otherwise', hbounds⟩ := hm.bounds he hite
  exact ⟨_, c₂, branches', otherwise', hparts, hann, hbounds⟩

end Bounds

section Samples

-- `if true then 1 else x endif` with `var float: x`.
def choice : Model where
  exprs := #[{ kind := .bool true, ty := .parBool }, { kind := .int 1, ty := .parInt },
    { kind := .ident "x" (some ⟨0⟩), ty := .varFloat }, { kind := .ite [(⟨0⟩, ⟨1⟩)] ⟨2⟩ }]
  decls := #[{ name := "x", ti := ⟨0⟩, ty := .varFloat }]
  typeInsts := #[{ ty := .varFloat }]

-- `if true then int2float(1) else x endif`
def choiceTyped : Model :=
  (choice.withCoercions.addExpr { kind := .call "int2float" [⟨1⟩] (some ⟨2⟩), ty := .parFloat }).2.setNode
    ⟨3⟩ (.ite [(⟨0⟩, ⟨6⟩)] ⟨2⟩) .varFloat

theorem conditional_bounds_widened :
    walk .check 2 (.expr ⟨3⟩) { model := choice.withCoercions } = .ok ⟨⟩ { model := choiceTyped } ∧
      choiceTyped.kind ⟨3⟩ = .ite [(⟨0⟩, ⟨6⟩)] ⟨2⟩ ∧ (choiceTyped.ty ⟨6⟩).sub (choiceTyped.ty ⟨3⟩) ∧
      (choiceTyped.ty ⟨2⟩).sub (choiceTyped.ty ⟨3⟩) ∧ (choiceTyped.ty ⟨3⟩).isVar := by
  have hrun : walk .check 2 (.expr ⟨3⟩) { model := choice.withCoercions } = .ok ⟨⟩ { model := choiceTyped } := by
    cbv
  have hparts : gather (walk .check 1) (.ite [(⟨0⟩, ⟨1⟩)] ⟨2⟩) { model := choice.withCoercions } =
      .ok ⟨⟩ { model := choice.withCoercions } := by cbv
  have hexpr : ∀ i < 4, choice.withCoercions.expr ⟨i⟩ = choice.expr ⟨i⟩ := fun i hi =>
    (extends_withCoercions choice).expr_eq hi
  have hdecided : choice.withCoercions.Decided [(⟨0⟩, ⟨1⟩)] ⟨2⟩ := by
    refine ⟨promotes_withCoercions (by decide), ?_⟩
    simp only [choices, kind, List.map_cons, List.map_nil, List.cons_append, List.nil_append, List.forall_mem_cons]
    rw [hexpr 1 (by decide), hexpr 2 (by decide)]
    exact ⟨rfl, rfl, by simp⟩
  have hk : choice.withCoercions.kind ⟨3⟩ = .ite [(⟨0⟩, ⟨1⟩)] ⟨2⟩ := by
    rw [kind, hexpr 3 (by decide)]
    rfl
  have hx : (choice.withCoercions.ty ⟨2⟩).isVar := by
    rw [Model.ty, hexpr 2 (by decide)]
    rfl
  have hk' : choiceTyped.kind ⟨3⟩ = .ite [(⟨0⟩, ⟨6⟩)] ⟨2⟩ := by rw [choiceTyped, kind_setNode (by decide +kernel)]
  have hann₀ : (choice.withCoercions.expr ⟨3⟩).ann = [] := by
    rw [hexpr 3 (by decide)]
    rfl
  -- From here on it does not matter what the models are like.
  generalize choice.withCoercions = m, choiceTyped = m' at hrun hparts hdecided hk hk' hx hann₀ ⊢
  obtain ⟨c₁, c₂, branches', otherwise', h₁, hann, hbounds⟩ := conditional_bounds_branches (c := { model := m }) hk
    (fun c₁ h => (EStateM.Result.ok.inj (hparts.symm.trans h)).2 ▸ hdecided) hrun
  obtain rfl := (EStateM.Result.ok.inj (hparts.symm.trans h₁)).2
  rw [hbounds.ann, hann₀] at hann
  obtain rfl := (EStateM.Result.ok.inj hann).2
  obtain ⟨rfl, rfl⟩ := ExprKind.ite.inj (hbounds.kind.symm.trans hk')
  exact ⟨hrun, hk', hbounds.sub _ (by decide), hbounds.sub _ (by decide), hbounds.free ⟨⟨2⟩, by decide, hx⟩⟩

-- `if true then o else x endif` with `opt int: o`, `float: x` and `function string: int2float(opt int: y)`.
def overridden : Model where
  exprs := #[{ kind := .bool true, ty := .parBool }, { kind := .ident "o" (some ⟨0⟩), ty := Ty.parInt.withOpt true },
    { kind := .ident "x" (some ⟨1⟩), ty := .parFloat }, { kind := .ite [(⟨0⟩, ⟨1⟩)] ⟨2⟩ }]
  decls := #[{ name := "o", ti := ⟨0⟩, ty := Ty.parInt.withOpt true }, { name := "x", ti := ⟨1⟩, ty := .parFloat },
    { name := "y", ti := ⟨0⟩, ty := Ty.parInt.withOpt true }]
  typeInsts := #[{ ty := Ty.parInt.withOpt true }, { ty := .parFloat }, { ty := .parString }]
  funcs := #[{ name := "int2float", params := [⟨2⟩], ret := ⟨2⟩ }]
  overloads := [("int2float", [⟨0⟩])]

-- `if true then int2float(o) else x endif`
def overriddenTyped : Model :=
  (overridden.withCoercions.addExpr { kind := .call "int2float" [⟨1⟩] (some ⟨0⟩), ty := .parString }).2.setNode
    ⟨3⟩ (.ite [(⟨0⟩, ⟨6⟩)] ⟨2⟩) (Ty.parFloat.withOpt true)

-- A branch is put into whatever is declared as its coercion.
theorem branch_coerced_to_string :
    assignTypes .check (.expr ⟨3⟩) { model := overridden.withCoercions } = .ok ⟨⟩ { model := overriddenTyped } ∧
      overriddenTyped.kind ⟨3⟩ = .ite [(⟨0⟩, ⟨6⟩)] ⟨2⟩ ∧
      ¬(overriddenTyped.ty ⟨6⟩).sub (overriddenTyped.ty ⟨3⟩) := by
  refine ⟨by cbv, by rw [overriddenTyped, kind_setNode (by decide +kernel)], ?_⟩
  decide +kernel

end Samples
end Parvar
