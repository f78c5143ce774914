import Parvar.Proofs.Typing.Advance
import Parvar.Typing.Check

/-!
Steps of the checker that complete nodes. `Completes` says what a run leads to, whether it ends in a
value or in an error: what was complete stays so, errors stay on record, and the model remains well
formed.
-/

namespace Parvar

open Model

structure Checking.Advances (full : Prop) (c c' : Checking) : Prop where
  model : c.model.Advances full c'.model
  formed : c'.model.Formed full
  errors : c.errors.size ≤ c'.errors.size

-- A step that can be taken from every well formed model on top of `w`.
def Completes {α : Type} (full : Prop) (w : Model) (x : CheckM α) (Q : α → Model → Prop) : Prop :=
  ∀ c, w.Advances full c.model → c.model.Formed full →
    c.Advances full (final x c) ∧ ∀ a c', x c = .ok a c' → Q a c'.model

-- Its type is known, and it is made of what is complete. Annotations do not count yet.
structure Model.Typed (m : Model) (e : ExprId) : Prop where
  known : (m.ty e).Known
  made : m.Made (m.kind e)

theorem Model.Typed.mono {m m₁ : Model} {e : ExprId} (h : m.Completing m₁) (he : m.Typed e) : m₁.Typed e :=
  ⟨h.tys e he.known, h.made_kind (h.made he.made)⟩

-- An expression all of whose parts are done, and that is about to be typed.
structure Model.Assembled (full : Prop) (m : Model) (e : ExprId) : Prop where
  filled : m.kind e ≠ .anon
  compound : ¬(m.kind e).isConstant
  made : full → m.Made (m.kind e)

variable {α β : Type} {full : Prop} {w w₁ : Model} {e : ExprId}

theorem Model.Assembled.mono (h : w.Advances full w₁) (he : w.Assembled full e) : w₁.Assembled full e where
  filled := h.filled e he.filled
  compound := h.compound e he.filled he.compound
  made hf := (h.completing hf).made_kind ((h.completing hf).made (he.made hf))

namespace Checking.Advances

variable {c c₁ c₂ : Checking}

theorem refl (h : c.model.Formed full) : c.Advances full c := ⟨.refl _ _, h, Nat.le_refl _⟩

theorem trans (h₁ : c.Advances full c₁) (h₂ : c₁.Advances full c₂) : c.Advances full c₂ :=
  ⟨h₁.model.trans h₂.model, h₂.formed, Nat.le_trans h₁.errors h₂.errors⟩

end Checking.Advances

namespace Completes

section Rules

variable {P : α → Model → Prop} {Q : β → Model → Prop}

theorem pure {a : α} (h : ∀ w', w.Advances full w' → P a w') : Completes full w (pure a : CheckM α) P := by
  refine fun c hw hc => ⟨.refl hc, fun b c' hx => ?_⟩
  obtain ⟨rfl, rfl⟩ := pure_eq_ok.mp hx
  exact h _ hw

theorem throw {h : Halt TypeError} : Completes full w (throw h : CheckM α) P :=
  fun _ _ hc => ⟨.refl hc, fun _ _ hx => (throw_ne_ok.mp hx).elim⟩

theorem bind {x : CheckM α} {f : α → CheckM β} (hx : Completes full w x P)
    (hf : ∀ a w', w.Advances full w' → P a w' → Completes full w' (f a) Q) :
    Completes full w (x >>= f) Q := by
  intro c hw hc
  have ⟨h₁, hp⟩ := hx c hw hc
  cases e : x c with
  | error h t =>
    rw [final_of_error e] at h₁
    rw [final_bind_of_error e]
    refine ⟨h₁, fun b c' h => ?_⟩
    have ⟨_, _, hok, _⟩ := bind_eq_ok.mp h
    cases e.symm.trans hok
  | ok a t =>
    rw [final_of_ok e] at h₁
    rw [final_bind_of_ok e]
    have ⟨h₂, hq⟩ := hf a _ (hw.trans h₁.model) (hp a t e) t (.refl _ _) h₁.formed
    refine ⟨h₁.trans h₂, fun b c' h => ?_⟩
    have ⟨_, _, hok, hb⟩ := bind_eq_ok.mp h
    cases e.symm.trans hok
    exact hq b c' hb

theorem mono {x : CheckM α} {P' : α → Model → Prop} (hx : Completes full w x P)
    (h : ∀ a w', w.Advances full w' → P a w' → P' a w') : Completes full w x P' := by
  intro c hw hc
  have ⟨h₁, hp⟩ := hx c hw hc
  refine ⟨h₁, fun a c' e => h a _ (hw.trans ?_) (hp a c' e)⟩
  exact final_of_ok e ▸ h₁.model

-- A check that is made under a condition.
theorem when {p : Prop} [Decidable p] {x : CheckM PUnit} {f : PUnit → CheckM β} {R : PUnit → Model → Prop}
    (hx : Completes full w x R) (hf : ∀ w', w.Advances full w' → Completes full w' (f ⟨⟩) Q) :
    Completes full w (if p then x >>= f else f ⟨⟩) Q := by
  split
  · exact bind hx fun _ w' hw _ => hf w' hw
  · exact hf w (.refl _ _)

theorem forM {f : α → CheckM PUnit} {as : List α} {P : α → Model → Prop}
    (hP : ∀ a w w', w.Advances full w' → P a w → P a w')
    (hf : ∀ a ∈ as, ∀ w', w.Advances full w' → Completes full w' (f a) fun _ => P a) :
    Completes full w (as.forM f) fun _ w' => ∀ a ∈ as, P a w' := by
  induction as generalizing w with
  | nil => exact pure fun _ _ => by simp
  | cons a as ih =>
    apply bind (hf a List.mem_cons_self w (.refl _ _))
    intro _ w₁ h₁ ha
    apply (ih fun b hb w₂ h₂ => hf b (List.mem_cons_of_mem _ hb) w₂ (h₁.trans h₂)).mono
    exact fun _ w₂ h₂ has => List.forall_mem_cons.mpr ⟨hP a _ _ h₂ ha, has⟩

theorem mapM {f : α → CheckM β} {as : List α}
    (hQ : ∀ b w w', w.Advances full w' → Q b w → Q b w')
    (hf : ∀ a ∈ as, ∀ w', w.Advances full w' → Completes full w' (f a) Q) :
    Completes full w (as.mapM f) fun bs w' => bs.length = as.length ∧ ∀ b ∈ bs, Q b w' := by
  induction as generalizing w with
  | nil => exact pure fun _ _ => by simp
  | cons a as ih =>
    rw [List.mapM_cons]
    apply bind (hf a List.mem_cons_self w (.refl _ _))
    intro b w₁ h₁ hb
    apply bind (ih fun a ha w₂ h₂ => hf a (List.mem_cons_of_mem _ ha) w₂ (h₁.trans h₂))
    intro bs w₂ h₂ ⟨hl, hbs⟩
    refine pure fun w₃ h₃ => ⟨by simp [hl], List.forall_mem_cons.mpr ⟨hQ b _ _ (h₂.trans h₃) hb, ?_⟩⟩
    exact fun b hb => hQ b _ _ h₃ (hbs b hb)

theorem foldlM {f : β → α → CheckM β} {as : List α} {b : β}
    (hQ : ∀ b w w', w.Advances full w' → Q b w → Q b w') (hb : Q b w)
    (hf : ∀ b, ∀ a ∈ as, ∀ w', w.Advances full w' → Q b w' → Completes full w' (f b a) Q) :
    Completes full w (as.foldlM f b) Q := by
  induction as generalizing w b with
  | nil => exact pure fun w' hw => hQ b w w' hw hb
  | cons a as ih =>
    rw [List.foldlM_cons]
    apply bind (hf b a List.mem_cons_self w (.refl _ _) hb)
    intro b w₁ h₁ hb
    exact ih hb fun b a ha w₂ h₂ => hf b a (List.mem_cons_of_mem _ ha) w₂ (h₁.trans h₂)

theorem model : Completes full w CheckM.model fun m w' => w' = m ∧ m.Formed full := by
  refine fun c _ hc => ⟨.refl hc, fun m c' hx => ?_⟩
  obtain ⟨rfl, rfl⟩ : c' = c ∧ c.model = m := by simpa [CheckM.model] using hx
  exact ⟨rfl, hc⟩

theorem operand (e : ExprId) : Completes full w (CheckM.operand e) fun x w' => x = w'.operand e := by
  refine fun c _ hc => ⟨.refl hc, fun x c' hx => ?_⟩
  obtain ⟨rfl, rfl⟩ : c' = c ∧ c.model.operand e = x := by simpa [CheckM.operand, CheckM.model] using hx
  rfl

theorem ofExcept (x : Except TypeError α) : Completes full w (CheckM.ofExcept x) fun a _ => x = .ok a := by
  cases x
  case ok a => exact pure fun _ _ => rfl
  case error => exact throw

theorem fail (cause : TypeError.Cause) (span : Span) : Completes full w (CheckM.fail cause span : CheckM α) P :=
  throw

theorem report (cause : TypeError.Cause) (span : Span) :
    Completes full w (CheckM.report cause span) fun _ _ => True := by
  refine fun c _ hc => ⟨⟨.refl _ _, hc, ?_⟩, fun _ _ _ => trivial⟩
  exact Nat.le_of_lt (by simp [CheckM.report, final, modify, modifyGet, MonadStateOf.modifyGet, EStateM.modifyGet])

theorem changeModel {f : Model → Model} {Q : Model → Prop}
    (hf : ∀ m, w.Advances full m → m.Formed full → m.Advances full (f m) ∧ (f m).Formed full ∧ Q (f m)) :
    Completes full w (CheckM.changeModel f) fun _ => Q := by
  intro c hw hc
  have ⟨ha, hf, hq⟩ := hf c.model hw hc
  refine ⟨⟨ha, hf, Nat.le_refl _⟩, fun _ c' hx => ?_⟩
  cases hx
  exact hq

end Rules

section Changes

variable {t : Ty}

theorem retype {f : Model → Model} (hf : ∀ m, w.Advances full m → m.Retypes full (f m)) :
    Completes full w (CheckM.changeModel f) fun _ _ => True :=
  changeModel fun m hw hm => ⟨(hf m hw).advances, (hf m hw).formed hm, trivial⟩

-- A type may be set if it is known, and one that is not known only where there is no constant.
theorem setTy (hf : full → t.Known) (he : t.Known ∨ w.kind e ≠ .anon ∧ ¬(w.kind e).isConstant) :
    Completes full w (CheckM.setTy e t) fun _ w' => full → w.kind e ≠ .anon → (w'.ty e).Known := by
  refine changeModel fun m hw hm => ?_
  have hr : m.Retypes full (m.setTy e t) := retypes_setTy hf
    (he.imp_right fun h => ⟨hw.filled e h.1, hw.compound e h.1 h.2⟩)
  refine ⟨hr.advances, hr.formed hm, fun hfull hne => ?_⟩
  rw [ty_setTy, if_pos ⟨rfl, lt_of_kind_ne_anon (hw.filled e hne)⟩]
  exact hf hfull

end Changes
end Completes

theorem Model.Settable.mono {k : ExprKind} (h : w.Advances full w₁) (hk : w.Settable full k) :
    w₁.Settable full k where
  anon := hk.anon
  compound := hk.compound
  comp := hk.comp
  filled e he := h.filled e (hk.filled e he)
  made hf := (h.completing hf).made (hk.made hf)

namespace Completes

theorem setKind {k : ExprKind} (he : w.kind e ≠ .anon) (hk : w.Settable full k) :
    Completes full w (CheckM.setKind e k) fun _ w' => w'.Assembled full e := by
  refine changeModel fun m hw hm => ?_
  have hk := hk.mono hw
  have hadv := advances_setKind (e := e) hk
  refine ⟨hadv, formed_setKind hk hm, hadv.filled e (hw.filled e he), ?_, fun hf => ?_⟩
  all_goals rw [(m.kind_setKind e k).resolve_right fun h => hw.filled e he h.2]
  · exact hk.compound
  · exact (hadv.completing hf).made (hk.made hf)

-- The last step at an expression gives it its type.
theorem assemble {t : Ty} (h : w.Assembled full e) (ht : full → t.Known) :
    Completes full w (CheckM.setTy e t) fun _ w' => full → w'.Typed e := by
  apply (setTy ht (.inr ⟨h.filled, h.compound⟩)).mono
  exact fun _ w₁ h₁ hk hf => ⟨hk hf h.filled, (h.mono h₁).made hf⟩

theorem setNode {k : ExprKind} {t : Ty} (he : w.kind e ≠ .anon) (hk : w.Settable full k)
    (ht : full → t.Known) :
    Completes full w (do CheckM.setKind e k; CheckM.setTy e t) fun _ w' => full → w'.Typed e :=
  bind (setKind he hk) fun _ _ _ h => assemble h ht

theorem setInit {d : DeclId} (he : w.Usable full e) :
    Completes full w (CheckM.changeModel (·.setInit d (some e))) fun _ _ => True :=
  changeModel fun _ hw hm =>
    ⟨advances_setInit (he.mono hw), formed_setInit (he.mono hw).filled hm, trivial⟩

theorem setBody {f : FuncId} (he : w.Usable full e) :
    Completes full w (CheckM.changeModel (·.modifyFunc f ({ · with body := some e }))) fun _ _ => True :=
  changeModel fun _ hw hm =>
    ⟨advances_setBody (he.mono hw), formed_setBody (he.mono hw).filled hm, trivial⟩

end Completes

section Coercion

variable {m m' : Model} {e' : ExprId} {f : FuncId} {t : Ty} {tys : List Ty} {name : String}

@[simp] theorem Ty.known_withInst (i : Inst) : (t.withInst i).Known ↔ t.Known := Iff.rfl

@[simp] theorem Ty.known_withSet (b : Bool) : (t.withSet b).Known ↔ t.Known := Iff.rfl

@[simp] theorem Ty.known_withOpt (b : Bool) : (t.withOpt b).Known ↔ t.Known := Iff.rfl

@[simp] theorem Ty.known_withCv (b : Bool) : (t.withCv b).Known ↔ t.Known := Iff.rfl

@[simp] theorem Ty.known_withDim (n : Int) : (t.withDim n).Known ↔ t.Known := Iff.rfl

@[simp] theorem Ty.known_elem : t.elem.Known ↔ t.Known := Iff.rfl

theorem Model.matchOverload_eq_some (h : m.matchOverload? name tys = some f) :
    m.Registered f ∧ (m.func f).params.length = tys.length := by
  have ⟨fs, hfs, hf⟩ := Option.bind_eq_some_iff.mp h
  have ⟨l₁, l₂, hl, _⟩ := List.lookup_eq_some_iff.mp hfs
  have hacc := List.find?_some hf
  simp only [accepts, Bool.and_eq_true, decide_eq_true_eq] at hacc
  exact ⟨⟨name, fs, by simp [hl], List.mem_of_find?_eq_some hf⟩, hacc.1⟩

section ReturnTypes

-- What holds of the bases of the arguments and of the function holds of the base of a call.
variable {B : Base → Prop}

theorem Model.Binding.base_bind {vars : List (String × Ty)} (hv : ∀ v ∈ vars, B v.2.base) (ht : B t.base) :
    ∀ v ∈ Binding.bind vars name t, B v.2.base := by
  rw [Binding.bind]
  split
  · simp only [List.mem_append, List.mem_singleton]
    rintro v (hm | rfl)
    · exact hv v hm
    · exact ht
  · next old hold =>
    have hold : B old.base := by
      have ⟨l₁, l₂, hl, _⟩ := List.lookup_eq_some_iff.mp hold
      exact hv (name, old) (by simp [hl])
    have hw : B (Binding.widen old t).base := by
      have hbase : B (if old.base.sub t.base then old.withBase t.base else old).base := by
        split
        · exact ht
        · exact hold
      rw [Binding.widen]
      split
      · exact hbase
      · exact hbase
    intro v hm
    obtain ⟨u, hu, rfl⟩ := List.mem_map.mp hm
    simp only
    split
    · exact hw
    · exact hv u hu

theorem Model.base_bindings (ht : ∀ t ∈ tys, B t.base) : ∀ v ∈ (m.bindings f tys).vars, B v.2.base := by
  refine List.foldlRecOn (motive := fun b : Binding => ∀ v ∈ b.vars, B v.2.base) _ _ (by simp) ?_
  intro b hb ⟨p, a⟩ hmem
  have ha : B a.base := ht a (List.of_mem_zip hmem).2
  simp only [Binding.add]
  split
  · exact hb
  · refine Binding.base_bind hb ?_
    split
    · exact ha
    · exact ha

theorem Model.base_returnTy {span : Span} (h : m.returnTy f tys span = .ok t)
    (hr : B (m.typeInst (m.func f).ret).ty.base) (ht : ∀ t ∈ tys, B t.base) : B t.base := by
  have hdim : ∀ {u : Ty}, B u.base →
      B (if u.dim = -1 then u.withDim ((m.bindings f tys).rank.getD 1) else u).base := by
    intro u hu
    split
    · exact hu
    · exact hu
  simp only [returnTy] at h
  split at h
  · cases h
    exact hdim hr
  · next var _ =>
    cases hl : (m.bindings f tys).vars.lookup var with
    | none => simp [hl, bind, Except.bind, throw, throwThe, MonadExceptOf.throw] at h
    | some bound =>
      simp only [hl] at h
      cases h
      have ⟨l₁, l₂, hs, _⟩ := List.lookup_eq_some_iff.mp hl
      have hmem : (var, bound) ∈ (m.bindings f tys).vars := by simp [hs]
      have hb : B bound.base := base_bindings ht _ hmem
      refine hdim ?_
      simp only [instantiate]
      split <;> split <;> exact hb

-- The type of a call is known if those of its arguments and of the function are.
theorem Model.known_returnTy {span : Span} (h : m.returnTy f tys span = .ok t)
    (hr : (m.typeInst (m.func f).ret).ty.Known) (ht : ∀ t ∈ tys, t.Known) : t.Known :=
  base_returnTy (B := (· ≠ .unknown)) h hr ht

end ReturnTypes

theorem Model.wrap_eq_ok (h : m.wrap name e = .ok (e', m')) : ∃ f ty,
    m.matchOverload? name [m.ty e] = some f ∧ m.returnTy f [m.ty e] (m.spanOf e) = .ok ty ∧
      m.addExpr { kind := .call name [e] (some f), ty := ty.withCv (m.ty e).cv, span := m.spanOf e } =
        (e', m') := by
  simp only [wrap] at h
  split at h
  · cases h
  · next f hf =>
    cases hr : m.returnTy f [(m.expr e).ty] (m.expr e).span with
    | error => simp [hr, bind, Except.bind] at h
    | ok ty =>
      simp only [hr, bind, Except.bind, Pure.pure, Except.pure, Except.ok.injEq] at h
      exact ⟨f, ty, hf, hr, h⟩

-- A coercion is a sequence of calls around an expression.
theorem Model.coerce_induction {P : ExprId → Model → Prop} (h : m.coerce e t = .ok (e', m')) (he : P e m)
    (hw : ∀ name e₁ m₁ e₂ m₂, P e₁ m₁ → m₁.wrap name e₁ = .ok (e₂, m₂) → P e₂ m₂) : P e' m' := by
  simp only [coerce] at h
  split at h
  · cases h
    exact he
  · cases ha : m.asArray e t with
    | error => simp [ha, bind, Except.bind] at h
    | ok r =>
      obtain ⟨e₁, m₁⟩ := r
      have h : m₁.widen e₁ t (m.expr e).span = .ok (e', m') := by
        simpa [ha, bind, Except.bind] using h
      have h₁ : P e₁ m₁ := by
        simp only [asArray] at ha
        split at ha
        · split at ha
          · cases ha
          · exact hw _ _ _ _ _ he ha
        · cases ha
          exact he
      simp only [widen] at h
      split at h
      · cases h
        exact h₁
      · split at h
        · exact hw _ _ _ _ _ h₁ h
        · cases h

theorem Model.usable_wrap (hm : m.Formed full) (he : m.Usable full e) (h : m.wrap name e = .ok (e', m')) :
    m.Advances full m' ∧ m'.Formed full ∧ m'.Usable full e' := by
  have ⟨f, ty, hf, hr, hx⟩ := wrap_eq_ok h
  have ⟨hreg, hlen⟩ := matchOverload_eq_some hf
  let x : Expr := { kind := .call name [e] (some f), ty := ty.withCv (m.ty e).cv, span := m.spanOf e }
  have hknown : full → x.ty.Known := by
    intro hfull
    have hty : ty.Known := known_returnTy hr (hm.tabled hfull f hreg)
      (List.forall_mem_singleton.mpr (he.complete hfull e .refl).known)
    exact hty
  have hmade : full → m.Made x.kind := fun hfull =>
    ⟨⟨f, rfl, hlen⟩, List.forall_mem_singleton.mpr (he.complete hfull)⟩
  have hadd : m.Addable full x := by
    refine ⟨by simp [x], by simp [x], rfl, by simp [x, ExprKind.isConstant], ?_,
      fun hfull => ⟨hmade hfull, hknown hfull⟩⟩
    intro a ha
    obtain rfl : a = e := by simpa [x, ExprKind.parts] using ha
    exact he.filled
  have h := And.intro (advances_addExpr hadd) (And.intro (formed_addExpr hadd hm) (usable_addExpr hadd))
  rwa [hx] at h

theorem Completes.coerce (he : w.Usable full e) (t : Ty) :
    Completes full w (CheckM.coerce e t) fun e' w' => w'.Usable full e' := by
  intro c hw hm
  have hx : CheckM.coerce e t c = (CheckM.ofExcept (c.model.coerce e t) >>= fun r => do
      CheckM.changeModel fun _ => r.2
      return r.1) c := rfl
  cases h : c.model.coerce e t with
  | error err =>
    rw [h] at hx
    rw [final_of_error hx]
    exact ⟨.refl hm, fun _ _ he => by cases hx.symm.trans he⟩
  | ok r =>
    rw [h] at hx
    obtain ⟨h₁, h₂, h₃⟩ := coerce_induction (P := fun e₁ m₁ =>
        c.model.Advances full m₁ ∧ m₁.Formed full ∧ m₁.Usable full e₁) h ⟨.refl _ _, hm, he.mono hw⟩ <| by
      rintro name e₁ m₁ e₂ m₂ ⟨h₁, h₂, h₃⟩ hwrap
      obtain ⟨h₄, h₅⟩ := usable_wrap h₂ h₃ hwrap
      exact ⟨h₁.trans h₄, h₅⟩
    rw [final_of_ok hx]
    refine ⟨⟨h₁, h₂, Nat.le_refl _⟩, fun _ _ he => ?_⟩
    cases hx.symm.trans he
    exact h₃

theorem Completes.coerceAll {es : List ExprId} (he : ∀ a ∈ es, w.Usable full a) (t : Ty) :
    Completes full w (es.mapM (CheckM.coerce · t)) fun es' w' => ∀ a ∈ es', w'.Usable full a :=
  (mapM (fun _ _ _ hw h => h.mono hw) fun a ha _ hw => .coerce ((he a ha).mono hw) t).mono
    fun _ _ _ h => h.2

end Coercion
end Parvar
