import Parvar.Proofs.Typing.Agreement
import Parvar.Proofs.Typing.Stable

/-!
What the typing of a node makes of it when its parts have been typed: some of the parts are wrapped into
coercions, and on the wrapped parts the node is settled.
-/

namespace Parvar

open Model Typing

section Inversion

variable {α β : Type} {m m' m₁ : Model} {a a' : ExprId} {t : Ty} {b : β}

namespace Runs

theorem ofExcept_bind {r : Except TypeError α} {f : α → CheckM β} (h : Runs (CheckM.ofExcept r >>= f) m b m') :
    ∃ a, r = .ok a ∧ Runs (f a) m b m' := by
  have ⟨a, _, hx, hf⟩ := bind_eq_ok.mp h
  obtain ⟨hr, rfl⟩ := ofExcept_eq_ok.mp hx
  exact ⟨a, hr, hf⟩

theorem coerce_bind {f : ExprId → CheckM β} (h : Runs (CheckM.coerce a t >>= f) m b m') :
    ∃ a' m₁, m.coerce a t = .ok (a', m₁) ∧ Runs (f a') m₁ b m' := by
  have ⟨a', _, hx, hf⟩ := bind_eq_ok.mp h
  obtain ⟨m₁, hc, rfl⟩ := coerce_eq_ok hx
  exact ⟨a', m₁, hc, hf⟩

theorem not_fail {cause : TypeError.Cause} {span : Span} {f : α → CheckM β} :
    ¬Runs (CheckM.fail cause span >>= f) m b m' := by
  intro h
  have ⟨_, _, hx, _⟩ := bind_eq_ok.mp h
  cases hx

-- A condition that would have ended the run does not hold.
theorem of_guard {p : Prop} [Decidable p] {cause : TypeError.Cause} {span : Span} {f : PUnit → CheckM β}
    (h : Runs (if p then CheckM.fail cause span >>= f else f ⟨⟩) m b m') : ¬p ∧ Runs (f ⟨⟩) m b m' := by
  split at h
  · exact (not_fail h).elim
  · next hp => exact ⟨hp, h⟩

end Runs

-- Some error is on record.
def Checking.Reported (c : Checking) : Prop := c.errors ≠ #[]

-- What is on record stays there.
theorem stable_reported : Stable Checking.Reported where
  report _ _ := by simp [Checking.Reported]
  setTy _ _ h := h
  setKind _ _ _ h := h
  addExpr _ _ h := h
  setInit _ _ h := h
  setBody _ _ h := h
  declare _ _ _ h := h
  generate _ _ _ _ _ _ h := ⟨h, h⟩
  typeInst _ _ h _ _ := h

theorem Upholds.quiet {x : CheckM α} {c c' : Checking} {a : α} (hx : Upholds Checking.Reported x) (h : x c = .ok a c')
    (hc : c'.errors = #[]) : c.errors = #[] :=
  by_contra fun hn => (final_of_ok h ▸ (hx c hn).1) hc

-- A run without an error is made of runs without an error.
theorem Runs.bind_inv {x : CheckM α} {f : α → CheckM β} (hf : ∀ a, Upholds Checking.Reported (f a))
    (h : Runs (x >>= f) m b m') : ∃ a m₁, Runs x m a m₁ ∧ Runs (f a) m₁ b m' := by
  obtain ⟨a, ⟨m₁, errors⟩, hx, hfa⟩ := bind_eq_ok.mp h
  obtain rfl : errors = #[] := (hf a).quiet hfa rfl
  exact ⟨a, m₁, hx, hfa⟩

end Inversion

section Wrapping

variable {m m' m₁ m₂ : Model} {a a' e : ExprId} {t : Ty} {P Q : ExprId → Prop}

-- Calls of coercions were put around expressions that `P` holds of, and nothing else happened.
structure Model.Wraps (P : ExprId → Prop) (m m' : Model) : Prop extends m.Adds m' where
  added : ∀ {e}, m.exprs.size ≤ e.index → e.index < m'.exprs.size →
    ∃ a name f b, P a ∧ m'.expr e = m.callOn name f a b ∧ m.Applies name [a] (m.spanOf a) f b

-- `a'` stands in the place of `a` where a value of type `t` is expected.
structure Model.Turned (m : Model) (a : ExprId) (t : Ty) (m' : Model) (a' : ExprId) : Prop where
  becomes : (m.ty a).Becomes t (m'.ty a')
  place : a' = a ∨ m.exprs.size ≤ a'.index ∧ a'.index < m'.exprs.size

namespace Model

theorem Adds.ty_eq (h : m.Adds m') (ha : a.index < m.exprs.size) : m'.ty a = m.ty a := h.grows.ty_eq ha

theorem Adds.spanOf_eq (h : m.Adds m') (ha : a.index < m.exprs.size) : m'.spanOf a = m.spanOf a := by
  rw [spanOf, h.grows.expr_eq ha, spanOf]

theorem Turned.lt (h : m.Turned a t m' a') (hm : m.Adds m') (ha : a.index < m.exprs.size) : a'.index < m'.exprs.size :=
  h.place.elim (fun h => h ▸ Nat.lt_of_lt_of_le ha hm.grows.size_le) And.right

namespace Wraps

protected theorem refl (P : ExprId → Prop) (m : Model) : m.Wraps P m :=
  ⟨.refl m, fun h h' => absurd h (Nat.not_le.mpr h')⟩

theorem mono (hPQ : ∀ a, P a → Q a) (h : m.Wraps P m') : m.Wraps Q m' :=
  ⟨h.toAdds, fun h₁ h₂ =>
    have ⟨a, name, f, b, ha, hb⟩ := h.added h₁ h₂
    ⟨a, name, f, b, hPQ a ha, hb⟩⟩

theorem typeVar {v : String} (h : m.Wraps P m') : m'.kind e = .typeVar v ↔ m.kind e = .typeVar v := by
  by_cases hold : e.index < m.exprs.size
  · rw [h.grows.kind_eq hold]
  · have hk : m.kind e ≠ .typeVar v := by
      rw [kind, expr_of_le (Nat.le_of_not_lt hold)]
      exact fun h => by cases h
    by_cases hnew : e.index < m'.exprs.size
    · obtain ⟨a, name, f, b, -, hx, -⟩ := h.added (Nat.le_of_not_lt hold) hnew
      have hk' : m'.kind e ≠ .typeVar v := by
        rw [kind, hx]
        exact fun h => by cases h
      exact iff_of_false hk' hk
    · rw [kind, expr_of_le (Nat.le_of_not_lt hnew), kind, expr_of_le (Nat.le_of_not_lt hold)]

-- Neither names nor comprehensions are made.
theorem plain (h : m.Wraps P m') (hk : (m'.kind e).isPlain = false) : m'.kind e = m.kind e := by
  by_cases hold : e.index < m.exprs.size
  · exact h.grows.kind_eq hold
  · have hnew := Model.lt_of_kind_ne_anon fun hanon => by rw [hanon] at hk; cases hk
    obtain ⟨a, name, f, b, -, hx, -⟩ := h.added (Nat.le_of_not_lt hold) hnew
    rw [kind, hx] at hk
    cases hk

theorem heads (h : m.Wraps P m') : m.SameHeads m' := .of_exprs h.tables fun _ _ => h.typeVar

-- What a second run of coercions wraps was there before the first.
theorem trans (h₁ : m.Wraps P m₁) (h₂ : m₁.Wraps P m₂) (hP : ∀ a, P a → a.index < m.exprs.size) : m.Wraps P m₂ where
  toAdds := h₁.toAdds.trans h₂.toAdds
  added {e} hold hnew := by
    by_cases hmid : e.index < m₁.exprs.size
    · obtain ⟨a, name, f, b, ha, hx, happ⟩ := h₁.added hold hmid
      exact ⟨a, name, f, b, ha, (h₂.grows.expr_eq hmid).trans hx, happ⟩
    · obtain ⟨a, name, f, b, ha, hx, happ⟩ := h₂.added (Nat.le_of_not_lt hmid) hnew
      have hty := h₁.ty_eq (hP a ha)
      have hspan := h₁.spanOf_eq (hP a ha)
      refine ⟨a, name, f, b, ha, by rw [hx, callOn, callOn, hspan], ?_⟩
      rw [← hspan]
      exact happ.congr h₁.heads.symm (by simp [hty])

end Wraps

theorem Turned.mono (h : m.Turned a t m₁ a') (h₂ : m₁.Adds m₂) (hm : m.Adds m₁) (ha : a.index < m.exprs.size) :
    m.Turned a t m₂ a' where
  becomes := h₂.ty_eq (h.lt hm ha) ▸ h.becomes
  place := h.place.imp_right (And.imp_right fun h => Nat.lt_of_lt_of_le h h₂.grows.size_le)

-- The same from a model with fewer nodes.
theorem Turned.of_adds (h : m₁.Turned a t m₂ a') (hm : m.Adds m₁) (ha : a.index < m.exprs.size) : m.Turned a t m₂ a' where
  becomes := hm.ty_eq ha ▸ h.becomes
  place := h.place.imp_right (And.imp_left (Nat.le_trans hm.grows.size_le))

theorem coerce_wraps (hm : m.Promotes) (ha : (m.ty a).Listable t) (h : m.coerce a t = .ok (a', m')) :
    m.Wraps (· = a) m' ∧ m.Turned a t m' a' := by
  obtain ⟨rfl, rfl, hmeets⟩ | ⟨name, f, b, -, hb, happ, hadd⟩ := coerce_becomes hm ha h
  · exact ⟨.refl _ _, .same hmeets, .inl rfl⟩
  · have hm' : m' = (m.addExpr (m.callOn name f a b)).2 := by rw [hadd]
    have ha' : a' = ⟨m.exprs.size⟩ := congrArg Prod.fst hadd.symm
    have hsize : m'.exprs.size = m.exprs.size + 1 := by simp [hm', addExpr]
    have hnew : m'.expr a' = m.callOn name f a b := by
      have h := expr_addExpr_new m (m.callOn name f a b)
      rwa [hadd] at h
    refine ⟨⟨⟨by rw [hm']; rfl, hm' ▸ grows_addExpr m _⟩, fun {e} h₁ h₂ => ?_⟩, ?_, .inr ?_⟩
    · have he : e = a' := by
        rw [ha']
        obtain ⟨i⟩ := e
        exact congrArg ExprId.mk (by simp only at h₁ h₂; omega)
      exact ⟨a, name, f, b, rfl, he ▸ hnew, happ⟩
    · have hty : m'.ty a' = b := by rw [ty, hnew, callOn]
      exact hty ▸ hb
    · rw [ha', hsize]
      exact ⟨Nat.le_refl _, Nat.lt_succ_self _⟩

-- A list of coercions, each with what is kept beside the expression.
theorem coerceAll_wraps {β γ : Type} {bs : List β} {cs : List γ} {src : β → ExprId} {tgt : β → Ty} {k : β → ExprId → γ}
    {c : Checking} {errors : Array TypeError} (hm : m.Promotes)
    (hb : ∀ b ∈ bs, (src b).index < m.exprs.size ∧ (m.ty (src b)).Listable (tgt b))
    (h : (bs.mapM fun b => k b <$> CheckM.coerce (src b) (tgt b) : CheckM (List γ)) { model := m, errors } = .ok cs c) :
    ∃ m', c = { model := m', errors } ∧ m.Wraps (· ∈ bs.map src) m' ∧
      List.Forall₂ (fun b x => ∃ a', x = k b a' ∧ m.Turned (src b) (tgt b) m' a') bs cs := by
  induction bs generalizing m cs with
  | nil =>
    obtain ⟨rfl, rfl⟩ := pure_eq_ok.mp h
    exact ⟨m, rfl, .refl _ _, .nil⟩
  | cons b bs ih =>
    have ⟨⟨hlt, hty⟩, hrest⟩ := List.forall_mem_cons.mp hb
    rw [List.mapM_cons] at h
    have ⟨x, c₁, h₁, h⟩ := bind_eq_ok.mp h
    have ⟨xs, c₂, h₂, h⟩ := bind_eq_ok.mp h
    obtain ⟨rfl, rfl⟩ := pure_eq_ok.mp h
    obtain ⟨a', hx₁, rfl⟩ := map_eq_ok.mp h₁
    obtain ⟨m₁, hc₁, rfl⟩ := coerce_eq_ok hx₁
    have ⟨hw₁, ht₁⟩ := coerce_wraps hm hty hc₁
    have hb₁ : ∀ b ∈ bs, (src b).index < m₁.exprs.size ∧ (m₁.ty (src b)).Listable (tgt b) := by
      intro b hb
      rw [hw₁.ty_eq (hrest b hb).1]
      exact ⟨Nat.lt_of_lt_of_le (hrest b hb).1 hw₁.grows.size_le, (hrest b hb).2⟩
    obtain ⟨m₂, rfl, hw₂, hall⟩ := ih (hw₁.heads.promotes hm) hb₁ h₂
    have hw₁' : m.Wraps (· ∈ (b :: bs).map src) m₁ := hw₁.mono fun a ha => by simp [ha]
    have hw₂' : m₁.Wraps (· ∈ (b :: bs).map src) m₂ := hw₂.mono fun a ha => by simp_all
    refine ⟨m₂, rfl, hw₁'.trans hw₂' ?_, .cons ⟨a', rfl, ht₁.mono hw₂.toAdds hw₁.toAdds hlt⟩ ?_⟩
    · intro a ha
      obtain ⟨b', hb', rfl⟩ := List.mem_map.mp ha
      exact (hb b' hb').1
    · have hall := (List.forall₂_and_left _ _).mpr ⟨fun b hb => (hrest b hb).1, hall⟩
      exact hall.imp fun b x ⟨hlt, a', hx, ht⟩ => ⟨a', hx, ht.of_adds hw₁.toAdds hlt⟩

theorem coerceEach_wraps {β : Type} {bs : List β} {as : List ExprId} {src : β → ExprId} {tgt : β → Ty} {c : Checking}
    {errors : Array TypeError} (hm : m.Promotes)
    (hb : ∀ b ∈ bs, (src b).index < m.exprs.size ∧ (m.ty (src b)).Listable (tgt b))
    (h : (bs.mapM fun b => CheckM.coerce (src b) (tgt b) : CheckM (List ExprId)) { model := m, errors } = .ok as c) :
    ∃ m', c = { model := m', errors } ∧ m.Wraps (· ∈ bs.map src) m' ∧
      List.Forall₂ (fun b a' => m.Turned (src b) (tgt b) m' a') bs as := by
  have hid : (fun b => CheckM.coerce (src b) (tgt b)) = fun b => id <$> CheckM.coerce (src b) (tgt b) := by
    funext b
    rw [id_map]
  rw [hid] at h
  obtain ⟨m', rfl, hw, hall⟩ := coerceAll_wraps (k := fun _ => id) hm hb h
  exact ⟨m', rfl, hw, hall.imp fun p x ⟨a', hx, ht⟩ => hx ▸ ht⟩

end Model
end Wrapping
end Parvar
