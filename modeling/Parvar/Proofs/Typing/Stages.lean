import Parvar.Proofs.Typing.Tree

/-!
An expression is typed in two stages: its parts first, and from their types the expression itself. The second
stage changes that one node and adds calls of coercions.
-/

namespace Parvar

open Model Typing

theorem ExprKind.isPlain_of_isMade {k : ExprKind} (h : k.isMade) : k.isPlain := by
  cases k <;> first | rfl | cases h

namespace Model

variable {m m₁ m₂ : Model} {root : Site} {e : ExprId}

theorem finishes_finish {k : ExprKind} (hm : m.Typeable e) (hk : m.kind e = k)
    (hliteral : k.isConstant → (m.ty e).Concrete) (hfilled : k.isFilled)
    (hbase : ∀ d, (m.decl d).ty.base ≠ .bot) (hgens : ∀ c, k = .comp c → ∀ g ∈ c.generators, m.Ranges g)
    (h : Runs (finish e k) m ⟨⟩ m₁) : m.Finishes e m₁ := by
  cases k with
  | int | float | bool | string | intSet | absent | typeVar =>
    cases h
    exact finishes_constant (hk ▸ rfl) (hliteral rfl)
  | anon => cases hfilled
  | ident name b => exact finishes_ident hm.present hk hbase h
  | setLit es => exact finishes_setLit hm hk (by rintro rfl; cases hfilled) h
  | arrayLit es dims => exact finishes_arrayLit hm hk (by rintro rfl; cases hfilled) h
  | access => exact finishes_access hm hk h
  | comp c =>
    obtain ⟨t, ht, h⟩ := Runs.ofExcept_bind h
    cases h
    exact finishes_comp hm hk (hgens c rfl) ht
  | ite => exact finishes_ite hm hk h
  | bin => exact finishes_bin hm hk h
  | un => exact finishes_un hm hk h
  | call => exact finishes_call hm hk h
  | letIn => exact finishes_letIn hm hk h

section Change

variable {P : Site → Prop}

-- Declarations and types are left alone, and so are the expressions that `P` does not hold of.
theorem Alters.of_exprs (ht : m.SameTables m₁) (hsize : m.exprs.size ≤ m₁.exprs.size)
    (hsame : ∀ {x}, x.index < m.exprs.size → ¬P (.expr x) → m₁.expr x = m.expr x)
    (hvar : ∀ x v, m₁.kind x = .typeVar v ↔ m.kind x = .typeVar v) : m.Alters P m₁ := by
  have ht : m₁ = { m with exprs := m₁.exprs } := ht
  constructor
  case same =>
    intro s hs hn
    cases s with
    | expr x => exact hsame hs hn
    | decl d =>
      rw [ht]
      rfl
    | typeInst t =>
      rw [ht]
      rfl
  case exprs => exact hsize
  case typeVar => exact hvar
  all_goals rw [ht]

theorem Wraps.alters {Q : ExprId → Prop} (h : m.Wraps Q m₁) : m.Alters P m₁ :=
  .of_exprs h.tables h.grows.size_le (fun hx _ => h.grows.expr_eq hx) fun _ _ => h.typeVar

theorem Alters.setNode {k : ExprKind} {t : Ty} (h : m.Alters P m₁) (he : e.index < m.exprs.size) (hP : P (.expr e))
    (hk : k = m.kind e ∨ k.isMade ∧ (m.kind e).isMade) : m.Alters P (m₁.setNode e k t) := by
  have hne : ∀ {x}, ¬P (.expr x) → x ≠ e := by
    rintro x hn rfl
    exact hn hP
  constructor
  case same =>
    intro s hs hn
    cases s with
    | expr x => exact (expr_setNode_ne (hne hn)).trans (h.same hs hn)
    | decl d => exact h.same (s := .decl d) hs hn
    | typeInst t => exact h.same (s := .typeInst t) hs hn
  case exprs =>
    simp only [Model.setNode, setTy, setKind, modifyExpr, Array.size_modify]
    exact h.exprs
  case typeVar =>
    intro x v
    by_cases hx : x = e
    · subst hx
      rw [kind_setNode (h.present (s := .expr x) he)]
      obtain rfl | ⟨hmade, hmade'⟩ := hk
      · rfl
      · have hnot : ∀ {k : ExprKind}, k.isMade → k ≠ .typeVar v := by
          rintro k hk rfl
          cases hk
        exact iff_of_false (hnot hmade) (hnot hmade')
    · rw [kind_setNode_ne hx]
      exact h.typeVar x v
  case decls => exact h.decls
  case typeInsts => exact h.typeInsts
  case funcs => exact h.funcs
  case overloads => exact h.overloads

theorem Finishes.alters (he : e.index < m.exprs.size) (h : m.Finishes e m₁) : m.Alters (· = .expr e) m₁ := by
  obtain ⟨m', k, t, rfl, hs⟩ := h
  exact hs.wraps.alters.setNode he rfl hs.kind

end Change

theorem Ongoing.finishes (ho : m.Ongoing root m₁) (hr : m.Contains root (.expr e)) (he : e.index < m₁.exprs.size)
    (h : m₁.Finishes e m₂) : m.Ongoing root m₂ := by
  have ha := h.alters he
  have hdecl : ∀ d, m₂.decl d = m₁.decl d := fun d => ha.decl_eq fun h => by cases h
  constructor
  case alters =>
    refine ho.alters.trans (ha.mono ?_)
    rintro s rfl
    exact hr
  case plain =>
    intro x hx
    obtain ⟨m', k, t, rfl, hs⟩ := h
    by_cases hxe : x = e
    · subst hxe
      rw [kind_setNode (Nat.lt_of_lt_of_le he hs.wraps.grows.size_le)] at hx ⊢
      obtain h | ⟨h, -⟩ := hs.kind
      · rw [h] at hx ⊢
        exact ho.plain x hx
      · rw [ExprKind.isPlain_of_isMade h] at hx
        cases hx
    · rw [kind_setNode_ne hxe] at hx ⊢
      have hk := hs.wraps.plain hx
      rw [hk] at hx ⊢
      exact ho.plain x hx
  case tis => exact fun d => hdecl d ▸ ho.tis d
  case declared => exact fun d => hdecl d ▸ ho.declared d

end Model
end Parvar
