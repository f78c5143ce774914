import Mathlib
import Parvar.Model.Build
import Parvar.Model.Equal

/-!
What is found in a model after it changed. Nodes are added at the end and stay as they are, so a
node that is there at some time is there ever after; only declarations take new values.
-/

namespace Parvar.Model

variable {m m₁ m₂ m₃ : Model} {e : ExprId} {d c : DeclId}

section Ranges

theorem expr_of_le (h : m.exprs.size ≤ e.index) : m.expr e = default := by
  simp [expr, h]

-- A node that does not read as an anonymous variable is there.
theorem lt_of_kind_ne_anon (h : m.kind e ≠ .anon) : e.index < m.exprs.size := by
  by_contra hn
  exact h (by simp only [kind, expr_of_le (Nat.le_of_not_lt hn)]; rfl)

theorem decl_of_le (h : m.decls.size ≤ d.index) : m.decl d = default := by
  simp [decl, h]

end Ranges

section Expressions

theorem expr_modifyExpr (m : Model) (e c : ExprId) (f : Expr → Expr) :
    (m.modifyExpr e f).expr c =
      if c = e ∧ e.index < m.exprs.size then f (m.expr e) else m.expr c := by
  simp only [expr, modifyExpr, Array.getElem?_modify]
  by_cases h : c = e
  · subst h
    by_cases hs : c.index < m.exprs.size <;> simp [hs]
  · have : e.index ≠ c.index := fun hi => h (by cases c; cases e; simp_all)
    simp [h, this]

theorem kind_setKind_ne {c : ExprId} (h : c ≠ e) (k : ExprKind) :
    (m.setKind e k).kind c = m.kind c := by
  simp [kind, setKind, expr_modifyExpr, h]

-- A kind is set where there is a node, and nothing happens where there is none.
theorem kind_setKind (m : Model) (e : ExprId) (k : ExprKind) :
    (m.setKind e k).kind e = k ∨ (m.setKind e k).kind e = m.kind e ∧ m.kind e = .anon := by
  by_cases h : e.index < m.exprs.size
  · simp [kind, setKind, expr_modifyExpr, h]
  · have := expr_of_le (Nat.le_of_not_lt h)
    exact .inr ⟨by simp [kind, setKind, expr_modifyExpr, h], by simp only [kind, this]; rfl⟩

@[simp] theorem ann_setKind (m : Model) (e c : ExprId) (k : ExprKind) :
    ((m.setKind e k).expr c).ann = (m.expr c).ann := by
  simp only [setKind, expr_modifyExpr]
  split
  · next h => rw [h.1]
  · rfl

end Expressions

section Declarations

theorem decl_modifyDecl (m : Model) (d c : DeclId) (f : Decl → Decl) :
    (m.modifyDecl d f).decl c =
      if c = d ∧ d.index < m.decls.size then f (m.decl d) else m.decl c := by
  simp only [decl, modifyDecl, Array.getElem?_modify]
  by_cases h : c = d
  · subst h
    by_cases hs : c.index < m.decls.size <;> simp [hs]
  · have : d.index ≠ c.index := fun hi => h (by cases c; cases d; simp_all)
    simp [h, this]

theorem decl_modifyDecl_ne (h : c ≠ d) (f : Decl → Decl) : (m.modifyDecl d f).decl c = m.decl c := by
  simp [decl_modifyDecl, h]

-- A change that makes no difference.
theorem modifyDecl_eq_self {f : Decl → Decl} (h : d.index < m.decls.size → f (m.decl d) = m.decl d) :
    m.modifyDecl d f = m := by
  have hd : m.decls.modify d.index f = m.decls := by
    refine Array.ext (by simp) fun i hi _ => ?_
    rw [Array.getElem_modify]
    split
    · next hdi =>
      subst hdi
      simpa [decl, Array.size_modify ▸ hi] using h (Array.size_modify ▸ hi)
    · rfl
  rw [modifyDecl, hd]

@[simp] theorem exprs_modifyDecl (f : Decl → Decl) : (m.modifyDecl d f).exprs = m.exprs := rfl

@[simp] theorem size_modifyDecl (f : Decl → Decl) :
    (m.modifyDecl d f).decls.size = m.decls.size := by
  simp [modifyDecl]

end Declarations

section Items

theorem slot_modifySlot (m : Model) (p q : ItemPath) (f : Slot → Slot) :
    (m.modifySlot p f).slot? q = if q = p then (m.slot? p).map f else m.slot? q := by
  obtain ⟨ps, pi⟩ := p
  obtain ⟨qs, qi⟩ := q
  cases ps <;> cases qs <;> simp only [modifySlot, slot?, itemsOf, ItemPath.mk.injEq]
  case none.none =>
    simp only [Array.getElem?_modify, true_and, eq_comm]
    split <;> simp_all
  case some.some i j =>
    simp only [Array.getElem?_modify, Option.some.injEq]
    by_cases hij : i = j
    · subst hij
      cases hs : m.submodels[i]? with
      | none => simp
      | some s =>
        by_cases hq : pi = qi
        · simp [hq, Array.getElem?_modify]
        · simp [hq, Ne.symm hq, Array.getElem?_modify]
    · simp [hij, Ne.symm hij]
  all_goals simp

end Items

section Growth

-- All nodes of the first model are nodes of the second.
def Grows (m₁ m₂ : Model) : Prop := m₁.exprs.toList <+: m₂.exprs.toList

theorem Grows.refl (m : Model) : Grows m m := List.prefix_rfl

theorem Grows.trans (h₁ : Grows m₁ m₂) (h₂ : Grows m₂ m₃) : Grows m₁ m₃ :=
  List.IsPrefix.trans h₁ h₂

theorem Grows.of_eq (h : m₁.exprs = m₂.exprs) : Grows m₁ m₂ := by
  simp [Grows, h]

theorem Grows.expr_eq (h : Grows m₁ m₂) (he : e.index < m₁.exprs.size) :
    m₂.expr e = m₁.expr e := by
  have hg := List.IsPrefix.getElem h (by simpa using he)
  have he' : e.index < m₂.exprs.size := Nat.lt_of_lt_of_le he (by simpa using h.length_le)
  simp_all [expr]

theorem Grows.size_le (h : Grows m₁ m₂) : m₁.exprs.size ≤ m₂.exprs.size := by
  have := List.IsPrefix.length_le h
  simpa using this

theorem Grows.lt (h : Grows m₁ m₂) (he : e.index < m₁.exprs.size) : e.index < m₂.exprs.size :=
  Nat.lt_of_lt_of_le he h.size_le

theorem Grows.kind_eq (h : Grows m₁ m₂) (he : e.index < m₁.exprs.size) :
    m₂.kind e = m₁.kind e := by
  simp [kind, h.expr_eq he]

theorem Grows.ty_eq (h : Grows m₁ m₂) (he : e.index < m₁.exprs.size) : m₂.ty e = m₁.ty e := by
  simp [ty, h.expr_eq he]

theorem grows_addExpr (m : Model) (x : Expr) : Grows m (m.addExpr x).2 := by
  simp [Grows, addExpr]

@[simp] theorem expr_addExpr_new (m : Model) (x : Expr) :
    (m.addExpr x).2.expr (m.addExpr x).1 = x := by
  simp [addExpr, expr]

theorem lt_addExpr (m : Model) (x : Expr) :
    (m.addExpr x).1.index < (m.addExpr x).2.exprs.size := by
  simp [addExpr]

@[simp] theorem decl_addExpr (m : Model) (x : Expr) : (m.addExpr x).2.decl d = m.decl d := rfl

end Growth
end Parvar.Model
