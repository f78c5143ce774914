import Parvar.Proofs.Model.Lookup

/-!
Equality of expressions is an equivalence. Two nodes are equal if they have the same outline, which is
a kind without its operands and with the declaration that stands in at the end for the one that is
named, and if their operands are equal one by one. Floats are left out, and names without a
declaration: these are compared by their texts, also with names that have one.
-/

namespace Parvar

namespace ExprKind

-- The operands that are compared. What binds names is equal to nothing but itself.
def operands : ExprKind → List ExprId
  | .setLit elems | .arrayLit elems _ | .call _ elems _ => elems
  | .access array indices => array :: indices
  | .ite branches otherwise => otherwise :: (branches.map (·.1) ++ branches.map (·.2))
  | .bin _ lhs rhs _ => [lhs, rhs]
  | .un _ arg _ => [arg]
  | _ => []

-- No float, and no name without a declaration.
def isResolved : ExprKind → Bool
  | .float _ | .ident _ none => false
  | _ => true

end ExprKind

namespace Model

section

variable (m : Model)

def IsOperand (x e : ExprId) : Prop := x ∈ (m.kind e).operands

-- There is no float and no name without a declaration among what is compared.
def Resolved (e : ExprId) : Prop :=
  ∀ x, Relation.ReflTransGen (fun a b => m.IsOperand b a) e x → (m.kind x).isResolved

-- A kind without its operands; there is none for what is equal to nothing but itself.
def outline? : ExprKind → Option ExprKind
  | .setLit _ => some (.setLit [])
  | .arrayLit _ dims => some (.arrayLit [] dims)
  | .access _ _ => some (.access default [])
  | .ite _ _ => some (.ite [] default)
  | .bin op _ _ _ => some (.bin op default default none)
  | .un op _ _ => some (.un op default none)
  | .call name _ _ => some (.call name [] none)
  | .ident _ d => d.map fun d => .ident "" (some (m.followFlat d))
  | .anon | .comp _ | .letIn _ | .float _ => none
  | k => some k

end

-- A model as it is put together. An expression comes after its operands; what it gets later on, such
-- as a type, an annotation or a declaration, adds no operand. All that is no expression may change at
-- any time, links between declarations included.
inductive Built : Model → Prop
  | empty : Built {}
  | expr {m : Model} {kind : ExprKind} {ty : Ty} {span : Span} : Built m →
      (∀ x ∈ kind.operands, x.index < m.exprs.size) → Built (Build.expr kind ty span m).2
  | touch {m : Model} {e : ExprId} {f : Expr → Expr} : Built m →
      (f (m.expr e)).kind.operands ⊆ (m.kind e).operands → Built (m.modifyExpr e f)
  | rest {m m' : Model} : Built m → m'.exprs = m.exprs → Built m'

variable {m : Model} {eq eq' : ExprId → ExprId → Bool} {k l : ExprKind} {a b c e x : ExprId} {n : Nat}

section Lists

variable {xs ys : List ExprId}

theorem allEqual_iff : allEqual eq xs ys ↔ List.Forall₂ (fun a b => eq a b) xs ys := by
  induction xs generalizing ys with
  | nil => cases ys <;> simp [allEqual]
  | cons x xs ih => cases ys <;> simp [allEqual, ih]

theorem allEqual_congr (h : ∀ x ∈ xs, eq x = eq' x) : allEqual eq xs ys = allEqual eq' xs ys := by
  induction xs generalizing ys with
  | nil => cases ys <;> rfl
  | cons x xs ih =>
    obtain ⟨hx, hxs⟩ := List.forall_mem_cons.mp h
    cases ys with
    | nil => rfl
    | cons y ys => rw [allEqual, allEqual, hx, ih hxs]

-- The conditions and the results of two conditionals, in one list each.
theorem forall₂_branches {R : ExprId → ExprId → Prop} {bs cs : List (ExprId × ExprId)} :
    List.Forall₂ R (bs.map (·.1) ++ bs.map (·.2)) (cs.map (·.1) ++ cs.map (·.2)) ↔
      List.Forall₂ R (bs.map (·.1)) (cs.map (·.1)) ∧ List.Forall₂ R (bs.map (·.2)) (cs.map (·.2)) := by
  refine ⟨fun h => ?_, fun h => List.rel_append h.1 h.2⟩
  have hlen : (bs.map (·.1)).length = (cs.map (·.1)).length := by
    have := h.length_eq
    simp only [List.length_append, List.length_map] at this ⊢
    omega
  have htake := List.forall₂_take (bs.map (·.1)).length h
  have hdrop := List.forall₂_drop (bs.map (·.1)).length h
  rw [List.take_left, hlen, List.take_left] at htake
  rw [List.drop_left, hlen, List.drop_left] at hdrop
  exact ⟨htake, hdrop⟩

end Lists

section Kinds

theorem kindEqual_congr (h : ∀ x ∈ k.operands, eq x = eq' x) : m.kindEqual eq k l = m.kindEqual eq' k l := by
  cases k <;> cases l
  case ident.ident x d y c => cases d <;> cases c <;> rfl
  case setLit.setLit xs ys => exact allEqual_congr h
  case arrayLit.arrayLit xs ds ys cs =>
    have hxs : allEqual eq xs ys = allEqual eq' xs ys := allEqual_congr h
    rw [kindEqual, kindEqual, hxs]
  case call.call f xs fn g ys gn =>
    have hxs : allEqual eq xs ys = allEqual eq' xs ys := allEqual_congr h
    rw [kindEqual, kindEqual, hxs]
  case access.access a is b js =>
    obtain ⟨ha, his⟩ := List.forall_mem_cons.mp h
    rw [kindEqual, kindEqual, ha, allEqual_congr his]
  case ite.ite bs x cs y =>
    obtain ⟨hx, hbs⟩ := List.forall_mem_cons.mp h
    obtain ⟨hconds, hresults⟩ := List.forall_mem_append.mp hbs
    rw [kindEqual, kindEqual, hx, allEqual_congr hconds, allEqual_congr hresults]
  case bin.bin o x y f p x' y' f' =>
    obtain ⟨hx, hy⟩ := List.forall_mem_cons.mp h
    rw [kindEqual, kindEqual, hx, List.forall_mem_singleton.mp hy]
  case un.un o x f p x' f' => rw [kindEqual, kindEqual, List.forall_mem_singleton.mp h]
  all_goals simp [kindEqual]

theorem kindEqual_iff (hk : k.isResolved) (hl : l.isResolved) :
    m.kindEqual eq k l ↔ m.outline? k = m.outline? l ∧ m.outline? k ≠ none ∧
      List.Forall₂ (fun a b => eq a b) k.operands l.operands := by
  cases k <;> cases l
  case ident.ident x d y c =>
    cases d <;> cases c <;> simp_all [ExprKind.isResolved, kindEqual, outline?, ExprKind.operands]
  case ite.ite bs x cs y =>
    simp only [kindEqual, outline?, ExprKind.operands, Bool.and_eq_true, allEqual_iff, List.forall₂_cons,
      forall₂_branches]
    tauto
  all_goals simp_all [ExprKind.isResolved, kindEqual, outline?, ExprKind.operands, allEqual_iff, and_assoc]

end Kinds

section Depth

theorem IsOperand.lt_size (h : m.IsOperand x e) : e.index < m.exprs.size :=
  lt_of_kind_ne_anon fun hk => by simp [IsOperand, hk, ExprKind.operands] at h

-- Operands come before what they are operands of.
theorem Built.operand_lt (h : m.Built) (hx : m.IsOperand x e) : x.index < e.index := by
  induction h generalizing e x with
  | empty => cases hx
  | @expr m kind ty span _ hkind ih =>
    have hgrows := m.grows_addExpr { kind, ty, span }
    have hlt : e.index < m.exprs.size + 1 := by simpa [Build.expr, addExpr] using hx.lt_size
    obtain hlt | heq := Nat.lt_succ_iff_lt_or_eq.mp hlt
    · rw [IsOperand, Build.expr, hgrows.kind_eq hlt] at hx
      exact ih hx
    · obtain rfl : e = (m.addExpr { kind, ty, span }).1 := (ExprId.mk.injEq ..).mpr heq
      rw [IsOperand, Model.kind, Build.expr, expr_addExpr_new] at hx
      exact hkind x hx
  | @touch m e' f _ hf ih =>
    rw [IsOperand, Model.kind, expr_modifyExpr] at hx
    split at hx
    · next he =>
      rw [he.1]
      exact ih (hf hx)
    · exact ih hx
  | rest _ he ih =>
    rw [IsOperand, Model.kind, Model.expr, he] at hx
    exact ih hx

-- A node needs no more depth than it has nodes before it.
theorem Built.equalTo_succ (h : m.Built) (ha : a.index < n) : m.equalTo (n + 1) a = m.equalTo n a := by
  induction n generalizing a with
  | zero => cases ha
  | succ n ih =>
    have hops : ∀ x ∈ (m.kind a).operands, m.equalTo (n + 1) x = m.equalTo n x := fun x hx =>
      ih (by have := h.operand_lt hx; omega)
    funext b
    rw [equalTo, kindEqual_congr hops]
    rfl

-- The depth never runs out: equality goes all the way down.
theorem Built.exprEqual_eq (h : m.Built) (a b : ExprId) :
    m.exprEqual a b = (a = b || m.kindEqual m.exprEqual (m.kind a) (m.kind b)) := by
  by_cases ha : a.index < m.exprs.size
  · rw [exprEqual, ← h.equalTo_succ ha, equalTo]
    rfl
  · have hk : m.kind a = .anon := not_imp_comm.mp lt_of_kind_ne_anon ha
    rw [hk, exprEqual]
    cases m.exprs.size <;> simp [equalTo, hk, kindEqual]

end Depth

section Laws

theorem Resolved.isResolved (h : m.Resolved e) : (m.kind e).isResolved := h e .refl

theorem Resolved.operand (h : m.Resolved e) (hx : x ∈ (m.kind e).operands) : m.Resolved x :=
  fun y hy => h y (.head hx hy)

section Pairs

variable {R : ExprId → ExprId → Prop} {xs ys zs : List ExprId}

theorem forall₂_symm (h : ∀ x ∈ xs, ∀ y ∈ ys, R x y → R y x) (hxy : List.Forall₂ R xs ys) :
    List.Forall₂ R ys xs := by
  obtain ⟨hlen, hget⟩ := List.forall₂_iff_get.mp hxy
  refine List.forall₂_iff_get.mpr ⟨hlen.symm, fun i hi hj => ?_⟩
  exact h _ (List.get_mem ..) _ (List.get_mem ..) (hget i hj hi)

theorem forall₂_trans (h : ∀ x ∈ xs, ∀ y ∈ ys, ∀ z ∈ zs, R x y → R y z → R x z)
    (hxy : List.Forall₂ R xs ys) (hyz : List.Forall₂ R ys zs) : List.Forall₂ R xs zs := by
  obtain ⟨hlen, hget⟩ := List.forall₂_iff_get.mp hxy
  obtain ⟨hlen', hget'⟩ := List.forall₂_iff_get.mp hyz
  refine List.forall₂_iff_get.mpr ⟨hlen.trans hlen', fun i hi hk => ?_⟩
  exact h _ (List.get_mem ..) _ (List.get_mem ..) _ (List.get_mem ..) (hget i hi (hlen ▸ hi))
    (hget' i (hlen ▸ hi) hk)

end Pairs

theorem equalTo_succ_iff : m.equalTo (n + 1) a b ↔ a = b ∨ m.kindEqual (m.equalTo n) (m.kind a) (m.kind b) := by
  simp [equalTo]

theorem equalTo_symm (ha : m.Resolved a) (hb : m.Resolved b) (h : m.equalTo n a b) : m.equalTo n b a := by
  induction n generalizing a b with
  | zero => simpa [equalTo, eq_comm] using h
  | succ n ih =>
    rw [equalTo_succ_iff, kindEqual_iff ha.isResolved hb.isResolved] at h
    rw [equalTo_succ_iff, kindEqual_iff hb.isResolved ha.isResolved]
    refine h.imp Eq.symm ?_
    rintro ⟨hsame, hsome, hops⟩
    refine ⟨hsame.symm, hsame ▸ hsome, ?_⟩
    exact forall₂_symm (fun x hx y hy => ih (ha.operand hx) (hb.operand hy)) hops

theorem equalTo_trans (ha : m.Resolved a) (hb : m.Resolved b) (hc : m.Resolved c) (hab : m.equalTo n a b)
    (hbc : m.equalTo n b c) : m.equalTo n a c := by
  induction n generalizing a b c with
  | zero =>
    simp only [equalTo, decide_eq_true_eq] at hab hbc ⊢
    exact hab.trans hbc
  | succ n ih =>
    rw [equalTo_succ_iff] at hab hbc ⊢
    obtain rfl | hab := hab
    · exact hbc
    obtain rfl | hbc := hbc
    · exact .inr hab
    rw [kindEqual_iff ha.isResolved hb.isResolved] at hab
    rw [kindEqual_iff hb.isResolved hc.isResolved] at hbc
    rw [kindEqual_iff ha.isResolved hc.isResolved]
    obtain ⟨hsame, hsome, hops⟩ := hab
    obtain ⟨hsame', -, hops'⟩ := hbc
    refine .inr ⟨hsame.trans hsame', hsome, ?_⟩
    exact forall₂_trans (fun x hx y hy z hz => ih (ha.operand hx) (hb.operand hy) (hc.operand hz)) hops hops'

end Laws

-- Equality is an equivalence on expressions without floats whose names all have declarations,
-- whichever declarations stand in for which. In a model that was put together it is the recursion
-- through all operands, with no limit to the depth.
theorem exprEqual_equivalence (m : Model) :
    Equivalence (fun a b : { e // m.Resolved e } => m.exprEqual a b = true) ∧
    (m.Built → ∀ a b, m.exprEqual a b = (a = b || m.kindEqual m.exprEqual (m.kind a) (m.kind b))) := by
  refine ⟨⟨fun a => ?_, fun {a b} => ?_, fun {a b c} => ?_⟩, Built.exprEqual_eq⟩
  · cases h : m.exprs.size <;> simp [exprEqual, h, equalTo]
  · exact equalTo_symm a.2 b.2
  · exact equalTo_trans a.2 b.2 c.2

-- `a + 1`, `b + 1` and `c + 1`, where `c` stands in for `b`, and `b` for `a`.
def sumsModel : Model where
  exprs := #[
    { kind := .int 1, ty := .parInt }, { kind := .int 1, ty := .parInt },
    { kind := .ident "a" (some ⟨0⟩) }, { kind := .ident "b" (some ⟨1⟩) }, { kind := .ident "c" (some ⟨2⟩) },
    { kind := .bin .add ⟨2⟩ ⟨0⟩ none }, { kind := .bin .add ⟨3⟩ ⟨1⟩ none }, { kind := .bin .add ⟨4⟩ ⟨0⟩ none }]
  decls := #[
    { name := "a", ti := ⟨0⟩, flat := some ⟨1⟩ }, { name := "b", ti := ⟨0⟩, flat := some ⟨2⟩ },
    { name := "c", ti := ⟨0⟩ }]

theorem sumsModel_resolved (e : ExprId) : sumsModel.Resolved e := by
  intro x _
  obtain ⟨i⟩ := x
  by_cases hi : i < 8
  · interval_cases i <;> rfl
  · have hx : sumsModel.expr ⟨i⟩ = default := expr_of_le (Nat.le_of_not_lt hi)
    rw [kind, hx]
    rfl

theorem sumsModel_built : sumsModel.Built := by
  have h₁ := @Built.expr _ (.int 1) .parInt {} .empty (by simp [ExprKind.operands])
  have h₂ := @Built.expr _ (.int 1) .parInt {} h₁ (by simp [ExprKind.operands])
  have h₃ := @Built.expr _ (.ident "a" (some ⟨0⟩)) .unknown {} h₂ (by simp [ExprKind.operands])
  have h₄ := @Built.expr _ (.ident "b" (some ⟨1⟩)) .unknown {} h₃ (by simp [ExprKind.operands])
  have h₅ := @Built.expr _ (.ident "c" (some ⟨2⟩)) .unknown {} h₄ (by simp [ExprKind.operands])
  have h₆ := @Built.expr _ (.bin .add ⟨2⟩ ⟨0⟩ none) .unknown {} h₅ (by decide)
  have h₇ := @Built.expr _ (.bin .add ⟨3⟩ ⟨1⟩ none) .unknown {} h₆ (by decide)
  have h₈ := @Built.expr _ (.bin .add ⟨4⟩ ⟨0⟩ none) .unknown {} h₇ (by decide)
  exact .rest h₈ rfl

theorem exprEqual_equivalence_sums :
    sumsModel.Built ∧ sumsModel.exprEqual ⟨5⟩ ⟨6⟩ ∧ sumsModel.exprEqual ⟨6⟩ ⟨7⟩ ∧
    sumsModel.exprEqual ⟨7⟩ ⟨5⟩ ∧
    sumsModel.exprEqual ⟨5⟩ ⟨7⟩ = (sumsModel.exprEqual ⟨2⟩ ⟨4⟩ && sumsModel.exprEqual ⟨0⟩ ⟨0⟩) := by
  obtain ⟨hequiv, hdepth⟩ := exprEqual_equivalence sumsModel
  have h₅₆ : sumsModel.exprEqual ⟨5⟩ ⟨6⟩ := by decide
  have h₆₇ : sumsModel.exprEqual ⟨6⟩ ⟨7⟩ := by decide
  refine ⟨sumsModel_built, h₅₆, h₆₇, ?_, hdepth sumsModel_built ⟨5⟩ ⟨7⟩⟩
  let node (i : Nat) : { e // sumsModel.Resolved e } := ⟨⟨i⟩, sumsModel_resolved ⟨i⟩⟩
  exact hequiv.symm (x := node 5) (y := node 7) (hequiv.trans (y := node 6) h₅₆ h₆₇)

end Model
end Parvar
