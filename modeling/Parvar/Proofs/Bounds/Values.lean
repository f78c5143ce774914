import Parvar.Proofs.Bounds.Sound
import Parvar.Typing.Check

/-!
Bounds and evaluation. Variables take values by assignment, one by one, and whatever an expression
then evaluates to lies in the bounds that it had before.
-/

namespace Parvar

open Eval

namespace Model

variable {m : Model} {σ : List (DeclId × Int64)}

-- The evaluator that bounds are computed with.
def evaluator (m : Model) : Eval := Eval.run defaultLimit (fuelFor defaultLimit m)

-- A declaration takes a value as its initializer.
def give (m : Model) (p : DeclId × Int64) : Model :=
  let (e, m) := Build.int p.2 m
  m.setInit p.1 (some e)

def assign (m : Model) (σ : List (DeclId × Int64)) : Model := σ.foldl give m

-- Each variable of an assignment takes a value that its domain has, whenever it is evaluated.
def Admits (m : Model) (σ : List (DeclId × Int64)) : Prop :=
  ∀ p ∈ σ, m.IsVariable p.1 ∧ ∀ domain, m.domain p.1 = some domain → ∀ s S t,
    m.evaluator.Reached m s → m.evaluator.intSet domain s = .ok S t → S.contains p.2

-- A domain that is a literal has the same elements at all times.
theorem admits_of_literals (h : ∀ p ∈ σ, m.IsVariable p.1 ∧ ∃ domain S,
    m.domain p.1 = some domain ∧ m.kind domain = .intSet S ∧ S.contains p.2) : m.Admits σ := by
  intro p hp
  have ⟨hv, domain, S, hd, hk, hc⟩ := h p hp
  refine ⟨hv, fun domain' hd' s S' t hs he => ?_⟩
  obtain rfl : domain = domain' := Option.some.inj (hd.symm.trans hd')
  have hh := Machine.Framed.holds (hs.of_keeps (framing_run _ _ [])) fun _ => none
  have hk' : s.model.kind domain = .intSet S := (hh.kind_eq (by simp [hk])).trans hk
  exact (run_literal (fun _ => rfl) (by rw [hk']; rfl) he).1 ▸ hc

end Model

section Assignments

variable {m : Model} {ρ : DeclId → Option Int64} {s : Machine}

-- The value that an assignment gives to a declaration.
def valueIn {α : Type} (ρ : DeclId → Option α) (p : DeclId × α) : DeclId → Option α :=
  Function.update ρ p.1 (some p.2)

theorem Machine.Holds.give (h : s.Holds m ρ) (p : DeclId × Int64) :
    Holds m (valueIn ρ p) { s with model := s.model.give p } := by
  have hn := h.addExpr { kind := .int p.2, ty := .parInt }
  refine hn.setInit (f := ({ · with init := some ⟨s.model.exprs.size⟩ })) (fun _ => rfl)
    (fun _ => rfl) (Model.lt_addExpr _ _) (congrArg Expr.ty (Model.expr_addExpr_new _ _))
    (congrArg Expr.kind (Model.expr_addExpr_new _ _)) (Function.update_self ..) fun c hc => ?_
  exact Function.update_of_ne hc ..

theorem Machine.Holds.assign {σ : List (DeclId × Int64)} (h : s.Holds m ρ) :
    Holds m (σ.foldl valueIn ρ) { s with model := s.model.assign σ } := by
  induction σ generalizing ρ s with
  | nil => exact h
  | cons p σ ih => exact ih (h.give p)

theorem mem_of_valueIn {α : Type} {ρ : DeclId → Option α} {σ : List (DeclId × α)} {d : DeclId} {v : α}
    (h : σ.foldl valueIn ρ d = some v) : ρ d = some v ∨ (d, v) ∈ σ := by
  induction σ generalizing ρ with
  | nil => exact .inl h
  | cons p σ ih =>
    rcases ih h with h | h
    · by_cases hd : d = p.1
      · subst hd
        rw [valueIn, Function.update_self] at h
        exact .inr (by simp [← Option.some.inj h])
      · rw [valueIn, Function.update_of_ne hd] at h
        exact .inl h
    · exact .inr (List.mem_cons_of_mem _ h)

end Assignments

namespace Interval

-- The steps of the analysis that have a result have the one of unbounded integers.
structure ExactSteps : Prop where
  neg : ∀ {v w}, (Bound.finite v).neg = .finite w → w.toInt = -v.toInt
  scale : ∀ {k v w}, (Bound.finite v).scale k = .finite w → w.toInt = v.toInt * k.toInt
  add : ∀ {v w u}, (Bound.finite v).add? (.finite w) = some (.finite u) → u.toInt = v.toInt + w.toInt
  sum : ∀ {a₀ a₁ b₀ b₁ lo hi}, ends? .add a₀ a₁ b₀ b₁ = some (lo, hi) →
    lo.toInt = a₀.toInt + b₀.toInt ∧ hi.toInt = a₁.toInt + b₁.toInt
  difference : ∀ {a₀ a₁ b₀ b₁ lo hi}, ends? .sub a₀ a₁ b₀ b₁ = some (lo, hi) →
    lo.toInt = a₀.toInt - b₁.toInt ∧ hi.toInt = a₁.toInt - b₀.toInt
  product : ∀ {a₀ a₁ b₀ b₁ lo hi}, ends? .mul a₀ a₁ b₀ b₁ = some (lo, hi) →
    ∀ v ∈ [lo, hi], ∃ a ∈ [a₀, a₁], ∃ b ∈ [b₀, b₁], v.toInt = a.toInt * b.toInt
  quotient : ∀ {a₀ a₁ b₀ b₁ lo hi}, ends? .idiv a₀ a₁ b₀ b₁ = some (lo, hi) →
    ∀ v ∈ [lo, hi], ∃ a ∈ [a₀, a₁], ∃ b ∈ divisors b₀ b₁, v.toInt = a.toInt.tdiv b.toInt
  remainder : ∀ {a₀ a₁ b₀ b₁ lo hi}, ends? .mod a₀ a₁ b₀ b₁ = some (lo, hi) →
    lo.toInt = (if 0 ≤ a₀.toInt then 0 else Max.max a₀.toInt (-(widest b₀ b₁ - 1))) ∧
      hi.toInt = (if a₁.toInt ≤ 0 then 0 else Min.min a₁.toInt (widest b₀ b₁ - 1))

theorem exact_steps : ExactSteps where
  neg {v w} h := by
    cases e : Checked.neg v with
    | none => simp [Bound.neg, e] at h
    | some u =>
      obtain rfl : u = w := by simpa [Bound.neg, e] using h
      exact Checked.neg_eq_some.mp e
  scale {k v w} h := by
    by_cases hk : k = 0
    · obtain rfl : 0 = w := by simpa [Bound.scale, hk] using h
      simp [hk]
    · obtain ⟨u, e, hu⟩ | ⟨e, _⟩ | ⟨e, _⟩ := Bound.scale_finite hk v <;> cases e.symm.trans h
      exact hu
  add {v w u} h := by
    obtain ⟨u, e, hu⟩ | ⟨e, _⟩ | ⟨e, _⟩ := Bound.add_finite v w <;> cases e.symm.trans h
    exact hu
  sum h := by
    simp only [ends?, Option.bind_eq_bind, Option.bind_eq_some_iff, Option.pure_def,
      Option.some.injEq, Prod.mk.injEq, Checked.add_eq_some] at h
    obtain ⟨_, h₀, _, h₁, rfl, rfl⟩ := h
    exact ⟨h₀, h₁⟩
  difference h := by
    simp only [ends?, Option.bind_eq_bind, Option.bind_eq_some_iff, Option.pure_def,
      Option.some.injEq, Prod.mk.injEq, Checked.sub_eq_some] at h
    obtain ⟨_, h₀, _, h₁, rfl, rfl⟩ := h
    exact ⟨h₀, h₁⟩
  product h v hv := by
    obtain ⟨a, ha, b, hb, hop⟩ := corners_attained h v hv
    exact ⟨a, ha, b, hb, Checked.mul_eq_some.mp hop⟩
  quotient h v hv := by
    obtain ⟨a, ha, b, hb, hop⟩ := corners_attained h v hv
    exact ⟨a, ha, b, hb, (Checked.div_eq_some.mp hop).2⟩
  remainder h := (mod?_exact h).2

end Interval

-- Bounds hold every value that an assignment from the domains leads to, in the model or in what
-- evaluations have made of it.
theorem bounds_contain_values {m m' : Model} {e : ExprId} {σ : List (DeclId × Int64)} {i : Interval}
    {v : Int64} {limit : Nat} (he : m.Arithmetic .int e) (hσ : m.Admits σ)
    (hm : m.evaluator.Reached m { model := m' }) (hb : (m.bounds .int e).1 = .ok (some i))
    (hv : ((m'.assign σ).evaluate (.value .int) e limit).1 = .ok v) :
    i.lo.le (.finite v) ∧ (Bound.finite v).le i.hi ∧ Interval.ExactSteps := by
  have hw : Bounds.Within m.evaluator m (σ.foldl valueIn fun _ => none) := by
    intro d w hw domain hd s S t hs he
    have hp := (mem_of_valueIn hw).resolve_left nofun
    exact (hσ _ hp).2 domain hd s S t hs he
  have ⟨t, hi⟩ := runEval_eq_ok.mp hb
  have ⟨u, hv⟩ := runEval_eq_ok.mp hv
  have hs : Machine.Holds m (σ.foldl valueIn fun _ => none) { model := m'.assign σ } :=
    (Machine.Framed.holds (hm.of_keeps (framing_run _ _ [])) _).assign
  have hmeans := ((Meaning.agrees_run m _ limit _).int he hs hv).2
  have hmem : v ∈ i := (Bounds.setting_run hw _).holding he .start hi hmeans
  exact ⟨hmem.1, hmem.2, Interval.exact_steps⟩

section Square

-- `x * x`, where `x` is from -3 to 3.
def squareModel : Model where
  exprs := #[{ kind := .intSet ⟨[⟨-3, 3⟩], show (-3 : Int64) ≤ 3 by decide⟩, ty := .parSetInt },
    { kind := .ident "x" (some ⟨0⟩), ty := .varInt },
    { kind := .bin .mul ⟨1⟩ ⟨1⟩ none, ty := .varInt }]
  decls := #[{ name := "x", ti := ⟨0⟩, ty := .varInt }]
  typeInsts := #[{ ty := .varInt, domain := some ⟨0⟩ }]

theorem isVariable_square : squareModel.IsVariable ⟨0⟩ := ⟨rfl, ⟨0⟩, rfl, trivial⟩

theorem arithmetic_square : squareModel.Arithmetic .int ⟨2⟩ :=
  have hx : squareModel.Arithmetic .int ⟨1⟩ := .var rfl rfl isVariable_square
  .bin rfl rfl rfl hx hx

theorem admits_square : squareModel.Admits [(⟨0⟩, -2)] :=
  Model.admits_of_literals fun p hp => by
    obtain rfl := List.mem_singleton.mp hp
    exact ⟨isVariable_square, ⟨0⟩, _, rfl, rfl, by decide⟩

theorem bounds_contain_values_square :
    (squareModel.bounds .int ⟨2⟩).1 = .ok (some (.ofInts (-9) 9)) ∧
      ((squareModel.assign [(⟨0⟩, -2)]).evaluate (.value .int) ⟨2⟩).1 = .ok (4 : Int64) ∧
      (Bound.finite (-9)).le (.finite 4) ∧ (Bound.finite 4).le (.finite 9) := by
  have hb : (squareModel.bounds .int ⟨2⟩).1 = .ok (some (.ofInts (-9) 9)) := by rfl
  have hv : ((squareModel.assign [(⟨0⟩, -2)]).evaluate (.value .int) ⟨2⟩).1 = .ok (4 : Int64) := by
    rfl
  have ⟨hl, hu, _⟩ := bounds_contain_values arithmetic_square admits_square .start hb hv
  exact ⟨hb, hv, hl, hu⟩

end Square

section Overloads

-- `function var int: bool2int(var int: a) = a; var 1..3: x;` beside the one of the library, and the
-- call `bool2int(x)`.
def overloadModel (body use call : Expr) (ty : Ty) (overloads : List (String × List FuncId)) : Model where
  exprs := #[body, { kind := .intSet ⟨[⟨1, 3⟩], show (1 : Int64) ≤ 3 by decide⟩, ty := .parSetInt }, use, call]
  decls := #[{ name := "a", ti := ⟨0⟩, ty }, { name := "x", ti := ⟨1⟩, ty, toplevel := true },
    { name := "x0", ti := ⟨3⟩, ty := .varBool }]
  typeInsts := #[{ ty := .varInt }, { ty := .varInt, domain := some ⟨1⟩ }, { ty := .varInt },
    { ty := .varBool }, { ty := .varInt }]
  funcs := #[{ name := "bool2int", params := [⟨0⟩], ret := ⟨2⟩, body := some ⟨0⟩ },
    { name := "bool2int", params := [⟨2⟩], ret := ⟨4⟩ }]
  items := #[{ item := .decl ⟨1⟩ }, { item := .func ⟨0⟩ }]
  overloads

def overloadChecked (use call : Expr) : Model :=
  overloadModel { kind := .ident "a" (some ⟨0⟩), ty := .varInt } use call .varInt
    [("int2float", []), ("bool2int", [⟨1⟩, ⟨0⟩])]

def overloadTyped : Model :=
  overloadChecked { kind := .ident "x" (some ⟨1⟩), ty := .varInt }
    { kind := .call "bool2int" [⟨2⟩] (some ⟨0⟩), ty := .varInt }

-- A call has bounds by its name, and a value by its function.
theorem overload_exceeds_bounds :
    check { library := false } (overloadModel { kind := .ident "a" none } { kind := .ident "x" none }
        { kind := .call "bool2int" [⟨2⟩] none } .unknown [("int2float", []), ("bool2int", [⟨1⟩])]) =
        .ok ⟨[], [⟨1⟩, ⟨0⟩]⟩
          (overloadChecked { kind := .ident "x" none } { kind := .call "bool2int" [⟨2⟩] none }) ∧
      checkExpr ⟨3⟩ (overloadChecked { kind := .ident "x" none } { kind := .call "bool2int" [⟨2⟩] none }) =
        .ok .varInt overloadTyped ∧
      overloadTyped.Admits [(⟨1⟩, 2)] ∧
      (overloadTyped.bounds .int ⟨3⟩).1 = .ok (some (.ofInts 0 1)) ∧
      ((overloadTyped.assign [(⟨1⟩, 2)]).evaluate (.value .int) ⟨3⟩).1 = .ok (2 : Int64) := by
  refine ⟨by cbv, by cbv, Model.admits_of_literals fun p hp => ?_, by cbv, by cbv⟩
  obtain rfl := List.mem_singleton.mp hp
  exact ⟨⟨rfl, ⟨1⟩, rfl, trivial⟩, ⟨1⟩, _, rfl, rfl, by decide⟩

end Overloads

end Parvar
