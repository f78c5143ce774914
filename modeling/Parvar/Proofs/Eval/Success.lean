import Parvar.Eval.Run
import Parvar.Proofs.Outcome

/-! When the steps of evaluation end in a value. -/

namespace Parvar

open EvalM

variable {α : Type} {a : α} {s t : Machine}

@[simp] theorem model_eq_ok {m : Model} : model s = .ok m t ↔ s.model = m ∧ s = t :=
  pure_eq_ok

@[simp] theorem model_bind {f : Model → EvalM α} : (model >>= f) s = f s.model s := rfl

@[simp] theorem fail_eq_ok {c : EvalError.Cause} {span : Span} :
    (fail c span : EvalM α) s = .ok a t ↔ False :=
  throw_ne_ok

@[simp] theorem ofCause_eq_ok {span : Span} {r : Except EvalError.Cause α} :
    ofCause span r s = .ok a t ↔ r = .ok a ∧ s = t := by
  cases r <;> simp [ofCause]

@[simp] theorem within_eq_ok {span : Span} {c : EvalError.Context} {x : EvalM α} :
    within span c x s = .ok a t ↔ x s = .ok a t := by
  simp only [within]
  cases x s <;> simp

@[simp] theorem attempt_eq_some {x : EvalM α} :
    attempt? x s = .ok (some a) t ↔ x s = .ok a t := by
  simp only [attempt?]
  cases x s with
  | ok => simp
  | error h => cases h <;> simp

@[simp] theorem overflowing_eq_ok {r : Option α} : Eval.overflowing r = .ok a ↔ r = some a := by
  cases r <;> simp [Eval.overflowing]

theorem toOption_eq_some {ε : Type} {r : Except ε α} : r.toOption = some a ↔ r = .ok a := by
  cases r <;> simp [Except.toOption]

@[simp] theorem checkLengths_eq_ok {i j : Nat} {span : Span} {u : Unit} :
    Eval.checkLengths i j span s = .ok u t ↔ i = j ∧ s = t := by
  unfold Eval.checkLengths
  split <;> simp_all

section Lists

variable {ε σ β : Type} {f : α → EStateM ε σ β}

-- A property of the state is carried through a list, and each step gives one of the results.
theorem mapM_eq_ok {P : σ → Prop} {Q : α → β → Prop} {as : List α}
    (h : ∀ a ∈ as, ∀ {s b t}, P s → f a s = .ok b t → P t ∧ Q a b) :
    ∀ {s bs t}, P s → as.mapM f s = .ok bs t → P t ∧ List.Forall₂ Q as bs := by
  induction as with
  | nil =>
    intro s bs t hs he
    simp only [List.mapM_nil, pure_eq_ok] at he
    exact ⟨he.2 ▸ hs, he.1 ▸ .nil⟩
  | cons a as ih =>
    intro s bs t hs he
    simp only [List.mapM_cons, bind_eq_ok, pure_eq_ok] at he
    obtain ⟨b, u, hb, bs', w, hbs, hr, hw⟩ := he
    obtain ⟨hu, hq⟩ := h a List.mem_cons_self hs hb
    obtain ⟨ht, hqs⟩ := ih (fun c hc => h c (List.mem_cons_of_mem _ hc)) hu hbs
    exact ⟨hw ▸ ht, hr ▸ .cons hq hqs⟩

theorem mapM_eq_some_iff {g : α → Option β} {as : List α} {bs : List β} :
    as.mapM g = some bs ↔ List.Forall₂ (fun a b => g a = some b) as bs := by
  constructor
  · intro h
    induction as generalizing bs with
    | nil =>
      cases h
      exact .nil
    | cons a as ih =>
      simp only [List.mapM_cons, Option.bind_eq_bind, Option.bind_eq_some_iff] at h
      have ⟨b, hb, bs', hbs, hr⟩ := h
      cases hr
      exact .cons hb (ih hbs)
  · intro h
    induction h with
    | nil => rfl
    | cons ha _ ih => simp [List.mapM_cons, ha, ih]

theorem forall₂_exists {P : α → β → Prop} {as : List α} {bs : List β} (h : List.Forall₂ P as bs) :
    ∀ a ∈ as, ∃ b ∈ bs, P a b := by
  induction h with
  | nil => simp
  | cons ha _ ih =>
    intro a hm
    rcases List.mem_cons.mp hm with rfl | hm
    · exact ⟨_, List.mem_cons_self, ha⟩
    · have ⟨b, hb, hp⟩ := ih a hm
      exact ⟨b, List.mem_cons_of_mem _ hb, hp⟩

theorem forall₂_unique {P Q : α → β → Prop} {as : List α} {bs cs : List β}
    (hb : List.Forall₂ P as bs) (hc : List.Forall₂ Q as cs) (h : ∀ a b c, P a b → Q a c → b = c) :
    bs = cs := by
  induction hb generalizing cs with
  | nil =>
    cases hc
    rfl
  | cons ha _ ih =>
    cases hc with
    | cons hq hqs => rw [h _ _ _ ha hq, ih hqs]

theorem forall₂_and_mem {P : α → β → Prop} {Q : α → Prop} {as : List α} {bs : List β}
    (h : List.Forall₂ P as bs) (hq : ∀ a ∈ as, Q a) : List.Forall₂ (fun a b => Q a ∧ P a b) as bs := by
  induction h with
  | nil => exact .nil
  | cons ha _ ih =>
    exact .cons ⟨hq _ List.mem_cons_self, ha⟩ (ih fun a h => hq a (List.mem_cons_of_mem _ h))

theorem forall₂_zip {γ : Type} {P : α → β → Prop} {as : List α} {bs : List β}
    (h : List.Forall₂ P as bs) (cs : List γ) :
    List.Forall₂ (fun p q => p.1 = q.1 ∧ P p.2 q.2) (cs.zip as) (cs.zip bs) := by
  induction h generalizing cs with
  | nil => simp
  | cons ha _ ih =>
    cases cs with
    | nil => exact .nil
    | cons c cs => exact .cons ⟨rfl, ha⟩ (ih cs)

-- A list is followed element by element, and what was found on the way stays true.
theorem exists_mapM {α β γ σ ε : Type} {G : σ → σ → Prop} [Std.Refl G] [IsTrans σ G]
    {f : α → EStateM ε σ β} {g : α → Option γ} {P : σ → Prop} {Q : σ → β → γ → Prop} {as : List α}
    (h : ∀ a ∈ as, ∀ {s v}, P s → g a = some v → ∃ b t, f a s = .ok b t ∧ P t ∧ Q t b v)
    (hf : ∀ a ∈ as, Keeps G (f a)) (hQ : ∀ {s t b v}, G s t → Q s b v → Q t b v) {s : σ} {vs : List γ}
    (hs : P s) (hv : as.mapM g = some vs) :
    ∃ bs t, as.mapM f s = .ok bs t ∧ P t ∧ List.Forall₂ (Q t) bs vs := by
  induction as generalizing s vs with
  | nil =>
    cases hv
    exact ⟨[], s, rfl, hs, .nil⟩
  | cons a as ih =>
    rw [List.mapM_cons] at hv
    have ⟨v, hav, hv⟩ := Option.bind_eq_some_iff.mp hv
    have ⟨ws, hws, hv⟩ := Option.bind_eq_some_iff.mp hv
    cases hv
    have ⟨b, t, hab, ht, hb⟩ := h a List.mem_cons_self hs hav
    have hf' : ∀ a ∈ as, Keeps G (f a) := fun a ha => hf a (List.mem_cons_of_mem _ ha)
    have ⟨bs, u, hbs, hu, hq⟩ := ih (fun a ha => h a (List.mem_cons_of_mem _ ha)) hf' ht hws
    refine ⟨b :: bs, u, ?_, hu, .cons (hQ ((Keeps.mapM hf').of_ok hbs) hb) hq⟩
    simp only [List.mapM_cons, bind_eq_ok, pure_eq_ok]
    exact ⟨b, t, hab, bs, u, hbs, rfl, rfl⟩

end Lists

namespace Eval

variable {ev : Eval} {limit : Nat} {k : ValueKind} {e : ExprId}

-- A value of a type that is not smaller is read off a literal, or computed by a rule.
theorem valueStep_eq (h : fromSmaller? ev k (s.model.ty e) e = none) :
    valueStep ev limit k e s = match k.literal? e (s.model.kind e) with
      | some v => .ok v s
      | none => compound ev limit k (s.model.expr e) s := by
  have h' : fromSmaller? ev k (s.model.expr e).ty e = none := h
  simp only [valueStep, model_bind, h', Model.kind]
  cases k.literal? e (s.model.expr e).kind <;> rfl

-- A literal is its own value.
theorem run_literal {fuel : Nat} {v w : k.Val} (hs : ∀ ev, fromSmaller? ev k (s.model.ty e) e = none)
    (hl : k.literal? e (s.model.kind e) = some w) (he : run limit fuel (.value k) e s = .ok v t) :
    w = v ∧ s = t := by
  cases fuel with
  | zero => cases he
  | succ fuel =>
    rw [run, step, valueStep_eq (hs _), hl] at he
    cases he
    exact ⟨rfl, rfl⟩

theorem fromSmaller_int {ty : Ty} (h : ty.isInt) : fromSmaller? ev .int ty e = none := by
  simp_all [fromSmaller?, Ty.isInt, Ty.isBool, Ty.isScalar]

theorem residualByType_eq {x : Expr} (h : x.ty.dim = 0) :
    residualByType ev limit e x = match literalKind? x.ty with
      | some k => stored ev k e
      | none => residualNode ev limit e x := by
  have h0 : decide (0 < x.ty.dim) = false := by simp [h]
  cases hk : literalKind? x.ty <;>
    simp only [residualByType, hk, h0, Bool.false_and, Bool.false_eq_true, if_false]

theorem literalKind_int {ty : Ty} (h : ty.isInt) :
    literalKind? ty = none ∨ literalKind? ty = some .int := by
  simp only [Ty.isInt, Ty.isScalar, Bool.and_eq_true, decide_eq_true_eq, Bool.not_eq_true'] at h
  simp [literalKind?, Ty.isIntSet, Ty.isBoolSet, Ty.isSetOf, Ty.isSetTy, Ty.isInt, Ty.isScalar, h]
  cases ty.isPar <;> simp

theorem literalKind_bool {ty : Ty} (h : ty.isBool) :
    literalKind? ty = none ∨ literalKind? ty = some .bool := by
  simp only [Ty.isBool, Ty.isScalar, Bool.and_eq_true, decide_eq_true_eq, Bool.not_eq_true'] at h
  simp [literalKind?, Ty.isIntSet, Ty.isBoolSet, Ty.isSetOf, Ty.isSetTy, Ty.isInt, Ty.isBool,
    Ty.isScalar, h]
  cases ty.isPar <;> simp

-- A function without a body cannot be called.
theorem call_ne_ok {f : FuncId} {args : List ExprId} {span : Span} {run : ExprId → EvalM α}
    (h : s.model.withBody? (some f) = none) : call ev limit f args span run s = .ok a t ↔ False := by
  have hf : (s.model.func f).body = none := by simpa [Model.withBody?] using h
  simp [call, hf]

theorem restoring_eq_ok {saved : List Saved} {x : EvalM α} :
    restoring saved x s = .ok a t ↔ ∃ u, x s = .ok a u ∧ restoreAll saved u = t := by
  simp only [restoring]
  cases x s <;> simp

theorem deeper_eq_ok {x : EvalM α} :
    deeper x s = .ok a t ↔
      ∃ u, x { s with depth := s.depth + 1 } = .ok a u ∧ { u with depth := u.depth - 1 } = t := by
  simp only [deeper]
  cases x { s with depth := s.depth + 1 } <;> simp

-- The stages of a call that ends in a value.
theorem call_eq_ok {f : FuncId} {args : List ExprId} {span : Span} {run : ExprId → EvalM α} :
    call ev limit f args span run s = .ok a t ↔
      ∃ body, (s.model.func f).body = some body ∧ (s.model.func f).params.length = args.length ∧
        s.depth < limit ∧ ∃ values u saved w, args.mapM ev.residual s = .ok values u ∧
          (((s.model.func f).params.zip values).mapM fun (p, v) => bind p (some v) :
            EvalM (List Saved)) u = .ok saved w ∧
          restoring saved (deeper do
            (s.model.func f).params.forM (checkParam ev span)
            run (← detach ev body)) w = .ok a t := by
  simp only [call, model_bind]
  cases (s.model.func f).body with
  | none => simp
  | some body =>
    by_cases hl : (s.model.func f).params.length = args.length
    · by_cases hd : limit ≤ s.depth
      · simp [hl, hd, get_bind, Nat.not_lt.mpr hd]
      · simp [hl, hd, get_bind, Nat.lt_of_not_le hd]
    · simp [hl]

section Compounds

variable {x : Expr} {v : k.Val} {fn : Option FuncId}

-- A call that has no body to run is one of a builtin.
theorem compound_builtin {name : String} {args : List ExprId} (hx : x.kind = .call name args fn)
    (hf : s.model.withBody? fn = none) :
    compound ev limit k x s = within x.span (.call name) (builtin ev k name args x.span) s := by
  simp only [compound, hx, model_bind, hf]

theorem compound_call {name : String} {args : List ExprId} (hx : x.kind = .call name args fn)
    (hf : s.model.withBody? fn = none) :
    compound ev limit k x s = .ok v t ↔ builtin ev k name args x.span s = .ok v t := by
  rw [compound_builtin hx hf, within_eq_ok]

theorem compound_un {op : UnOp} {a : ExprId} (hx : x.kind = .un op a fn)
    (hf : s.model.withBody? fn = none) :
    compound ev limit k x s = .ok v t ↔ fn = none ∧ node ev k x s = .ok v t := by
  cases fn with
  | none => simp only [compound, hx, true_and]
  | some f => simp only [compound, hx, within_eq_ok, call_ne_ok hf, reduceCtorEq, false_and]

theorem compound_bin {op : BinOp} {l r : ExprId} (hx : x.kind = .bin op l r fn)
    (hf : s.model.withBody? fn = none) :
    compound ev limit k x s = .ok v t ↔ fn = none ∧ node ev k x s = .ok v t := by
  cases fn with
  | none => simp only [compound, hx, true_and]
  | some f => simp only [compound, hx, within_eq_ok, call_ne_ok hf, reduceCtorEq, false_and]

theorem compound_ite {branches : List (ExprId × ExprId)} {otherwise : ExprId}
    (hx : x.kind = .ite branches otherwise) :
    compound ev limit k x s = .ok v t ↔
      ∃ r u, selectBranch ev otherwise branches s = .ok r u ∧ ev.value k r u = .ok v t := by
  simp only [compound, hx, bind_eq_ok]

end Compounds

-- A name has the value of its declaration's initializer.
theorem identValue_eq_ok {name : String} {d : DeclId} {span : Span} {v : k.Val} :
    identValue ev k name (some d) span s = .ok v t ↔
      ∃ init u, (s.model.decl (s.model.followFlat d)).init = some init ∧
        ev.value k init s = .ok v u ∧ remember k (s.model.followFlat d) v u = .ok () t := by
  simp only [identValue, declared, bind_eq_ok, model_eq_ok, pure_eq_ok]
  constructor
  · rintro ⟨_, _, ⟨_, _, ⟨rfl, rfl⟩, rfl, rfl⟩, _, _, ⟨rfl, rfl⟩, he⟩
    cases hi : (s.model.decl (s.model.followFlat d)).init with
    | none => simp [hi] at he
    | some init =>
      simp only [hi, bind_eq_ok, pure_eq_ok] at he
      obtain ⟨w, u, hw, _, _, hr, hwv, hu⟩ := he
      exact ⟨init, u, rfl, hwv ▸ hw, hu ▸ hwv ▸ hr⟩
  · rintro ⟨init, u, hi, hv, hr⟩
    refine ⟨_, _, ⟨_, _, ⟨rfl, rfl⟩, rfl, rfl⟩, _, _, ⟨rfl, rfl⟩, ?_⟩
    simp only [hi, bind_eq_ok, pure_eq_ok]
    exact ⟨v, u, hv, (), t, hr, rfl, rfl⟩

end Eval

theorem runEval_eq_ok {m : Model} {x : EvalM α} :
    (m.runEval x).1 = .ok a ↔ ∃ t, x { model := m } = .ok a t := by
  unfold Model.runEval
  cases x { model := m } <;> simp

theorem runEval_eq_error {m : Model} {x : EvalM α} {h : Halt EvalError} :
    (m.runEval x).1 = .error h ↔ ∃ t, x { model := m } = .error h t := by
  unfold Model.runEval
  cases x { model := m } <;> simp

theorem evaluate_eq_ok {m m' : Model} {g : Target} {e : ExprId} {v : g.Out} {limit : Nat} :
    m.evaluate g e limit = (.ok v, m') ↔
      ∃ s, Eval.run limit (Eval.fuelFor limit m) g e { model := m } = .ok v s ∧ s.model = m' := by
  unfold Model.evaluate Model.runEval
  cases Eval.run limit (Eval.fuelFor limit m) g e { model := m } <;> simp [Prod.ext_iff, eq_comm]

end Parvar
