import Parvar.Proofs.Model.Lookup
import Parvar.Proofs.Model.Place
import Parvar.Proofs.Outcome
import Parvar.Typing.Check

/-!
What a check does to a model, said once. A regime is what holds in every state of a check, with what may be made a
part of a node. Each of the changes that a check is made of keeps to it, and so do all visits, items and checks,
whether they end in a value or in an error.
-/

namespace Parvar

section Coercions

variable {m m' : Model} {e : ExprId}

-- What a coercion puts in the place of an expression: calls around it.
inductive Model.Coerced (m : Model) (e : ExprId) : ExprId → Model → Prop
  | same : Coerced m e e m
  | wrap {e₁ : ExprId} {m₁ : Model} {x : Expr} (name : String) (fn : Option FuncId)
      (h : Coerced m e e₁ m₁) (kind : x.kind = .call name [e₁] fn) (ann : x.ann = []) :
      Coerced m e (m₁.addExpr x).1 (m₁.addExpr x).2

theorem Model.Coerced.of_wrap {e₁ e' : ExprId} {m₁ : Model} {name : String} (h : m.Coerced e e₁ m₁)
    (hw : m₁.wrap name e₁ = .ok (e', m')) : m.Coerced e e' m' := by
  simp only [Model.wrap] at hw
  split at hw
  · cases hw
  · next f _ =>
    cases hr : m₁.returnTy f [(m₁.expr e₁).ty] (m₁.expr e₁).span with
    | error => simp [hr, bind, Except.bind] at hw
    | ok ty =>
      simp only [hr, bind, Except.bind, pure, Except.pure, Except.ok.injEq] at hw
      obtain ⟨rfl, rfl⟩ := hw
      exact .wrap name (some f) h rfl rfl

theorem Model.coerced_of_coerce {e' : ExprId} {t : Ty} (h : m.coerce e t = .ok (e', m')) : m.Coerced e e' m' := by
  simp only [Model.coerce] at h
  split at h
  · cases h
    exact .same
  · cases ha : m.asArray e t with
    | error => simp [ha, bind, Except.bind] at h
    | ok r =>
      obtain ⟨e₁, m₁⟩ := r
      have h : m₁.widen e₁ t (m.expr e).span = .ok (e', m') := by
        simpa [ha, bind, Except.bind] using h
      have h₁ : m.Coerced e e₁ m₁ := by
        simp only [Model.asArray] at ha
        split at ha
        · split at ha
          · cases ha
          · exact .of_wrap .same ha
        · cases ha
          exact .same
      simp only [Model.widen] at h
      split at h
      · cases h
        exact h₁
      · split at h
        · exact .of_wrap h₁ h
        · cases h

theorem coerce_cases (e : ExprId) (t : Ty) (c : Checking) :
    (∃ h, CheckM.coerce e t c = .error h c) ∨
      ∃ e' m', CheckM.coerce e t c = .ok e' { c with model := m' } ∧ c.model.Coerced e e' m' := by
  have hx : CheckM.coerce e t c = (CheckM.ofExcept (c.model.coerce e t) >>= fun r => do
      CheckM.changeModel fun _ => r.2
      return r.1) c := rfl
  cases h : c.model.coerce e t with
  | error err =>
    rw [h] at hx
    exact .inl ⟨_, hx⟩
  | ok r =>
    rw [h] at hx
    exact .inr ⟨r.1, r.2, hx, Model.coerced_of_coerce h⟩

end Coercions

-- The base has been found.
def Ty.Known (t : Ty) : Prop := t.base ≠ .unknown

theorem Ty.known_iff {t : Ty} : t.Known ↔ ¬t.isUnknown := by
  simp [Ty.Known, Ty.isUnknown]

namespace Rules

variable {t u : Ty}

theorem base_markedBy (t u : Ty) : (markedBy t u).base = t.base := by
  rw [markedBy]
  split <;> rfl

theorem known_markedBy : (markedBy t u).Known ↔ t.Known := by
  rw [Ty.Known, base_markedBy, Ty.Known]

-- A type as it is stored: with what its domain marks it with, and with a base.
inductive Filled (t : Ty) : Ty → Prop
  | known (part : Ty) (h : t.Known) : Filled t (markedBy t part)
  | base (part : Ty) (h : ¬t.Known) {b : Base} (hb : b = .int ∨ b = .float) :
      Filled t ((markedBy t part).withBase b)

theorem domain_eq_ok {x : Operand} {isTypeVar : Bool} (h : domain t x isTypeVar = .ok u) : u = markedBy t x.ty := by
  simp only [domain, raise] at h
  split at h
  · split at h
    · cases h
    · split at h
      · cases h
      · cases h; rfl
  · cases h; rfl

theorem domainBase_eq_ok {x : Operand} {b : Base} (h : domainBase x = .ok b) : b = .int ∨ b = .float := by
  simp only [domainBase, raise] at h
  split at h
  · cases h; exact .inl rfl
  · cases h; exact .inl rfl
  · cases h; exact .inr rfl
  · cases h

end Rules

-- Typing gives no expression the kind of a name or of a comprehension.
def ExprKind.isPlain : ExprKind → Bool
  | .ident _ _ | .comp _ => false
  | _ => true

-- A change to the model; the errors on record stay.
def Checking.onModel (c : Checking) (f : Model → Model) : Checking := { c with model := f c.model }

-- The model of some state of a check. What is read from it is used later, when the check has moved on.
def Seen (I : Checking → Prop) (m : Model) : Prop := ∃ c, I c ∧ c.model = m

section Maintains

variable {α β : Type} {I : Checking → Prop}

-- A step keeps the invariant, however it ends, and what it returns is described by `Q`.
def Maintains (I : Checking → Prop) (x : CheckM α) (Q : α → Prop) : Prop :=
  ∀ c, I c → I (final x c) ∧ ∀ a c', x c = .ok a c' → Q a

-- Nothing is said of what is returned.
def Upholds (I : Checking → Prop) (x : CheckM α) : Prop := Maintains I x fun _ => True

namespace Maintains

variable {P : α → Prop} {Q : β → Prop}

theorem pure {a : α} (h : P a) : Maintains I (pure a : CheckM α) P := by
  refine fun c hc => ⟨hc, fun b c' hx => ?_⟩
  obtain ⟨rfl, -⟩ := pure_eq_ok.mp hx
  exact h

theorem throw {h : Halt TypeError} : Maintains I (throw h : CheckM α) P :=
  fun _ hc => ⟨hc, fun _ _ hx => (throw_ne_ok.mp hx).elim⟩

theorem bind {x : CheckM α} {f : α → CheckM β} (hx : Maintains I x P)
    (hf : ∀ a, P a → Maintains I (f a) Q) : Maintains I (x >>= f) Q := by
  intro c hc
  have ⟨hi, hp⟩ := hx c hc
  cases e : x c with
  | error h t =>
    rw [final_of_error e] at hi
    rw [final_bind_of_error e]
    refine ⟨hi, fun b c' hb => ?_⟩
    have ⟨_, _, hok, _⟩ := bind_eq_ok.mp hb
    cases e.symm.trans hok
  | ok a t =>
    rw [final_of_ok e] at hi
    rw [final_bind_of_ok e]
    have ⟨hi', hq⟩ := hf a (hp a t e) t hi
    refine ⟨hi', fun b c' hb => ?_⟩
    have ⟨_, _, hok, hb⟩ := bind_eq_ok.mp hb
    cases e.symm.trans hok
    exact hq b c' hb

theorem model : Maintains I CheckM.model (Seen I) := by
  refine fun c hc => ⟨hc, fun m c' h => ⟨c, hc, ?_⟩⟩
  obtain ⟨-, rfl⟩ : c' = c ∧ c.model = m := by simpa [CheckM.model] using h
  rfl

theorem ofExcept (x : Except TypeError α) : Maintains I (CheckM.ofExcept x) fun a => x = .ok a := by
  cases x
  case ok a => exact pure rfl
  case error => exact throw

theorem done (a : α) : Upholds I (Pure.pure a : CheckM α) := pure trivial

theorem seq {x : CheckM α} {f : α → CheckM β} (hx : Upholds I x) (hf : ∀ a, Maintains I (f a) Q) :
    Maintains I (x >>= f) Q :=
  bind hx fun a _ => hf a

-- A step that is taken under a condition.
theorem when {p : Prop} [Decidable p] {x : CheckM PUnit} {f : PUnit → CheckM β} (hx : Upholds I x)
    (hf : Maintains I (f ⟨⟩) Q) : Maintains I (if p then x >>= f else f ⟨⟩) Q := by
  split
  · exact seq hx fun _ => hf
  · exact hf

theorem forM {f : α → CheckM PUnit} {as : List α} (hf : ∀ a ∈ as, Upholds I (f a)) :
    Upholds I (as.forM f) := by
  induction as with
  | nil => exact done _
  | cons a as ih =>
    exact seq (hf a List.mem_cons_self) fun _ => ih fun b hb => hf b (List.mem_cons_of_mem _ hb)

theorem mapM {f : α → CheckM β} {as : List α} (hf : ∀ a ∈ as, Upholds I (f a)) :
    Upholds I (as.mapM f) := by
  induction as with
  | nil => exact done _
  | cons a as ih =>
    rw [List.mapM_cons]
    refine seq (hf a List.mem_cons_self) fun b => ?_
    exact seq (ih fun c hc => hf c (List.mem_cons_of_mem _ hc)) fun bs => done _

theorem operand (e : ExprId) : Upholds I (CheckM.operand e) := bind model fun _ _ => done _

theorem fail (cause : TypeError.Cause) (span : Span) : Maintains I (CheckM.fail cause span : CheckM α) P :=
  throw

theorem changeModel {f : Model → Model} (hf : ∀ c, I c → I (c.onModel f)) : Upholds I (CheckM.changeModel f) :=
  fun c hc => ⟨hf c hc, fun _ _ _ => trivial⟩

theorem report (hr : ∀ {c : Checking} err, I c → I { c with errors := c.errors.push err }) (cause : TypeError.Cause)
    (span : Span) : Upholds I (CheckM.report cause span) :=
  fun _ hc => ⟨hr _ hc, fun _ _ _ => trivial⟩

end Maintains

namespace Typing

section Reports

variable (hr : ∀ {c : Checking} err, I c → I { c with errors := c.errors.push err })

include hr

theorem upholds_finiteSet (d : DeclId) : Upholds I (finiteSet d) := by
  refine .bind .model fun m hm => ?_
  dsimp only
  split
  · exact .report hr _ _
  · exact .done _

theorem upholds_letOrigin (item : LetItem) (old : Option ExprId) : Upholds I (letOrigin item old) := by
  cases item
  case constraint => exact .done _
  case decl d =>
    refine .bind .model fun m hm => .seq (upholds_finiteSet hr d) fun _ => .when (.fail _ _) ?_
    exact .bind .model fun m hm => .when (.report hr _ _) (.done _)

end Reports

theorem upholds_annotations {visit : Visit} (hv : ∀ s, Upholds I (visit s)) (es : List ExprId) :
    Upholds I (annotations visit es) := by
  refine .forM fun a _ => .seq (hv _) fun _ => .seq (.operand a) fun x => ?_
  split
  · exact .fail _ _
  · exact .done _

theorem maintains_typeIn (hty : ∀ {c : Checking} e t, I c → I (c.onModel (·.setTy e t))) (ty : Ty) (span : Span)
    (domain : Option ExprId) : Maintains I (typeIn ty span domain) (Rules.Filled ty) := by
  cases domain
  case none =>
    rw [typeIn]
    split
    · exact .bind (P := fun _ => False) (.fail _ _) fun _ h => h.elim
    · next h => exact .pure (.known .unknown (Ty.known_iff.mpr h))
  case some a =>
    refine .bind .model fun m _ => .bind (.ofExcept _) fun t ht => ?_
    obtain rfl := Rules.domain_eq_ok ht
    split
    · next h =>
      refine .bind (.ofExcept _) fun b hb => .seq (.changeModel fun _ => hty _ _) fun _ => .pure ?_
      exact .base _ (fun hk => Ty.known_iff.mp (Rules.known_markedBy.mpr hk) h) (Rules.domainBase_eq_ok hb)
    · next h => exact .pure (.known _ (Rules.known_markedBy.mp (Ty.known_iff.mpr h)))

end Typing
end Maintains

structure Regime (W : Type) where
  Inv : W → Checking → Prop
  -- Worlds that come later.
  Grown : W → W → Prop
  -- The nodes that may be changed.
  Own : Site → Prop
  -- What may be made a part of a node, from some world on.
  Has : Site → W → Site → Prop
  refl : ∀ w, Grown w w
  trans : ∀ {w w₁ w₂}, Grown w w₁ → Grown w₁ w₂ → Grown w w₂
  mono : ∀ {o s w w₁}, Grown w w₁ → Has o w s → Has o w₁ s
  report : ∀ {w} {c : Checking} err, Inv w c → Inv w { c with errors := c.errors.push err }
  setTy : ∀ {w} {c : Checking} e t, Inv w c → Inv w (c.onModel (·.setTy e t))
  setKind : ∀ {w c e k}, Own (.expr e) → k.isPlain → (∀ s ∈ k.parts Generator.uses, Has (.expr e) w s) → Inv w c →
    Inv w (c.onModel (·.setKind e k))
  coerced : ∀ {o w a b m'} {c : Checking}, Has o w (.expr a) → c.model.Coerced a b m' → Inv w c →
    ∃ w₁, Grown w w₁ ∧ Inv w₁ { c with model := m' } ∧ Has o w₁ (.expr b)
  setInit : ∀ {m w c d a e}, Own (.decl d) → Seen (fun c => ∃ w, Inv w c) m → a ∈ (m.decl d).init.toList →
    Has (.decl d) w (.expr e) → Inv w c → Inv w (c.onModel (·.setInit d (some e)))
  declare : ∀ {m₁ m₂ w c} d, Seen (fun c => ∃ w, Inv w c) m₁ → Seen (fun c => ∃ w, Inv w c) m₂ → Inv w c →
    Inv w (c.onModel (·.setDeclTy d (m₂.typeInst (m₁.decl d).ti).ty))
  generate : ∀ {m₁ m₂ w c e k g d} t, Seen (fun c => ∃ w, Inv w c) m₁ → m₁.kind e = .comp k → g ∈ k.generators →
    d ∈ g.decls → Seen (fun c => ∃ w, Inv w c) m₂ → Inv w c →
    Inv w (c.onModel (·.setDeclTy d t)) ∧ Inv w (c.onModel (·.setTypeInstTy (m₂.decl d).ti t))
  typeInst : ∀ {m₁ m₂ w c t ty ty'}, Seen (fun c => ∃ w, Inv w c) m₁ → Seen (fun c => ∃ w, Inv w c) m₂ → Inv w c →
    Rules.rank (m₁.typeInst t).ty
      ((m₁.typeInst t).ranges.map fun r => ((m₂.typeInst r).ty, (m₂.typeInst r).span)) = .ok ty →
    Rules.Filled ty ty' → Inv w (c.onModel (·.setTypeInstTy t ty'))

namespace Regime

variable {α β W : Type}

section Steps

variable (K : Regime W)

def Sees : Model → Prop := Seen fun c => ∃ w, K.Inv w c

-- Taken in any world that comes after `w`, a step leads to one of which `Q` holds with what is returned.
def Grants (w : W) (x : CheckM α) (Q : α → W → Prop) : Prop :=
  ∀ c w₁, K.Grown w w₁ → K.Inv w₁ c →
    ∃ w₂, K.Grown w₁ w₂ ∧ K.Inv w₂ (final x c) ∧ ∀ a c', x c = .ok a c' → Q a w₂

-- Nothing is said of what is returned.
def Allows (w : W) (x : CheckM α) : Prop := K.Grants w x fun _ _ => True

-- The same of a step that is taken in the given state.
def AllowsAt (c : Checking) (w : W) (x : CheckM α) : Prop :=
  K.Inv w c → ∃ w₁, K.Grown w w₁ ∧ K.Inv w₁ (final x c)

end Steps

variable {K : Regime W} {w : W} {P : α → W → Prop} {Q : β → W → Prop}

namespace Grants

theorem pure {a : α} (h : ∀ w₁, K.Grown w w₁ → P a w₁) : K.Grants w (pure a : CheckM α) P := by
  refine fun c w₁ hw hc => ⟨w₁, K.refl _, hc, fun b c' hx => ?_⟩
  obtain ⟨rfl, -⟩ := pure_eq_ok.mp hx
  exact h _ hw

theorem throw {h : Halt TypeError} : K.Grants w (throw h : CheckM α) P :=
  fun _ w₁ _ hc => ⟨w₁, K.refl _, hc, fun _ _ hx => (throw_ne_ok.mp hx).elim⟩

theorem bind {x : CheckM α} {f : α → CheckM β} (hx : K.Grants w x P)
    (hf : ∀ a w₁, K.Grown w w₁ → P a w₁ → K.Grants w₁ (f a) Q) : K.Grants w (x >>= f) Q := by
  intro c w₁ hw hc
  obtain ⟨w₂, hw₂, h₂, hp⟩ := hx c w₁ hw hc
  cases e : x c with
  | error h t =>
    rw [final_of_error e] at h₂
    rw [final_bind_of_error e]
    refine ⟨w₂, hw₂, h₂, fun b c' hb => ?_⟩
    obtain ⟨_, _, hok, -⟩ := bind_eq_ok.mp hb
    cases e.symm.trans hok
  | ok a t =>
    rw [final_of_ok e] at h₂
    rw [final_bind_of_ok e]
    obtain ⟨w₃, hw₃, h₃, hq⟩ := hf a w₂ (K.trans hw hw₂) (hp a t e) t w₂ (K.refl _) h₂
    refine ⟨w₃, K.trans hw₂ hw₃, h₃, fun b c' hb => ?_⟩
    obtain ⟨_, _, hok, hb⟩ := bind_eq_ok.mp hb
    cases e.symm.trans hok
    exact hq b c' hb

theorem later {w₁ : W} {x : CheckM α} (hx : K.Grants w x P) (hw : K.Grown w w₁) : K.Grants w₁ x P :=
  fun c w₂ hw₂ => hx c w₂ (K.trans hw hw₂)

theorem seq {x : CheckM α} {f : α → CheckM β} (hx : K.Allows w x)
    (hf : ∀ a w₁, K.Grown w w₁ → K.Grants w₁ (f a) Q) : K.Grants w (x >>= f) Q :=
  bind hx fun a w₁ hw _ => hf a w₁ hw

theorem forM {f : α → CheckM PUnit} {as : List α} (hf : ∀ a ∈ as, K.Allows w (f a)) : K.Allows w (as.forM f) := by
  induction as generalizing w with
  | nil => exact pure fun _ _ => trivial
  | cons a as ih =>
    refine seq (hf a List.mem_cons_self) fun _ _ hw => ih fun b hb => ?_
    exact (hf b (List.mem_cons_of_mem _ hb)).later hw

-- What holds of each result holds of all of them at the end, if it lasts.
theorem mapM {f : α → CheckM β} {as : List α} (hQ : ∀ {b w w₁}, K.Grown w w₁ → Q b w → Q b w₁)
    (hf : ∀ a ∈ as, K.Grants w (f a) Q) : K.Grants w (as.mapM f) fun bs w₁ => ∀ b ∈ bs, Q b w₁ := by
  induction as generalizing w with
  | nil => exact pure fun _ _ => by simp
  | cons a as ih =>
    rw [List.mapM_cons]
    refine bind (hf a List.mem_cons_self) fun b w₁ h₁ hb => ?_
    refine bind (ih fun a ha => (hf a (List.mem_cons_of_mem _ ha)).later h₁) fun bs w₂ h₂ hbs => ?_
    exact pure fun w₃ h₃ => List.forall_mem_cons.mpr ⟨hQ (K.trans h₂ h₃) hb, fun b hb => hQ h₃ (hbs b hb)⟩

theorem foldlM {f : β → α → CheckM β} {as : List α} {b : β} (hQ : ∀ {b w w₁}, K.Grown w w₁ → Q b w → Q b w₁)
    (hb : Q b w) (hf : ∀ b, ∀ a ∈ as, ∀ w₁, K.Grown w w₁ → Q b w₁ → K.Grants w₁ (f b a) Q) :
    K.Grants w (as.foldlM f b) Q := by
  induction as generalizing w b with
  | nil => exact pure fun w₁ hw => hQ hw hb
  | cons a as ih =>
    rw [List.foldlM_cons]
    refine bind (hf b a List.mem_cons_self w (K.refl _) hb) fun b w₁ h₁ hb => ?_
    exact ih hb fun b a ha w₂ h₂ => hf b a (List.mem_cons_of_mem _ ha) w₂ (K.trans h₁ h₂)

-- A step that leaves the world as it is.
theorem of {x : CheckM α} {P : α → Prop} (hx : ∀ w, Maintains (K.Inv w) x P) : K.Grants w x fun a _ => P a :=
  fun c w₁ _ hc => ⟨w₁, K.refl _, hx w₁ c hc⟩

theorem keep {x : CheckM α} {f : α → CheckM β} {P : α → Prop} (hx : ∀ w, Maintains (K.Inv w) x P)
    (hf : ∀ a, P a → K.Grants w (f a) Q) : K.Grants w (x >>= f) Q :=
  bind (of hx) fun a _ hw ha => (hf a ha).later hw

theorem when {p : Prop} [Decidable p] {x : CheckM PUnit} {f : PUnit → CheckM β} (hx : ∀ w, Upholds (K.Inv w) x)
    (hf : K.Grants w (f ⟨⟩) Q) : K.Grants w (if p then x >>= f else f ⟨⟩) Q := by
  split
  · exact keep hx fun _ _ => hf
  · exact hf

theorem read {f : Model → CheckM β} (hf : ∀ m, K.Sees m → K.Grants w (f m) Q) : K.Grants w (CheckM.model >>= f) Q := by
  refine keep (P := K.Sees) (fun w c hc => ⟨hc, fun m c' h => ?_⟩) hf
  obtain ⟨c₁, h₁, rfl⟩ := (Maintains.model c hc).2 m c' h
  exact ⟨c₁, ⟨w, h₁⟩, rfl⟩

theorem get {x : Except TypeError α} {f : α → CheckM β} (hf : ∀ a, x = .ok a → K.Grants w (f a) Q) :
    K.Grants w (CheckM.ofExcept x >>= f) Q :=
  keep (fun _ => .ofExcept x) hf

theorem look {e : ExprId} {f : Operand → CheckM β} (hf : ∀ x, K.Grants w (f x) Q) :
    K.Grants w (CheckM.operand e >>= f) Q :=
  keep (fun _ => .operand e) fun x _ => hf x

theorem done (a : α) : K.Allows w (Pure.pure a : CheckM α) := pure fun _ _ => trivial

theorem fail (cause : TypeError.Cause) (span : Span) : K.Grants w (CheckM.fail cause span : CheckM α) P := throw

theorem report (cause : TypeError.Cause) (span : Span) : K.Allows w (CheckM.report cause span) :=
  of fun _ => .report K.report cause span

theorem setTy (e : ExprId) (t : Ty) : K.Allows w (CheckM.setTy e t) := of fun _ => .changeModel fun _ => K.setTy e t

theorem setKind {e : ExprId} {k : ExprKind} (ho : K.Own (.expr e)) (hk : k.isPlain)
    (hs : ∀ s ∈ k.parts Generator.uses, K.Has (.expr e) w s) : K.Allows w (CheckM.setKind e k) :=
  fun _ w₁ hw hc => ⟨w₁, K.refl _, K.setKind ho hk (fun s hm => K.mono hw (hs s hm)) hc, fun _ _ _ => trivial⟩

-- What an expression is turned into may stand wherever the expression may.
theorem coerce {o : Site} {a : ExprId} (ha : K.Has o w (.expr a)) (t : Ty) :
    K.Grants w (CheckM.coerce a t) fun b w₁ => K.Has o w₁ (.expr b) := by
  intro c w₁ hw hc
  obtain ⟨h, hx⟩ | ⟨b, m', hx, hm⟩ := coerce_cases a t c
  · rw [final_of_error hx]
    refine ⟨w₁, K.refl _, hc, fun b c' hb => ?_⟩
    cases hx.symm.trans hb
  · obtain ⟨w₂, hw₂, h₂, hb⟩ := K.coerced (K.mono hw ha) hm hc
    rw [final_of_ok hx]
    refine ⟨w₂, hw₂, h₂, fun b' c' hb' => ?_⟩
    cases hx.symm.trans hb'
    exact hb

theorem coerceAll {o : Site} {es : List ExprId} (hes : ∀ a ∈ es, K.Has o w (.expr a)) (t : Ty) :
    K.Grants w (es.mapM (CheckM.coerce · t)) fun es w₁ => ∀ a ∈ es, K.Has o w₁ (.expr a) :=
  mapM (Q := fun b w₁ => K.Has o w₁ (.expr b)) (fun hw => K.mono hw) fun a ha => coerce (hes a ha) t

end Grants

theorem AllowsAt.read {c : Checking} {f : Model → CheckM α} (hf : K.Sees c.model → K.Allows w (f c.model)) :
    K.AllowsAt c w (CheckM.model >>= f) := by
  intro hc
  obtain ⟨w₁, hw, h₁, -⟩ := hf ⟨c, ⟨w, hc⟩, rfl⟩ c w (K.refl _) hc
  exact ⟨w₁, hw, h₁⟩

end Regime

namespace Typing

open CheckM

theorem forall_ite_parts {branches : List (ExprId × ExprId)} {otherwise : ExprId} {P : Site → Prop} :
    (∀ s ∈ (ExprKind.ite branches otherwise).parts Generator.uses, P s) ↔
      (∀ b ∈ branches, P (.expr b.1) ∧ P (.expr b.2)) ∧ P (.expr otherwise) := by
  rw [ExprKind.parts, List.forall_mem_append]
  refine and_congr ⟨fun h b hb => ⟨h _ ?_, h _ ?_⟩, fun h s hs => ?_⟩ List.forall_mem_singleton
  · exact List.mem_flatMap.mpr ⟨b, hb, by simp⟩
  · exact List.mem_flatMap.mpr ⟨b, hb, by simp⟩
  · obtain ⟨b, hb, hs⟩ := List.mem_flatMap.mp hs
    have hb := h b hb
    exact List.forall_mem_map.mpr (by simpa using hb) s hs

section Stages

-- The first stage of typing an expression visits its parts. The names of a generator get their types before the
-- next part is visited.
def gather (visit : Visit) : ExprKind → CheckM Unit
  | .comp c => do
    c.generators.forM (generator visit)
    (c.guard.toList.map Site.expr ++ [Site.expr c.body]).forM visit
  | k => (k.parts Generator.parts).forM visit

-- The second stage finds its type from theirs.
def finish (e : ExprId) : ExprKind → CheckM Unit
  | .int _ | .float _ | .bool _ | .string _ | .intSet _ | .absent | .anon | .typeVar _ => pure ()
  | .ident name b => ident e name b
  | .setLit es => setLit e es
  | .arrayLit es dims => arrayLit e es dims
  | .access array indices => access e array indices
  | .comp c => do
    let m ← CheckM.model
    CheckM.setTy e (← CheckM.ofExcept (Rules.comp c.isSet (m.operand c.body)
      (c.generators.map fun g => m.ty g.source) (c.guard.map m.operand)))
  | .ite branches otherwise => ite e branches otherwise
  | .bin op lhs rhs _ => bin e op lhs rhs
  | .un op arg _ => un e op arg
  | .call name args _ => call e name args
  | .letIn l => do
    let origin ← l.items.zipIdx.mapM fun (item, i) => letOrigin item (l.origin[i]?.getD none)
    CheckM.setKind e (.letIn { l with origin })
    let m ← CheckM.model
    let t := m.ty l.body
    CheckM.setTy e (t.withCv (t.cv || l.items.any (letItemCv m)))

variable {visit : Visit} {e : ExprId}

theorem exprs_eq (es : List ExprId) : Typing.exprs visit es = (es.map .expr).forM visit := by
  rw [Typing.exprs, List.forM_eq_forM, List.forM_eq_forM, List.forM_map]

theorem forM_concat {cs : List Site} {s : Site} : (cs ++ [s]).forM visit = cs.forM visit >>= fun _ => visit s := by
  rw [List.forM_eq_forM, List.forM_append, List.forM_cons, List.forM_nil]
  simp

theorem forM_branches (branches : List (ExprId × ExprId)) :
    (branches.forM fun b => Typing.exprs visit [b.1, b.2]) =
      (branches.flatMap fun b => [b.1, b.2].map Site.expr).forM visit := by
  induction branches with
  | nil => rfl
  | cons b bs ih =>
    rw [List.flatMap_cons, List.forM_eq_forM (α := Site), List.forM_append, ← List.forM_eq_forM (α := Site), ← ih,
      ← exprs_eq]
    rfl

theorem node_eq (k : ExprKind) : node visit e k = gather visit k >>= fun _ => finish e k := by
  cases k with
  | int | float | bool | string | intSet | absent | anon | typeVar | ident => rfl
  | setLit | arrayLit | access | bin | call => simp only [node, gather, finish, ExprKind.parts, exprs_eq]
  | un op arg fn =>
    simp only [node, gather, finish, ExprKind.parts]
    rw [← List.nil_append [Site.expr arg], forM_concat]
    rfl
  | comp c => simp only [node, comp, gather, finish, exprs_eq, forM_concat, bind_assoc]
  | ite branches otherwise => simp only [node, gather, finish, ExprKind.parts, forM_concat, forM_branches, bind_assoc]
  | letIn l =>
    have hitem : (letItem visit) = fun item => visit item.site := by
      funext item
      cases item <;> rfl
    have hitems : l.items.forM (letItem visit) = (l.items.map LetItem.site).forM visit := by
      rw [hitem, List.forM_eq_forM, List.forM_eq_forM, List.forM_map]
    simp only [node, letIn, gather, finish, ExprKind.parts, forM_concat, hitems, bind_assoc]

end Stages

variable {W : Type} {K : Regime W} {w : W} {e : ExprId} {o : Site}

section Nodes

variable {elems args : List ExprId}

theorem grants_index {i : ExprId} (t : Ty) (hs : K.Has o w (.expr i)) :
    K.Grants w (index t i) fun r w₁ => K.Has o w₁ (.expr r.1) := by
  refine .look fun x => .when (fun _ => .changeModel fun _ => K.setTy _ _) (.look fun x => .when (fun _ => .fail _ _) ?_)
  exact .bind (.coerce hs _) fun a _ _ ha => .pure fun _ hw => K.mono hw ha

theorem grants_accessed {a : ExprId} (hs : K.Has o w (.expr a)) :
    K.Grants w (accessed a) fun b w₁ => K.Has o w₁ (.expr b) := by
  refine .look fun x => ?_
  split
  · exact .when (fun _ => .fail _ _) (.coerce hs _)
  · exact .pure fun _ hw => K.mono hw hs

theorem grants_applied (f : FuncId) (tys : List Ty) (hs : ∀ a ∈ args, K.Has o w (.expr a)) :
    K.Grants w (applied e f args tys) fun r w₁ => ∀ a ∈ r.1, K.Has o w₁ (.expr a) := by
  refine .read fun m _ => .bind (.mapM (Q := fun a w₁ => K.Has o w₁ (.expr a)) (fun hw => K.mono hw) fun a ha => ?_)
    fun args _ _ hargs => ?_
  · exact .coerce (hs a.1 (List.of_mem_zip ha).1) a.2
  · exact .read fun m _ => .get fun t _ => .pure fun _ hw a ha => K.mono hw (hargs a ha)

variable (ho : K.Own (.expr e))

include ho

theorem allows_setLit (hs : ∀ a ∈ elems, K.Has (.expr e) w (.expr a)) : K.Allows w (setLit e elems) := by
  refine .read fun m _ => .get fun t _ => ?_
  split
  · exact .setTy _ _
  · refine .get fun t _ => .bind (.coerceAll hs t) fun es _ _ hes => ?_
    exact .seq (.setKind ho rfl (List.forall_mem_map.mpr hes)) fun _ _ _ => .setTy _ _

theorem allows_arrayLit {dims : List (Int64 × Int64)} (hs : ∀ a ∈ elems, K.Has (.expr e) w (.expr a)) :
    K.Allows w (arrayLit e elems dims) := by
  refine .read fun m _ => .get fun t _ => ?_
  split
  · exact .when (fun _ => .fail _ _) (.setTy _ _)
  · refine .get fun t _ => .keep (fun _ => .forM fun x _ => .changeModel fun _ => K.setTy _ _) fun _ _ => ?_
    refine .bind (.coerceAll hs t.elem) fun es _ _ hes => ?_
    exact .seq (.setKind ho rfl (List.forall_mem_map.mpr hes)) fun _ _ _ => .setTy _ _

theorem allows_access {array : ExprId} {indices : List ExprId}
    (hs : ∀ a ∈ array :: indices, K.Has (.expr e) w (.expr a)) : K.Allows w (access e array indices) := by
  obtain ⟨ha, hi⟩ := List.forall_mem_cons.mp hs
  refine .bind (grants_accessed ha) fun array w₁ h₁ ha => .look fun x => .when (fun _ => .fail _ _) ?_
  -- The indices that are done may be parts.
  let Q : List ExprId × Ty → W → Prop := fun r w => ∀ i ∈ r.1, K.Has (.expr e) w (.expr i)
  have hQ : ∀ {r w w₁}, K.Grown w w₁ → Q r w → Q r w₁ := fun hw hr i hi => K.mono hw (hr i hi)
  have hnil : Q ([], x.ty.elem) w₁ := fun i hi => by cases hi
  refine .bind (.foldlM (Q := Q) hQ hnil fun r i hmem w₂ h₂ hr => ?_) fun r w₂ h₂ hr => ?_
  · refine .bind (grants_index r.2 (K.mono (K.trans h₁ h₂) (hi i hmem))) fun b _ h₃ hb => .pure fun _ h₄ j hj => ?_
    rcases List.mem_append.mp hj with hj | hj
    · exact K.mono (K.trans h₃ h₄) (hr j hj)
    · cases List.mem_singleton.mp hj
      exact K.mono h₄ hb
  · have hall : ∀ i ∈ array :: r.1, K.Has (.expr e) w₂ (.expr i) := List.forall_mem_cons.mpr ⟨K.mono h₂ ha, hr⟩
    exact .seq (.setKind ho rfl (List.forall_mem_map.mpr hall)) fun _ _ _ => .setTy _ _

theorem allows_ite {branches : List (ExprId × ExprId)} {otherwise : ExprId}
    (hs : ∀ s ∈ (ExprKind.ite branches otherwise).parts Generator.uses, K.Has (.expr e) w s) :
    K.Allows w (ite e branches otherwise) := by
  obtain ⟨hb, hother⟩ := forall_ite_parts.mp hs
  refine .read fun m _ => .get fun c _ => .keep (fun _ => .forM fun _ _ => .changeModel fun _ => K.setTy _ _) fun _ _ => ?_
  let Q : ExprId × ExprId → W → Prop := fun b w => K.Has (.expr e) w (.expr b.1) ∧ K.Has (.expr e) w (.expr b.2)
  have hQ : ∀ {b w w₁}, K.Grown w w₁ → Q b w → Q b w₁ := fun hw h => ⟨K.mono hw h.1, K.mono hw h.2⟩
  refine .bind (.mapM (Q := Q) hQ fun b hmem => ?_) fun branches w₁ h₁ hb => ?_
  · refine .bind (.coerce (hb b hmem).2 _) fun a _ h₁ ha => .pure fun _ h₂ => ?_
    exact ⟨K.mono (K.trans h₁ h₂) (hb b hmem).1, K.mono h₂ ha⟩
  · refine .bind (.coerce (K.mono h₁ hother) _) fun otherwise _ h₂ hother => ?_
    have hall := forall_ite_parts.mpr ⟨fun b hm => hQ h₂ (hb b hm), hother⟩
    refine .seq (.setKind ho rfl hall) fun _ _ _ => ?_
    split
    · exact .read fun m _ => .bind (P := fun _ _ => False) (.fail _ _) fun _ _ _ h => h.elim
    · exact .setTy _ _

theorem allows_bin {op : BinOp} {lhs rhs : ExprId} (hs : ∀ a ∈ [lhs, rhs], K.Has (.expr e) w (.expr a)) :
    K.Allows w (bin e op lhs rhs) := by
  refine .read fun m _ => ?_
  split
  · exact .fail _ _
  · refine .bind (grants_applied _ _ hs) fun r _ _ hr => ?_
    obtain ⟨args, t⟩ := r
    dsimp only
    split
    · exact .read fun m _ => .seq (.setKind ho rfl (List.forall_mem_map.mpr hr)) fun _ _ _ => .setTy _ _
    · exact .setTy _ _

theorem allows_un {op : UnOp} {arg : ExprId} (hs : K.Has (.expr e) w (.expr arg)) : K.Allows w (un e op arg) := by
  refine .read fun m _ => ?_
  split
  · exact .fail _ _
  · refine .bind (grants_applied _ _ (List.forall_mem_singleton.mpr hs)) fun r _ _ hr => ?_
    obtain ⟨args, t⟩ := r
    dsimp only
    split
    · have harg := List.forall_mem_singleton.mpr (hr _ List.mem_cons_self)
      exact .read fun m _ => .seq (.setKind ho rfl harg) fun _ _ _ => .setTy _ _
    · exact .setTy _ _

theorem allows_call {name : String} (hs : ∀ a ∈ args, K.Has (.expr e) w (.expr a)) : K.Allows w (call e name args) := by
  refine .read fun m _ => ?_
  dsimp only
  split
  · exact .fail _ _
  · refine .bind (grants_applied _ _ hs) fun r _ _ hr => ?_
    exact .seq (.setKind ho rfl (List.forall_mem_map.mpr hr)) fun _ _ _ => .setTy _ _

-- Only the initializers that are noted differ.
theorem allows_letIn {l : Let} (hs : ∀ s ∈ (ExprKind.letIn l).parts Generator.uses, K.Has (.expr e) w s) :
    K.Allows w (finish e (.letIn l)) := by
  refine .keep (fun _ => .mapM fun i _ => upholds_letOrigin K.report i.1 _) fun origin _ => ?_
  exact .seq (.setKind ho rfl hs) fun _ _ _ => .read fun m _ => .setTy _ _

end Nodes

theorem allows_finish {k : ExprKind} (ho : k ≠ .anon → K.Own (.expr e))
    (hs : ∀ s ∈ k.parts Generator.uses, K.Has (.expr e) w s) : K.Allows w (finish e k) := by
  have hexprs : ∀ {es : List ExprId}, k.parts Generator.uses = es.map .expr → ∀ a ∈ es, K.Has (.expr e) w (.expr a) :=
    fun h a ha => hs _ (h ▸ List.mem_map_of_mem ha)
  cases k with
  | int | float | bool | string | intSet | absent | anon | typeVar => exact .done _
  | ident name b =>
    cases b with
    | none => exact .read fun _ _ => .fail _ _
    | some d => exact .read fun _ _ => .when (fun _ => .fail _ _) (.setTy _ _)
  | setLit => exact allows_setLit (ho nofun) (hexprs rfl)
  | arrayLit => exact allows_arrayLit (ho nofun) (hexprs rfl)
  | access => exact allows_access (ho nofun) (hexprs rfl)
  | comp => exact .read fun _ _ => .get fun _ _ => .setTy _ _
  | ite => exact allows_ite (ho nofun) hs
  | bin => exact allows_bin (ho nofun) (hexprs rfl)
  | un => exact allows_un (ho nofun) (hs _ List.mem_cons_self)
  | call => exact allows_call (ho nofun) (hexprs rfl)
  | letIn l => exact allows_letIn (ho nofun) hs

section Visits

variable {visit : Visit} {c : Checking}

theorem allows_annotations {es : List ExprId} (hv : ∀ a ∈ es, ∀ w, K.Allows w (visit (.expr a))) :
    K.Allows w (annotations visit es) := by
  refine .forM fun a ha => .seq (hv a ha w) fun _ _ _ => .look fun x => ?_
  split
  · exact .fail _ _
  · exact .done _

theorem allows_gather {m : Model} {k : ExprKind} (hm : K.Sees m) (hk : m.kind e = k)
    (hv : ∀ s ∈ k.parts Generator.uses, ∀ w, K.Allows w (visit s)) : K.Allows w (gather visit k) := by
  cases k with
  | comp c =>
    have hsource : ∀ g ∈ c.generators, .expr g.source ∈ (ExprKind.comp c).parts Generator.uses := fun g hg =>
      List.mem_append_left _ (List.mem_append_left _ (List.mem_flatMap.mpr ⟨g, hg, List.mem_singleton_self _⟩))
    refine .seq (.forM fun g hg => ?_) fun _ _ _ => .forM fun s hmem => hv s ?_ _
    · refine .seq (hv _ (hsource g hg) w) fun _ _ _ => .look fun x => .get fun t _ => .forM fun d hd => ?_
      refine .keep (fun _ => .changeModel fun _ hc => (K.generate t hm hk hg hd hm hc).1) fun _ _ => ?_
      exact .read fun m₂ hm₂ => .of fun _ => .changeModel fun _ hc => (K.generate t hm hk hg hd hm₂ hc).2
    · rw [ExprKind.parts, List.append_assoc]
      exact List.mem_append_right _ hmem
  | _ => exact .forM fun s hmem => hv s hmem w

theorem allowsAt_expr (ho : c.model.kind e ≠ .anon → K.Own (.expr e))
    (hs : ∀ s ∈ (c.model.kind e).parts Generator.uses, K.Has (.expr e) w s)
    (hv : ∀ s ∈ (c.model.kind e).parts Generator.uses, ∀ w, K.Allows w (visit s))
    (ha : ∀ m, K.Sees m → ∀ a ∈ (m.expr e).ann, ∀ w, K.Allows w (visit (.expr a))) :
    K.AllowsAt c w (expr visit e) := by
  refine .read fun hm => ?_
  rw [node_eq, bind_assoc]
  refine .seq (allows_gather hm rfl hv) fun _ _ hw => .seq (allows_finish ho fun s hmem => K.mono hw (hs s hmem)) ?_
  exact fun _ _ _ => .read fun m hm => allows_annotations (ha m hm)

theorem allows_initial {m : Model} {d : DeclId} {declared : Ty} {a : ExprId} (hm : K.Sees m) (ho : K.Own (.decl d))
    (ha : a ∈ (m.decl d).init.toList) (hs : K.Has (.decl d) w (.expr a)) : K.Allows w (initial d declared a) := by
  refine .look fun x => ?_
  split
  · refine .bind (.coerce hs _) fun b _ _ hb c w₁ hw hc => ?_
    exact ⟨w₁, K.refl _, K.setInit ho hm ha (K.mono hw hb) hc, fun _ _ _ => trivial⟩
  · exact .read fun _ _ => .report _ _

theorem allowsAt_decl {pass : Pass} {d : DeclId} (ho : pass = .check → K.Own (.decl d))
    (hs : ∀ a ∈ (c.model.decl d).init.toList, K.Has (.decl d) w (.expr a))
    (hv : ∀ s ∈ c.model.uses (.decl d), ∀ w, K.Allows w (visit s)) : K.AllowsAt c w (decl pass visit d) := by
  have hneeds : ∀ {s}, s ∈ c.model.needs d → s ∈ c.model.uses (.decl d) := fun hs => List.mem_append_left _ hs
  refine .read fun hm => .seq (hv _ (hneeds List.mem_cons_self) w) fun _ _ h₁ => ?_
  refine .seq (.forM fun a ha => hv _ (hneeds (List.mem_cons_of_mem _ (List.mem_map_of_mem ha))) _) fun _ _ h₂ => ?_
  refine .seq (allows_annotations fun a ha => hv _ (List.mem_append_right _ (List.mem_map_of_mem ha))) fun _ _ h₃ => ?_
  refine .read fun m₂ hm₂ => ?_
  have hset : ∀ w, Upholds (K.Inv w) (changeModel (·.setDeclTy d (m₂.typeInst (c.model.decl d).ti).ty)) := fun _ =>
    .changeModel fun _ => K.declare d hm hm₂
  cases pass with
  | declare => exact .of hset
  | check =>
    refine .when hset (.forM fun a ha => ?_)
    exact allows_initial hm (ho rfl) ha (K.mono (K.trans h₁ (K.trans h₂ h₃)) (hs a ha))

theorem allowsAt_typeInst {t : TypeInstId} (hv : ∀ s ∈ c.model.uses (.typeInst t), ∀ w, K.Allows w (visit s)) :
    K.AllowsAt c w (typeInst visit t) := by
  refine .read fun hm => .seq (.forM fun r hr => hv _ (List.mem_append_left _ (List.mem_map_of_mem hr)) _) fun _ _ _ => ?_
  refine .seq (.forM fun a ha => hv _ (List.mem_append_right _ (List.mem_map_of_mem ha)) _) fun _ _ _ => ?_
  refine .read fun m₂ hm₂ => .get fun ty hr => ?_
  refine .keep (fun _ => maintains_typeIn K.setTy ty _ _) fun ty' hf => .get fun _ _ => ?_
  exact .of fun _ => .changeModel fun _ hc => K.typeInst hm hm₂ hc hr hf

end Visits
end Typing

-- A regime under which all nodes may be changed, and keep their parts. It holds of whole checks.
structure Regime.Whole {W : Type} (K : Regime W) : Prop where
  own : ∀ o, K.Own o
  parts : ∀ {w c} e, K.Inv w c → ∀ s ∈ (c.model.kind e).parts Generator.uses, K.Has (.expr e) w s
  inits : ∀ {w c} d, K.Inv w c → ∀ a ∈ (c.model.decl d).init.toList, K.Has (.decl d) w (.expr a)
  coerced : ∀ {w a b m'} {c : Checking}, c.model.Coerced a b m' → K.Inv w c →
    ∃ w₁, K.Grown w w₁ ∧ K.Inv w₁ { c with model := m' }
  setBody : ∀ {w c} f e, K.Inv w c → K.Inv w (c.onModel (·.modifyFunc f ({ · with body := some e })))
  define : ∀ {w c} d, K.Inv w c → ∃ w₁, K.Grown w w₁ ∧
    K.Inv w₁ (c.onModel fun m => (Build.absent m).2.setInit d (some (Build.absent m).1))

namespace Regime.Whole

open Typing

variable {W : Type} {K : Regime W} {w : W} (hK : K.Whole)

include hK

section Walk

theorem walk (pass : Pass) : ∀ (fuel : Nat) (s : Site) (w : W), K.Allows w (walk pass fuel s)
  | 0, _, _ => .throw
  | fuel + 1, s, w => by
    have ih := walk pass fuel
    intro c w₁ _ hc
    have hat : K.AllowsAt c w₁ (site pass (Typing.walk pass fuel) s) := by
      cases s with
      | expr e => exact allowsAt_expr (fun _ => hK.own _) (hK.parts e hc) (fun s _ => ih s) fun _ _ a _ => ih _
      | decl d => exact allowsAt_decl (fun _ => hK.own _) (hK.inits d hc) fun s _ => ih s
      | typeInst t => exact allowsAt_typeInst fun s _ => ih s
    obtain ⟨w₂, hw, h₂⟩ := hat hc
    exact ⟨w₂, hw, h₂, fun _ _ _ => trivial⟩

theorem assignTypes (pass : Pass) (s : Site) (w : W) : K.Allows w (assignTypes pass s) := by
  intro c
  have hx : Parvar.assignTypes pass s c = Typing.walk pass c.model.walkFuel s c := rfl
  simpa only [final, hx] using hK.walk pass c.model.walkFuel s w c

end Walk

section Items

variable (pass : Pass)

theorem declare (d : DeclId) : K.Allows w (Typing.declare pass d) := by
  refine .read fun m₁ hm₁ => .seq (hK.assignTypes pass _ w) fun _ _ _ => .read fun m₂ hm₂ => ?_
  exact .of fun _ => .changeModel fun _ => K.declare d hm₁ hm₂

theorem declareFunc (f : FuncId) : K.Allows w (Typing.declareFunc pass f) := by
  refine .read fun m _ => .seq (hK.assignTypes pass _ w) fun _ _ _ => ?_
  exact .forM fun p _ => hK.assignTypes pass (.decl p) _

theorem coerce (e : ExprId) (t : Ty) : K.Allows w (CheckM.coerce e t) := by
  intro c w₁ _ hc
  obtain ⟨h, hx⟩ | ⟨b, m', hx, hm⟩ := coerce_cases e t c
  · rw [final_of_error hx]
    exact ⟨w₁, K.refl _, hc, fun _ _ _ => trivial⟩
  · obtain ⟨w₂, hw, h₂⟩ := hK.coerced hm hc
    rw [final_of_ok hx]
    exact ⟨w₂, hw, h₂, fun _ _ _ => trivial⟩

theorem func (f : FuncId) : K.Allows w (Typing.func pass f) := by
  refine .read fun m _ => .seq (allows_annotations fun a _ => hK.assignTypes pass _) fun _ _ _ => ?_
  refine .seq (hK.assignTypes pass _ _) fun _ _ _ => .forM fun e _ => .seq (hK.assignTypes pass _ _) fun _ _ _ => ?_
  refine .read fun m _ => .look fun body => .when (fun _ => .fail _ _) (.seq (hK.coerce _ _) fun e' _ _ => ?_)
  exact .of fun _ => .changeModel fun _ => hK.setBody f e'

-- A type is assigned, and then looked at.
theorem examine {e : ExprId} {p : Operand → Prop} [DecidablePred p] {cause : Operand → TypeError.Cause} :
    K.Allows w (do
      Parvar.assignTypes pass (.expr e)
      let x ← CheckM.operand e
      if p x then CheckM.fail (cause x) x.span) := by
  refine .seq (hK.assignTypes pass _ w) fun _ _ _ => .look fun x => ?_
  split
  · exact .fail _ _
  · exact .done _

theorem item (i : Item) : K.Allows w (Typing.item pass i) := by
  cases i with
  | submodel | assign => exact .done _
  | func f => exact hK.func pass f
  | constraint e => exact hK.examine pass
  | output e => exact hK.examine pass
  | solve goal ann =>
    refine .seq (allows_annotations fun a _ => hK.assignTypes pass _) fun _ _ _ => ?_
    exact .forM fun e _ => hK.examine pass
  | decl d =>
    refine .seq (hK.assignTypes pass _ w) fun _ _ _ => .read fun m _ => ?_
    exact .when (fun _ => .report K.report _ _) (.of fun _ => upholds_finiteSet K.report d)

end Items

section Check

omit hK in
theorem attempt {x : CheckM Unit} (hx : K.Allows w x) : K.Allows w (CheckM.attempt x) := by
  intro c w₁ hw hc
  obtain ⟨w₂, hw₂, h₂, -⟩ := hx c w₁ hw hc
  refine ⟨w₂, hw₂, ?_, fun _ _ _ => trivial⟩
  simp only [final, CheckM.attempt] at h₂ ⊢
  cases h : x c with
  | ok => simpa [h] using h₂
  | error h' =>
    rw [h] at h₂
    cases h' with
    | failed e => exact K.report e h₂
    | outOfFuel => exact h₂

theorem declareAll (order : List DeclId) (fs : List FuncId) : K.Allows w (Check.declareAll order fs) := by
  refine .seq (.forM fun d _ => attempt (hK.declare _ d)) fun _ _ _ => ?_
  exact .forM fun f _ => attempt (hK.declareFunc _ f)

theorem checkAll : K.Allows w Check.checkAll := by
  refine .read fun m _ => .forM fun p _ => .read fun m _ => ?_
  split
  · exact attempt (hK.item _ _)
  · exact .done _

theorem defined (allowUndefined : Bool) (d : DeclId) : K.Allows w (Check.defined allowUndefined d) := by
  refine .read fun m _ => ?_
  dsimp only
  split
  · exact .done _
  · split
    · intro c w₁ _ hc
      obtain ⟨w₂, hw, h₂⟩ := hK.define d hc
      exact ⟨w₂, hw, h₂, fun _ _ _ => trivial⟩
    · split
      · exact .report _ _
      · exact .done _

end Check
end Regime.Whole
end Parvar
