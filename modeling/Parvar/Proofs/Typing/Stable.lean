import Parvar.Proofs.Typing.Clean

/-!
Invariants of type checking. `Stable I` lists what a check can do, each with the reason for which it
is done, and says that `I` survives it. A stable invariant then holds of every state that a check
leaves behind, whether it ends in a value or in an error.
-/

namespace Parvar

theorem Seen.model {J : Model → Prop} {m : Model} : Seen (fun c => J c.model) m → J m := fun ⟨_, h, e⟩ => e ▸ h

structure Stable (I : Checking → Prop) : Prop where
  report : ∀ {c : Checking} e, I c → I { c with errors := c.errors.push e }
  setTy : ∀ {c} e t, I c → I (c.onModel (·.setTy e t))
  setKind : ∀ {c} e k, k.isPlain → I c → I (c.onModel (·.setKind e k))
  addExpr : ∀ {c} x, x.kind.isPlain → I c → I (c.onModel fun m => (m.addExpr x).2)
  setInit : ∀ {c} d e, I c → I (c.onModel (·.setInit d (some e)))
  setBody : ∀ {c} f e, I c → I (c.onModel (·.modifyFunc f ({ · with body := some e })))
  declare : ∀ {m₁ m₂ c} d, Seen I m₁ → Seen I m₂ → I c →
    I (c.onModel (·.setDeclTy d (m₂.typeInst (m₁.decl d).ti).ty))
  generate : ∀ {m₁ m₂ c e k g d} t, Seen I m₁ → m₁.kind e = .comp k → g ∈ k.generators → d ∈ g.decls →
    Seen I m₂ → I c → I (c.onModel (·.setDeclTy d t)) ∧ I (c.onModel (·.setTypeInstTy (m₂.decl d).ti t))
  typeInst : ∀ {m₁ m₂ c t ty ty'}, Seen I m₁ → Seen I m₂ → I c →
    Rules.rank (m₁.typeInst t).ty
      ((m₁.typeInst t).ranges.map fun r => ((m₂.typeInst r).ty, (m₂.typeInst r).span)) = .ok ty →
    Rules.Filled ty ty' → I (c.onModel (·.setTypeInstTy t ty'))

variable {α : Type} {I : Checking → Prop}

theorem Seen.plain {m : Model} : Seen (fun c => ∃ _ : Unit, I c) m → Seen I m := fun ⟨c, ⟨_, h⟩, e⟩ => ⟨c, h, e⟩

variable (hI : Stable I)

include hI

namespace Stable

theorem coerced {c : Checking} {m' : Model} {e e' : ExprId} (h : c.model.Coerced e e' m') (hc : I c) :
    I { c with model := m' } := by
  induction h with
  | same => exact hc
  | wrap name fn _ hk _ ih => exact hI.addExpr _ (by rw [hk]; rfl) ih

-- There is one world, in which any node may be made a part of any other.
def regime : Regime Unit where
  Inv _ := I
  Grown _ _ := True
  Own _ := True
  Has _ _ _ := True
  refl _ := trivial
  trans _ _ := trivial
  mono _ _ := trivial
  report := hI.report
  setTy := hI.setTy
  setKind _ hk _ := hI.setKind _ _ hk
  coerced _ h hc := ⟨(), trivial, hI.coerced h hc, trivial⟩
  setInit _ _ _ _ := hI.setInit _ _
  declare d h₁ h₂ := hI.declare d h₁.plain h₂.plain
  generate t h₁ hk hg hd h₂ := hI.generate t h₁.plain hk hg hd h₂.plain
  typeInst h₁ h₂ := hI.typeInst h₁.plain h₂.plain

theorem whole : hI.regime.Whole where
  own _ := trivial
  parts _ _ _ _ := trivial
  inits _ _ _ _ := trivial
  coerced h hc := ⟨(), trivial, hI.coerced h hc⟩
  setBody := hI.setBody
  define d hc := ⟨(), trivial, hI.setInit d _ (hI.addExpr _ rfl hc)⟩

theorem upholds {x : CheckM α} (h : hI.regime.Allows () x) : Upholds I x := by
  intro c hc
  obtain ⟨_, -, hi, -⟩ := h c () trivial hc
  exact ⟨hi, fun _ _ _ => trivial⟩

end Stable

theorem Maintains.setTy (e : ExprId) (t : Ty) : Upholds I (CheckM.setTy e t) := .changeModel fun _ => hI.setTy e t

theorem Maintains.setKind (e : ExprId) {k : ExprKind} (hk : k.isPlain) : Upholds I (CheckM.setKind e k) :=
  .changeModel fun _ => hI.setKind e k hk

theorem Maintains.coerce (e : ExprId) (t : Ty) : Upholds I (CheckM.coerce e t) :=
  hI.upholds (hI.whole.coerce e t)

namespace Typing

theorem upholds_finish {e : ExprId} (k : ExprKind) : Upholds I (finish e k) :=
  hI.upholds (allows_finish (fun _ => trivial) fun _ _ => trivial)

theorem upholds_walk (pass : Pass) (fuel : Nat) (s : Site) : Upholds I (walk pass fuel s) :=
  hI.upholds (hI.whole.walk pass fuel s ())

end Typing

omit hI

namespace Check

theorem holds_checking {J : Model → Prop} {x : CheckM Unit} (hx : Upholds (fun c => J c.model) x) {m m' : Model}
    {errors : List TypeError} (h : ModelM.checking x m = .ok errors m') (hm : J m) : J m' := by
  obtain ⟨c, hc, -, rfl⟩ := checking_eq_ok h
  exact final_of_ok hc ▸ (hx { model := m } hm).1

-- What holds of a model when its names are bound and its overloads sorted holds after its check.
theorem holds_items {J : Model → Prop} (hJ : Stable fun c => J c.model) {allowUndefined : Bool} {m m' : Model}
    {report : Report} (h : Check.items allowUndefined m = .ok report m')
    (hm : ∀ r, resolveItems m.itemPaths { model := m } = .ok () r → r.order.toList = report.order →
      J (sortItems report.order r.model.sortOverloads)) : J m' := by
  have ⟨r, hr, ho, _, _, _, m₁, m₂, h₁, h₂, h₃, _⟩ := items_eq_ok h
  have hm₁ := holds_checking (hJ.upholds (hJ.whole.declareAll _ _)) h₁ (hm r hr ho.symm)
  have hm₂ := holds_checking (hJ.upholds hJ.whole.checkAll) h₂ hm₁
  exact holds_checking (hJ.upholds (.forM fun d _ => hJ.whole.defined allowUndefined d)) h₃ hm₂

end Check
end Parvar
