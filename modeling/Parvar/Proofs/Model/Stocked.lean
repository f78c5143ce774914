import Parvar.Proofs.Model.Extension
import Parvar.Proofs.Resolve.Items
import Parvar.Proofs.Typing.Complete

/-!
What declaring the library adds to a model: type-insts with known types, type variables in some of
them, parameters without values, and functions that can be found by their names.
-/

namespace Parvar

open Model

instance (t : Ty) : Decidable t.Known := inferInstanceAs (Decidable (t.base ≠ .unknown))

-- All that was added to `m₀` is typed and refers to nothing but type variables that were added, too.
structure Stocked (m₀ m : Model) : Prop extends m₀.Extends m where
  newExprs : ∀ e, m₀.exprs.size ≤ e.index → e.index < m.exprs.size →
    ∃ name, m.expr e = { kind := .typeVar name, ty := .top }
  newTypeInsts : ∀ t, m₀.typeInsts.size ≤ t.index → t.index < m.typeInsts.size →
    (m.typeInst t).ty.Known ∧ ∀ e ∈ (m.typeInst t).domain, m₀.exprs.size ≤ e.index ∧ e.index < m.exprs.size
  newDecls : ∀ d, m₀.decls.size ≤ d.index → (m.decl d).init = none ∧ (m.decl d).ann = []
  newFuncs : ∀ f, m₀.funcs.size ≤ f.index → f.index < m.funcs.size →
    m₀.typeInsts.size ≤ (m.func f).ret.index ∧ (m.func f).ret.index < m.typeInsts.size
  registered : ∀ f, m.Registered f → m₀.Registered f ∨ m₀.funcs.size ≤ f.index ∧ f.index < m.funcs.size

-- A step that keeps every model on top of `w` stocked. What it returns is described by `Q`.
def Stocks {α : Type} (m₀ w : Model) (x : Build α) (Q : α → Model → Prop) : Prop :=
  ∀ m, w.Extends m → Stocked m₀ m → Stocked m₀ (x m).2 ∧ m.Extends (x m).2 ∧ Q (x m).1 (x m).2

variable {α β : Type} {m₀ m w : Model}

namespace Stocks

section Rules

variable {P : α → Model → Prop} {Q : β → Model → Prop}

theorem pure {a : α} (h : ∀ w', w.Extends w' → P a w') : Stocks m₀ w (pure a : Build α) P :=
  fun m hw hm => ⟨hm, .refl m, h m hw⟩

theorem bind {x : Build α} {f : α → Build β} (hx : Stocks m₀ w x P)
    (hf : ∀ a w', w.Extends w' → P a w' → Stocks m₀ w' (f a) Q) : Stocks m₀ w (x >>= f) Q := by
  intro m hw hm
  have ⟨h₁, he₁, hp⟩ := hx m hw hm
  have ⟨h₂, he₂, hq⟩ := hf _ _ (hw.trans he₁) hp _ (.refl _) h₁
  exact ⟨h₂, he₁.trans he₂, hq⟩

theorem mapM {f : α → Build β} {as : List α}
    (hf : ∀ a ∈ as, ∀ w', w.Extends w' → Stocks m₀ w' (f a) fun _ _ => True) :
    Stocks m₀ w (as.mapM f) fun _ _ => True := by
  induction as generalizing w with
  | nil => exact pure fun _ _ => trivial
  | cons a as ih =>
    rw [List.mapM_cons]
    refine bind (hf a List.mem_cons_self w (.refl w)) fun b w₁ h₁ _ => ?_
    refine bind (ih fun b hb w₂ h₂ => hf b (List.mem_cons_of_mem _ hb) w₂ (h₁.trans h₂)) fun bs w₂ h₂ _ => ?_
    exact pure fun _ _ => trivial

theorem forM {f : α → Build PUnit} {as : List α}
    (hf : ∀ a ∈ as, ∀ w', w.Extends w' → Stocks m₀ w' (f a) fun _ _ => True) :
    Stocks m₀ w (as.forM f) fun _ _ => True := by
  induction as generalizing w with
  | nil => exact pure fun _ _ => trivial
  | cons a as ih =>
    refine bind (hf a List.mem_cons_self w (.refl w)) fun _ w₁ h₁ _ => ?_
    exact ih fun b hb w₂ h₂ => hf b (List.mem_cons_of_mem _ hb) w₂ (h₁.trans h₂)

end Rules

-- Of the nodes of one kind only the last is new.
theorem getElem?_push_cases {as : Array α} {a : α} {i : Nat} (h : i < (as.push a).size) :
    i = as.size ∧ (as.push a)[i]? = some a ∨ i < as.size ∧ (as.push a)[i]? = as[i]? := by
  simp only [Array.size_push] at h
  by_cases hi : i = as.size
  · exact .inl ⟨hi, by simp [hi]⟩
  · have hlt : i < as.size := by omega
    exact .inr ⟨hlt, by simp [Array.getElem?_push, hi]⟩

-- An expression that was added by the step.
def NewExpr (m₀ : Model) (e : ExprId) (m : Model) : Prop := m₀.exprs.size ≤ e.index ∧ e.index < m.exprs.size

def NewTypeInst (m₀ : Model) (t : TypeInstId) (m : Model) : Prop :=
  m₀.typeInsts.size ≤ t.index ∧ t.index < m.typeInsts.size

theorem typeVar (name : String) : Stocks m₀ w (Build.typeVar name) (NewExpr m₀) := by
  intro m hw hm
  have hext : m.Extends (m.addExpr { kind := .typeVar name, ty := .top }).2 := Extending.addExpr _ m
  have hle := hm.exprs.length_le
  refine ⟨⟨hm.toExtends.trans hext, fun e he hlt => ?_, fun t ht hlt => ?_, hm.newDecls, hm.newFuncs, hm.registered⟩,
    hext, by simpa [Build.typeVar, Build.expr, addExpr] using hle, by simp [Build.typeVar, Build.expr, addExpr]⟩
  · obtain ⟨_, h⟩ | ⟨hold, h⟩ := getElem?_push_cases hlt
    · exact ⟨name, by rw [expr]; exact congrArg (Option.getD · default) h⟩
    · obtain ⟨n, hn⟩ := hm.newExprs e he hold
      exact ⟨n, by rw [← hn, expr, expr]; exact congrArg (Option.getD · default) h⟩
  · obtain ⟨hk, hd⟩ := hm.newTypeInsts t ht hlt
    exact ⟨hk, fun e he => ⟨(hd e he).1, Nat.lt_of_lt_of_le (hd e he).2 (by simp [Build.typeVar, Build.expr, addExpr])⟩⟩

theorem addTypeInst {x : TypeInst} (hk : x.ty.Known) (hd : ∀ e ∈ x.domain, NewExpr m₀ e w) :
    Stocks m₀ w (Model.addTypeInst · x) (NewTypeInst m₀) := by
  intro m hw hm
  have hext : m.Extends (m.addTypeInst x).2 := Extending.addTypeInst x m
  have hle := hm.typeInsts.length_le
  refine ⟨⟨hm.toExtends.trans hext, hm.newExprs, fun t ht hlt => ?_, hm.newDecls, fun f hf hlt => ?_, hm.registered⟩,
    hext, by simpa [Model.addTypeInst] using hle, by simp [Model.addTypeInst]⟩
  · rw [typeInst]
    obtain ⟨_, h⟩ | ⟨hold, h⟩ := getElem?_push_cases hlt
    · rw [show (m.addTypeInst x).2.typeInsts[t.index]? = some x from h]
      refine ⟨hk, fun e he => ⟨(hd e he).1, Nat.lt_of_lt_of_le (hd e he).2 ?_⟩⟩
      simpa [Model.addTypeInst] using hw.exprs.length_le
    · rw [show (m.addTypeInst x).2.typeInsts[t.index]? = m.typeInsts[t.index]? from h]
      exact hm.newTypeInsts t ht hold
  · obtain ⟨h₁, h₂⟩ := hm.newFuncs f hf hlt
    exact ⟨h₁, Nat.lt_trans h₂ (by simp [Model.addTypeInst])⟩

theorem addDecl {x : Decl} (hi : x.init = none) (ha : x.ann = []) :
    Stocks m₀ w (Model.addDecl · x) fun _ _ => True := by
  intro m hw hm
  have hext : m.Extends (m.addDecl x).2 := Extending.addDecl x m
  refine ⟨⟨hm.toExtends.trans hext, hm.newExprs, hm.newTypeInsts, fun d hd => ?_, hm.newFuncs, hm.registered⟩,
    hext, trivial⟩
  by_cases hlt : d.index < (m.addDecl x).2.decls.size
  · rw [decl]
    obtain ⟨_, h⟩ | ⟨_, h⟩ := getElem?_push_cases hlt
    · rw [show (m.addDecl x).2.decls[d.index]? = some x from h]
      exact ⟨hi, ha⟩
    · rw [show (m.addDecl x).2.decls[d.index]? = m.decls[d.index]? from h]
      exact hm.newDecls d hd
  · rw [decl_of_le (Nat.le_of_not_lt hlt)]
    exact ⟨rfl, rfl⟩

theorem registered_register {f g : FuncId} (h : (m.register g).Registered f) : m.Registered f ∨ f = g := by
  obtain ⟨name, fs, hm, hf⟩ := h
  simp only [Model.register] at hm
  split at hm
  · cases List.mem_append.mp hm
    case inl hm => exact .inl ⟨name, fs, hm, hf⟩
    case inr hm =>
      obtain ⟨rfl, rfl⟩ : name = (m.func g).name ∧ fs = [g] := by simpa using hm
      exact .inr (List.mem_singleton.mp hf)
  · split at hm
    · exact .inl ⟨name, fs, hm, hf⟩
    · obtain ⟨⟨n, gs⟩, hgs, heq⟩ := List.mem_map.mp hm
      obtain ⟨rfl, rfl⟩ := Prod.mk.inj heq
      split at hf
      · cases List.mem_append.mp hf
        case inl hf => exact .inl ⟨n, gs, hgs, hf⟩
        case inr hf => exact .inr (List.mem_singleton.mp hf)
      · exact .inl ⟨n, gs, hgs, hf⟩

-- A function that is added can be found by its name.
theorem addFunc {x : Func} (hr : NewTypeInst m₀ x.ret w) : Stocks m₀ w (do
    let f ← (Model.addFunc · x : Build FuncId)
    modify (·.register f)) fun _ _ => True := by
  intro m hw hm
  have hext : m.Extends (((m.addFunc x).2).register (m.addFunc x).1) :=
    (Extending.addFunc x m).trans (Extending.register _ _)
  have ⟨fs, hreg⟩ := Resolve.register_eq (m.addFunc x).2 (m.addFunc x).1
  have hle : m₀.funcs.size ≤ m.funcs.size := by simpa using hm.funcs.length_le
  have hregistered : ∀ f, ((m.addFunc x).2.register (m.addFunc x).1).Registered f →
      m₀.Registered f ∨ m₀.funcs.size ≤ f.index ∧ f.index < m.funcs.size + 1 := by
    intro f hf
    cases registered_register hf
    case inl h => exact (hm.registered f h).imp_right fun h => ⟨h.1, Nat.lt_succ_of_lt h.2⟩
    case inr h => exact .inr (h ▸ ⟨hle, Nat.lt_succ_self _⟩)
  suffices h : Stocked m₀ ((m.addFunc x).2.register (m.addFunc x).1) from ⟨h, hext, trivial⟩
  refine ⟨hm.toExtends.trans hext, ?_, ?_, ?_, ?_, ?_⟩
  all_goals rw [hreg] at hregistered ⊢
  · exact hm.newExprs
  · exact hm.newTypeInsts
  · exact hm.newDecls
  · intro f hf hlt
    rw [func]
    obtain ⟨_, h⟩ | ⟨hold, h⟩ := getElem?_push_cases hlt
    · rw [show (m.addFunc x).2.funcs[f.index]? = some x from h]
      refine ⟨hr.1, Nat.lt_of_lt_of_le hr.2 ?_⟩
      simpa [Model.addFunc] using hw.typeInsts.length_le
    · rw [show (m.addFunc x).2.funcs[f.index]? = m.funcs[f.index]? from h]
      exact hm.newFuncs f hf hold
  · simpa [Model.addFunc] using hregistered

theorem indexInt : Stocks m₀ w Build.indexInt fun _ _ => True := fun m hw hm =>
  have ⟨h, he, _⟩ := addTypeInst (x := { ty := .parInt }) (by decide) (by simp) m hw hm
  ⟨h, he, trivial⟩

theorem libraryTypeInst {t : Ty} (ht : t.Known) : Stocks m₀ w (Library.typeInst t) (NewTypeInst m₀) := by
  have hranges : Stocks m₀ w (Library.ranges t) fun _ _ => True := by
    rw [Library.ranges]
    split
    · refine bind (P := fun _ _ => True) ?_ fun _ _ _ _ => pure fun _ _ => trivial
      refine bind (typeVar "_") fun e w₁ h₁ he m hw hm => ?_
      obtain ⟨h, hext, _⟩ := addTypeInst (x := { ty := .top, domain := some e }) (show Ty.top.Known by decide)
        (by simpa using he) m hw hm
      exact ⟨h, hext, trivial⟩
    · exact mapM fun _ _ _ _ => indexInt
  have hdomain : ∀ w', Stocks m₀ w' (Library.domain t) fun d w'' => ∀ e ∈ d, NewExpr m₀ e w'' := by
    intro w'
    rw [Library.domain]
    split
    · refine bind (typeVar "T") fun e w₁ h₁ he => pure fun w₂ h₂ => ?_
      rintro _ ⟨⟩
      exact ⟨he.1, Nat.lt_of_lt_of_le he.2 (by simpa using h₂.exprs.length_le)⟩
    · exact pure fun _ _ => by simp
  refine bind hranges fun rs w₁ _ _ => bind (hdomain w₁) fun d w₂ _ hd => ?_
  exact addTypeInst (x := { ty := t, ranges := rs, domain := d }) ht hd

theorem declare {s : Library.Signature} (hp : ∀ t ∈ s.params, t.Known) (hr : s.ret.Known) :
    Stocks m₀ w (Library.declare s) fun _ _ => True := by
  refine bind (mapM fun (t, i) hm w₁ _ => ?_) fun params w₁ _ _ => ?_
  · refine bind (libraryTypeInst (hp t (List.fst_mem_of_mem_zipIdx hm))) fun ti w₂ _ _ => ?_
    exact addDecl (x := { name := "x" ++ toString i, ti, ty := t }) rfl rfl
  · refine bind (libraryTypeInst hr) fun ret w₂ _ hret => ?_
    exact addFunc (x := { name := s.name, params, ret }) hret

end Stocks

theorem Library.known_signatures :
    ∀ s ∈ Library.signatures, (∀ t ∈ s.params, t.Known) ∧ s.ret.Known := by
  decide +kernel

theorem Stocked.refl (m : Model) : Stocked m m where
  toExtends := .refl m
  newExprs _ h₁ h₂ := (Nat.not_lt_of_le h₁ h₂).elim
  newTypeInsts _ h₁ h₂ := (Nat.not_lt_of_le h₁ h₂).elim
  newDecls d h := by rw [decl_of_le h]; exact ⟨rfl, rfl⟩
  newFuncs _ h₁ h₂ := (Nat.not_lt_of_le h₁ h₂).elim
  registered _ := .inl

theorem Stocked.withLibrary (m : Model) : Stocked m m.withLibrary := by
  rw [Model.withLibrary]
  split
  · exact .refl m
  · have h : Stocks m m (Library.signatures.forM Library.declare) fun _ _ => True := .forM fun s hs _ _ =>
      .declare (Library.known_signatures s hs).1 (Library.known_signatures s hs).2
    exact (h m (.refl m) (.refl m)).1

end Parvar
