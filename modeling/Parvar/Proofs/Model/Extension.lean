import Parvar.Library
import Parvar.Proofs.Model.Place

/-!
Models that grow. Declaring the library adds nodes and touches none that are there, so the items of
a model keep their places.
-/

namespace Parvar

-- Nodes are added at the end, and the items stay.
structure Model.Extends (m m' : Model) : Prop where
  items : m'.items = m.items
  submodels : m'.submodels = m.submodels
  exprs : m.exprs.toList <+: m'.exprs.toList
  decls : m.decls.toList <+: m'.decls.toList
  typeInsts : m.typeInsts.toList <+: m'.typeInsts.toList
  funcs : m.funcs.toList <+: m'.funcs.toList

-- Nodes at one place each, and functions that are there.
structure Model.WellPlaced (m : Model) : Prop where
  place : m.SinglePlace (m.rootsAt m.itemPaths)
  funcs : ∀ p ∈ m.itemPaths, ∀ f, m.itemAt? p = some (.func f) → f.index < m.funcs.size

variable {α β : Type} {m m₁ m₂ : Model}

-- The paths of items depend on nothing but the items.
theorem Model.itemPaths_congr (hi : m₁.items = m.items) (hs : m₁.submodels = m.submodels) :
    m₁.itemPaths = m.itemPaths := by
  have ht : ∀ depth i t, m₁.tour depth i t = m.tour depth i t := by
    intro depth
    induction depth with
    | zero => exact fun _ _ => rfl
    | succ depth ih =>
      intro i t
      simp [Model.tour, Model.visitSlot, Model.itemsOf, hi, hs, ih]
  simp [Model.itemPaths, ht, hs]

namespace Model.Extends

protected theorem refl (m : Model) : m.Extends m :=
  ⟨rfl, rfl, List.prefix_rfl, List.prefix_rfl, List.prefix_rfl, List.prefix_rfl⟩

theorem trans (h₁ : m.Extends m₁) (h₂ : m₁.Extends m₂) : m.Extends m₂ where
  items := h₂.items.trans h₁.items
  submodels := h₂.submodels.trans h₁.submodels
  exprs := h₁.exprs.trans h₂.exprs
  decls := h₁.decls.trans h₂.decls
  typeInsts := h₁.typeInsts.trans h₂.typeInsts
  funcs := h₁.funcs.trans h₂.funcs

theorem getElem?_of_prefix {as bs : Array α} {i : Nat} (h : as.toList <+: bs.toList)
    (hi : i < as.size) : bs[i]? = as[i]? := by
  have ⟨cs, hc⟩ := h
  rw [← Array.getElem?_toList, ← Array.getElem?_toList, ← hc]
  exact List.getElem?_append_left (by simpa using hi)

variable (h : m.Extends m₁)

include h

theorem expr_eq {e : ExprId} (he : e.index < m.exprs.size) : m₁.expr e = m.expr e := by
  rw [Model.expr, Model.expr, getElem?_of_prefix h.exprs he]

theorem decl_eq {d : DeclId} (hd : d.index < m.decls.size) : m₁.decl d = m.decl d := by
  rw [Model.decl, Model.decl, getElem?_of_prefix h.decls hd]

theorem typeInst_eq {t : TypeInstId} (ht : t.index < m.typeInsts.size) :
    m₁.typeInst t = m.typeInst t := by
  rw [Model.typeInst, Model.typeInst, getElem?_of_prefix h.typeInsts ht]

theorem func_eq {f : FuncId} (hf : f.index < m.funcs.size) : m₁.func f = m.func f := by
  rw [Model.func, Model.func, getElem?_of_prefix h.funcs hf]

theorem present {s : Site} (hs : m.Present s) : m₁.Present s := by
  cases s
  case expr => exact Nat.lt_of_lt_of_le hs h.exprs.length_le
  case decl => exact Nat.lt_of_lt_of_le hs h.decls.length_le
  case typeInst => exact Nat.lt_of_lt_of_le hs h.typeInsts.length_le

theorem parts_eq {s : Site} (hs : m.Present s) : m₁.parts s = m.parts s := by
  cases s
  case expr e => simp [Model.parts, Model.partsBy, Model.kind, h.expr_eq hs]
  case decl d => simp [Model.parts, Model.partsBy, Model.needs, h.decl_eq hs]
  case typeInst t => simp [Model.parts, Model.partsBy, h.typeInst_eq hs]

theorem itemAt_eq (p : ItemPath) : m₁.itemAt? p = m.itemAt? p := by
  simp [Model.itemAt?, Model.slot?, Model.itemsOf, h.items, h.submodels]

theorem itemPaths_eq : m₁.itemPaths = m.itemPaths :=
  Model.itemPaths_congr h.items h.submodels

end Model.Extends

theorem Model.WellPlaced.rootsAt_eq (hm : m.WellPlaced) (h : m.Extends m₁) :
    m₁.rootsAt m₁.itemPaths = m.rootsAt m.itemPaths := by
  rw [h.itemPaths_eq]
  refine List.flatMap_congr fun p hp => ?_
  rw [h.itemAt_eq]
  refine List.flatMap_congr fun item hi => ?_
  cases item
  case func f =>
    have hf := hm.funcs p hp f (Option.mem_toList.mp hi)
    simp [Model.itemSites, h.func_eq hf]
  all_goals rfl

theorem Model.WellPlaced.extends (hm : m.WellPlaced) (h : m.Extends m₁) : m₁.WellPlaced := by
  refine ⟨?_, fun p hp f hf => ?_⟩
  · rw [hm.rootsAt_eq h]
    exact hm.place.congr (fun hs => h.parts_eq (hm.place.present hs))
      fun hs => h.present (hm.place.present hs)
  · rw [h.itemPaths_eq] at hp
    rw [h.itemAt_eq] at hf
    exact Nat.lt_of_lt_of_le (hm.funcs p hp f hf) h.funcs.length_le

section Library

-- A step that only adds nodes.
def Extending (x : Build α) : Prop := ∀ m : Model, m.Extends (x m).2

namespace Extending

theorem pure (a : α) : Extending (pure a : Build α) := fun m => .refl m

theorem bind {x : Build α} {f : α → Build β} (hx : Extending x) (hf : ∀ a, Extending (f a)) :
    Extending (x >>= f) :=
  fun m => (hx m).trans (hf _ _)

theorem mapM {f : α → Build β} (hf : ∀ a, Extending (f a)) : ∀ as : List α, Extending (as.mapM f)
  | [] => pure _
  | a :: as => by
    rw [List.mapM_cons]
    exact (hf a).bind fun _ => (mapM hf as).bind fun _ => pure _

theorem forM {f : α → Build PUnit} (hf : ∀ a, Extending (f a)) : ∀ as : List α, Extending (as.forM f)
  | [] => pure _
  | a :: as => (hf a).bind fun _ => forM hf as

theorem addExpr (x : Expr) : Extending (Model.addExpr · x) := fun m =>
  { Model.Extends.refl m with exprs := by simp [Model.addExpr] }

theorem addDecl (x : Decl) : Extending (Model.addDecl · x) := fun m =>
  { Model.Extends.refl m with decls := by simp [Model.addDecl] }

theorem addTypeInst (x : TypeInst) : Extending (Model.addTypeInst · x) := fun m =>
  { Model.Extends.refl m with typeInsts := by simp [Model.addTypeInst] }

theorem addFunc (x : Func) : Extending (Model.addFunc · x) := fun m =>
  { Model.Extends.refl m with funcs := by simp [Model.addFunc] }

theorem register (f : FuncId) : Extending (modify (Model.register · f)) := by
  intro m
  change m.Extends (m.register f)
  simp only [Model.register]
  split
  · exact ⟨rfl, rfl, List.prefix_rfl, List.prefix_rfl, List.prefix_rfl, List.prefix_rfl⟩
  · split
    · exact .refl m
    · exact ⟨rfl, rfl, List.prefix_rfl, List.prefix_rfl, List.prefix_rfl, List.prefix_rfl⟩

theorem libraryTypeInst (t : Ty) : Extending (Library.typeInst t) := by
  have hranges : Extending (Library.ranges t) := by
    rw [Library.ranges]
    split
    · exact ((addExpr _).bind fun _ => addTypeInst _).bind fun _ => pure _
    · exact mapM (fun _ => addTypeInst _) _
  have hdomain : Extending (Library.domain t) := by
    rw [Library.domain]
    split
    · exact (addExpr _).bind fun _ => pure _
    · exact pure _
  exact hranges.bind fun _ => hdomain.bind fun _ => addTypeInst _

theorem declare (s : Library.Signature) : Extending (Library.declare s) := by
  apply bind (mapM (fun (t, i) => (libraryTypeInst t).bind fun _ => addDecl _) _)
  intro params
  apply bind (libraryTypeInst s.ret)
  intro ret
  exact (addFunc _).bind register

end Extending

theorem Model.extends_withLibrary (m : Model) : m.Extends m.withLibrary := by
  rw [Model.withLibrary]
  split
  · exact .refl m
  · exact Extending.forM .declare _ m

end Library
end Parvar
