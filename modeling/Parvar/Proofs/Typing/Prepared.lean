import Parvar.Proofs.Resolve.Rebinds
import Parvar.Proofs.Resolve.Scoping
import Parvar.Proofs.Typing.Advance
import Parvar.Proofs.Typing.Standard

/-!
The model that typing starts with. A model that was put together node by node stays well formed when
the library is declared, names are resolved, assignments are merged and items are put in order.
-/

namespace Parvar

open Model Check

-- A model as it is built: literals are typed, there are no anonymous variables, nodes refer to nodes
-- that are there, and the names of a generator have type-insts that no function returns. Functions
-- that can be found already are items, or return known types.
structure Model.Constructed (m : Model) : Prop where
  constants : ∀ e, (m.kind e).isConstant → (m.ty e).Known
  named : ∀ e, e.index < m.exprs.size → m.kind e ≠ .anon
  present : ∀ s, m.Present s → ∀ c ∈ m.parts s, m.Present c
  items : ∀ p item, m.itemAt? p = some item → ∀ s ∈ m.itemSites item, m.Present s
  funcs : ∀ p f, m.itemAt? p = some (.func f) → f.index < m.funcs.size
  generators : ∀ e c, m.kind e = .comp c → ∀ g ∈ c.generators, ∀ d ∈ g.decls, ∀ f,
    f.index < m.funcs.size → (m.decl d).ti ≠ (m.func f).ret
  table : ∀ f, m.Registered f → f.index < m.funcs.size ∧
    ((m.typeInst (m.func f).ret).ty.Known ∨ ∃ p ∈ m.itemPaths, m.itemAt? p = some (.func f))

variable {m m₀ m₁ : Model} {r r₁ r₂ : Resolution} {fs : List FuncId} {paths : List ItemPath}

section Library

variable (hm : m.Constructed) (hs : Stocked m m₀)

include hm hs

theorem Model.Constructed.kind_ne_anon {e : ExprId} (he : e.index < m.exprs.size) : m₀.kind e ≠ .anon := by
  rw [kind, hs.expr_eq he]
  exact hm.named e he

theorem Model.Constructed.filled {s : Site} {e : ExprId} (he : .expr e ∈ m₀.parts s) : m₀.kind e ≠ .anon := by
  by_cases hp : m.Present s
  · rw [hs.parts_eq hp] at he
    exact hm.kind_ne_anon hs (hm.present s hp _ he)
  · -- Of what was added, only type-insts refer to expressions, and these are type variables.
    cases s
    case decl d =>
      obtain ⟨hi, ha⟩ := hs.newDecls d (Nat.le_of_not_lt hp)
      simp [parts, partsBy, needs, hi, ha] at he
    case expr a =>
      by_cases ha : a.index < m₀.exprs.size
      · obtain ⟨name, hx⟩ := hs.newExprs a (Nat.le_of_not_lt hp) ha
        simp [parts, partsBy, kind, hx, ExprKind.parts] at he
      · have hnone : m₀.expr a = default := expr_of_le (Nat.le_of_not_lt ha)
        rw [parts, partsBy, kind, hnone] at he
        cases he
    case typeInst t =>
      by_cases ht : t.index < m₀.typeInsts.size
      · obtain ⟨_, hd⟩ := hs.newTypeInsts t (Nat.le_of_not_lt hp) ht
        obtain ⟨h₁, h₂⟩ := hd e (by simpa [parts, partsBy] using he)
        obtain ⟨name, hx⟩ := hs.newExprs e h₁ h₂
        simp [kind, hx]
      · have hnone : m₀.typeInst t = default := by simp [typeInst, Nat.le_of_not_lt ht]
        rw [parts, partsBy, hnone] at he
        cases he

theorem Model.Constructed.formed : m₀.Formed False := by
  refine ⟨fun e he => ?_, fun s e => hm.filled hs, fun p item hp e he => ?_, fun e c hc g hg d hd f hf => ?_,
    False.elim⟩
  · by_cases hlt : e.index < m.exprs.size
    · rw [kind, hs.expr_eq hlt] at he
      rw [Model.ty, hs.expr_eq hlt]
      exact hm.constants e he
    · by_cases hlt₀ : e.index < m₀.exprs.size
      · obtain ⟨name, hx⟩ := hs.newExprs e (Nat.le_of_not_lt hlt) hlt₀
        rw [Model.ty, hx]
        exact (show Ty.top.Known by decide)
      · rw [kind, expr_of_le (Nat.le_of_not_lt hlt₀)] at he
        cases he
  · rw [hs.itemAt_eq] at hp
    have hsites : m₀.itemSites item = m.itemSites item := by
      cases item
      case func f => rw [itemSites, itemSites, hs.func_eq (hm.funcs p f hp)]
      all_goals rfl
    exact hm.kind_ne_anon hs (hm.items p item hp (.expr e) (hsites ▸ he))
  · have hlt : e.index < m.exprs.size := by
      by_contra hn
      by_cases hlt₀ : e.index < m₀.exprs.size
      · obtain ⟨name, hx⟩ := hs.newExprs e (Nat.le_of_not_lt hn) hlt₀
        simp [kind, hx] at hc
      · rw [kind, expr_of_le (Nat.le_of_not_lt hlt₀)] at hc
        cases hc
    rw [kind, hs.expr_eq hlt] at hc
    have hparts : .decl d ∈ m.parts (.expr e) := by
      have hk : m.kind e = .comp c := hc
      rw [parts, partsBy, hk]
      refine List.mem_append_left _ ?_
      simp only [ExprKind.parts, List.mem_append, List.mem_flatMap]
      exact .inl (.inl ⟨g, hg, by simp [Generator.parts, hd]⟩)
    have hdlt := hm.present (.expr e) hlt _ hparts
    have htlt := hm.present (.decl d) hdlt (.typeInst (m.decl d).ti) (List.mem_append_left _ List.mem_cons_self)
    rw [hs.decl_eq hdlt]
    by_cases hf₀ : f.index < m.funcs.size
    · rw [hs.func_eq hf₀]
      exact hm.generators e c hc g hg d hd f hf₀
    · obtain ⟨hge, _⟩ := hs.newFuncs f (Nat.le_of_not_lt hf₀) hf
      intro heq
      have hlt : (m.decl d).ti.index < m.typeInsts.size := htlt
      rw [heq] at hlt
      omega

theorem Model.Constructed.registered {f : FuncId} (hf : m₀.Registered f) : f.index < m₀.funcs.size ∧
    ((m₀.typeInst (m₀.func f).ret).ty.Known ∨ ∃ p ∈ m₀.itemPaths, m₀.itemAt? p = some (.func f)) := by
  cases hs.registered f hf
  case inr h =>
    have ⟨h₁, h₂⟩ := hs.newFuncs f h.1 h.2
    exact ⟨h.2, .inl (hs.newTypeInsts _ h₁ h₂).1⟩
  case inl h =>
    have ⟨hlt, hk⟩ := hm.table f h
    refine ⟨Nat.lt_of_lt_of_le hlt (by simpa using hs.funcs.length_le), ?_⟩
    rw [hs.func_eq hlt, hs.itemPaths_eq]
    refine hk.imp (fun hk => ?_) fun ⟨p, hp, hat⟩ => ⟨p, hp, (hs.itemAt_eq p).trans hat⟩
    have ht : (m.func f).ret.index < m.typeInsts.size := by
      by_contra hn
      rw [typeInst, Array.getElem?_eq_none (Nat.le_of_not_lt hn)] at hk
      exact hk rfl
    rwa [hs.typeInst_eq ht]

end Library

section Resolution

-- What resolution keeps of `m₀`. The functions that can be found are in `fs`, or return known types.
structure Prepared (m₀ : Model) (fs : List FuncId) (m : Model) : Prop where
  formed : m.Formed False
  typeInsts : m.typeInsts = m₀.typeInsts
  funcs : m.funcs = m₀.funcs
  registered : ∀ f, m.Registered f →
    f.index < m₀.funcs.size ∧ (m₀.typeInst (m₀.func f).ret).ty.Known ∨ f ∈ fs

theorem formed_of_nodes (hm : m.Formed False) (he : m₁.exprs = m.exprs) (hd : m₁.decls = m.decls)
    (ht : m₁.typeInsts = m.typeInsts) (hf : m₁.funcs = m.funcs)
    (hi : ∀ p item, m₁.itemAt? p = some item → ∃ q, m.itemAt? q = some item) : m₁.Formed False := by
  have hexpr : m₁.expr = m.expr := by funext e; simp [expr, he]
  have hdecl : m₁.decl = m.decl := by funext d; simp [decl, hd]
  have hti : m₁.typeInst = m.typeInst := by funext t; simp [typeInst, ht]
  have hfunc : m₁.func = m.func := by funext f; simp [func, hf]
  refine ⟨fun e h => ?_, fun s e h => ?_, fun p item hp e h => ?_, fun e c hc g hg d hd f hlt => ?_, False.elim⟩
  · simp only [Model.ty, kind, hexpr] at h ⊢
    exact hm.constants e h
  · rw [kind, hexpr]
    refine hm.filled s e ?_
    cases s <;> simpa only [parts, partsBy, needs, kind, hexpr, hdecl, hti] using h
  · obtain ⟨q, hq⟩ := hi p item hp
    rw [kind, hexpr]
    refine hm.rooted q item hq e ?_
    cases item <;> simpa only [itemSites, hfunc] using h
  · rw [hdecl, hfunc]
    exact hm.own e c (by rwa [kind, ← hexpr]) g hg d hd f (hf ▸ hlt)

theorem Prepared.register {f : FuncId} (h : Prepared m₀ fs m) (hf : f ∈ fs) : Prepared m₀ fs (m.register f) := by
  have ⟨os, hr⟩ := Resolve.register_eq m f
  have hreg : ∀ g, (m.register f).Registered g →
      g.index < m₀.funcs.size ∧ (m₀.typeInst (m₀.func g).ret).ty.Known ∨ g ∈ fs := by
    intro g hg
    cases Stocks.registered_register hg
    case inl hg => exact h.registered g hg
    case inr hg => exact .inr (hg ▸ hf)
  rw [hr] at hreg ⊢
  exact ⟨formed_of_nodes h.formed rfl rfl rfl rfl fun p item hp => ⟨p, hp⟩, h.typeInsts, h.funcs, hreg⟩

-- The functions among the items are those that are put into the table.
theorem Prepared.collect (h : Prepared m₀ fs r.model)
    (hfs : ∀ p ∈ paths, ∀ f, r.model.itemAt? p = some (.func f) → f ∈ fs)
    (hx : eachSlot paths (fun _ s => Check.collect s.item) r = .ok () r₂) :
    Prepared m₀ fs r₂.model ∧ ∀ p, r₂.model.itemAt? p = r.model.itemAt? p := by
  induction paths generalizing r with
  | nil =>
    obtain ⟨-, rfl⟩ := pure_eq_ok.mp hx
    exact ⟨h, fun _ => rfl⟩
  | cons p paths ih =>
    have ⟨_, r₁, hx₁, hx₂⟩ := bind_eq_ok.mp hx
    have ⟨h₁, hat₁⟩ : Prepared m₀ fs r₁.model ∧ ∀ q, r₁.model.itemAt? q = r.model.itemAt? q := by
      obtain ⟨_, rfl⟩ | ⟨s, _, _, hat, hx₁⟩ := Resolve.atSlot_eq_ok hx₁
      · exact ⟨h, fun _ => rfl⟩
      · cases hk : s.item <;> rw [hk] at hx₁ hat
        case func f =>
          obtain rfl := Resolve.changeModel_eq_ok (f := (·.register f)) hx₁
          have ⟨os, hr⟩ := Resolve.register_eq r.model f
          refine ⟨h.register (hfs p List.mem_cons_self f hat), fun q => ?_⟩
          simp only [hr]
          rfl
        case decl d =>
          obtain ⟨rfl, _⟩ := Resolve.pushNew_eq_ok hx₁
          exact ⟨h, fun _ => rfl⟩
        all_goals
          obtain ⟨-, rfl⟩ := pure_eq_ok.mp hx₁
          exact ⟨h, fun _ => rfl⟩
    have ⟨h₂, hat₂⟩ := ih h₁ (fun q hq f hf => hfs q (List.mem_cons_of_mem _ hq) f (hat₁ q ▸ hf)) hx₂
    exact ⟨h₂, fun q => (hat₂ q).trans (hat₁ q)⟩

theorem Prepared.setAssigned {p : ItemPath} {d : DeclId} {a : Assignment} (h : Prepared m₀ fs m)
    (hp : m.itemAt? p = some (.assign a)) : Prepared m₀ fs (setAssigned p d a.value m) := by
  have hne : m.kind a.value ≠ .anon := h.formed.rooted p _ hp a.value (by simp [itemSites])
  have hset : (m.setInit d (some a.value)).Formed False := formed_setInit hne h.formed
  obtain ⟨he, ht, hd⟩ := @Resolve.nodes_setAssigned d m p a.value
  have hfo : (Check.setAssigned p d a.value m).funcs = m.funcs ∧
      (Check.setAssigned p d a.value m).overloads = m.overloads := by
    simp only [Check.setAssigned, modifySlot]
    split <;> exact ⟨rfl, rfl⟩
  refine ⟨formed_of_nodes hset he hd ht hfo.1 fun q item hq => ⟨q, ?_⟩, ht.trans h.typeInsts,
    hfo.1.trans h.funcs, fun f hf => h.registered f (by simpa only [Registered, hfo.2] using hf)⟩
  rw [Resolve.itemAt_setAssigned] at hq
  split at hq
  · cases hq
  · exact hq

theorem Prepared.merge (h : Prepared m₀ fs r.model) (hx : eachSlot paths mergeAssignment r = .ok () r₂) :
    Prepared m₀ fs r₂.model := by
  induction paths generalizing r with
  | nil =>
    obtain ⟨-, rfl⟩ := pure_eq_ok.mp hx
    exact h
  | cons p paths ih =>
    obtain ⟨_, r₁, hx₁, hx₂⟩ := bind_eq_ok.mp hx
    refine ih ?_ hx₂
    obtain ⟨_, rfl⟩ | ⟨s, _, _, hat, hx₁⟩ := Resolve.atSlot_eq_ok hx₁
    · exact h
    · cases hk : s.item
      case assign a =>
        rw [hk] at hat
        simp only [mergeAssignment, hk] at hx₁
        obtain ⟨d, r₃, hl, hset⟩ := bind_eq_ok.mp hx₁
        obtain ⟨rfl, _⟩ := Resolve.lookup_eq hl
        rw [get_bind] at hset
        split at hset
        · simp [ResolveM.fail] at hset
        · obtain rfl := Resolve.changeModel_eq_ok hset
          exact h.setAssigned hat
      all_goals
        simp only [mergeAssignment, hk] at hx₁
        obtain ⟨-, rfl⟩ := pure_eq_ok.mp hx₁
        exact h

theorem ExprKind.Rebinds.isConstant_eq {k k' : ExprKind} (h : k.Rebinds k') :
    k'.isConstant = k.isConstant ∧ (k' = .anon ↔ k = .anon) ∧ ∀ c, k' = .comp c ↔ k = .comp c := by
  cases h with
  | same => exact ⟨rfl, Iff.rfl, fun _ => Iff.rfl⟩
  | ident => exact ⟨rfl, by simp, by simp⟩
  | letIn => exact ⟨rfl, by simp, by simp⟩

theorem Prepared.rebinds (h : Prepared m₀ fs m) (hr : m.Rebinds m₁) : Prepared m₀ fs m₁ := by
  have hdecl : m₁.decl = m.decl := by funext d; simp [decl, hr.decls]
  have hti : m₁.typeInst = m.typeInst := by funext t; simp [typeInst, hr.typeInsts]
  have hfunc : m₁.func = m.func := by funext f; simp [func, hr.funcs]
  have hkind := fun e => (hr.kind e).isConstant_eq
  have hanon : ∀ {e}, m.kind e ≠ .anon → m₁.kind e ≠ .anon := fun {e} hne he => hne ((hkind e).2.1.mp he)
  have hat : ∀ p, m₁.itemAt? p = m.itemAt? p := fun p => by
    simp [itemAt?, slot?, itemsOf, hr.items, hr.submodels]
  refine ⟨⟨fun e he => ?_, fun s e he => hanon (h.formed.filled s e ?_), fun p item hp e he =>
    hanon (h.formed.rooted p item (hat p ▸ hp) e ?_), fun e c hc g hg d hd f hf => ?_, False.elim⟩,
    hr.typeInsts.trans h.typeInsts, hr.funcs.trans h.funcs,
    fun f hf => h.registered f (by simpa only [Registered, hr.overloads] using hf)⟩
  · rw [hr.ty]
    exact h.formed.constants e ((hkind e).1 ▸ he)
  · cases s
    case expr a =>
      simp only [parts, partsBy, hr.ann, List.mem_append] at he ⊢
      exact he.imp_left (hr.kind a).mem_parts.mp
    case decl | typeInst => simpa only [parts, partsBy, needs, hdecl, hti] using he
  · cases item <;> simpa only [itemSites, hfunc] using he
  · rw [hdecl, hfunc]
    exact h.formed.own e c (((hkind e).2.2 c).mp hc) g hg d hd f (hr.funcs ▸ hf)

theorem Prepared.sorted (h : Prepared m₀ fs m) (order : List DeclId) :
    Prepared m₀ fs (sortItems order m.sortOverloads) := by
  refine ⟨formed_of_nodes h.formed rfl rfl rfl rfl fun p item hp => ?_, h.typeInsts, h.funcs, fun f hf => ?_⟩
  · obtain ⟨i, k⟩ := p
    cases i
    case none =>
      have ⟨l, hl⟩ := itemAt_sortItems hp
      exact ⟨_, hl⟩
    case some j => exact ⟨_, hp⟩
  · exact h.registered f (registered_of_sorted hf)

theorem Prepared.resolved (h : Prepared m₀ fs m) (hfs : ∀ p ∈ paths, ∀ f, m.itemAt? p = some (.func f) → f ∈ fs)
    (hx : resolveItems paths { model := m } = .ok () r) : Prepared m₀ fs r.model := by
  have ⟨_, r₁, hx₁, hx⟩ := bind_eq_ok.mp hx
  have ⟨_, r₂, hx₂, hx₃⟩ := bind_eq_ok.mp hx
  have h₂ := (Prepared.collect h hfs hx₁).1.merge hx₂
  exact h₂.rebinds ((Resolve.keeps_resolvedItems paths).of_ok hx₃)

end Resolution
end Parvar
