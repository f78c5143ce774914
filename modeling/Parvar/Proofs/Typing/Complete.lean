import Parvar.Proofs.Typing.Tracked

/-!
Nodes that typing is done with. A node is complete if everything that its value is made of has a
known type, is bound where it is a name, and is resolved where it is a call. Steps of the checker
keep what is complete, and so do the changes to a model that they are made of.
-/

namespace Parvar

-- What is written out, and has its type from the start.
def ExprKind.isConstant : ExprKind → Bool
  | .int _ | .float _ | .bool _ | .string _ | .intSet _ | .absent | .typeVar _ => true
  | _ => false

namespace Model

section Definitions

variable (m : Model)

-- What the value of a node is made of; of a declaration this is its initializer only.
def values : Site → List Site
  | .expr e => (m.kind e).parts Generator.uses ++ (m.expr e).ann.map .expr
  | .decl d => (m.decl d).init.toList.map .expr
  | .typeInst _ => []

-- A name stands for a declaration of known type, and a call for one of a function with as many
-- parameters as there are arguments.
def Linked : ExprKind → Prop
  | .ident _ b => ∃ d, b = some d ∧ (m.decl d).ty.Known
  | .call _ args fn => ∃ f, fn = some f ∧ (m.func f).params.length = args.length
  | _ => True

structure Finished (e : ExprId) : Prop where
  known : (m.ty e).Known
  linked : m.Linked (m.kind e)

-- All expressions that the value of a node is made of are finished.
def Complete (s : Site) : Prop :=
  ∀ e, Relation.ReflTransGen (fun s c => c ∈ m.values s) s (.expr e) → m.Finished e

structure Made (k : ExprKind) : Prop where
  linked : m.Linked k
  parts : ∀ s ∈ k.parts Generator.uses, m.Complete s

-- A function that can be found by its name.
def Registered (f : FuncId) : Prop := ∃ name fs, (name, fs) ∈ m.overloads ∧ f ∈ fs

-- Constants are typed, nothing refers to an anonymous variable or to nothing, and the type-inst of
-- a name in a generator is not what a function returns. If `full`, all functions return known types.
structure Formed (full : Prop) : Prop where
  constants : ∀ e, (m.kind e).isConstant → (m.ty e).Known
  filled : ∀ s e, .expr e ∈ m.parts s → m.kind e ≠ .anon
  rooted : ∀ p item, m.itemAt? p = some item → ∀ e, .expr e ∈ m.itemSites item → m.kind e ≠ .anon
  own : ∀ e c, m.kind e = .comp c → ∀ g ∈ c.generators, ∀ d ∈ g.decls, ∀ f, f.index < m.funcs.size →
    (m.decl d).ti ≠ (m.func f).ret
  tabled : full → ∀ f, m.Registered f → (m.typeInst (m.func f).ret).ty.Known

end Definitions

variable {m m₁ m₂ : Model} {s c : Site} {e : ExprId} {d : DeclId}

theorem Complete.part (h : m.Complete s) (hc : c ∈ m.values s) : m.Complete c :=
  fun e he => h e (.head hc he)

theorem complete_of_values (hs : ∀ e, s = .expr e → m.Finished e) (h : ∀ c ∈ m.values s, m.Complete c) :
    m.Complete s := by
  intro e he
  cases he.cases_head
  case inl heq => exact hs e heq
  case inr hc =>
    have ⟨c, hc, he⟩ := hc
    exact h c hc e he

theorem complete_expr : m.Complete (.expr e) ↔
    (m.ty e).Known ∧ m.Made (m.kind e) ∧ ∀ a ∈ (m.expr e).ann, m.Complete (.expr a) := by
  constructor
  · intro h
    have hf := h e .refl
    refine ⟨hf.known, ⟨hf.linked, fun s hs => ?_⟩, fun a ha => ?_⟩
    · exact h.part (List.mem_append_left _ hs)
    · exact h.part (List.mem_append_right _ (List.mem_map_of_mem ha))
  · rintro ⟨hk, hm, ha⟩
    refine complete_of_values (by rintro _ ⟨⟩; exact ⟨hk, hm.linked⟩) fun c hc => ?_
    cases List.mem_append.mp hc
    case inl hc => exact hm.parts c hc
    case inr hc =>
      obtain ⟨a, hmem, rfl⟩ := List.mem_map.mp hc
      exact ha a hmem

theorem complete_decl : m.Complete (.decl d) ↔ ∀ e ∈ (m.decl d).init, m.Complete (.expr e) := by
  constructor
  · exact fun h e he => h.part (List.mem_map_of_mem (Option.mem_toList.mpr he))
  · intro h
    refine complete_of_values (by simp) fun c hc => ?_
    obtain ⟨e, he, rfl⟩ := List.mem_map.mp hc
    exact h e (Option.mem_toList.mp he)

-- Nodes stay complete in a change that leads from complete nodes to complete nodes only.
theorem Complete.mono (hf : ∀ e, m.Complete (.expr e) → m₁.Finished e)
    (hv : ∀ s, m.Complete s → ∀ c ∈ m₁.values s, m.Complete c) (h : m.Complete s) : m₁.Complete s := by
  intro e he
  refine hf e ?_
  have hin : ∀ {c}, Relation.ReflTransGen (fun s c => c ∈ m₁.values s) s c → m.Complete c := by
    intro c hc
    induction hc with
    | refl => exact h
    | tail _ hbc ih => exact hv _ ih _ hbc
  exact hin he

theorem Complete.filled (h : m.Complete (.expr e)) : e.index < m.exprs.size := by
  by_contra hn
  refine (h e .refl).known ?_
  rw [ty, expr_of_le (Nat.le_of_not_lt hn)]
  rfl

section Changes

-- What a change must keep where all types that it sets are known.
structure Completing (m m' : Model) : Prop where
  complete : ∀ s, m.Complete s → m'.Complete s
  kinds : ∀ e, m'.kind e = m.kind e ∨ m'.Made (m'.kind e)
  tys : ∀ e, (m.ty e).Known → (m'.ty e).Known
  decls : ∀ d, (m.decl d).ty.Known → (m'.decl d).ty.Known
  typeInsts : ∀ t, (m.typeInst t).ty.Known → (m'.typeInst t).ty.Known
  inits : ∀ d, (m'.decl d).init = (m.decl d).init ∨ m'.Complete (.decl d)
  bodies : ∀ f, (m'.func f).body = (m.func f).body ∨ ∀ e ∈ (m'.func f).body, m'.Complete (.expr e)
  params : ∀ f, (m'.func f).params = (m.func f).params

theorem Linked.mono {k : ExprKind} (hd : ∀ d, (m.decl d).ty.Known → (m₁.decl d).ty.Known)
    (hp : ∀ f, (m₁.func f).params = (m.func f).params) (h : m.Linked k) : m₁.Linked k := by
  cases k
  case ident => exact h.imp fun d hb => ⟨hb.1, hd d hb.2⟩
  case call => exact h.imp fun f hb => ⟨hb.1, by rw [hp, hb.2]⟩
  all_goals trivial

theorem Made.mono {k : ExprKind} (hc : ∀ s, m.Complete s → m₁.Complete s)
    (hd : ∀ d, (m.decl d).ty.Known → (m₁.decl d).ty.Known)
    (hp : ∀ f, (m₁.func f).params = (m.func f).params) (h : m.Made k) : m₁.Made k :=
  ⟨h.linked.mono hd hp, fun s hs => hc s (h.parts s hs)⟩

namespace Completing

protected theorem refl (m : Model) : m.Completing m :=
  ⟨fun _ => id, fun _ => .inl rfl, fun _ => id, fun _ => id, fun _ => id, fun _ => .inl rfl,
    fun _ => .inl rfl, fun _ => rfl⟩

theorem made (h : m.Completing m₁) {k : ExprKind} : m.Made k → m₁.Made k :=
  .mono h.complete h.decls h.params

theorem trans (h₁ : m.Completing m₁) (h₂ : m₁.Completing m₂) : m.Completing m₂ where
  complete s hs := h₂.complete s (h₁.complete s hs)
  kinds e := by
    cases h₂.kinds e
    case inr hm => exact .inr hm
    case inl hk =>
      rw [hk]
      exact (h₁.kinds e).imp_right h₂.made
  tys e he := h₂.tys e (h₁.tys e he)
  decls d hd := h₂.decls d (h₁.decls d hd)
  typeInsts t ht := h₂.typeInsts t (h₁.typeInsts t ht)
  inits d := by
    cases h₂.inits d
    case inr hc => exact .inr hc
    case inl hi =>
      rw [hi]
      exact (h₁.inits d).imp_right (h₂.complete _)
  bodies f := by
    cases h₂.bodies f
    case inr hc => exact .inr hc
    case inl hb =>
      rw [hb]
      exact (h₁.bodies f).imp_right fun hc e he => h₂.complete _ (hc e he)
  params f := (h₂.params f).trans (h₁.params f)

-- What an expression is now is made of what is complete, if what it was is.
theorem made_kind (h : m.Completing m₁) (hm : m₁.Made (m.kind e)) : m₁.Made (m₁.kind e) := by
  cases h.kinds e
  case inl hk => exact hk ▸ hm
  case inr hm => exact hm

end Completing

-- The same nodes, with types that are known where they were.
theorem Completing.of_retyped (h : m.Retyped m₁) (hf : m₁.funcs = m.funcs)
    (ht : ∀ e, (m.ty e).Known → (m₁.ty e).Known) (hd : ∀ d, (m.decl d).ty.Known → (m₁.decl d).ty.Known)
    (hti : ∀ t, (m.typeInst t).ty.Known → (m₁.typeInst t).ty.Known) : m.Completing m₁ := by
  have hfunc : ∀ f, m₁.func f = m.func f := fun f => by simp [func, hf]
  refine ⟨fun s hs => hs.mono ?_ ?_, fun e => .inl (h.kind e), ht, hd, hti, fun d => .inl (h.decl d).2.1,
    fun f => .inl (by rw [hfunc]), fun f => by rw [hfunc]⟩
  · intro e he
    have hf := he e .refl
    exact ⟨ht e hf.known, h.kind e ▸ hf.linked.mono hd fun f => by rw [hfunc]⟩
  · intro s hs c hc
    refine hs.part ?_
    cases s
    case expr e => simpa [values, h.kind, h.ann] using hc
    case decl d => simpa [values, (h.decl d).2.1] using hc
    case typeInst => exact hc

theorem Completing.setKind {k : ExprKind} (hk : m.Made k) : m.Completing (m.setKind e k) := by
  have hty : ∀ a, (m.setKind e k).ty a = m.ty a := by
    intro a
    simp only [ty, Model.setKind, expr_modifyExpr]
    split
    · next h => rw [h.1]
    · rfl
  have hkind : ∀ a, (m.setKind e k).kind a = m.kind a ∨ (m.setKind e k).kind a = k := by
    intro a
    by_cases ha : a = e
    · subst ha
      exact (m.kind_setKind a k).symm.imp_left (·.1)
    · exact .inl (kind_setKind_ne ha k)
  have hc : ∀ s, m.Complete s → (m.setKind e k).Complete s := by
    refine fun s hs => hs.mono (fun a ha => ?_) fun s hs c hc => ?_
    · obtain ⟨hknown, hm, _⟩ := complete_expr.mp ha
      refine ⟨by rwa [hty], ?_⟩
      cases hkind a
      case inl h => rw [h]; exact hm.linked
      case inr h => rw [h]; exact hk.linked
    · cases s
      case decl | typeInst => exact hs.part hc
      case expr a =>
        rw [values, ann_setKind] at hc
        cases List.mem_append.mp hc
        case inr hc => exact hs.part (List.mem_append_right _ hc)
        case inl hc =>
          cases hkind a
          case inl h => exact hs.part (List.mem_append_left _ (h ▸ hc))
          case inr h => exact hk.parts c (h ▸ hc)
  refine ⟨hc, fun a => ?_, fun a => by rw [hty]; exact id, fun _ => id, fun _ => id, fun _ => .inl rfl,
    fun _ => .inl rfl, fun _ => rfl⟩
  refine (hkind a).imp_right fun h => ?_
  rw [h]
  exact hk.mono hc (fun _ => id) fun _ => rfl

theorem Completing.setInit (he : m.Complete (.expr e)) : m.Completing (m.setInit d (some e)) := by
  have hdecl : ∀ c, ((m.setInit d (some e)).decl c).ty = (m.decl c).ty ∧
      (((m.setInit d (some e)).decl c).init = (m.decl c).init ∨
        ((m.setInit d (some e)).decl c).init = some e) := by
    intro c
    rw [Model.setInit, decl_modifyDecl]
    split
    · next h => exact ⟨by rw [h.1], .inr rfl⟩
    · exact ⟨rfl, .inl rfl⟩
  have hd : ∀ c, (m.decl c).ty.Known → ((m.setInit d (some e)).decl c).ty.Known := fun c hc => by
    rwa [(hdecl c).1]
  have hc : ∀ s, m.Complete s → (m.setInit d (some e)).Complete s := by
    refine fun s hs => Complete.mono (m := m) (fun a ha => ?_) (fun s hs c hc => ?_) hs
    · have hf := ha a .refl
      exact ⟨hf.known, hf.linked.mono hd fun _ => rfl⟩
    cases s
    case expr | typeInst => exact hs.part hc
    case decl b =>
      cases (hdecl b).2
      case inl h => exact hs.part (by rwa [values, h] at hc)
      case inr h =>
        rw [values, h] at hc
        cases List.mem_singleton.mp hc
        exact he
  refine ⟨hc, fun _ => .inl rfl, fun _ => id, hd, fun _ => id, fun b => ?_,
    fun _ => .inl rfl, fun _ => rfl⟩
  refine (hdecl b).2.imp_right fun h => complete_decl.mpr fun a ha => ?_
  rw [h] at ha
  cases ha
  exact hc _ he

theorem Completing.setBody {f : FuncId} (he : m.Complete (.expr e)) :
    m.Completing (m.modifyFunc f ({ · with body := some e })) := by
  have hfunc : ∀ g, ((m.modifyFunc f ({ · with body := some e })).func g).params = (m.func g).params ∧
      (((m.modifyFunc f ({ · with body := some e })).func g).body = (m.func g).body ∨
        ((m.modifyFunc f ({ · with body := some e })).func g).body = some e) := by
    intro g
    simp only [func, modifyFunc, Array.getElem?_modify]
    split
    · cases m.funcs[g.index]? <;> simp
    · exact ⟨rfl, .inl rfl⟩
  have hc : ∀ s, m.Complete s → (m.modifyFunc f ({ · with body := some e })).Complete s := by
    refine fun s hs => Complete.mono (m := m) (fun a ha => ?_) (fun s hs c hc => hs.part hc) hs
    have hf := ha a .refl
    exact ⟨hf.known, Linked.mono (m := m) (fun _ => id) (fun g => (hfunc g).1) hf.linked⟩
  refine ⟨hc, fun _ => .inl rfl, fun _ => id, fun _ => id, fun _ => id, fun _ => .inl rfl, fun g => ?_,
    fun g => (hfunc g).1⟩
  refine (hfunc g).2.imp_right fun h a ha => ?_
  rw [h] at ha
  cases ha
  exact hc _ he

-- One node is new, and was read as none before.
theorem expr_addExpr (m : Model) (x : Expr) (a : ExprId) : (m.addExpr x).2.expr a = m.expr a ∨
    m.expr a = default ∧ (m.addExpr x).2.expr a = x := by
  obtain hlt | heq | hgt := Nat.lt_trichotomy a.index m.exprs.size
  · exact .inl ((m.grows_addExpr x).expr_eq hlt)
  · obtain rfl : a = (m.addExpr x).1 := by cases a; exact congrArg ExprId.mk heq
    exact .inr ⟨expr_of_le (Nat.le_refl _), m.expr_addExpr_new x⟩
  · refine .inl ?_
    rw [expr_of_le (Nat.le_of_lt hgt), expr_of_le (by simpa [Model.addExpr] using hgt)]

theorem Completing.addExpr {x : Expr} (hk : m.Made x.kind) (ht : x.ty.Known) :
    m.Completing (m.addExpr x).2 := by
  have hold : ∀ {a}, a.index < m.exprs.size → (m.addExpr x).2.expr a = m.expr a :=
    (m.grows_addExpr x).expr_eq
  have hc : ∀ s, m.Complete s → (m.addExpr x).2.Complete s := by
    refine fun s hs => hs.mono (fun a ha => ?_) fun s hs c hc => ?_
    · have hf := ha a .refl
      refine ⟨?_, ?_⟩
      · rw [ty, hold ha.filled]
        exact hf.known
      · rw [kind, hold ha.filled]
        exact hf.linked
    · refine hs.part ?_
      cases s
      case decl | typeInst => exact hc
      case expr a => simpa only [values, kind, hold hs.filled] using hc
  refine ⟨hc, fun a => ?_, fun a ha => ?_, fun _ => id, fun _ => id, fun _ => .inl rfl, fun _ => .inl rfl,
    fun _ => rfl⟩
  · cases m.expr_addExpr x a
    case inl h => exact .inl (by rw [kind, h]; rfl)
    case inr h =>
      refine .inr ?_
      rw [kind, h.2]
      exact hk.mono hc (fun _ => id) fun _ => rfl
  · cases m.expr_addExpr x a
    case inl h => rwa [ty, h]
    case inr h =>
      rw [ty, h.2]
      exact ht

end Changes
end Model
end Parvar
