import Parvar.Proofs.Typing.Stages

/-!
Typing stays where it is sent. It puts calls around parts of the nodes that it visits, so no node comes to lead
to what it did not lead to before, and the initializers that it replaces are those of declarations that stand in
the node it was sent to. This holds of every visit, whether it ends in a value or in an error.
-/

namespace Parvar

open Model Typing

-- Anything but an expression that is yet to come.
def Site.Within (n : Nat) : Site → Prop
  | .expr e => e.index < n
  | .decl _ | .typeInst _ => True

theorem Site.Within.mono {s : Site} {n k : Nat} (h : s.Within n) (hn : n ≤ k) : s.Within k := by
  cases s with
  | expr e => exact Nat.lt_of_lt_of_le h hn
  | decl | typeInst => trivial

namespace Model

section Definitions

-- All expressions that are referred to are there.
def Anchored (m : Model) : Prop := ∀ s, ∀ c ∈ m.uses s, c.Within m.exprs.size

-- From `m₀` to `m` no node came to lead to another, and the initializers that differ are those of declarations in
-- `o`, which had one before.
structure Confined (pass : Pass) (o : Site) (m₀ m : Model) : Prop where
  start : m₀.Anchored
  anchored : m.Anchored
  items : m.items = m₀.items
  submodels : m.submodels = m₀.submodels
  decls : m.decls.size = m₀.decls.size
  size : m₀.exprs.size ≤ m.exprs.size
  ann : ∀ e, (m.expr e).ann = (m₀.expr e).ann
  old : ∀ {s t}, s.Within m₀.exprs.size → t.Within m₀.exprs.size → m.Uses s t → m₀.Uses s t
  inits : ∀ d, (m.decl d).init = (m₀.decl d).init ∨
    pass = .check ∧ m₀.Uses o (.decl d) ∧ (m₀.decl d).init.isSome ∧ (m.decl d).init.isSome

-- The same where nothing but `o` was visited: what was added leads to what `o` leads to.
structure Tended (pass : Pass) (o : Site) (m₀ m : Model) : Prop extends Confined pass o m₀ m where
  new : ∀ {a t}, m₀.exprs.size ≤ a.index → t.Within m₀.exprs.size → m.Uses (.expr a) t → m₀.Uses o t

-- What may be made a part of `o`: what is one, and what was added while it was visited.
def Serves (m₀ : Model) (o : Site) (n : Nat) (c : Site) : Prop :=
  c ∈ m₀.uses o ∨ ∃ a, c = .expr a ∧ m₀.exprs.size ≤ a.index ∧ a.index < n

end Definitions

variable {pass : Pass} {o p s t c : Site} {m₀ m m' : Model} {a e : ExprId} {d : DeclId} {n k : Nat}

theorem Serves.mono (h : m₀.Serves o n c) (hn : n ≤ k) : m₀.Serves o k c := by
  rcases h with h | ⟨a, rfl, ha, hlt⟩
  · exact .inl h
  · exact .inr ⟨a, rfl, ha, Nat.lt_of_lt_of_le hlt hn⟩

theorem uses_of_le (h : m.exprs.size ≤ e.index) : m.uses (.expr e) = [] := by
  rw [uses, partsBy, kind, expr_of_le h]
  rfl

section Changes

variable {x : Expr}

theorem expr_addExpr_cases (m : Model) (x : Expr) (e : ExprId) :
    (m.addExpr x).2.expr e = m.expr e ∨ e = (m.addExpr x).1 := by
  by_cases hlt : e.index < m.exprs.size
  · exact .inl ((m.grows_addExpr x).expr_eq hlt)
  · by_cases heq : e.index = m.exprs.size
    · obtain ⟨i⟩ := e
      exact .inr (congrArg ExprId.mk heq)
    · have hsize : (m.addExpr x).2.exprs.size = m.exprs.size + 1 := by simp [addExpr]
      refine .inl ?_
      rw [expr_of_le (m := m) (by omega), expr_of_le (by omega)]

theorem ann_addExpr (hx : x.ann = []) (e : ExprId) : ((m.addExpr x).2.expr e).ann = (m.expr e).ann := by
  rcases m.expr_addExpr_cases x e with h | rfl
  · rw [h]
  · have hnone : m.expr (m.addExpr x).1 = default := expr_of_le (Nat.le_refl _)
    rw [expr_addExpr_new, hx, hnone]
    rfl

-- What a node that was added uses is all that is new.
theorem uses_addExpr_cases (hc : c ∈ (m.addExpr x).2.uses s) : s.Within m.exprs.size ∧ c ∈ m.uses s ∨
    s = .expr (m.addExpr x).1 ∧ c ∈ x.kind.parts Generator.uses ++ x.ann.map .expr := by
  cases s with
  | decl | typeInst => exact .inl ⟨trivial, hc⟩
  | expr e =>
    rcases m.expr_addExpr_cases x e with h | rfl
    · have hc : c ∈ m.uses (.expr e) := by simpa only [uses, partsBy, kind, h] using hc
      refine .inl ⟨Nat.lt_of_not_le fun hle => ?_, hc⟩
      rw [uses_of_le hle] at hc
      cases hc
    · refine .inr ⟨rfl, ?_⟩
      simpa only [uses, partsBy, kind, expr_addExpr_new] using hc

-- From what was there before no way leads to the node that was added.
theorem Uses.of_addExpr (hm : m.Anchored) (hs : s.Within m.exprs.size) (h : (m.addExpr x).2.Uses s t) :
    m.Uses s t := by
  induction h using Relation.ReflTransGen.head_induction_on with
  | refl => exact .refl
  | head hc _ ih =>
    rcases uses_addExpr_cases hc with ⟨-, hc⟩ | ⟨rfl, -⟩
    · exact .head hc (ih (hm _ _ hc))
    · exact absurd hs (Nat.lt_irrefl _)

-- A way in the changed model goes along as before, or comes to the node that was changed.
theorem Uses.of_change {A : Prop} (hother : ∀ s, s ≠ o → m'.uses s = m.uses s)
    (hown : ∀ c ∈ m'.uses o, c ∈ m.uses o ∨ (m.Uses c t → A)) (h : m'.Uses s t) :
    m.Uses s t ∨ m.Uses s o ∧ A := by
  induction h using Relation.ReflTransGen.head_induction_on with
  | refl => exact .inl .refl
  | @head s c hc _ ih =>
    by_cases hs : s = o
    · subst hs
      rcases hown c hc with hc | hA
      · exact ih.imp (.head hc) (And.imp_left (.head hc))
      · exact .inr ⟨.refl, ih.elim hA And.right⟩
    · rw [hother s hs] at hc
      exact ih.imp (.head hc) (And.imp_left (.head hc))

namespace Tended

protected theorem refl (h : m.Anchored) : m.Tended pass o m where
  start := h
  anchored := h
  items := rfl
  submodels := rfl
  decls := rfl
  size := Nat.le_refl _
  ann _ := rfl
  old _ _ h := h
  inits _ := .inl rfl
  new {a t} ha ht h := by
    rcases h.cases_head with rfl | ⟨c, hc, -⟩
    · exact absurd ht (Nat.not_lt.mpr ha)
    · rw [uses_of_le ha] at hc
      cases hc

variable (h : m₀.Tended pass o m)

include h

theorem within (hc : m₀.Serves o n c) (hn : n ≤ m.exprs.size) : c.Within m.exprs.size := by
  rcases hc with hc | ⟨a, rfl, -, hlt⟩
  · exact (h.start o c hc).mono h.size
  · exact Nat.lt_of_lt_of_le hlt hn

-- What serves leads nowhere else.
theorem leads (hc : m₀.Serves o n c) (ht : t.Within m₀.exprs.size) (hu : m.Uses c t) : m₀.Uses o t := by
  rcases hc with hc | ⟨a, rfl, ha, -⟩
  · exact .head hc (h.old (h.start o c hc) ht hu)
  · exact h.new ha ht hu

-- A node may be given parts that serve.
theorem change (hitems : m'.items = m.items) (hsub : m'.submodels = m.submodels)
    (hdecls : m'.decls.size = m.decls.size) (hsize : m'.exprs.size = m.exprs.size)
    (hann : ∀ e, (m'.expr e).ann = (m.expr e).ann) (ho : o.Within m₀.exprs.size)
    (hother : ∀ s, s ≠ o → m'.uses s = m.uses s)
    (hown : ∀ c ∈ m'.uses o, c ∈ m.uses o ∨ m₀.Serves o m.exprs.size c)
    (hinits : ∀ d, (m'.decl d).init = (m.decl d).init ∨
      pass = .check ∧ m₀.Uses o (.decl d) ∧ (m.decl d).init.isSome ∧ (m'.decl d).init.isSome) :
    m₀.Tended pass o m' := by
  have huses : ∀ {s t}, t.Within m₀.exprs.size → m'.Uses s t → m.Uses s t ∨ m.Uses s o ∧ m₀.Uses o t :=
    fun ht => Uses.of_change hother fun c hc => (hown c hc).imp_right fun hc => h.leads hc ht
  constructor
  case toConfined =>
    constructor
    case start => exact h.start
    case items => exact hitems.trans h.items
    case submodels => exact hsub.trans h.submodels
    case decls => exact hdecls.trans h.decls
    case size => exact hsize ▸ h.size
    case ann => exact fun e => (hann e).trans (h.ann e)
    case anchored =>
      intro s c hc
      rw [hsize]
      by_cases hs : s = o
      · subst hs
        exact (hown c hc).elim (h.anchored s c) fun hc => h.within hc (Nat.le_refl _)
      · exact h.anchored s c (hother s hs ▸ hc)
    case old =>
      intro s t hs ht hu
      rcases huses ht hu with hu | ⟨hso, hot⟩
      · exact h.old hs ht hu
      · exact (h.old hs ho hso).trans hot
    case inits =>
      intro d
      rcases hinits d, h.inits d with ⟨h' | ⟨hp, ho, hm, hm'⟩, h | ⟨hp₀, ho₀, h₀, hm₀⟩⟩
      · exact .inl (h'.trans h)
      · exact .inr ⟨hp₀, ho₀, h₀, h' ▸ hm₀⟩
      · exact .inr ⟨hp, ho, h ▸ hm, hm'⟩
      · exact .inr ⟨hp, ho, h₀, hm'⟩
  case new =>
    intro a t ha ht hu
    rcases huses ht hu with hu | ⟨hao, hot⟩
    · exact h.new ha ht hu
    · exact (h.new ha ho hao).trans hot

theorem setKind (he : e.index < m₀.exprs.size) {k : ExprKind} (ho : o = .expr e)
    (hk : ∀ c ∈ k.parts Generator.uses, m₀.Serves o m.exprs.size c) : m₀.Tended pass o (m.setKind e k) := by
  subst ho
  refine h.change rfl rfl rfl ?_ (m.ann_setKind e · k) he (fun s hs => ?_) (fun c hc => ?_) fun _ => .inl rfl
  · simp [Model.setKind, modifyExpr]
  · cases s with
    | decl | typeInst => rfl
    | expr x =>
      have hx : x ≠ e := fun heq => hs (congrArg _ heq)
      simp only [uses, partsBy, kind_setKind_ne hx, ann_setKind]
  · simp only [uses, partsBy, ann_setKind, List.mem_append] at hc ⊢
    rcases m.kind_setKind e k with hset | hkeep
    · rw [hset] at hc
      exact hc.elim (fun hc => .inr (hk c hc)) fun hc => .inl (.inr hc)
    · exact .inl (hkeep.1 ▸ hc)

theorem setInit (hp : pass = .check) (ho : o = .decl d) (hd : (m.decl d).init.isSome)
    (he : m₀.Serves o m.exprs.size (.expr e)) : m₀.Tended pass o (m.setInit d (some e)) := by
  subst ho
  have hother : ∀ b, b ≠ d → (m.setInit d (some e)).decl b = m.decl b := fun b hb => decl_modifyDecl_ne hb _
  refine h.change rfl rfl (size_modifyDecl _) rfl (fun _ => rfl) trivial (fun s hs => ?_) (fun c hc => ?_) fun b => ?_
  · cases s with
    | expr | typeInst => rfl
    | decl b => rw [uses_decl, uses_decl, needs, needs, hother b fun heq => hs (congrArg _ heq)]
  · rw [uses_decl, needs, Model.setInit, decl_modifyDecl] at hc
    split at hc
    · rcases List.mem_append.mp hc with hc | hc
      · rcases List.mem_cons.mp hc with rfl | hc
        · exact .inl (List.mem_append_left _ List.mem_cons_self)
        · obtain rfl : c = .expr e := by simpa using hc
          exact .inr he
      · exact .inl (List.mem_append_right _ hc)
    · exact .inl hc
  · by_cases hb : b = d
    · subst hb
      rw [Model.setInit, decl_modifyDecl]
      split
      · exact .inr ⟨hp, .refl, hd, rfl⟩
      · exact .inl rfl
    · exact .inl (congrArg Decl.init (hother b hb))

theorem retyped (hr : m.Retyped m') (hsub : m'.submodels = m.submodels) (hdecls : m'.decls.size = m.decls.size) :
    m₀.Tended pass o m' := by
  have huses : ∀ {s t}, m'.Uses s t → m.Uses s t := fun hu =>
    Relation.ReflTransGen.mono (fun s c hc => hr.uses_eq s ▸ hc) _ _ hu
  constructor
  case toConfined =>
    constructor
    case start => exact h.start
    case items => exact hr.items.trans h.items
    case submodels => exact hsub.trans h.submodels
    case decls => exact hdecls.trans h.decls
    case size => exact hr.size ▸ h.size
    case ann => exact fun e => (hr.ann e).trans (h.ann e)
    case anchored => exact fun s c hc => hr.size ▸ h.anchored s c (hr.uses_eq s ▸ hc)
    case old => exact fun hs ht hu => h.old hs ht (huses hu)
    case inits => exact fun d => (hr.decl d).2.1 ▸ h.inits d
  case new => exact fun ha ht hu => h.new ha ht (huses hu)

-- A call around what serves is one more thing that serves.
theorem addCall {x : Expr} {name : String} {fn : Option FuncId} (ha : m₀.Serves o m.exprs.size (.expr a))
    (hk : x.kind = .call name [a] fn) (hx : x.ann = []) :
    m₀.Tended pass o (m.addExpr x).2 ∧ m₀.Serves o (m.addExpr x).2.exprs.size (.expr (m.addExpr x).1) := by
  have hsize : (m.addExpr x).2.exprs.size = m.exprs.size + 1 := by simp [addExpr]
  have hle : m.exprs.size ≤ (m.addExpr x).2.exprs.size := hsize ▸ Nat.le_succ _
  have haw : (Site.expr a).Within m.exprs.size := h.within ha (Nat.le_refl _)
  have hcases : ∀ {s c}, c ∈ (m.addExpr x).2.uses s →
      s.Within m.exprs.size ∧ c ∈ m.uses s ∨ s = .expr (m.addExpr x).1 ∧ c = .expr a := fun hc =>
    (uses_addExpr_cases hc).imp_right (And.imp_right fun hc => by simpa [hk, hx, ExprKind.parts] using hc)
  refine ⟨?_, .inr ⟨_, rfl, h.size, hsize ▸ Nat.lt_succ_self _⟩⟩
  constructor
  case toConfined =>
    constructor
    case start => exact h.start
    case items => exact h.items
    case submodels => exact h.submodels
    case decls => exact h.decls
    case size => exact Nat.le_trans h.size hle
    case ann => exact fun e => (ann_addExpr hx e).trans (h.ann e)
    case old => exact fun hs ht hu => h.old hs ht (hu.of_addExpr h.anchored (hs.mono h.size))
    case inits => exact h.inits
    case anchored =>
      intro s c hc
      rcases hcases hc with ⟨-, hc⟩ | ⟨-, rfl⟩
      · exact (h.anchored s c hc).mono hle
      · exact haw.mono hle
  case new =>
    intro e t he ht hu
    rcases hu.cases_head with rfl | ⟨c, hc, hct⟩
    · exact absurd ht (Nat.not_lt.mpr he)
    · rcases hcases hc with ⟨hw, -⟩ | ⟨-, rfl⟩
      · exact h.new he ht (Uses.of_addExpr h.anchored hw hu)
      · exact h.leads ha ht (Uses.of_addExpr h.anchored haw hct)

theorem coerced (hc : m.Coerced a e m') (ha : m₀.Serves o m.exprs.size (.expr a)) :
    m₀.Tended pass o m' ∧ m.exprs.size ≤ m'.exprs.size ∧ m₀.Serves o m'.exprs.size (.expr e) := by
  induction hc with
  | same => exact ⟨h, Nat.le_refl _, ha⟩
  | @wrap e₁ m₁ x name fn _ hk hx ih =>
    obtain ⟨h₁, hle, he₁⟩ := ih
    obtain ⟨h₂, he₂⟩ := h₁.addCall he₁ hk hx
    exact ⟨h₂, Nat.le_trans hle (m₁.grows_addExpr x).size_le, he₂⟩

-- A visit to a part of the node is part of the visit to the node.
theorem visit (hp : p ∈ m₀.uses o) (h' : m.Tended pass p m') : m₀.Tended pass o m' := by
  have hpw := h.start o p hp
  constructor
  case toConfined =>
    constructor
    case start => exact h.start
    case anchored => exact h'.anchored
    case items => exact h'.items.trans h.items
    case submodels => exact h'.submodels.trans h.submodels
    case decls => exact h'.decls.trans h.decls
    case size => exact Nat.le_trans h.size h'.size
    case ann => exact fun e => (h'.ann e).trans (h.ann e)
    case old => exact fun hs ht hu => h.old hs ht (h'.old (hs.mono h.size) (ht.mono h.size) hu)
    case inits =>
      intro d
      rcases h'.inits d, h.inits d with ⟨h₁ | ⟨hpass, hd, hm, hm'⟩, h₀ | ⟨hpass₀, hd₀, hs₀, hs₁⟩⟩
      · exact .inl (h₁.trans h₀)
      · exact .inr ⟨hpass₀, hd₀, hs₀, h₁ ▸ hs₁⟩
      · exact .inr ⟨hpass, .head hp (h.old hpw trivial hd), h₀ ▸ hm, hm'⟩
      · exact .inr ⟨hpass, hd₀, hs₀, hm'⟩
  case new =>
    intro a t ha ht hu
    by_cases hlt : a.index < m.exprs.size
    · exact h.new ha ht (h'.old (s := .expr a) hlt (ht.mono h.size) hu)
    · exact .head hp (h.old hpw ht (h'.new (Nat.le_of_not_lt hlt) (ht.mono h.size) hu))

end Tended
end Changes
end Model

section Visits

variable {pass : Pass} {o : Site} {m₀ : Model} {n : Nat} {c : Checking}

-- A visit to `o` that began in `m₀`. The worlds are the numbers of expressions.
def visiting (pass : Pass) (o : Site) (m₀ : Model) : Regime Nat where
  Inv n c := m₀.Tended pass o c.model ∧ c.model.exprs.size = n
  Grown := (· ≤ ·)
  Own p := p = o ∧ p.Within m₀.exprs.size ∧ ∀ d, p = .decl d → pass = .check
  Has _ n s := m₀.Serves o n s
  refl := Nat.le_refl
  trans := Nat.le_trans
  mono hn h := h.mono hn
  report _ h := h
  setTy e t h := ⟨h.1.retyped (retyped_setTy _ e t) rfl rfl, (retyped_setTy _ e t).size.trans h.2⟩
  setKind {n c e k} ho _ hs h := by
    obtain ⟨h, rfl⟩ := h
    refine ⟨h.setKind ho.2.1 ho.1.symm hs, ?_⟩
    simp [Checking.onModel, setKind, modifyExpr]
  coerced {o n a b m' c} ha hm h := by
    obtain ⟨h, rfl⟩ := h
    obtain ⟨h, hle, hb⟩ := h.coerced hm ha
    exact ⟨m'.exprs.size, hle, ⟨h, rfl⟩, hb⟩
  setInit {m n c d a e} ho hm ha hs h := by
    obtain ⟨_, ⟨_, hm, -⟩, rfl⟩ := hm
    obtain ⟨h, rfl⟩ := h
    have hsome : (m₀.decl d).init.isSome := by
      rcases hm.inits d with hi | ⟨-, -, hi, -⟩
      · rw [← hi, Option.mem_toList.mp ha]
        rfl
      · exact hi
    refine ⟨h.setInit (ho.2.2 d rfl) ho.1.symm ?_ hs, rfl⟩
    rcases h.inits d with hi | ⟨-, -, -, hi⟩
    · exact hi ▸ hsome
    · exact hi
  declare d _ _ h := ⟨h.1.retyped (retyped_setDeclTy _ d _) rfl (size_modifyDecl _), h.2⟩
  generate {_ _ _ _ _ _ _ d} t _ _ _ _ _ h :=
    ⟨⟨h.1.retyped (retyped_setDeclTy _ d t) rfl (size_modifyDecl _), h.2⟩,
      h.1.retyped (retyped_setTypeInstTy _ _ t) rfl rfl, h.2⟩
  typeInst _ _ h _ _ := ⟨h.1.retyped (retyped_setTypeInstTy _ _ _) rfl rfl, h.2⟩

theorem tended_walk : ∀ (fuel : Nat) (s : Site) (c : Checking), c.model.Anchored →
    c.model.Tended pass s (final (walk pass fuel s) c).model
  | 0, _, _, hc => .refl hc
  | fuel + 1, s, c, hc => by
    have hv : ∀ p ∈ c.model.uses s, ∀ n, (visiting pass s c.model).Allows n (walk pass fuel p) := by
      intro p hp n c₁ n₁ _ h₁
      have h₂ := tended_walk fuel p c₁ h₁.1.anchored
      exact ⟨_, h₁.2 ▸ h₂.size, ⟨h₁.1.visit hp h₂, rfl⟩, fun _ _ _ => trivial⟩
    have hat : (visiting pass s c.model).AllowsAt c c.model.exprs.size (site pass (walk pass fuel) s) := by
      cases s with
      | expr e =>
        have hparts : ∀ p ∈ (c.model.kind e).parts Generator.uses, p ∈ c.model.uses (.expr e) := fun p hp =>
          List.mem_append_left _ hp
        refine allowsAt_expr (fun hk => ⟨rfl, lt_of_kind_ne_anon hk, nofun⟩) (fun p hp => .inl (hparts p hp))
          (fun p hp => hv p (hparts p hp)) ?_
        rintro _ ⟨_, ⟨_, hm, -⟩, rfl⟩ a ha
        exact hv _ (List.mem_append_right _ (List.mem_map_of_mem (hm.ann e ▸ ha)))
      | decl d =>
        refine allowsAt_decl (fun hp => ⟨rfl, trivial, fun _ _ => hp⟩) (fun a ha => .inl ?_) hv
        exact List.mem_append_left _ (List.mem_cons_of_mem _ (List.mem_map_of_mem ha))
      | typeInst t => exact allowsAt_typeInst hv
    obtain ⟨_, -, h, -⟩ := hat ⟨.refl hc, rfl⟩
    exact h

end Visits

theorem tended_assignTypes (pass : Pass) (s : Site) (c : Checking) (hc : c.model.Anchored) :
    c.model.Tended pass s (final (assignTypes pass s) c).model := by
  have hx : assignTypes pass s c = walk pass c.model.walkFuel s c := rfl
  simpa only [final, hx] using tended_walk c.model.walkFuel s c hc

end Parvar
