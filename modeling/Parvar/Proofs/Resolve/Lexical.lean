import Parvar.Proofs.Resolve.Items

/-!
What names are bound to. A declaration is resolved where it is first needed, and the local names of
that place are still in scope there. So an identifier is bound to the toplevel declaration of its
name, unless a local declaration of that name is in scope somewhere on a way that leads to it. This
holds in every model, also where nodes are shared.
-/

namespace Parvar

section Scopes

-- The names of a generator are visible in the sources of those after it and in the rest.
def Generator.scopes (rest : List Site) : List Generator → List (DeclId × Site)
  | [] => []
  | g :: gs => g.decls.product (gs.flatMap Generator.uses ++ rest) ++ scopes rest gs

-- The local declarations of an expression, each with a part that it is visible in. The items of a
-- let may be put in another order, so each of them may see all others.
def ExprKind.scopes : ExprKind → List (DeclId × Site)
  | .comp c => Generator.scopes (c.guard.toList.map .expr ++ [.expr c.body]) c.generators
  | .letIn l => l.items.flatMap fun item =>
      item.decls.product ((l.items.erase item).map LetItem.site ++ [.expr l.body])
  | _ => []

namespace Model

variable (m : Model)

def Scopes (d : DeclId) (s : Site) : Prop :=
  (∃ e, (d, s) ∈ (m.kind e).scopes) ∨
    ∃ f, d ∈ (m.func f).params ∧ s ∈ (m.func f).body.toList.map Site.expr

-- From a node resolution goes on to its parts, and from an identifier to declarations of its name.
inductive Leads : Site → Site → Prop
  | part {s c : Site} : c ∈ m.uses s → Leads s c
  | name {e : ExprId} {d : DeclId} : (m.kind e).name? = some (m.decl d).name → Leads (.expr e) (.decl d)

-- The declaration is in scope on some way that leads to the node.
def Visible (d : DeclId) (s : Site) : Prop :=
  ∃ c, m.Scopes d c ∧ Relation.ReflTransGen m.Leads c s

def Shadowed (name : String) (s : Site) : Prop := ∃ d, (m.decl d).name = name ∧ m.Visible d s

def toplevels : List DeclId := m.itemPaths.flatMap fun p => (m.itemAt? p).toList.flatMap Item.decls

-- The identifiers in a declaration that nothing shadows are bound to the one among the given
-- declarations that has their name.
def Lexical (tops : List DeclId) (d : DeclId) : Prop :=
  ∀ e name b, m.Uses (.decl d) (.expr e) → m.kind e = .ident name b → ¬m.Shadowed name (.expr e) →
    ∃ c, b = some c ∧ ∀ c', c' ∈ tops ∧ (m.decl c').name = name ↔ c' = c

variable {m} {d : DeclId} {s c : Site}

theorem Visible.step (h : m.Visible d s) (hc : m.Leads s c) : m.Visible d c :=
  have ⟨a, ha, hs⟩ := h
  ⟨a, ha, hs.tail hc⟩

theorem Visible.part (h : m.Visible d s) (hc : c ∈ m.uses s) : m.Visible d c :=
  h.step (.part hc)

theorem Scopes.visible (h : m.Scopes d s) : m.Visible d s := ⟨s, h, .refl⟩

end Model

theorem LetItem.mem_decls {d : DeclId} {item : LetItem} : d ∈ item.decls ↔ item = .decl d := by
  cases item <;> simp [decls, eq_comm]

theorem ExprKind.mem_scopes_letIn {l : Let} {d : DeclId} {s : Site} :
    (d, s) ∈ (ExprKind.letIn l).scopes ↔
      .decl d ∈ l.items ∧ (s ∈ (l.items.erase (.decl d)).map LetItem.site ∨ s = .expr l.body) := by
  simp only [scopes, List.mem_flatMap, List.pair_mem_product, LetItem.mem_decls, List.mem_append,
    List.mem_singleton]
  constructor
  · rintro ⟨_, hi, rfl, hs⟩
    exact ⟨hi, hs⟩
  · exact fun ⟨hi, hs⟩ => ⟨_, hi, rfl, hs⟩

end Scopes

namespace Resolve

section Contract

variable (m : Model) (top : List (String × DeclId))

-- An identifier that nothing shadows is bound to what its name stands for at the top.
def Settled (m' : Model) (e : ExprId) : Prop :=
  ∀ name b, m'.kind e = .ident name b → ¬m.Shadowed name (.expr e) →
    ∃ d, b = some d ∧ top.lookup name = some d

-- What is in a node, up to the declarations in it.
def Inner : Site → Site → Prop :=
  Relation.ReflTransGen fun s c => c ∈ m.uses s ∧ ∀ d, s ≠ .decl d

structure Met (r : Resolution) (s : Site) : Prop where
  settled : ∀ e, Inner m s (.expr e) → Settled m top r.model e
  entered : ∀ d, Inner m s (.decl d) → r.Entered d

-- The model has changed in nothing that matters for where names are in scope.
structure Same (m' : Model) : Prop where
  alike : m.Alike m'
  scopes : ∀ e p, p ∈ (m'.kind e).scopes ↔ p ∈ (m.kind e).scopes

-- From `r` to `r'` the nodes `ws` were met, and nothing but what is in `ts`, or in a declaration that
-- has joined the order, was set.
structure Passed (ts ws : List Site) (r r' : Resolution) : Prop where
  same : Same m r'.model
  active : r'.active = r.active
  order : ∀ d ∈ r.order, d ∈ r'.order
  stays : ∀ e, Settled m top r.model e → Settled m top r'.model e
  met : ∀ w ∈ ws, Met m top r' w
  new : ∀ d ∈ r'.order, d ∉ r.order → ∀ c ∈ m.uses (.decl d), Met m top r' c
  changed : ∀ e, r'.model.kind e = r.model.kind e ∨ (∃ t ∈ ts, Inner m t (.expr e)) ∨
    ∃ d ∈ r'.order, d ∉ r.order ∧ ∃ c ∈ m.uses (.decl d), Inner m c (.expr e)

def named (ds : List DeclId) : List (String × DeclId) := ds.map fun d => ((m.decl d).name, d)

-- The contract of a step that starts with the local declarations `ds` in scope and ends with `ds'`.
def Passes (ws : List Site) (ds ds' : List DeclId) (x : ResolveM Unit) : Prop :=
  ∀ r r', Same m r.model → r.scope = named m ds ++ top → x r = .ok () r' →
    Passed m top ws ws r r' ∧ r'.scope = named m ds' ++ top

-- A node may be visited with declarations in scope that are visible there.
def Lexes (visit : Visit) : Prop :=
  ∀ s ds, (∀ d ∈ ds, m.Visible d s) → Passes m top [s] ds ds (visit s)

end Contract

variable {m : Model} {top : List (String × DeclId)} {r r₁ r₂ : Resolution} {s c w : Site}
  {d : DeclId} {e : ExprId} {ts ts₁ ts₂ ws ws₁ ws₂ : List Site} {ds ds₁ ds₂ : List DeclId}
  {visit : Visit}

section Basics

theorem Met.mono (h : Met m top r s) (hs : ∀ e, Settled m top r.model e → Settled m top r₁.model e)
    (he : ∀ d, r.Entered d → r₁.Entered d) : Met m top r₁ s where
  settled e hi := hs e (h.settled e hi)
  entered d hi := he d (h.entered d hi)

theorem Met.inner (h : Met m top r s) (hc : Inner m s c) : Met m top r c where
  settled e hi := h.settled e (hc.trans hi)
  entered d hi := h.entered d (hc.trans hi)

theorem Met.decl (h : r.Entered d) : Met m top r (.decl d) := by
  have hd : ∀ {c}, Inner m (.decl d) c → c = .decl d := by
    intro c hc
    cases hc.cases_head
    case inl e => exact e.symm
    case inr hp => exact (hp.choose_spec.1.2 d rfl).elim
  refine ⟨fun e he => ?_, fun c hc => ?_⟩
  · cases hd he
  · cases hd hc
    exact h

-- A node other than a declaration is met with its parts.
theorem Met.of_uses (hs : ∀ d, s ≠ .decl d) (he : ∀ e, s = .expr e → Settled m top r.model e)
    (h : ∀ c ∈ m.uses s, Met m top r c) : Met m top r s where
  settled e hi := by
    cases Relation.ReflTransGen.cases_head hi
    case inl hse => exact he e hse
    case inr hc =>
      have ⟨c, hc, hi⟩ := hc
      exact (h c hc.1).settled e hi
  entered d hi := by
    cases Relation.ReflTransGen.cases_head hi
    case inl hsd => exact (hs d hsd).elim
    case inr hc =>
      have ⟨c, hc, hi⟩ := hc
      exact (h c hc.1).entered d hi

theorem Same.refl (m : Model) : Same m m := ⟨.refl m, fun _ _ => Iff.rfl⟩

namespace Passed

theorem entered (h : Passed m top ts ws r r₁) (hd : r.Entered d) : r₁.Entered d :=
  hd.imp (h.active ▸ ·) (h.order d)

-- What is in scope does not matter here.
theorem withScope (h : Same m r.model) (sc : List (String × DeclId)) :
    Passed m top ts [] r { r with scope := sc } where
  same := h
  active := rfl
  order _ := id
  stays _ := id
  met := by simp
  new _ h hn := (hn h).elim
  changed _ := .inl rfl

theorem trans (h₁ : Passed m top ts₁ ws₁ r r₁) (h₂ : Passed m top ts₂ ws₂ r₁ r₂) :
    Passed m top (ts₁ ++ ts₂) (ws₁ ++ ws₂) r r₂ where
  same := h₂.same
  active := h₂.active.trans h₁.active
  order d hd := h₂.order d (h₁.order d hd)
  stays e he := h₂.stays e (h₁.stays e he)
  met w hw := by
    cases List.mem_append.mp hw
    case inl hw => exact (h₁.met w hw).mono h₂.stays fun _ => h₂.entered
    case inr hw => exact h₂.met w hw
  new d hd hn c hc := by
    by_cases hd₁ : d ∈ r₁.order
    · exact (h₁.new d hd₁ hn c hc).mono h₂.stays fun _ => h₂.entered
    · exact h₂.new d hd hd₁ c hc
  changed e := by
    obtain hk₂ | ⟨t, ht, hi⟩ | ⟨d, hd, hn, hi⟩ := h₂.changed e
    · obtain hk₁ | ⟨t, ht, hi⟩ | ⟨d, hd, hn, hi⟩ := h₁.changed e
      · exact .inl (hk₂.trans hk₁)
      · exact .inr (.inl ⟨t, List.mem_append_left _ ht, hi⟩)
      · exact .inr (.inr ⟨d, h₂.order d hd, hn, hi⟩)
    · exact .inr (.inl ⟨t, List.mem_append_right _ ht, hi⟩)
    · exact .inr (.inr ⟨d, hd, fun ho => hn (h₁.order d ho), hi⟩)

-- What was set in the parts of a node was set in the node.
theorem within (h : Passed m top ts ws r r₁) (ht : ∀ t ∈ ts, Inner m s t) (hm : ∀ w ∈ ws₁, Met m top r₁ w) :
    Passed m top [s] ws₁ r r₁ :=
  { h with
    met := hm
    changed := fun e => (h.changed e).imp_right (.imp_left fun ⟨t, hm, hi⟩ =>
      ⟨s, List.mem_singleton_self s, (ht t hm).trans hi⟩) }

end Passed

namespace Passes

theorem pure : Passes m top [] ds ds (pure ()) := by
  intro r r' hs hsc hx
  obtain ⟨-, rfl⟩ := pure_eq_ok.mp hx
  exact ⟨.withScope hs _, hsc⟩

theorem seq {x y : ResolveM Unit} (hx : Passes m top ws₁ ds ds₁ x) (hy : Passes m top ws₂ ds₁ ds₂ y) :
    Passes m top (ws₁ ++ ws₂) ds ds₂ (x >>= fun _ => y) := by
  intro r r₂ hs hsc hxy
  have ⟨_, r₁, hrx, hry⟩ := bind_eq_ok.mp hxy
  have ⟨h₁, hsc₁⟩ := hx r r₁ hs hsc hrx
  have ⟨h₂, hsc₂⟩ := hy r₁ r₂ h₁.same hsc₁ hry
  exact ⟨h₁.trans h₂, hsc₂⟩

theorem forM {α : Type} {f : α → ResolveM Unit} {site : α → Site} {as : List α}
    (hf : ∀ a ∈ as, Passes m top [site a] ds ds (f a)) :
    Passes m top (as.map site) ds ds (as.forM f) := by
  induction as with
  | nil => exact pure
  | cons a as ih => exact seq (hf a List.mem_cons_self) (ih fun b hb => hf b (List.mem_cons_of_mem _ hb))

theorem forM_push (cs : List DeclId) :
    Passes m top [] ds (cs.reverse ++ ds) (cs.forM ResolveM.push) := by
  intro r r' hs hsc hx
  rw [Resolve.forM_push, foldl_push] at hx
  cases hx
  refine ⟨.withScope hs _, ?_⟩
  simp [hsc, named, hs.alike.decl_eq]

end Passes

end Basics

section Ways

-- The parts of a node are those that it had at first, though maybe in another order.
theorem Same.mem_parts {m' : Model} (h : Same m m') (hc : c ∈ (m'.kind e).parts Generator.uses) :
    c ∈ m.uses (.expr e) :=
  List.mem_append_left _ (((h.alike.kind e).parts _).mem_iff.mpr hc)

theorem Same.mem_ann {m' : Model} (h : Same m m') {a : ExprId} (ha : a ∈ (m'.expr e).ann) :
    .expr a ∈ m.uses (.expr e) :=
  List.mem_append_right _ (List.mem_map_of_mem (h.alike.ann e ▸ ha))

theorem Same.visible_of_scopes {m' : Model} (h : Same m m') (hd : (d, s) ∈ (m'.kind e).scopes) :
    m.Visible d s :=
  Model.Scopes.visible (.inl ⟨e, (h.scopes e _).mp hd⟩)

end Ways

section Local

variable {gs : List Generator} {rest : List Site}

theorem Generator.mem_scopes (hd : d ∈ gs.flatMap (·.decls)) (hs : s ∈ rest) :
    (d, s) ∈ Generator.scopes rest gs := by
  induction gs with
  | nil => simp at hd
  | cons g gs ih =>
    rw [List.flatMap_cons] at hd
    cases List.mem_append.mp hd
    case inl hd =>
      exact List.mem_append_left _ (List.pair_mem_product.mpr ⟨hd, List.mem_append_right _ hs⟩)
    case inr hd => exact List.mem_append_right _ (ih hd)

-- Each declaration of a let is visible in the items after it.
theorem pairwise_items (l : Let) :
    l.items.Pairwise fun a b => ∀ d ∈ a.decls, (d, b.site) ∈ (ExprKind.letIn l).scopes := by
  rw [List.pairwise_iff_forall_sublist]
  intro a b hab d hd
  obtain rfl := LetItem.mem_decls.mp hd
  have hb : [b].Sublist (l.items.erase (.decl d)) := by simpa using hab.erase (.decl d)
  refine ExprKind.mem_scopes_letIn.mpr ⟨hab.subset List.mem_cons_self, .inl ?_⟩
  exact List.mem_map_of_mem (hb.subset List.mem_cons_self)

-- Declarations that came into scope leave it again.
theorem Passes.close {cs : List DeclId} {x y : ResolveM Unit} (hx : Passes m top ws ds (cs.reverse ++ ds) x)
    (hy : ∀ r, m.Alike r.model → ∀ sc, r.scope = (named m cs).reverse ++ sc →
      y r = .ok () { r with scope := sc }) :
    Passes m top ws ds ds (x >>= fun _ => y) := by
  intro r r₂ hs hsc hxy
  have ⟨_, r₁, hrx, hry⟩ := bind_eq_ok.mp hxy
  have ⟨h₁, hsc₁⟩ := hx r r₁ hs hsc hrx
  have hsc₁ : r₁.scope = (named m cs).reverse ++ (named m ds ++ top) := by
    simpa [named] using hsc₁
  rw [hy r₁ h₁.same.alike _ hsc₁] at hry
  cases hry
  have h₂ := h₁.trans (@Passed.withScope m top r₁ [] h₁.same (named m ds ++ top))
  rw [List.append_nil] at h₂
  exact ⟨h₂, rfl⟩

variable (hv : Lexes m top visit)

include hv

theorem passes_exprs (es : List ExprId) (h : ∀ e ∈ es, ∀ d ∈ ds, m.Visible d (.expr e)) :
    Passes m top (es.map .expr) ds ds (exprs visit es) :=
  .forM fun e he => hv _ _ (h e he)

theorem passes_generators (ds : List DeclId) (hg : ∀ p ∈ Generator.scopes rest gs, m.Visible p.1 p.2)
    (hd : ∀ d ∈ ds, ∀ s ∈ gs.flatMap Generator.uses, m.Visible d s) :
    Passes m top (gs.flatMap Generator.uses) ds ((gs.flatMap (·.decls)).reverse ++ ds)
      (gs.forM fun g => do visit (.expr g.source); g.decls.forM ResolveM.push) := by
  induction gs generalizing ds with
  | nil => exact .pure
  | cons g gs ih =>
    have hsource := hv (.expr g.source) ds fun d hm => hd d hm _ (by simp [Generator.uses])
    have hrest := ih (g.decls.reverse ++ ds)
      (fun p hp => hg p (List.mem_append_right _ hp)) fun d hm s hs => by
        cases List.mem_append.mp hm
        case inl hm =>
          refine hg (d, s) (List.mem_append_left _ (List.pair_mem_product.mpr ⟨?_, ?_⟩))
          · exact List.mem_reverse.mp hm
          · exact List.mem_append_left _ hs
        case inr hm => exact hd d hm s (by simp [List.flatMap_cons, hs])
    have h := (hsource.seq (.forM_push g.decls)).seq hrest
    simpa [List.flatMap_cons, Generator.uses, List.forM] using h

theorem passes_comp {c : Comprehension} (hc : ∀ p ∈ (ExprKind.comp c).scopes, m.Visible p.1 p.2)
    (hd : ∀ d ∈ ds, ∀ s ∈ (ExprKind.comp c).parts Generator.uses, m.Visible d s) :
    Passes m top ((ExprKind.comp c).parts Generator.uses) ds ds (comp visit c) := by
  have hgens := passes_generators hv ds hc fun d hm s hs => hd d hm s (by
    simp only [ExprKind.parts, List.mem_append]
    exact .inl (.inl hs))
  have hin : ∀ d ∈ (c.generators.flatMap (·.decls)).reverse ++ ds,
      ∀ s ∈ c.guard.toList.map Site.expr ++ [.expr c.body], m.Visible d s := by
    intro d hm s hs
    cases List.mem_append.mp hm
    case inl hm => exact hc (d, s) (Generator.mem_scopes (List.mem_reverse.mp hm) hs)
    case inr hm => exact hd d hm s (by rw [ExprKind.parts, List.append_assoc]; exact List.mem_append_right _ hs)
  have hguard := passes_exprs hv c.guard.toList fun e he d hm =>
    hin d hm _ (List.mem_append_left _ (List.mem_map_of_mem he))
  have hbody := hv (.expr c.body) _ fun d hm => hin d hm _ (by simp)
  have h := Passes.close (hgens.seq (hguard.seq hbody)) fun r ha sc hsc =>
    (forM_decls_pop c.generators r).trans (by rw [foldl_pop_named ha (.refl _) hsc])
  simpa only [comp, ExprKind.parts, bind_assoc, List.append_assoc] using h

theorem passes_items (items : List LetItem) (ds : List DeclId)
    (hp : items.Pairwise fun a b => ∀ d ∈ a.decls, m.Visible d b.site)
    (hd : ∀ d ∈ ds, ∀ i ∈ items, m.Visible d i.site) :
    Passes m top (items.map LetItem.site) ds ((items.flatMap LetItem.decls).reverse ++ ds)
      (items.forM (letItem visit)) := by
  induction items generalizing ds with
  | nil => exact .pure
  | cons i items ih =>
    have ⟨hi, hp⟩ := List.pairwise_cons.mp hp
    have hitem : Passes m top [i.site] ds (i.decls.reverse ++ ds) (letItem visit i) := by
      have h := hv i.site ds fun d hm => hd d hm i List.mem_cons_self
      cases i
      case decl c => simpa [letItem, LetItem.site, LetItem.decls] using h.seq (.forM_push [c])
      case constraint => exact h
    have hrest := ih (i.decls.reverse ++ ds) hp fun d hm j hj => by
      cases List.mem_append.mp hm
      case inl hm => exact hi j hj d (List.mem_reverse.mp hm)
      case inr hm => exact hd d hm j (List.mem_cons_of_mem _ hj)
    have h := hitem.seq hrest
    simpa [List.flatMap_cons, List.forM] using h

end Local

section Nodes

-- Setting a kind settles nothing else.
theorem Passed.setKind (top : List (String × DeclId)) {k : ExprKind} (h : Same m r.model) (hk : (r.model.kind e).Alike k)
    (hsc : ∀ p, p ∈ k.scopes ↔ p ∈ (r.model.kind e).scopes)
    (hset : ∀ name b, k = .ident name b → ¬m.Shadowed name (.expr e) →
      ∃ d, b = some d ∧ top.lookup name = some d) :
    Passed m top [.expr e] [] r { r with model := r.model.setKind e k } where
  same := by
    refine ⟨h.alike.setKind hk, fun c p => ?_⟩
    by_cases hc : c = e
    · subst hc
      cases r.model.kind_setKind c k
      case inl hs => rw [hs, hsc, h.scopes]
      case inr hs => rw [hs.1, h.scopes]
    · rw [Model.kind_setKind_ne hc, h.scopes]
  active := rfl
  order _ := id
  stays c hc name b hb := by
    by_cases hce : c = e
    · subst hce
      cases r.model.kind_setKind c k
      case inl hs => exact hset name b (hs ▸ hb)
      case inr hs => exact hc name b (hs.1 ▸ hb)
    · exact hc name b (Model.kind_setKind_ne hce k ▸ hb)
  met := by simp
  new _ h hn := (hn h).elim
  changed c := by
    by_cases hc : c = e
    · exact .inr (.inl ⟨_, List.mem_singleton_self _, hc ▸ .refl⟩)
    · exact .inl (Model.kind_setKind_ne hc k)

-- What is achieved before the annotations of an expression.
structure NodePassed (m : Model) (top : List (String × DeclId)) (e : ExprId) (k : ExprKind)
    (r r' : Resolution) : Prop where
  passed : Passed m top [.expr e] (k.parts Generator.uses) r r'
  scope : r'.scope = r.scope
  settled : Settled m top r'.model e

-- The identifiers that a kind without a name is made of are in its parts.
theorem NodePassed.of_passed {k : ExprKind} (hs : Same m r.model) (hk : r.model.kind e = k)
    (hn : k.name? = none) (h : Passed m top (k.parts Generator.uses) (k.parts Generator.uses) r r₁)
    (hsc : r₁.scope = r.scope) : NodePassed m top e k r r₁ where
  passed := h.within (fun t ht => .single ⟨hs.mem_parts (hk ▸ ht), by simp⟩) h.met
  scope := hsc
  settled name b hb := by
    have h₁ := (h.same.alike.kind e).name
    have h₂ := (hs.alike.kind e).name
    rw [hb, h₂, hk, hn] at h₁
    cases h₁

theorem lookup_eq {name : String} {span : Span} (hx : ResolveM.lookup name span r = .ok d r₁) :
    r₁ = r ∧ r.scope.lookup name = some d := by
  rw [ResolveM.lookup, get_bind] at hx
  cases hl : r.lookup? name with
  | none => simp [hl, ResolveM.fail] at hx
  | some c =>
    obtain ⟨rfl, rfl⟩ : c = d ∧ r = r₁ := by simpa [hl] using hx
    exact ⟨rfl, hl⟩

-- A name that nothing in scope shadows is looked up at the top.
theorem lookup_top {name : String} (hd : ∀ d ∈ ds, m.Visible d s) (hn : ¬m.Shadowed name s) :
    (named m ds ++ top).lookup name = top.lookup name := by
  have hl : (named m ds).lookup name = none := by
    rw [List.lookup_eq_none_iff]
    intro p hp
    obtain ⟨d, hm, rfl⟩ := List.mem_map.mp hp
    simpa using fun h => hn ⟨d, h.symm, hd d hm⟩
  rw [List.lookup_append, hl, Option.none_or]

variable (hv : Lexes m top visit)

include hv

theorem refer_passed {name : String} {span : Span} (hs : Same m r.model)
    (hsc : r.scope = named m ds ++ top) (hd : ∀ c ∈ ds, m.Visible c (.decl d))
    (hx : refer visit d name span r = .ok () r₁) :
    Passed m top [] [] r r₁ ∧ r₁.scope = r.scope := by
  rw [refer, get_bind] at hx
  split at hx
  · obtain ⟨-, rfl⟩ := pure_eq_ok.mp hx
    exact ⟨.withScope hs _, rfl⟩
  · split at hx
    · simp [ResolveM.fail] at hx
    · obtain ⟨h, hsc₁⟩ := hv (.decl d) ds hd r r₁ hs hsc hx
      refine ⟨{ h with met := by simp, changed := fun e => (h.changed e).imp_right (.imp_left ?_) },
        hsc₁.trans hsc.symm⟩
      rintro ⟨t, ht, hi⟩
      rw [List.mem_singleton.mp ht] at hi
      exact (Relation.ReflTransGen.cases_head hi).elim (by simp) fun hp =>
        (hp.choose_spec.1.2 d rfl).elim

theorem ident_passed {name : String} {b : Option DeclId} {span : Span}
    (ht : ∀ p ∈ top, p.1 = (m.decl p.2).name) (hs : Same m r.model)
    (hsc : r.scope = named m ds ++ top) (hd : ∀ c ∈ ds, m.Visible c (.expr e))
    (hk : r.model.kind e = .ident name b) (hx : ident visit e name span r = .ok () r₂) :
    NodePassed m top e (.ident name b) r r₂ := by
  simp only [ident, bind_eq_ok] at hx
  obtain ⟨d, _, hl, _, r₁, hrefer, hset⟩ := hx
  obtain ⟨rfl, hl⟩ := lookup_eq hl
  have hname : (m.decl d).name = name := by
    have ⟨l₁, l₂, hsplit, _⟩ := List.lookup_eq_some_iff.mp hl
    have hm : (name, d) ∈ named m ds ++ top := by
      rw [← hsc, hsplit]
      simp
    cases List.mem_append.mp hm
    case inl hm =>
      obtain ⟨_, _, he⟩ := List.mem_map.mp hm
      cases he
      rfl
    case inr hm => exact (ht _ hm).symm
  have hkm : (m.kind e).name? = some (m.decl d).name := by
    rw [(hs.alike.kind e).name, hk, hname]
    rfl
  have ⟨h₁, hsc₁⟩ := refer_passed hv hs hsc (fun c hc => (hd c hc).step (.name hkm)) hrefer
  obtain rfl := changeModel_eq_ok hset
  have htop : ¬m.Shadowed name (.expr e) → top.lookup name = some d := by
    intro hn
    rw [← hl, hsc, lookup_top hd hn]
  have h₂ := Passed.setKind top (e := e) (k := .ident name (some d)) h₁.same ?_ ?_ ?_
  · refine ⟨h₁.trans h₂, hsc₁, fun name' b' hb hn => ?_⟩
    cases r₁.model.kind_setKind e (.ident name (some d))
    case inl hset =>
      cases hset.symm.trans hb
      exact ⟨d, rfl, htop hn⟩
    case inr hset => cases hset.2 ▸ hset.1 ▸ hb
  · have hk' : ExprKind.Alike (.ident name b) (.ident name (some d)) := ⟨fun _ => .refl _, rfl⟩
    exact (h₁.same.alike.kind e).symm.trans ((hs.alike.kind e).trans (hk ▸ hk'))
  · intro p
    rw [h₁.same.scopes, ← hs.scopes, hk]
    rfl
  · rintro _ _ ⟨⟩ hn
    exact ⟨d, rfl, htop hn⟩

theorem letIn_passed {l : Let} (hs : Same m r.model) (hsc : r.scope = named m ds ++ top)
    (hd : ∀ c ∈ ds, m.Visible c (.expr e)) (hk : r.model.kind e = .letIn l)
    (hx : letIn visit e l r = .ok () r₂) : NodePassed m top e (.letIn l) r r₂ := by
  have hpart : ∀ s ∈ (ExprKind.letIn l).parts Generator.uses, s ∈ m.uses (.expr e) := fun s hm =>
    hs.mem_parts (hk ▸ hm)
  have hscope : ∀ p ∈ (ExprKind.letIn l).scopes, m.Visible p.1 p.2 := fun p hp =>
    hs.visible_of_scopes (e := e) (hk ▸ hp)
  have hitems := passes_items hv l.items ds
    ((pairwise_items l).imp fun h d hm => hscope _ (h d hm))
    fun d hm i hi => (hd d hm).part (hpart _ (List.mem_append_left _ (List.mem_map_of_mem hi)))
  have hbody := hv (.expr l.body) ((l.items.flatMap LetItem.decls).reverse ++ ds) fun d hm => by
    cases List.mem_append.mp hm
    case inl hm =>
      have ⟨i, hi, hm⟩ := List.mem_flatMap.mp (List.mem_reverse.mp hm)
      refine hscope (d, _) (ExprKind.mem_scopes_letIn.mpr ⟨?_, .inr rfl⟩)
      exact LetItem.mem_decls.mp hm ▸ hi
    case inr hm => exact (hd d hm).part (hpart _ (List.mem_append_right _ (List.mem_singleton_self _)))
  -- The items leave the scope in another order than they came into it.
  have hsort : ∀ r, (sortLetItems r l.items).Perm l.items := fun r => List.mergeSort_perm _ _
  have hc := Passes.close (y := get >>= fun r => (sortLetItems r l.items).forM leaveItem)
    (hitems.seq hbody) fun r ha sc hsc => by
      rw [get_bind, forM_leaveItem, foldl_pop_named ha ((hsort r).flatMap_right _) hsc]
  have ⟨_, r₀, hx₀, hx⟩ := bind_eq_ok.mp hx
  have ⟨_, r₁, hx₁, hx⟩ := bind_eq_ok.mp hx
  rw [get_bind] at hx
  have ⟨_, r₃, hx₃, hset⟩ := bind_eq_ok.mp hx
  have ⟨h₃, hsc₃⟩ := hc r r₃ hs hsc
    (bind_eq_ok.mpr ⟨_, r₁, bind_eq_ok.mpr ⟨_, r₀, hx₀, hx₁⟩, hx₃⟩)
  obtain rfl := changeModel_eq_ok hset
  have hn := NodePassed.of_passed hs hk rfl h₃ (hsc₃.trans hsc.symm)
  have hperm := (hsort r₁).symm
  have h₄ := Passed.setKind top (e := e) (k := .letIn ⟨sortLetItems r₁ l.items, l.body,
    (sortLetItems r₁ l.items).map (origin r₁.model)⟩) h₃.same ?_ ?_ (by rintro _ _ ⟨⟩)
  · have h := hn.passed.trans h₄
    refine ⟨h.within (by simp [Inner, Relation.ReflTransGen.refl]) fun w hw => h.met w ?_, hn.scope,
      h₄.stays e hn.settled⟩
    rwa [List.append_nil]
  · refine (h₃.same.alike.kind e).symm.trans ((hs.alike.kind e).trans ?_)
    rw [hk]
    exact ⟨fun gen => (hperm.map _).append_right _, rfl⟩
  · rintro ⟨d, s⟩
    rw [h₃.same.scopes, ← hs.scopes, hk, ExprKind.mem_scopes_letIn, ExprKind.mem_scopes_letIn,
      hperm.mem_iff, ((hperm.erase _).map _).mem_iff]

theorem node_passed {k : ExprKind} {span : Span} (ht : ∀ p ∈ top, p.1 = (m.decl p.2).name)
    (hs : Same m r.model) (hsc : r.scope = named m ds ++ top) (hd : ∀ c ∈ ds, m.Visible c (.expr e))
    (hk : r.model.kind e = k) (hx : node visit e span k r = .ok () r₂) :
    NodePassed m top e k r r₂ := by
  have hpart : ∀ s ∈ k.parts Generator.uses, ∀ c ∈ ds, m.Visible c s := fun s hm c hc =>
    (hd c hc).part (hs.mem_parts (hk ▸ hm))
  have plain : k.name? = none → Passes m top (k.parts Generator.uses) ds ds (node visit e span k) →
      NodePassed m top e k r r₂ := by
    intro hn hp
    obtain ⟨h, hsc₂⟩ := hp r r₂ hs hsc hx
    exact .of_passed hs hk hn h (hsc₂.trans hsc.symm)
  cases k
  case ident name b => exact ident_passed hv ht hs hsc hd hk hx
  case letIn l => exact letIn_passed hv hs hsc hd hk hx
  case setLit elems | arrayLit elems _ | call _ elems _ =>
    exact plain rfl (passes_exprs hv _ fun a ha => hpart _ (List.mem_map_of_mem ha))
  case access array indices =>
    exact plain rfl (passes_exprs hv (array :: indices) fun a ha => hpart _ (List.mem_map_of_mem ha))
  case bin _ lhs rhs _ =>
    exact plain rfl (passes_exprs hv [lhs, rhs] fun a ha => hpart _ (List.mem_map_of_mem ha))
  case un _ arg _ => exact plain rfl (hv _ _ (hpart _ (List.mem_singleton_self _)))
  case comp c =>
    refine plain rfl (passes_comp hv (fun p hp => ?_) fun d hm s hp => hpart s hp d hm)
    exact hs.visible_of_scopes (e := e) (hk ▸ hp)
  case ite branches otherwise =>
    have hb : ∀ bs ⊆ branches, Passes m top (bs.flatMap fun b => [b.1, b.2].map .expr) ds ds
        (bs.forM fun b => exprs visit [b.1, b.2]) := by
      intro bs hbs
      induction bs with
      | nil => exact .pure
      | cons b bs ih =>
        refine .seq (passes_exprs hv [b.1, b.2] fun a ha => hpart _ ?_) (ih fun _ h =>
          hbs (List.mem_cons_of_mem _ h))
        refine List.mem_append_left _ (List.mem_flatMap.mpr ⟨b, hbs List.mem_cons_self, ?_⟩)
        exact List.mem_map_of_mem ha
    exact plain rfl (.seq (hb _ (List.Subset.refl _)) (hv _ _ (hpart _ (by simp [ExprKind.parts]))))
  all_goals exact plain rfl .pure

end Nodes

section Sites

variable (ht : ∀ p ∈ top, p.1 = (m.decl p.2).name) (hv : Lexes m top visit)

include hv

include ht in
theorem passes_expr (hd : ∀ c ∈ ds, m.Visible c (.expr e)) :
    Passes m top [.expr e] ds ds (expr visit e) := by
  intro r r₂ hs hsc hx
  rw [expr, get_bind] at hx
  obtain ⟨_, r₁, hnode, hann⟩ := bind_eq_ok.mp hx
  have h₁ := node_passed hv ht hs hsc hd rfl hnode
  obtain ⟨h₂, hsc₂⟩ := passes_exprs hv _ (fun a ha c hc => (hd c hc).part (hs.mem_ann ha)) r₁ r₂
    h₁.passed.same (h₁.scope.trans hsc) hann
  have h := h₁.passed.trans h₂
  refine ⟨h.within (s := .expr e) (fun t hm => ?_) ?_, hsc₂⟩
  · cases List.mem_append.mp hm
    case inl hm => exact List.mem_singleton.mp hm ▸ .refl
    case inr hm =>
      obtain ⟨a, ha, hat⟩ := List.mem_map.mp hm
      exact .single ⟨hat ▸ hs.mem_ann ha, by simp⟩
  · rw [List.forall_mem_singleton]
    refine .of_uses (by simp) (fun c hc => ?_) fun c hc => h.met c ?_
    · cases hc
      exact h₂.stays e h₁.settled
    · simp only [Model.uses, Model.partsBy, ← hs.alike.ann e] at hc
      rw [List.mem_append] at hc ⊢
      exact hc.imp_left ((hs.alike.kind e).parts _).mem_iff.mp

theorem passes_typeInst {t : TypeInstId} (hd : ∀ c ∈ ds, m.Visible c (.typeInst t)) :
    Passes m top [.typeInst t] ds ds (typeInst visit t) := by
  intro r r₁ hs hsc hx
  rw [typeInst, get_bind, hs.alike.typeInst_eq] at hx
  have hranges : Passes m top ((m.typeInst t).ranges.map .typeInst) ds ds
      ((m.typeInst t).ranges.forM fun t => visit (.typeInst t)) :=
    .forM fun a ha => hv _ _ fun c hc =>
      (hd c hc).part (List.mem_append_left _ (List.mem_map_of_mem ha))
  have hdomain := passes_exprs hv (m.typeInst t).domain.toList fun a ha c hc =>
    (hd c hc).part (s := .typeInst t) (List.mem_append_right _ (List.mem_map_of_mem ha))
  obtain ⟨h, hsc₁⟩ := hranges.seq hdomain r r₁ hs hsc hx
  refine ⟨h.within (s := .typeInst t) (fun s hm => .single ⟨hm, by simp⟩) ?_, hsc₁⟩
  rw [List.forall_mem_singleton]
  exact .of_uses (by simp) (by simp) h.met

-- A declaration that joins the order has been met with all that it is made of.
theorem passes_decl (hd : ∀ c ∈ ds, m.Visible c (.decl d)) :
    Passes m top [.decl d] ds ds (decl visit d) := by
  intro r r₂ hs hsc hx
  rw [decl, get_bind] at hx
  split at hx
  · next he =>
    obtain ⟨-, rfl⟩ := pure_eq_ok.mp hx
    have he : r.Entered d := by simpa [Resolution.Entered] using he
    refine ⟨{ Passed.withScope hs r.scope with met := ?_ }, hsc⟩
    rw [List.forall_mem_singleton]
    exact .decl he
  · next hn =>
    rw [hs.alike.decl_eq] at hx
    obtain ⟨_, r₀, henter, hx⟩ := bind_eq_ok.mp hx
    cases henter
    obtain ⟨_, r₀, hti, hx⟩ := bind_eq_ok.mp hx
    obtain ⟨_, r₁, hinit, hx⟩ := bind_eq_ok.mp hx
    obtain ⟨_, r₀', hleave, hann⟩ := bind_eq_ok.mp hx
    cases hleave
    have hpart : ∀ s ∈ m.uses (.decl d), ∀ c ∈ ds, m.Visible c s := fun s hm c hc => (hd c hc).part hm
    have hneeds : Passes m top (m.needs d) ds ds
        (visit (.typeInst (m.decl d).ti) >>= fun _ => exprs visit (m.decl d).init.toList) :=
      .seq (hv _ _ (hpart _ (by simp [Model.uses_decl, Model.needs])))
        (passes_exprs hv _ fun a ha => hpart _ (by
          rw [Model.uses_decl, Model.needs]
          exact List.mem_append_left _ (List.mem_cons_of_mem _ (List.mem_map_of_mem ha))))
    obtain ⟨h₁, hsc₁⟩ := hneeds (r.enter d) r₁ hs hsc (bind_eq_ok.mpr ⟨_, r₀, hti, hinit⟩)
    have hann' : Passes m top ((m.decl d).ann.map .expr) ds ds (exprs visit (m.decl d).ann) :=
      passes_exprs hv _ fun a ha => hpart _ (List.mem_append_right _ (List.mem_map_of_mem ha))
    obtain ⟨h₂, hsc₂⟩ := hann' (r₁.leave d) r₂ h₁.same hsc₁ hann
    have hact : r₁.active = d :: r.active := h₁.active
    have hentered : ∀ c, r₁.Entered c → r₂.Entered c := fun c hc =>
      h₂.entered ((entered_leave hact c).mpr hc)
    have hd₂ : d ∈ r₂.order := h₂.order d (Array.mem_push.mpr (.inr rfl))
    have hmet : ∀ s ∈ m.uses (.decl d), Met m top r₂ s := by
      intro s hm
      cases List.mem_append.mp hm
      case inl hm => exact (h₁.met s hm).mono h₂.stays hentered
      case inr hm => exact h₂.met s hm
    have hdn : d ∉ r.order := fun ho => by simp [ho] at hn
    refine ⟨⟨h₂.same, ?_, ?_, fun e he => h₂.stays e (h₁.stays e he), ?_, ?_, fun e => ?_⟩, hsc₂⟩
    · rw [h₂.active]
      simp [Resolution.leave, hact]
    · exact fun c hc => h₂.order c (Array.mem_push.mpr (.inl (h₁.order c hc)))
    · rw [List.forall_mem_singleton]
      exact .decl (.inr hd₂)
    · intro c hc hcn s hm
      by_cases hc' : c ∈ (r₁.leave d).order
      · cases Array.mem_push.mp hc'
        case inl hc₁ => exact (h₁.new c hc₁ hcn s hm).mono h₂.stays hentered
        case inr e => exact hmet s (e ▸ hm)
      · exact h₂.new c hc hc' s hm
    · -- What was set is in this declaration, or in one that joined the order meanwhile.
      have own : ∀ t ∈ m.uses (.decl d), Inner m t (.expr e) →
          ∃ c ∈ r₂.order, c ∉ r.order ∧ ∃ t ∈ m.uses (.decl c), Inner m t (.expr e) :=
        fun t hm hi => ⟨d, hd₂, hdn, t, hm, hi⟩
      obtain hk₂ | ⟨t, hm, hi⟩ | ⟨c, hc, hcn, hi⟩ := h₂.changed e
      · obtain hk₁ | ⟨t, hm, hi⟩ | ⟨c, hc, hcn, hi⟩ := h₁.changed e
        · exact .inl (hk₂.trans hk₁)
        · exact .inr (.inr (own t (List.mem_append_left _ hm) hi))
        · exact .inr (.inr ⟨c, h₂.order c (Array.mem_push.mpr (.inl hc)), hcn, hi⟩)
      · exact .inr (.inr (own t (List.mem_append_right _ hm) hi))
      · refine .inr (.inr ⟨c, hc, fun ho => hcn (Array.mem_push.mpr (.inl (h₁.order c ho))), hi⟩)

include ht

theorem lexes_site : Lexes m top (site visit) := by
  intro s ds hd
  cases s
  case expr e => exact passes_expr ht hv hd
  case typeInst t => exact passes_typeInst hv hd
  case decl d => exact passes_decl hv hd

omit hv in
theorem lexes_walk (fuel : Nat) : Lexes m top (walk fuel) := by
  induction fuel with
  | zero => exact fun _ _ _ _ _ _ _ hx => (throw_ne_ok.mp hx).elim
  | succ fuel ih => exact lexes_site ht ih

omit hv in
theorem passes_resolve (ds : List DeclId) (hd : ∀ c ∈ ds, m.Visible c s) : Passes m top [s] ds ds (resolve s) :=
  fun r => lexes_walk ht r.model.walkFuel s ds hd r

end Sites
end Resolve
end Parvar
