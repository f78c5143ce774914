import Parvar.Proofs.Resolve.Steps

/-!
Resolution keeps its invariant. Each function of the walk fulfils the contract of its node if the
visits to the parts fulfil theirs, and so, by induction on the depth, does the whole walk.
-/

namespace Parvar.Resolve

variable {m : Model} {roots : List Site} {visit : Visit} {r r₁ r₂ : Resolution} {d : DeclId}
  {e : ExprId} {ws us : List Site} {ds : List DeclId}

-- A declaration in scope is entered from wherever its name stands.
structure Visits (m : Model) (roots : List Site) (visit : Visit) : Prop where
  walks : ∀ s, Walks m roots [s] [s] [] (visit s)
  enters : ∀ d r r', Inv m roots r → r.InScope d → ¬r.Entered d → visit (.decl d) r = .ok () r' →
    Resolved m roots r [] [] [] r' ∧ d ∈ r'.order

section Done

-- A node is done if what it uses is done and the node itself is.
theorem Done.of_uses {s : Site} (hs : ∀ c ∈ m.uses s, Done m r c) (hd : ∀ d, s = .decl d → d ∈ r.order)
    (he : ∀ e, s = .expr e → ∀ name b, r.model.kind e = .ident name b →
      ∃ d ∈ r.order.toList, b = some d) : Done m r s where
  bound c hc name b hk := by
    cases Relation.ReflTransGen.cases_head hc
    case inl e => exact he c e name b hk
    case inr hp =>
      have ⟨_, hp, hpc⟩ := hp
      exact (hs _ hp).bound c hpc name b hk
  decls c hc := by
    cases Relation.ReflTransGen.cases_head hc
    case inl e => exact hd c e
    case inr hp =>
      have ⟨_, hp, hpc⟩ := hp
      exact (hs _ hp).decls c hpc

theorem Done.setKind {s : Site} (h : Done m r s) {k : ExprKind}
    (hk : ∀ name b, k = .ident name b → ∃ d ∈ r.order.toList, b = some d) :
    Done m { r with model := r.model.setKind e k } s where
  decls := h.decls
  bound c hc name b hb := by
    by_cases hce : c = e
    · subst hce
      cases r.model.kind_setKind c k
      case inl hs => exact hk name b (hs ▸ hb)
      case inr hs => exact h.bound c hc name b (hs.1 ▸ hb)
    · exact h.bound c hc name b (Model.kind_setKind_ne hce k ▸ hb)

end Done

section Scope

-- Names that came into scope leave it again.
theorem Walks.close {x y : ResolveM Unit} (hx : Walks m roots ws us ds x)
    (hy : ∀ r, m.Alike r.model → ∀ sc, r.scope = (ds.map fun d => ((m.decl d).name, d)).reverse ++ sc →
      y r = .ok () { r with scope := sc }) :
    Walks m roots ws us [] (x >>= fun _ => y) := by
  intro r r₂ hi hr ho hxy
  have ⟨_, r₁, hrx, hry⟩ := bind_eq_ok.mp hxy
  have h₁ := hx r r₁ hi hr ho hrx
  rw [hy r₁ h₁.inv.alike r.scope h₁.walked.scope] at hry
  cases hry
  refine ⟨h₁.inv.withScope fun name d hd => ?_, h₁.active, ?_, fun u hu => ?_⟩
  · have hd := hi.scope d ⟨name, hd⟩
    exact ⟨hd.1, h₁.walked.open_mono h₁.active hd.2⟩
  · exact { h₁.walked with scope := rfl, pushed := by simp }
  · exact ⟨(h₁.done u hu).bound, (h₁.done u hu).decls⟩

theorem foldl_pop_named {ds' : List DeclId} {sc : List (String × DeclId)} (ha : m.Alike r.model)
    (hp : ds'.Perm ds) (hs : r.scope = (ds.map fun d => ((m.decl d).name, d)).reverse ++ sc) :
    ds'.foldl Resolution.pop r = { r with scope := sc } := by
  refine foldl_pop hs ?_
  simp only [ha.decl_eq, List.map_reverse, List.map_map]
  exact (hp.map _).trans (List.reverse_perm _).symm

theorem forM_decls_pop (gs : List Generator) (r : Resolution) :
    (gs.forM fun g => g.decls.forM ResolveM.pop) r =
      .ok () ((gs.flatMap (·.decls)).foldl Resolution.pop r) := by
  induction gs generalizing r with
  | nil => rfl
  | cons g gs ih =>
    rw [List.flatMap_cons, List.foldl_append]
    exact bind_eq_ok.mpr ⟨(), _, forM_pop g.decls r, ih _⟩

end Scope

theorem forM_leaveItem (items : List LetItem) (r : Resolution) :
    items.forM leaveItem r = .ok () ((items.flatMap LetItem.decls).foldl Resolution.pop r) := by
  induction items generalizing r with
  | nil => rfl
  | cons item items ih =>
    cases item
    case decl d => exact ih (r.pop d)
    case constraint => exact ih r

section Parts

variable (h : m.SinglePlace roots) (hv : Visits m roots visit)

include h hv

theorem walks_exprs (es : List ExprId) :
    Walks m roots (es.map .expr) (es.map .expr) [] (exprs visit es) :=
  walks_each h es fun e _ => hv.walks (.expr e)

theorem walks_generators (gs : List Generator) :
    Walks m roots (gs.flatMap Generator.parts) (gs.flatMap Generator.uses) (gs.flatMap (·.decls))
      (gs.forM fun g => do visit (.expr g.source); g.decls.forM ResolveM.push) := by
  refine walks_forM h (fun g _ => g.uses_subset) fun g _ => ?_
  exact Walks.seq h (List.Subset.refl _) (hv.walks (.expr g.source)) (walks_forM_push g.decls)

theorem walks_comp (c : Comprehension) :
    Walks m roots ((ExprKind.comp c).parts Generator.parts) ((ExprKind.comp c).parts Generator.uses) []
      (comp visit c) := by
  have hb := Walks.seq h (List.Subset.refl _) (walks_exprs h hv c.guard.toList)
    (hv.walks (.expr c.body))
  have hu : c.generators.flatMap Generator.uses ⊆ c.generators.flatMap Generator.parts := by
    intro s hs
    have ⟨g, hg, hs⟩ := List.mem_flatMap.mp hs
    exact List.mem_flatMap.mpr ⟨g, hg, g.uses_subset hs⟩
  have hw := Walks.seq h hu (walks_generators h hv c.generators) hb
  rw [List.append_nil, List.append_nil] at hw
  have hc := Walks.close hw fun r ha sc hsc =>
    (forM_decls_pop c.generators r).trans (by rw [foldl_pop_named ha (.refl _) hsc])
  simpa only [comp, ExprKind.parts, bind_assoc, List.append_assoc] using hc

omit h in
theorem walks_letItem (item : LetItem) :
    Walks m roots [item.site] [item.site] item.decls (letItem visit item) := by
  cases item
  case constraint e => exact hv.walks (.expr e)
  case decl d =>
    have hd : ∀ c ∈ [d], Site.decl c ∈ [Site.decl d] := by simp
    simpa [letItem, LetItem.site, LetItem.decls] using (hv.walks (.decl d)).pushed hd

end Parts

section Nodes

-- What is achieved before the annotations of an expression, its own kind included.
structure Binds (m : Model) (roots : List Site) (r : Resolution) (e : ExprId) (k : ExprKind)
    (r' : Resolution) : Prop where
  inv : Inv m roots r'
  active : r'.active = r.active
  walked : Walked m roots r [e] (k.parts Generator.parts) [] r'
  done : ∀ u ∈ k.parts Generator.uses, Done m r' u
  own : ∀ name b, r'.model.kind e = .ident name b → ∃ d ∈ r'.order.toList, b = some d

variable {k : ExprKind}

theorem Walked.with_own (hw : Walked m roots r [] ws ds r₁) : Walked m roots r [e] ws ds r₁ :=
  { hw with kept := fun c => (hw.kept c).imp_right fun hc => .inr (hc.resolve_left List.not_mem_nil) }

theorem Walked.setKind (hw : Walked m roots r [] ws ds r₁) :
    Walked m roots r [e] ws ds { r₁ with model := r₁.model.setKind e k } :=
  { hw with
    kept := fun c => by
      by_cases hc : c = e
      · exact .inr (.inl (List.mem_singleton.mpr hc))
      · refine (hw.kept c).imp (Model.kind_setKind_ne hc k).trans fun ho => .inr ?_
        exact ho.resolve_left List.not_mem_nil }

theorem Binds.of_resolved (hk : (m.kind e).name? = none)
    (hr : Resolved m roots r (k.parts Generator.parts) (k.parts Generator.uses) [] r₁) :
    Binds m roots r e k r₁ where
  inv := hr.inv
  active := hr.active
  walked := hr.walked.with_own
  done := hr.done
  own name b hb := by
    have hn := (hr.inv.alike.kind e).name
    rw [hk, hb] at hn
    cases hn

-- A kind may be set that names nothing, or something in the order.
theorem Binds.setKind {k' : ExprKind} (ho : Open m roots r₁ (.expr e))
    (hr : Resolved m roots r (k.parts Generator.parts) (k.parts Generator.uses) [] r₁)
    (hk : (r₁.model.kind e).Alike k')
    (hb : ∀ name b, k' = .ident name b → ∃ d ∈ r₁.order.toList, b = some d) :
    Binds m roots r e k { r₁ with model := r₁.model.setKind e k' } where
  inv := hr.inv.setKind ho hk
  active := hr.active
  walked := hr.walked.setKind
  done u hu := (hr.done u hu).setKind hb
  own name b h := by
    cases r₁.model.kind_setKind e k'
    case inl hs => exact hb name b (hs ▸ h)
    case inr hs => cases hs.2 ▸ hs.1 ▸ h

theorem lookup_eq_ok {name : String} {span : Span} (hx : ResolveM.lookup name span r = .ok d r₁) :
    r₁ = r ∧ (name, d) ∈ r.scope := by
  rw [ResolveM.lookup, get_bind] at hx
  cases hl : r.lookup? name with
  | none => simp [hl, ResolveM.fail] at hx
  | some c =>
    have ⟨hc, hr⟩ : c = d ∧ r = r₁ := by simpa [hl] using hx
    have ⟨l₁, l₂, hs, _⟩ := List.lookup_eq_some_iff.mp hl
    exact ⟨hr.symm, by simp [hs, hc]⟩

theorem changeModel_eq_ok {f : Model → Model} (hx : ResolveM.changeModel f r = .ok () r₁) :
    { r with model := f r.model } = r₁ := by
  simpa [ResolveM.changeModel, modify, modifyGet, MonadStateOf.modifyGet, EStateM.modifyGet] using hx

theorem Resolved.refl (hi : Inv m roots r) : Resolved m roots r [] [] [] r :=
  ⟨hi, rfl, .refl r, by simp⟩

variable (hv : Visits m roots visit)

include hv

-- A declaration that was referred to is in the order.
theorem refer_resolved {name : String} {span : Span} (hi : Inv m roots r) (hd : r.InScope d)
    (hx : refer visit d name span r = .ok () r₁) :
    Resolved m roots r [] [] [] r₁ ∧ d ∈ r₁.order := by
  rw [refer, get_bind] at hx
  split at hx
  · next ho =>
    obtain ⟨-, rfl⟩ := pure_eq_ok.mp hx
    exact ⟨.refl hi, by simpa using ho⟩
  · next ho =>
    split at hx
    · simp [ResolveM.fail] at hx
    · next ha => exact hv.enters d _ _ hi hd (not_or.mpr ⟨ha, by simpa using ho⟩) hx

theorem ident_binds {name : String} {b : Option DeclId} {span : Span} (hi : Inv m roots r)
    (ho : Open m roots r (.expr e)) (hk : r.model.kind e = .ident name b)
    (hx : ident visit e name span r = .ok () r₂) : Binds m roots r e (.ident name b) r₂ := by
  simp only [ident, bind_eq_ok] at hx
  obtain ⟨d, _, hl, _, r₁, hrefer, hset⟩ := hx
  obtain ⟨rfl, hd⟩ := lookup_eq_ok hl
  obtain ⟨h₁, hdo⟩ := refer_resolved hv hi ⟨name, hd⟩ hrefer
  obtain rfl := changeModel_eq_ok hset
  refine .setKind (h₁.walked.open_mono h₁.active ho) h₁ ?_ ?_
  · have hk' : ExprKind.Alike (.ident name b) (.ident name (some d)) := ⟨fun _ => .refl _, rfl⟩
    exact (h₁.inv.alike.kind e).symm.trans ((hi.alike.kind e).trans (hk ▸ hk'))
  · rintro _ _ ⟨⟩
    exact ⟨d, Array.mem_toList_iff.mpr hdo, rfl⟩

variable (h : m.SinglePlace roots)

include h

theorem letIn_binds {l : Let} (hi : Inv m roots r)
    (hr : Ready m roots r ((ExprKind.letIn l).parts Generator.parts))
    (ho : ∀ w ∈ (ExprKind.letIn l).parts Generator.parts, Open m roots r w)
    (hoe : Open m roots r (.expr e)) (hk : r.model.kind e = .letIn l)
    (hx : letIn visit e l r = .ok () r₂) : Binds m roots r e (.letIn l) r₂ := by
  have hitems : Walks m roots (l.items.map LetItem.site) (l.items.map LetItem.site)
      (l.items.flatMap LetItem.decls) (l.items.forM (letItem visit)) := by
    rw [List.map_eq_flatMap]
    exact walks_forM h (fun _ _ => List.Subset.refl _) fun item _ => walks_letItem hv item
  have hw := Walks.seq h (List.Subset.refl _) hitems (hv.walks (.expr l.body))
  rw [List.append_nil] at hw
  -- The items leave the scope in another order than they came into it.
  have hsort : ∀ r, (sortLetItems r l.items).Perm l.items := fun r => List.mergeSort_perm _ _
  have hc := Walks.close (y := get >>= fun r => (sortLetItems r l.items).forM leaveItem) hw
    fun r ha sc hsc => by
      rw [get_bind, forM_leaveItem, foldl_pop_named ha ((hsort r).flatMap_right _) hsc]
  have ⟨_, r₀, hx₀, hx⟩ := bind_eq_ok.mp hx
  have ⟨_, r₁, hx₁, hx⟩ := bind_eq_ok.mp hx
  rw [get_bind] at hx
  have ⟨_, r₃, hx₃, hset⟩ := bind_eq_ok.mp hx
  have h₃ := hc r r₃ hi hr ho
    (bind_eq_ok.mpr ⟨_, r₁, bind_eq_ok.mpr ⟨_, r₀, hx₀, hx₁⟩, hx₃⟩)
  obtain rfl := changeModel_eq_ok hset
  refine .setKind (h₃.walked.open_mono h₃.active hoe) h₃ ?_ (by rintro _ _ ⟨⟩)
  refine (h₃.inv.alike.kind e).symm.trans ((hi.alike.kind e).trans ?_)
  rw [hk]
  exact ⟨fun gen => ((hsort r₁).symm.map _).append_right _, rfl⟩

theorem node_binds {k : ExprKind} {span : Span} (hi : Inv m roots r)
    (hr : Ready m roots r (k.parts Generator.parts))
    (ho : ∀ w ∈ k.parts Generator.parts, Open m roots r w) (hoe : Open m roots r (.expr e))
    (hk : r.model.kind e = k) (hx : node visit e span k r = .ok () r₂) :
    Binds m roots r e k r₂ := by
  have hn := (hi.alike.kind e).name
  have plain : (m.kind e).name? = none →
      Walks m roots (k.parts Generator.parts) (k.parts Generator.uses) [] (node visit e span k) →
      Binds m roots r e k r₂ := fun hn hw => .of_resolved hn (hw r r₂ hi hr ho hx)
  rw [hk] at hn
  cases k
  case ident name b => exact ident_binds hv hi hoe hk hx
  case letIn l => exact letIn_binds hv h hi hr ho hoe hk hx
  case setLit elems | arrayLit elems _ | call _ elems _ => exact plain hn (walks_exprs h hv elems)
  case access array indices => exact plain hn (walks_exprs h hv (array :: indices))
  case bin _ lhs rhs _ => exact plain hn (walks_exprs h hv [lhs, rhs])
  case un _ arg _ => exact plain hn (hv.walks (.expr arg))
  case comp c => exact plain hn (walks_comp h hv c)
  case ite branches otherwise =>
    have hb : Walks m roots (branches.flatMap fun b => [b.1, b.2].map .expr)
        (branches.flatMap fun b => [b.1, b.2].map .expr) (branches.flatMap fun _ => [])
        (branches.forM fun b => exprs visit [b.1, b.2]) :=
      walks_forM h (fun _ _ => List.Subset.refl _) fun b _ => walks_exprs h hv [b.1, b.2]
    rw [List.flatMap_eq_nil_iff.mpr fun _ _ => rfl] at hb
    exact plain hn (Walks.seq h (List.Subset.refl _) hb (hv.walks (.expr otherwise)))
  all_goals exact plain hn walks_pure

end Nodes

section Sites

-- What is achieved when a declaration has been left, before its annotations.
structure Leaves (m : Model) (roots : List Site) (r : Resolution) (d : DeclId) (r' : Resolution) : Prop where
  inv : Inv m roots r'
  active : r'.active = r.active
  walked : Walked m roots (r.enter d) [] (m.needs d) [] r'
  done : ∀ s ∈ m.needs d, Done m r' s
  opened : ∀ s ∈ (m.decl d).ann.map Site.expr, Open m roots r' s

theorem Walked.of_parts {s : Site} {own : List ExprId} (hs : m.Reached roots s)
    (hp : ∀ w ∈ ws, w ∈ m.parts s) (ho : ∀ e ∈ own, s = .expr e)
    (hw : Walked m roots r own ws [] r₁) : Walked m roots r [] [s] [] r₁ where
  scope := hw.scope
  pushed := by simp
  order := hw.order
  mono := hw.mono
  entered d hd := (hw.entered d hd).imp_right (.of_parts hs trivial · hp)
  kept e := by
    refine (hw.kept e).imp_right fun hk => .inr ?_
    cases hk
    case inl he => exact .inl ⟨s, List.mem_singleton_self s, ho e he ▸ .refl⟩
    case inr ht => exact .of_parts hs trivial ht hp

theorem Walked.of_enter (hd : m.Reached roots (.decl d)) (hp : ∀ w ∈ ws, w ∈ m.parts (.decl d))
    (hw : Walked m roots (r.enter d) [] ws [] r₁) : Walked m roots r [] [.decl d] [] r₁ := by
  have hmono : ∀ c, r.Entered c → (r.enter d).Entered c := fun c => .imp_left (List.mem_cons_of_mem _)
  have hterr : ∀ n : Site, n.IsNode → Territory m roots (r.enter d) ws n →
      Territory m roots r [.decl d] n := fun n hn ht =>
    (ht.of_parts hd hn hp).imp_right fun ⟨c, hc, he, hb⟩ => ⟨c, hc, fun h => he (hmono c h), hb⟩
  refine ⟨hw.scope, by simp, hw.order, fun c hc => hw.mono c (hmono c hc), fun c hc => ?_,
    fun e => (hw.kept e).imp_right fun hk => .inr (hterr _ trivial (hk.resolve_left List.not_mem_nil))⟩
  cases hw.entered c hc
  case inr ht => exact .inr (hterr _ trivial ht)
  case inl he =>
    have hc : c = d ∨ r.Entered c := by
      simpa [Resolution.Entered, Resolution.enter, or_assoc] using he
    cases hc
    case inl e => exact .inr (.inl ⟨_, List.mem_singleton_self _, e ▸ .refl⟩)
    case inr he => exact .inl he

variable (h : m.SinglePlace roots) (hv : Visits m roots visit)

include h hv

theorem walks_expr (e : ExprId) : Walks m roots [.expr e] [.expr e] [] (expr visit e) := by
  intro r r₂ hi hr ho hx
  have he := List.mem_singleton_self (Site.expr e)
  have hs := hr.reached _ he
  rw [expr, get_bind] at hx
  have ⟨_, r₁, hnode, hann⟩ := bind_eq_ok.mp hx
  have hperm : (m.parts (.expr e)).Perm
      ((r.model.kind e).parts Generator.parts ++ (r.model.expr e).ann.map Site.expr) := by
    rw [hi.alike.ann e]
    exact ((hi.alike.kind e).parts _).append_right _
  have hmem : ∀ w ∈ (r.model.kind e).parts Generator.parts ++ (r.model.expr e).ann.map Site.expr,
      w ∈ m.parts (.expr e) := fun w hw => hperm.mem_iff.mpr hw
  have hopen : ∀ w ∈ (r.model.kind e).parts Generator.parts ++ (r.model.expr e).ann.map Site.expr,
      Open m roots r w := fun w hw => (ho _ he).part h hs (by simp) (hmem w hw)
  have hready := (hr.parts h (by simp)).perm hperm
  have h₁ := node_binds hv h hi hready.left (fun w hw => hopen w (List.mem_append_left _ hw))
    (ho _ he) rfl hnode
  have h₂ := walks_exprs h hv _ r₁ r₂ h₁.inv (hready.after h h₁.walked)
    (fun w hw => h₁.walked.open_mono h₁.active (hopen w (List.mem_append_right _ hw))) hann
  refine ⟨h₂.inv, h₂.active.trans h₁.active, ?_, ?_⟩
  · exact (h₁.walked.trans h₂.walked).of_parts hs hmem (by simp)
  · rw [List.forall_mem_singleton]
    refine .of_uses (fun c hc => ?_) (by simp) ?_
    · cases List.mem_append.mp hc
      case inl hc =>
        have hc := ((hi.alike.kind e).parts _).mem_iff.mp hc
        exact (h₁.done c hc).after h hready h₁.walked h₂.walked (ExprKind.parts_subset _ hc)
      case inr hc => exact h₂.done c (hi.alike.ann e ▸ hc)
    · rintro _ ⟨⟩ name b hb
      -- The annotations do not touch the expression that they are on.
      obtain hk | hk | ⟨w, hw, hbe⟩ | ⟨d, hd, hn, hbe⟩ := h₂.walked.kept e
      · have ⟨d, hd, hb⟩ := h₁.own name b (hk ▸ hb)
        exact ⟨d, h₂.walked.order.subset hd, hb⟩
      · cases hk
      · have hp : m.Part roots (.expr e) w :=
          ⟨hs, hmem w (List.mem_append_right _ hw), hbe.holds (.of_isNode trivial)⟩
        exact (h.not_below_part hp hbe).elim
      · have ⟨c, hc, hce⟩ := hbe.cases_head.resolve_left (by simp)
        exact (hn (h₁.walked.mono d ((ho _ he) d c hc hce).1)).elim

theorem walks_typeInst (t : TypeInstId) :
    Walks m roots [.typeInst t] [.typeInst t] [] (typeInst visit t) := by
  intro r r₁ hi hr ho hx
  have ht := List.mem_singleton_self (Site.typeInst t)
  have hs := hr.reached _ ht
  rw [typeInst, get_bind, hi.alike.typeInst_eq] at hx
  have hw := Walks.seq h (List.Subset.refl _)
    (walks_each h (m.typeInst t).ranges fun t _ => hv.walks (.typeInst t)) (walks_exprs h hv (m.typeInst t).domain.toList)
  have h₁ := hw r r₁ hi (hr.parts h (by simp)) (fun w hw => (ho _ ht).part h hs (by simp) hw) hx
  refine ⟨h₁.inv, h₁.active, h₁.walked.of_parts hs (fun _ => id) (by simp), ?_⟩
  rw [List.forall_mem_singleton]
  exact .of_uses h₁.done (by simp) (by simp)

omit hv in
-- Leaving a declaration changes what is active, but not what has been entered.
theorem Resolved.leave (hi : Inv m roots r) (hd : m.Reached roots (.decl d))
    (ho : Open m roots r (.decl d)) (hn : ¬r.Entered d)
    (h₁ : Resolved m roots (r.enter d) (m.needs d) (m.needs d) [] r₁) : Leaves m roots r d (r₁.leave d) := by
  have hact : r₁.active = d :: r.active := h₁.active
  have hleave : (r₁.leave d).active = r.active := by simp [Resolution.leave, hact]
  have hsub : ∀ c ∈ r₁.order, c ∈ (r₁.leave d).order := fun c hc => Array.mem_push.mpr (.inl hc)
  have hod : Open m roots (r₁.leave d) (.decl d) :=
    ho.mono hleave fun c hc => hsub c (h₁.walked.order_subset c hc)
  refine ⟨?_, hleave, ?_, fun s hs => ⟨fun e he name b hb => ?_, fun c hc => ?_⟩, fun s hs => ?_⟩
  · exact hi.leave hn h₁.inv hact h₁.walked.scope h₁.walked.order_subset fun s hs => (h₁.done s hs).bound
  · exact {
      scope := h₁.walked.scope
      pushed := by simp
      order := h₁.walked.order.trans (by simp [Resolution.leave])
      mono := fun c hc => (entered_leave hact c).mpr (h₁.walked.mono c hc)
      entered := fun c hc => h₁.walked.entered c ((entered_leave hact c).mp hc)
      kept := h₁.walked.kept }
  · obtain ⟨c, hc, hb⟩ := (h₁.done s hs).bound e he name b hb
    exact ⟨c, Array.mem_toList_iff.mpr (hsub c (Array.mem_toList_iff.mp hc)), hb⟩
  · exact hsub c ((h₁.done s hs).decls c hc)
  · exact hod.ann h hd hs (Array.mem_push.mpr (.inr rfl))

theorem walks_needs (d : DeclId) : Walks m roots (m.needs d) (m.needs d) []
    (visit (.typeInst (m.decl d).ti) >>= fun _ => exprs visit (m.decl d).init.toList) :=
  Walks.seq h (List.Subset.refl _) (hv.walks (.typeInst (m.decl d).ti)) (walks_exprs h hv (m.decl d).init.toList)

-- A declaration joins the order between what it needs and its annotations.
theorem decl_resolved (hi : Inv m roots r) (hd : m.Reached roots (.decl d))
    (ho : Open m roots r (.decl d)) (hn : ¬r.Entered d) (hx : decl visit d r = .ok () r₂) :
    Resolved m roots r [.decl d] [.decl d] [] r₂ := by
  rw [decl, get_bind, if_neg (by simpa [Resolution.Entered] using hn), hi.alike.decl_eq] at hx
  obtain ⟨_, r₀, henter, hx⟩ := bind_eq_ok.mp hx
  cases henter
  obtain ⟨_, r₀, hti, hx⟩ := bind_eq_ok.mp hx
  obtain ⟨_, r₁, hinit, hx⟩ := bind_eq_ok.mp hx
  obtain ⟨_, r₀', hleave, hann⟩ := bind_eq_ok.mp hx
  cases hleave
  have hready := Ready.decl h hi hd ho hn
  have h₁ := (walks_needs h hv d _ r₁ (hi.enter hd ho hn) hready.left (fun s hs => ho.needs h hd hs)
    (bind_eq_ok.mpr ⟨_, r₀, hti, hinit⟩)).leave h hi hd ho hn
  have h₂ := walks_exprs h hv (m.decl d).ann (r₁.leave d) r₂ h₁.inv (hready.after h h₁.walked) h₁.opened hann
  refine ⟨h₂.inv, h₂.active.trans h₁.active, (h₁.walked.trans h₂.walked).of_enter hd fun _ => id, ?_⟩
  rw [List.forall_mem_singleton]
  refine .of_uses (fun s hs => ?_) ?_ (by simp)
  · cases List.mem_append.mp hs
    case inl hs => exact (h₁.done s hs).after h hready h₁.walked h₂.walked hs
    case inr hs => exact h₂.done s hs
  · rintro _ ⟨⟩
    exact h₂.walked.order_subset d (Array.mem_push.mpr (.inr rfl))

theorem visits_site : Visits m roots (site visit) where
  walks s := by
    cases s
    case expr e => exact walks_expr h hv e
    case typeInst t => exact walks_typeInst h hv t
    case decl d =>
      intro r r' hi hr ho hx
      have hd := List.mem_singleton_self (Site.decl d)
      exact decl_resolved h hv hi (hr.reached _ hd) (ho _ hd) (hr.fresh _ hd d .refl).1 hx
  enters d r r' hi hs hn hx := by
    have hr := decl_resolved h hv hi (hi.scope d hs).1 (hi.scope d hs).2 hn hx
    have hterr : ∀ n, Territory m roots r [.decl d] n → Territory m roots r [] n := by
      rintro n (⟨w, hw, hb⟩ | ht)
      · exact .inr ⟨d, hs, hn, List.mem_singleton.mp hw ▸ hb⟩
      · exact .inr ht
    refine ⟨⟨hr.inv, hr.active, ?_, by simp⟩, (hr.done _ (List.mem_singleton_self _)).decls d .refl⟩
    exact { hr.walked with
      pushed := by simp
      entered := fun c hc => (hr.walked.entered c hc).imp_right (hterr _)
      kept := fun e => (hr.walked.kept e).imp_right (.imp_right (hterr _)) }

omit hv in
theorem visits_walk (fuel : Nat) : Visits m roots (walk fuel) := by
  induction fuel with
  | zero =>
    exact ⟨fun s r r' _ _ _ hx => (throw_ne_ok.mp hx).elim, fun d r r' _ _ _ hx => (throw_ne_ok.mp hx).elim⟩
  | succ fuel ih => exact visits_site h ih

end Sites
end Parvar.Resolve
