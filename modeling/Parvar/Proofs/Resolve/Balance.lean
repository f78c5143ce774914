import Parvar.Proofs.Resolve.Walk

/-!
What a run of the resolver leaves behind where it succeeds, in every model and from every state:
whatever came into scope on the way has left it, though not in the order in which it came, and the
order has only grown at its end.
-/

namespace Parvar

namespace Resolution

variable {r r₁ : Resolution} {d : DeclId}

-- The declarations of a name that are in scope, the innermost first.
def stack (r : Resolution) (name : String) : List DeclId := (r.scope.filter (·.1 = name)).map (·.2)

theorem lookup_eq_head_stack (r : Resolution) (name : String) : r.lookup? name = (r.stack name).head? := by
  rw [lookup?, stack]
  generalize r.scope = scope
  induction scope with
  | nil => rfl
  | cons a scope ih =>
    obtain ⟨n, d⟩ := a
    by_cases hn : n = name
    · simp [hn]
    · have hb : (name == n) = false := by simpa using Ne.symm hn
      simp [List.lookup_cons, hn, hb, ih]

theorem position_of_prefix {i : Nat} (h : r.order.toList <+: r₁.order.toList) (hd : r.position? d = some i) :
    r₁.position? d = some i := by
  rw [position?, ← Array.idxOf?_toList] at hd ⊢
  exact h.findIdx?_eq_some hd

end Resolution

namespace Resolve

variable {r r₁ r₂ : Resolution} {d : DeclId} {e : ExprId} {ds ds₁ ds₂ : List DeclId} {x y : ResolveM Unit}

-- From `r` to `r'` the declarations `ds` came into scope, and others joined the order after those in it.
structure Gains (ds : List DeclId) (r r' : Resolution) : Prop where
  decls : r'.model.decls = r.model.decls
  scope : r'.scope = (ds.map fun d => ((r.model.decl d).name, d)).reverse ++ r.scope
  order : r.order.toList <+: r'.order.toList

def Balances (ds : List DeclId) (x : ResolveM Unit) : Prop := ∀ r r', x r = .ok () r' → Gains ds r r'

namespace Gains

theorem refl (r : Resolution) : Gains [] r r := ⟨rfl, rfl, List.prefix_rfl⟩

theorem decl_eq (h : Gains ds r r₁) (d : DeclId) : r₁.model.decl d = r.model.decl d := by
  simp [Model.decl, h.decls]

theorem trans (h₁ : Gains ds₁ r r₁) (h₂ : Gains ds₂ r₁ r₂) : Gains (ds₁ ++ ds₂) r r₂ where
  decls := h₂.decls.trans h₁.decls
  scope := by simp [h₂.scope, h₁.scope, h₁.decl_eq]
  order := h₁.order.trans h₂.order

-- The names leave the scope in any order; each time the innermost declaration of a name goes.
theorem foldl_pop (h : Gains ds r r₁) {ds' : List DeclId} (hp : ds'.Perm ds) :
    Gains [] r (ds'.foldl Resolution.pop r₁) := by
  have hnames : (ds'.map fun d => (r₁.model.decl d).name).Perm
      ((ds.map fun d => ((r.model.decl d).name, d)).reverse.map (·.1)) := by
    simp only [h.decl_eq, List.map_reverse, List.map_map]
    exact (hp.map _).trans (List.reverse_perm _).symm
  rw [Resolve.foldl_pop h.scope hnames]
  exact ⟨h.decls, rfl, h.order⟩

theorem setKind (h : Gains ds r r₁) (e : ExprId) (k : ExprKind) :
    Gains ds r { r₁ with model := r₁.model.setKind e k } :=
  ⟨h.decls, h.scope, h.order⟩

end Gains

namespace Balances

theorem pure : Balances [] (pure ()) := by
  intro r r' hx
  obtain ⟨-, rfl⟩ := pure_eq_ok.mp hx
  exact .refl r

theorem fail (c : TypeError.Cause) (span : Span) : Balances ds (ResolveM.fail c span) := by
  intro r r' hx
  exact (throw_ne_ok.mp hx).elim

theorem modify {f : Resolution → Resolution} (h : ∀ r, Gains [] r (f r)) : Balances [] (modify f) := by
  rintro r _ ⟨⟩
  exact h r

theorem get_bind {f : Resolution → ResolveM Unit} (h : ∀ r, Balances ds (f r)) : Balances ds (get >>= f) :=
  fun r => h r r

theorem seq (hx : Balances ds₁ x) (hy : Balances ds₂ y) : Balances (ds₁ ++ ds₂) (x >>= fun _ => y) := by
  intro r r₂ hxy
  obtain ⟨_, r₁, hrx, hry⟩ := bind_eq_ok.mp hxy
  exact (hx r r₁ hrx).trans (hy r₁ r₂ hry)

theorem forM {α : Type} {f : α → ResolveM Unit} {ds : α → List DeclId} (as : List α)
    (hf : ∀ a, Balances (ds a) (f a)) : Balances (as.flatMap ds) (as.forM f) := by
  induction as with
  | nil => exact pure
  | cons a as ih => exact seq (hf a) ih

theorem each {α : Type} {f : α → ResolveM Unit} (as : List α) (hf : ∀ a, Balances [] (f a)) :
    Balances [] (as.forM f) := by
  rw [← List.flatMap_eq_nil_iff.mpr fun a (_ : a ∈ as) => rfl]
  exact forM as hf

theorem forM_push (ds : List DeclId) : Balances ds (ds.forM ResolveM.push) := by
  intro r r' hx
  rw [Resolve.forM_push, foldl_push] at hx
  cases hx
  exact ⟨rfl, rfl, List.prefix_rfl⟩

end Balances

section Nodes

variable {visit : Visit} (hv : ∀ s, Balances [] (visit s))

include hv

theorem balances_exprs (es : List ExprId) : Balances [] (exprs visit es) :=
  .each es fun _ => hv _

theorem balances_refer (d : DeclId) (name : String) (span : Span) : Balances [] (refer visit d name span) := by
  refine .get_bind fun r => ?_
  split
  · exact .pure
  · split
    · exact .fail _ _
    · exact hv _

theorem balances_ident (e : ExprId) (name : String) (span : Span) : Balances [] (ident visit e name span) := by
  intro r r₂ hx
  obtain ⟨d, r₀, hl, hx⟩ := bind_eq_ok.mp hx
  obtain ⟨_, r₁, hrefer, hset⟩ := bind_eq_ok.mp hx
  obtain ⟨rfl, -⟩ := lookup_eq_ok hl
  obtain rfl := changeModel_eq_ok hset
  exact (balances_refer hv d name span r₀ r₁ hrefer).setKind e _

theorem balances_comp (c : Comprehension) : Balances [] (comp visit c) := by
  have hgens : Balances (c.generators.flatMap (·.decls))
      (c.generators.forM fun g => do visit (.expr g.source); g.decls.forM ResolveM.push) :=
    .forM c.generators fun g => (hv (.expr g.source)).seq (.forM_push g.decls)
  intro r r₄ hx
  obtain ⟨_, r₁, hx₁, hx⟩ := bind_eq_ok.mp hx
  obtain ⟨_, r₂, hx₂, hx⟩ := bind_eq_ok.mp hx
  obtain ⟨_, r₃, hx₃, hx⟩ := bind_eq_ok.mp hx
  have h := (hgens r r₁ hx₁).trans ((balances_exprs hv _ r₁ r₂ hx₂).trans (hv _ r₂ r₃ hx₃))
  rw [forM_decls_pop] at hx
  cases hx
  exact h.foldl_pop (by simp)

theorem balances_letItem (item : LetItem) : Balances item.decls (letItem visit item) := by
  cases item with
  | decl d => exact (hv (.decl d)).seq (.forM_push [d])
  | constraint e => exact hv (.expr e)

theorem balances_letIn (e : ExprId) (l : Let) : Balances [] (letIn visit e l) := by
  intro r r₄ hx
  obtain ⟨_, r₁, hx₁, hx⟩ := bind_eq_ok.mp hx
  obtain ⟨_, r₂, hx₂, hx⟩ := bind_eq_ok.mp hx
  rw [Parvar.get_bind] at hx
  obtain ⟨_, r₃, hx₃, hset⟩ := bind_eq_ok.mp hx
  have h := (Balances.forM l.items (balances_letItem hv) r r₁ hx₁).trans (hv (.expr l.body) r₁ r₂ hx₂)
  have hsort : (sortLetItems r₂ l.items).Perm l.items := List.mergeSort_perm _ _
  rw [forM_leaveItem] at hx₃
  cases hx₃
  obtain rfl := changeModel_eq_ok hset
  have hleft := h.foldl_pop (by simpa using hsort.flatMap_right LetItem.decls)
  exact hleft.setKind e _

theorem balances_node (e : ExprId) (span : Span) (k : ExprKind) : Balances [] (node visit e span k) := by
  cases k
  case ident name b => exact balances_ident hv e name span
  case letIn l => exact balances_letIn hv e l
  case comp c => exact balances_comp hv c
  case un => exact hv _
  case ite branches otherwise =>
    exact .seq (.each branches fun b => balances_exprs hv [b.1, b.2]) (hv (.expr otherwise))
  case setLit | arrayLit | access | bin | call => exact balances_exprs hv _
  all_goals exact .pure

theorem balances_expr (e : ExprId) : Balances [] (expr visit e) :=
  .get_bind fun _ => (balances_node hv e _ _).seq (balances_exprs hv _)

theorem balances_typeInst (t : TypeInstId) : Balances [] (typeInst visit t) :=
  .get_bind fun r => .seq (.each (r.model.typeInst t).ranges fun _ => hv _) (balances_exprs hv _)

theorem balances_decl (d : DeclId) : Balances [] (decl visit d) := by
  have henter : ∀ r : Resolution, Gains [] r (r.enter d) := fun r => ⟨rfl, rfl, List.prefix_rfl⟩
  have hleave : ∀ r : Resolution, Gains [] r (r.leave d) := fun r =>
    ⟨rfl, rfl, by simp [Resolution.leave]⟩
  refine .get_bind fun r => ?_
  split
  · exact .pure
  · refine .seq (.modify henter) (.seq (hv _) (.seq (balances_exprs hv _) ?_))
    exact .seq (.modify hleave) (balances_exprs hv _)

theorem balances_site (s : Site) : Balances [] (site visit s) := by
  cases s with
  | expr e => exact balances_expr hv e
  | decl d => exact balances_decl hv d
  | typeInst t => exact balances_typeInst hv t

end Nodes

theorem balances_walk (fuel : Nat) (s : Site) : Balances [] (walk fuel s) := by
  induction fuel generalizing s with
  | zero => exact fun _ _ hx => (throw_ne_ok.mp hx).elim
  | succ fuel ih => exact balances_site ih s

end Resolve

-- After a run that succeeds, from whatever state and to whatever depth, every name stands for what it
-- stood for before, also outside of the innermost scope, and what was in the order is where it was.
theorem scopes_balanced {fuel : Nat} {s : Site} {r r' : Resolution} (h : Resolve.walk fuel s r = .ok () r') :
    (∀ name, r'.stack name = r.stack name) ∧ (∀ name, r'.lookup? name = r.lookup? name) ∧
    (∀ d i, r.position? d = some i → r'.position? d = some i) ∧ r.order.toList <+: r'.order.toList := by
  have hg := Resolve.balances_walk fuel s r r' h
  have hstack : ∀ name, r'.stack name = r.stack name := fun name => by
    rw [Resolution.stack, hg.scope]
    rfl
  refine ⟨hstack, fun name => ?_, fun d i => Resolution.position_of_prefix hg.order, hg.order⟩
  rw [Resolution.lookup_eq_head_stack, Resolution.lookup_eq_head_stack, hstack]

section Again

-- `let { int: x = x; int: x = 1 } in x` where the second `x` is in scope already, and a declaration `z`
-- was resolved before.
def againState : Resolution where
  model := {
    exprs := #[{ kind := .int 1 }, { kind := .ident "x" none }, { kind := .ident "x" none },
      { kind := .letIn ⟨[.decl ⟨0⟩, .decl ⟨1⟩], ⟨2⟩, []⟩ }]
    decls := #[{ name := "x", ti := ⟨0⟩, init := some ⟨1⟩ }, { name := "x", ti := ⟨1⟩, init := some ⟨0⟩ },
      { name := "z", ti := ⟨2⟩ }]
    typeInsts := #[{ ty := .parInt }, { ty := .parInt }, { ty := .parInt }] }
  scope := [("x", ⟨1⟩), ("z", ⟨2⟩)]
  order := #[⟨2⟩]

-- The second `x` is in scope twice for a time, and it is resolved before the first.
theorem scopes_balanced_again : ∃ r', resolve (.expr ⟨3⟩) againState = .ok () r' ∧
    r'.order = #[⟨2⟩, ⟨1⟩, ⟨0⟩] ∧ (∀ name, r'.stack name = againState.stack name) ∧
    r'.lookup? "x" = some ⟨1⟩ ∧ r'.position? ⟨2⟩ = some 0 ∧ againState.order.toList <+: r'.order.toList := by
  have h : Resolve.walk againState.model.walkFuel (.expr ⟨3⟩) againState =
      .ok () (final (resolve (.expr ⟨3⟩)) againState) := by cbv
  have ho : (final (resolve (.expr ⟨3⟩)) againState).order = #[⟨2⟩, ⟨1⟩, ⟨0⟩] := by cbv
  have hz : againState.position? ⟨2⟩ = some 0 := by cbv
  obtain ⟨hstack, hlookup, hpos, horder⟩ := scopes_balanced h
  exact ⟨_, h, ho, hstack, (hlookup "x").trans rfl, hpos ⟨2⟩ 0 hz, horder⟩

end Again
end Parvar
