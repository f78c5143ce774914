import Parvar.Proofs.Eval.Reference

/-!
What is in scope where an expression stands. Each expression has one place, so there is one list of
let variables for it, and the environments that it is evaluated in differ only in the arguments of
the function around it. An evaluation that ends therefore meets no expression twice before it comes
to another call, which bounds its depth.
-/

namespace Parvar

namespace Model

section Definitions

variable (m : Model)

-- All that the evaluation of an expression may come to.
inductive Touches (e : ExprId) : ExprId → Prop
  | refl : Touches e e
  | asks {ρ ρ' x y} (hx : Touches e x) (hy : m.Asks (ρ, x) (ρ', y)) : Touches e y
  | enters {ρ x y} (hx : Touches e x) (hy : m.Enters x (ρ, y)) : Touches e y

variable (roots : List Site)

-- Neither an expression nor a declaration inside of one.
def Outer : Site → Prop
  | .expr _ => False
  | .decl d => .decl d ∈ roots
  | .typeInst _ => True

-- The let variables that an expression can see, the innermost first.
inductive Scope : ExprId → List DeclId → Prop
  | top {e} (he : m.Reached roots (.expr e)) (hp : ∀ p, m.Part roots p (.expr e) → Outer roots p) :
      Scope e []
  | part {e x ds} (he : Scope e ds) (hx : .expr x ∈ (m.kind e).parts Generator.parts)
      (hl : ∀ l, m.kind e ≠ .letIn l) : Scope x ds
  | body {e l ds} (he : Scope e ds) (hl : m.kind e = .letIn l) :
      Scope l.body ((l.items.flatMap LetItem.decls).reverse ++ ds)
  | init {e l ds pre d post i} (he : Scope e ds) (hl : m.kind e = .letIn l)
      (hd : l.items = pre ++ .decl d :: post) (hi : (m.decl d).init = some i) :
      Scope i ((pre.flatMap LetItem.decls).reverse ++ ds)

end Definitions

variable {m : Model} {roots : List Site} {e x : ExprId} {d : DeclId} {ds : List DeclId} {l : Let}

section Parts

theorem part_expr (he : m.Reached roots (.expr e)) (hx : .expr x ∈ (m.kind e).parts Generator.parts) :
    m.Part roots (.expr e) (.expr x) :=
  ⟨he, List.mem_append_left _ hx, .of_isNode trivial⟩

theorem part_body (he : m.Reached roots (.expr e)) (hl : m.kind e = .letIn l) :
    m.Part roots (.expr e) (.expr l.body) :=
  part_expr he (by simp [hl, ExprKind.parts])

theorem part_item (he : m.Reached roots (.expr e)) (hl : m.kind e = .letIn l)
    (hd : .decl d ∈ l.items) : m.Part roots (.expr e) (.decl d) := by
  refine ⟨he, List.mem_append_left _ ?_, .of_isNode trivial⟩
  rw [hl, ExprKind.parts]
  exact List.mem_append_left _ (List.mem_map.mpr ⟨_, hd, rfl⟩)

theorem part_init (hd : m.Reached roots (.decl d)) (hi : (m.decl d).init = some x) :
    m.Part roots (.decl d) (.expr x) := by
  refine ⟨hd, ?_, .of_isNode trivial⟩
  rw [parts_decl]
  exact List.mem_append_left _ (by simp [needs, hi])

theorem part_domain (hd : m.Reached roots (.decl d)) (hx : m.domain d = some x) :
    m.Part roots (.typeInst (m.decl d).ti) (.expr x) := by
  refine ⟨hd.part (parts_decl ▸ List.mem_append_left _ List.mem_cons_self), ?_, .of_isNode trivial⟩
  refine List.mem_append_right _ ?_
  rw [show (m.typeInst (m.decl d).ti).domain = some x from hx]
  exact List.mem_singleton_self _

theorem mem_decls_of_mem {items : List LetItem} : d ∈ items.flatMap LetItem.decls ↔ .decl d ∈ items := by
  simp only [List.mem_flatMap]
  constructor
  · rintro ⟨item, hm, hd⟩
    cases item
    case decl c =>
      obtain rfl := List.mem_singleton.mp hd
      exact hm
    case constraint => cases hd
  · exact fun hd => ⟨_, hd, List.mem_singleton_self _⟩

theorem nodup_items (hm : m.SinglePlace roots) (he : m.Reached roots (.expr e))
    (hl : m.kind e = .letIn l) : (l.items.flatMap LetItem.decls).Nodup := by
  have hp : (l.items.map LetItem.site).Pairwise fun a b => a = b → ¬m.Holds a := by
    refine (hm.once he).sublist ?_
    rw [parts, partsBy, hl, ExprKind.parts, List.append_assoc]
    exact List.sublist_append_left _ _
  refine List.nodup_flatMap.mpr ⟨fun item _ => ?_, (List.pairwise_map.mp hp).imp fun {a b} hab => ?_⟩
  · cases item <;> simp [LetItem.decls]
  · intro c ha hb
    cases a <;> cases b <;> simp only [LetItem.decls, List.mem_singleton, List.not_mem_nil] at ha hb
    subst ha hb
    exact hab rfl (.of_isNode trivial)

-- A variable in scope after a list of items comes from one of them, or from before.
theorem split_items {items : List LetItem} {front back : List DeclId}
    (h : (items.flatMap LetItem.decls).reverse ++ ds = front ++ d :: back) :
    (∃ pre post, items = pre ++ .decl d :: post ∧
      back = (pre.flatMap LetItem.decls).reverse ++ ds) ∨ ∃ front', ds = front' ++ d :: back := by
  induction items using List.reverseRecOn generalizing front with
  | nil => exact .inr ⟨front, h⟩
  | append_singleton items item ih =>
    cases item
    case constraint c =>
      refine (ih (by simpa [LetItem.decls] using h)).imp_left fun ⟨pre, post, hs, hb⟩ => ?_
      exact ⟨pre, post ++ [.constraint c], by simp [hs], hb⟩
    case decl c =>
      replace h : c :: ((items.flatMap LetItem.decls).reverse ++ ds) = front ++ d :: back := by
        simpa [LetItem.decls] using h
      cases front with
      | nil =>
        cases h
        exact .inl ⟨items, [], rfl, rfl⟩
      | cons a front =>
        refine (ih (List.cons.inj h).2).imp_left fun ⟨pre, post, hs, hb⟩ => ?_
        exact ⟨pre, post ++ [.decl c], by simp [hs], hb⟩

end Parts

namespace Scope

variable {ds' : List DeclId}

-- The declaration of a let variable and its initializer.
theorem parts_init {pre post : List LetItem} (he : m.Reached roots (.expr e)) (hl : m.kind e = .letIn l)
    (hd : l.items = pre ++ .decl d :: post) (hi : (m.decl d).init = some x) :
    m.Part roots (.expr e) (.decl d) ∧ m.Part roots (.decl d) (.expr x) := by
  have hp : m.Part roots (.expr e) (.decl d) := part_item he hl (by simp [hd])
  exact ⟨hp, part_init (he.part hp.mem) hi⟩

theorem reached (h : m.Scope roots e ds) : m.Reached roots (.expr e) := by
  induction h with
  | top he => exact he
  | part _ hx _ ih => exact ih.part (part_expr ih hx).mem
  | body _ hl ih => exact ih.part (part_body ih hl).mem
  | init _ hl hd hi ih => exact (parts_init ih hl hd hi).2.reached.part (parts_init ih hl hd hi).2.mem

-- A variable in scope belongs to a let, and the expression stands in another part of that let.
theorem above (h : m.Scope roots e ds) (hd : d ∈ ds) :
    ∃ x c, m.Part roots (.expr x) (.decl d) ∧ m.Part roots (.expr x) c ∧
      m.Below roots c (.expr e) := by
  induction h with
  | top => cases hd
  | part he hx _ ih =>
    have ⟨x, c, hxd, hxc, hc⟩ := ih hd
    exact ⟨x, c, hxd, hxc, hc.trans (part_expr he.reached hx).below⟩
  | @body e l ds he hl ih =>
    cases List.mem_append.mp hd
    case inl hd =>
      have hd := mem_decls_of_mem.mp (List.mem_reverse.mp hd)
      exact ⟨e, _, part_item he.reached hl hd, part_body he.reached hl, .refl⟩
    case inr hd =>
      have ⟨x, c, hxd, hxc, hc⟩ := ih hd
      exact ⟨x, c, hxd, hxc, hc.trans (part_body he.reached hl).below⟩
  | @init e l ds pre b post i he hl hb hi ih =>
    have ⟨hp, hpi⟩ := parts_init he.reached hl hb hi
    cases List.mem_append.mp hd
    case inl hd =>
      have hd : .decl d ∈ l.items := by
        rw [hb]
        exact List.mem_append_left _ (mem_decls_of_mem.mp (List.mem_reverse.mp hd))
      exact ⟨e, _, part_item he.reached hl hd, hp, hpi.below⟩
    case inr hd =>
      have ⟨x, c, hxd, hxc, hc⟩ := ih hd
      exact ⟨x, c, hxd, hxc, hc.trans (hp.below.trans hpi.below)⟩

-- The initializer of a variable in scope sees what was in scope before it.
theorem of_init {front back : List DeclId} {i : ExprId} (h : m.Scope roots e ds)
    (hd : ds = front ++ d :: back) (hi : (m.decl d).init = some i) : m.Scope roots i back := by
  induction h generalizing front with
  | top => simp at hd
  | part _ _ _ ih => exact ih hd
  | body he hl ih =>
    obtain ⟨pre, post, hs, rfl⟩ | ⟨_, hd⟩ := split_items hd
    · exact .init he hl hs hi
    · exact ih hd
  | @init e l _ pre b post j he hl hb hj ih =>
    obtain ⟨pre', post', hs, rfl⟩ | ⟨_, hd⟩ := split_items hd
    · have hs : l.items = pre' ++ .decl d :: (post' ++ .decl b :: post) := by simp [hb, hs]
      exact .init he hl hs hi
    · exact ih hd

variable (hm : m.SinglePlace roots)

include hm

-- A variable comes into scope once.
theorem not_mem (h : m.Scope roots e ds) (hl : m.kind e = .letIn l) (hd : .decl d ∈ l.items) :
    d ∉ ds := by
  intro hds
  have ⟨x, c, hxd, hxc, hc⟩ := h.above hds
  have he := hm.part_unique hxd (part_item h.reached hl hd)
  cases he
  exact hm.not_below_part hxc hc

theorem of_root (hx : .expr x ∈ roots) : m.Scope roots x [] :=
  .top (.root hx) fun _ hp => (hm.not_part_root hx hp).elim

theorem of_root_init (hd : .decl d ∈ roots) (hi : (m.decl d).init = some x) : m.Scope roots x [] := by
  have hp := part_init (.root hd) hi
  exact .top (hp.reached.part hp.mem) fun p hp' => hm.part_unique hp' hp ▸ hd

theorem of_root_domain (hd : .decl d ∈ roots) (hx : m.domain d = some x) : m.Scope roots x [] := by
  have hp := part_domain (.root hd) hx
  exact .top (hp.reached.part hp.mem) fun p hp' => hm.part_unique hp' hp ▸ trivial

theorem unique (h : m.Scope roots e ds) (h' : m.Scope roots e ds') : ds = ds' := by
  induction h generalizing ds' with
  | top _ hp =>
    cases h' with
    | top => rfl
    | part he hx => exact (hp _ (part_expr he.reached hx)).elim
    | body he hl => exact (hp _ (part_body he.reached hl)).elim
    | init he hl hd hi =>
      have ⟨hpd, hpi⟩ := parts_init he.reached hl hd hi
      exact (hm.not_part_root (hp _ hpi) hpd).elim
  | part he hx hn ih =>
    have hpart := part_expr he.reached hx
    cases h' with
    | top _ hp => exact (hp _ hpart).elim
    | part he' hx' =>
      cases hm.part_unique hpart (part_expr he'.reached hx')
      exact ih he'
    | body he' hl =>
      cases hm.part_unique hpart (part_body he'.reached hl)
      exact (hn _ hl).elim
    | init he' hl hd hi => cases hm.part_unique hpart (parts_init he'.reached hl hd hi).2
  | body he hl ih =>
    have hpart := part_body he.reached hl
    generalize hb : Let.body _ = b at hpart h'
    cases h' with
    | top _ hp => exact (hp _ hpart).elim
    | part he' hx' hn =>
      cases hm.part_unique hpart (part_expr he'.reached hx')
      exact (hn _ hl).elim
    | body he' hl' =>
      cases hm.part_unique hpart (part_body he'.reached hl')
      cases hl.symm.trans hl'
      rw [ih he']
    | init he' hl' hd' hi' => cases hm.part_unique hpart (parts_init he'.reached hl' hd' hi').2
  | init he hl hd hi ih =>
    have ⟨hpd, hpi⟩ := parts_init he.reached hl hd hi
    cases h' with
    | top _ hp => exact (hm.not_part_root (hp _ hpi) hpd).elim
    | part he' hx' hn => cases hm.part_unique hpi (part_expr he'.reached hx')
    | body he' hl' => cases hm.part_unique hpi (part_body he'.reached hl')
    | init he' hl' hd' hi' =>
      have ⟨hpd', hpi'⟩ := parts_init he'.reached hl' hd' hi'
      cases hm.part_unique hpi hpi'
      cases hm.part_unique hpd hpd'
      cases hl.symm.trans hl'
      have hn := nodup_items hm he.reached hl
      rw [hd, List.flatMap_append, List.flatMap_cons] at hn
      have ⟨hpre, hpost⟩ := not_or.mp (mt List.mem_append.mpr (List.nodup_cons.mp
        (List.nodup_middle.mp hn)).1)
      have hsplit := (List.append_cons_inj_of_notMem (mt mem_decls_of_mem.mpr hpre)
        (mt mem_decls_of_mem.mpr hpost)).mp (hd.symm.trans hd')
      rw [hsplit.1, ih he']

end Scope

section Toplevel

theorem isToplevel_iff : m.isToplevel d ↔ ∃ p ∈ m.itemPaths, m.itemAt? p = some (.decl d) := by
  simp only [isToplevel, List.any_eq_true, Option.any_eq_true, decide_eq_true_eq]
  refine exists_congr fun p => and_congr_right fun _ => ⟨?_, fun h => ⟨_, h, List.mem_singleton_self d⟩⟩
  rintro ⟨item, hi, hd⟩
  cases item
  case decl c =>
    cases List.mem_singleton.mp hd
    exact hi
  all_goals cases hd

theorem isToplevel_follow {steps : Nat} (h : m.linksToplevel steps d) : m.isToplevel (m.follow steps d) := by
  induction steps generalizing d with
  | zero => exact h
  | succ steps ih =>
    rw [linksToplevel, Bool.and_eq_true] at h
    rw [follow]
    split
    · next next hf =>
      rw [hf] at h
      split
      · exact h.1
      · next hn => exact ih (by simpa [hn] using h.2)
    · exact h.1

end Toplevel

-- The nodes of the items, and an expression beside them.
def rootsWith (m : Model) (e : ExprId) : List Site := .expr e :: m.rootsAt m.itemPaths

-- Every node has one place, and the functions that may be called are items.
structure Placed (m : Model) (e : ExprId) : Prop where
  place : m.SinglePlace (m.rootsWith e)
  callees : ∀ {x f args}, m.Touches e x → m.callee? x = some (f, args) →
    ∃ p ∈ m.itemPaths, m.itemAt? p = some (.func f)

-- An expression and an environment of its place, with the arguments of the call that it is in.
def InScope (m : Model) (e : ExprId) (args : Env) (c : Env × ExprId) : Prop :=
  m.Touches e c.2 ∧ ∃ ds, m.Scope (m.rootsWith e) c.2 ds ∧ c.1 = ds.map (·, none) ++ args

end Model

-- Arguments have values.
def Env.IsArgs (ρ : Env) : Prop := ∀ b ∈ ρ, b.2.isSome

theorem Env.find_eq_some {args scope : Env} {d : DeclId} {ds : List DeclId} (ha : args.IsArgs)
    (h : Env.find? d (ds.map (·, none) ++ args) = some (none, scope)) :
    ∃ front back, ds = front ++ d :: back ∧ scope = back.map (·, none) ++ args := by
  induction ds with
  | nil =>
    exfalso
    induction args with
    | nil => cases h
    | cons b args ih =>
      have ⟨hb, ha⟩ := List.forall_mem_cons.mp ha
      simp only [List.map_nil, List.nil_append, find?] at h ih
      split at h
      · next hc =>
        rw [Option.some.injEq, Prod.mk.injEq] at h
        simp [h.1] at hb
      · exact ih ha h
  | cons c ds ih =>
    rw [List.map_cons, List.cons_append, find?] at h
    split at h
    · next hc =>
      cases hc
      cases h
      exact ⟨[], ds, rfl, rfl⟩
    · have ⟨front, back, hd, hs⟩ := ih h
      exact ⟨c :: front, back, by rw [hd]; rfl, hs⟩

namespace Model

variable {m : Model} {e : ExprId} {args : Env} {c c' : Env × ExprId}

section Closure

theorem mem_rootsWith {p : ItemPath} {item : Item} {s : Site} (hp : p ∈ m.itemPaths)
    (hat : m.itemAt? p = some item) (hs : s ∈ m.itemSites item) : s ∈ m.rootsWith e :=
  List.mem_cons_of_mem _ (mem_rootsAt hp hat hs)

variable (h : m.Placed e)

include h

theorem InScope.asks (ha : args.IsArgs) (hc : m.InScope e args c) (hl : m.Asks c c') :
    m.InScope e args c' ∨ m.InScope e [] c' := by
  obtain ⟨ht, ds, hs, hρ⟩ := hc
  have ht' : m.Touches e c'.2 := ht.asks hl
  cases hl with
  | self => exact .inl ⟨ht, ds, hs, hρ⟩
  | part hx hn => exact .inl ⟨ht', ds, hs.part hx hn, hρ⟩
  | body hl =>
    refine .inl ⟨ht', _, hs.body hl, ?_⟩
    dsimp only at hρ
    simp [Env.letIn, hρ]
  | bound _ hd hi =>
    dsimp only at hρ
    obtain ⟨front, back, rfl, rfl⟩ := Env.find_eq_some ha (hρ ▸ hd)
    exact .inl ⟨ht', back, hs.of_init rfl hi, rfl⟩
  | toplevel _ hd hi =>
    refine .inr ⟨ht', [], ?_, rfl⟩
    have ⟨p, hp, hat⟩ := isToplevel_iff.mp (isToplevel_follow hd)
    exact .of_root_init h.place (mem_rootsWith hp hat (List.mem_singleton_self _)) hi

theorem InScope.enters (hc : m.InScope e args c) (he : m.Enters c.2 c') :
    ∃ args', args'.IsArgs ∧ m.InScope e args' c' := by
  have ht : m.Touches e c'.2 := hc.1.enters he
  cases he with
  | @body f _ body vs hf hb =>
    have ⟨p, hp, hat⟩ := h.callees hc.1 hf
    refine ⟨_, ?_, ht, [], .of_root h.place (mem_rootsWith hp hat ?_), rfl⟩
    · intro b hb
      have ⟨v, _, hv⟩ := List.mem_map.mp (List.of_mem_zip hb).2
      exact hv ▸ rfl
    · simp [itemSites, hb]
  | @domain f _ p domain hf hp hd =>
    have ⟨i, hi, hat⟩ := h.callees hc.1 hf
    refine ⟨[], by simp [Env.IsArgs], ht, [], .of_root_domain h.place (mem_rootsWith hi hat ?_) hd, rfl⟩
    simp [itemSites, hp]
  | @ends f _ p domain l r fn x hf hp hd hr hx =>
    have ⟨i, hi, hat⟩ := h.callees hc.1 hf
    have hs := Scope.of_root_domain h.place (mem_rootsWith hi hat (by simp [itemSites, hp])) hd
    refine ⟨[], by simp [Env.IsArgs], ht, [], hs.part ?_ (by simp [hr]), rfl⟩
    simpa [hr, ExprKind.parts] using hx

theorem InScope.unique {ρ ρ' : Env} {x : ExprId} (hc : m.InScope e args (ρ, x))
    (hc' : m.InScope e args (ρ', x)) : ρ = ρ' := by
  obtain ⟨_, ds, hs, rfl⟩ := hc
  obtain ⟨_, ds', hs', rfl⟩ := hc'
  rw [hs.unique h.place hs']

end Closure
end Model

section Depth

-- Sets that grow, and never again once they have stopped, stop after as many steps as there are
-- elements.
theorem subset_of_stable {ι : Type} [Fintype ι] {D : Nat → Finset ι} {a : Nat} (hD : Monotone D)
    (h : ∀ n, a ≤ n → D (n + 1) ⊆ D n → D (n + 2) ⊆ D (n + 1)) (n : Nat) :
    D n ⊆ D (a + Fintype.card ι) := by
  have hgrow : ∀ j, (∃ i < j, D (a + i + 1) ⊆ D (a + i)) ∨ j ≤ (D (a + j)).card := by
    intro j
    induction j with
    | zero => exact .inr (Nat.zero_le _)
    | succ j ih =>
      obtain ⟨i, hi, hs⟩ | hj := ih
      · exact .inl ⟨i, by omega, hs⟩
      · by_cases hs : D (a + j + 1) ⊆ D (a + j)
        · exact .inl ⟨j, by omega, hs⟩
        · have hlt := Finset.card_lt_card ((hD (Nat.le_add_right (a + j) 1)).ssubset_of_not_subset hs)
          exact .inr (Nat.lt_of_le_of_lt hj hlt)
  obtain ⟨i, hi, hs⟩ | hcard := hgrow (Fintype.card ι + 1)
  · have hstop : ∀ k, D (a + i + k + 1) ⊆ D (a + i + k) := by
      intro k
      induction k with
      | zero => exact hs
      | succ k ih => exact h (a + i + k) (by omega) ih
    have hall : ∀ k, D (a + i + k) ⊆ D (a + i) := by
      intro k
      induction k with
      | zero => exact subset_rfl
      | succ k ih => exact (hstop k).trans ih
    calc D n ⊆ D (a + i + n) := hD (by omega)
      _ ⊆ D (a + i) := hall n
      _ ⊆ D (a + Fintype.card ι) := hD (by omega)
  · exact absurd (Finset.card_le_univ (D (a + (Fintype.card ι + 1)))) (by omega)

instance : Fintype ValueKind where
  elems := {.int, .bool, .float, .string, .intSet, .boolSet, .array}
  complete k := by cases k <;> decide

namespace Reference

open Model

-- An expression of the model, a kind to evaluate it at, and whether arguments are in scope.
abbrev Demand (m : Model) := ValueKind × Fin m.exprs.size × Bool

variable {m : Model} {e : ExprId} {args : Env} {c : Env × ExprId} {k : ValueKind} {v : k.Val}

def Met (m : Model) (e : ExprId) (args : Env) (fuel calls : Nat) (i : Demand m) : Prop :=
  ∃ ρ, m.InScope e (if i.2.2 then args else []) (ρ, ⟨i.2.1⟩) ∧
    (run m fuel calls ρ i.1 ⟨i.2.1⟩).isSome

open Classical in
noncomputable def met (m : Model) (e : ExprId) (args : Env) (calls fuel : Nat) : Finset (Demand m) :=
  Finset.univ.filter (Met m e args fuel calls)

theorem mem_met {fuel calls : Nat} {i : Demand m} :
    i ∈ met m e args calls fuel ↔ Met m e args fuel calls i := by
  simp [met]

variable (h : m.Placed e)

include h

theorem lt_of_inScope (hc : m.InScope e args c) : c.2.index < m.exprs.size :=
  have ⟨_, _, hs, _⟩ := hc
  h.place.present hs.reached

-- Values at some fuel are those at another if as much is met with both.
theorem le_of_met {fuel fuel' calls : Nat} (hm : met m e args calls fuel ⊆ met m e args calls fuel')
    (hc : m.InScope e args c ∨ m.InScope e [] c) : (run m fuel calls).Le (run m fuel' calls) c := by
  intro k v hv
  have hlt : c.2.index < m.exprs.size := hc.elim (lt_of_inScope h) (lt_of_inScope h)
  have key : ∀ b : Bool, m.InScope e (if b then args else []) c →
      run m fuel' calls c.1 k c.2 = some v := by
    intro b hb
    have hi : (k, ⟨c.2.index, hlt⟩, b) ∈ met m e args calls fuel :=
      mem_met.mpr ⟨c.1, hb, Option.isSome_iff_exists.mpr ⟨v, hv⟩⟩
    have ⟨ρ, hρ, hw⟩ := mem_met.mp (hm hi)
    obtain rfl := hb.unique h hρ
    have ⟨w, hw⟩ := Option.isSome_iff_exists.mp hw
    exact run_unique hw hv ▸ hw
  exact hc.elim (key true) (key false)

-- All that is met is met early, if this is so one call deeper.
theorem met_subset (bound : Nat) {fuel calls : Nat} (ha : args.IsArgs)
    (hB : ∀ n, calls = n + 1 → ∀ args c, args.IsArgs → m.InScope e args c → ∀ fuel,
      (run m fuel n).Le (run m bound n) c) :
    met m e args calls fuel ⊆ met m e args calls (bound + Fintype.card (Demand m)) := by
  refine subset_of_stable ?_ (fun n hn hs i hi => ?_) fuel
  · refine monotone_nat_of_le_succ fun n i hi => ?_
    have ⟨ρ, hρ, hv⟩ := mem_met.mp hi
    have ⟨v, hv⟩ := Option.isSome_iff_exists.mp hv
    have hv := run_mono (Nat.le_succ n) (Nat.le_refl calls) hv
    exact mem_met.mpr ⟨ρ, hρ, Option.isSome_iff_exists.mpr ⟨v, hv⟩⟩
  · have ⟨ρ, hρ, hv⟩ := mem_met.mp hi
    have ⟨v, hv⟩ := Option.isSome_iff_exists.mp hv
    refine mem_met.mpr ⟨ρ, hρ, Option.isSome_iff_exists.mpr ⟨v, ?_⟩⟩
    refine sub_run (fun c hc => le_of_met h hs ?_) (fun j hj => ⟨j, hj, fun c hc k v hv => ?_⟩) _ v hv
    · cases hb : i.2.2
      · rw [hb] at hρ
        exact .inr ((hρ.asks h (by simp [Env.IsArgs]) hc).elim id id)
      · rw [hb] at hρ
        exact hρ.asks h ha hc
    · have ⟨args', ha', hc'⟩ := hρ.enters h hc
      exact run_mono hn (Nat.le_refl j) (hB j hj args' c ha' hc' _ k v hv)

-- A value that an expression has is found within a depth that the model and the calls determine.
theorem run_bounded (calls : Nat) (args : Env) (c : Env × ExprId) (ha : args.IsArgs)
    (hc : m.InScope e args c) (fuel : Nat) :
    (run m fuel calls).Le (run m ((calls + 1) * Fintype.card (Demand m)) calls) c := by
  induction calls generalizing args c fuel with
  | zero =>
    refine le_of_met h ?_ (.inl hc)
    simpa using met_subset h 0 ha (fun n hn => by cases hn)
  | succ calls ih =>
    refine le_of_met h ?_ (.inl hc)
    rw [Nat.succ_mul]
    refine met_subset h _ ha fun n hn => ?_
    cases hn
    exact ih

end Reference
end Depth
end Parvar
