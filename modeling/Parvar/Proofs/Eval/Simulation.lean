import Parvar.Proofs.Eval.Mirror

/-!
Evaluation on a machine gives every value that evaluation in environments gives. The machine binds
names by changing declarations and keeps the values of toplevel declarations; where each expression
has one place, neither can be seen.
-/

namespace Parvar

open Eval Machine Model

namespace Model

section Definitions

variable (m : Model)

-- A parameter of a function that is an item.
def IsParam (d : DeclId) : Prop :=
  ∃ p ∈ m.itemPaths, ∃ f, m.itemAt? p = some (.func f) ∧ d ∈ (m.func f).params

-- A model as it is before anything was evaluated in it, and an expression of which all parts are
-- fixed. Where the domain of a parameter has only one value, this is taken for the value of the
-- parameter; it is one if the parameter is an integer.
structure Evaluable (e : ExprId) : Prop extends m.Placed e where
  marked : ∀ {d}, (m.decl d).toplevel → m.isToplevel d
  noted : ∀ {x l}, m.Touches e x → m.kind x = .letIn l → ∀ (i : Nat) d,
    l.items[i]? = some (.decl d) → l.origin[i]? = some (m.decl d).init
  fixed : ∀ {x}, m.Touches e x → (m.ty x).isPar
  bare : ∀ {d}, (only? m d).isSome → m.IsParam d
  single : ∀ {x f args p}, m.Touches e x → m.callee? x = some (f, args) → p ∈ (m.func f).params →
    (only? m p).isSome → (m.decl p).ty.isInt ∧ (m.decl p).ty.isPar ∧
      ∀ {domain l r fn}, m.domain p = some domain → m.kind domain = .bin .range l r fn → fn = none

-- A value that agrees with the only value in the domain of a parameter, if there is only one.
def Fits (p : DeclId) (v : Value) : Prop :=
  match only? m p with
  | none => True
  | some (.inl w) => v = ⟨.int, w⟩
  | some (.inr l) => m.Stores l v

end Definitions
end Model

-- Values of parameters that passed their checks.
structure Env.Arguments (m : Model) (args : Env) : Prop where
  param : ∀ b ∈ args, m.IsParam b.1 ∧ (m.decl b.1).ty.dim = 0
  value : ∀ b ∈ args, ∃ v, b.2 = some v ∧ v.kind ≠ .array ∧ m.Fits b.1 v

-- An expression, and an environment that it may be evaluated in.
def Model.Situated (m : Model) (e : ExprId) (ρ : Env) (x : ExprId) : Prop :=
  ∃ args, Env.Arguments m args ∧ m.InScope e args (ρ, x)

section Places

variable {m : Model} {e x : ExprId} {ρ ρ' args : Env} {d : DeclId}

theorem Env.Arguments.nil : Env.Arguments m [] := ⟨by simp, by simp⟩

theorem Env.Arguments.isArgs (h : Env.Arguments m args) : args.IsArgs := by
  intro b hb
  have ⟨v, hv, _⟩ := h.value b hb
  exact hv ▸ rfl

namespace Model

theorem mem_roots_of_isToplevel (hd : m.isToplevel d) : .decl d ∈ m.rootsWith e := by
  have ⟨p, hp, hat⟩ := isToplevel_iff.mp hd
  exact mem_rootsWith hp hat (List.mem_singleton_self _)

theorem mem_roots_of_isParam (hd : m.IsParam d) : .decl d ∈ m.rootsWith e := by
  have ⟨p, hp, f, hat, hf⟩ := hd
  exact mem_rootsWith hp hat (by simp [itemSites, hf])

variable (hm : m.Placed e)

include hm

theorem Placed.not_isParam (hd : m.isToplevel d) : ¬m.IsParam d := by
  rintro ⟨q, hq, f, hatq, hf⟩
  have ⟨p, hp, hatp⟩ := isToplevel_iff.mp hd
  have hne : p ≠ q := by
    rintro rfl
    cases hatp.symm.trans hatq
  have hpair := (List.pairwise_flatMap.mp (List.pairwise_cons.mp hm.place.root_once).2).2
  have hsymm : Std.Symm fun p q => ∀ a ∈ (m.itemAt? p).toList.flatMap m.itemSites,
      ∀ b ∈ (m.itemAt? q).toList.flatMap m.itemSites, a = b → ¬m.Holds a :=
    ⟨fun _ _ h a ha b hb hab hh => h b hb a ha hab.symm (hab ▸ hh)⟩
  refine hpair.forall hp hq hne (.decl d) ?_ (.decl d) ?_ rfl (.of_isNode trivial)
  · simp [hatp, itemSites]
  · simp [hatq, itemSites, hf]

theorem Situated.present (h : m.Situated e ρ x) : x.index < m.exprs.size := by
  have ⟨args, _, hc⟩ := h
  exact Reference.lt_of_inScope hm hc

omit hm in
theorem Situated.touches (h : m.Situated e ρ x) : m.Touches e x := by
  have ⟨_, _, hc⟩ := h
  exact hc.1

omit hm in
theorem Situated.reached (h : m.Situated e ρ x) : m.Reached (m.rootsWith e) (.expr x) := by
  have ⟨_, _, _, _, hs, _⟩ := h
  exact hs.reached

theorem Situated.asks (h : m.Situated e ρ x) {y : ExprId} (hl : m.Asks (ρ, x) (ρ', y)) :
    m.Situated e ρ' y := by
  have ⟨args, ha, hc⟩ := h
  obtain hc | hc := hc.asks hm ha.isArgs hl
  · exact ⟨args, ha, hc⟩
  · exact ⟨[], .nil, hc⟩

theorem Situated.start : m.Situated e [] e :=
  ⟨[], .nil, .refl, [], .of_root hm.place List.mem_cons_self, rfl⟩

omit hm in
theorem Situated.reached_local (h : m.Situated e ρ x) {b : DeclId × Option Value} (hb : b ∈ ρ) :
    m.Reached (m.rootsWith e) (.decl b.1) := by
  obtain ⟨args, ha, _, ds, hs, rfl⟩ := h
  cases List.mem_append.mp hb
  case inr hb => exact .root (mem_roots_of_isParam (ha.param b hb).1)
  case inl hb =>
    obtain ⟨c, hc, rfl⟩ := List.mem_map.mp hb
    have ⟨_, _, hpart, _⟩ := hs.above hc
    exact hpart.reached.part hpart.mem

-- A local name is a parameter with a value or a variable of a let.
theorem Situated.local_cases (h : m.Situated e ρ x) {b : DeclId × Option Value} (hb : b ∈ ρ) :
    (m.IsParam b.1 ∧ (m.decl b.1).ty.dim = 0 ∧ ∃ v, b.2 = some v ∧ v.kind ≠ .array ∧ m.Fits b.1 v) ∨
      (.decl b.1 ∉ m.rootsWith e ∧ b.2 = none) := by
  obtain ⟨args, ha, _, ds, hs, rfl⟩ := h
  cases List.mem_append.mp hb
  case inr hb => exact .inl ⟨(ha.param b hb).1, (ha.param b hb).2, ha.value b hb⟩
  case inl hb =>
    obtain ⟨c, hc, rfl⟩ := List.mem_map.mp hb
    have ⟨_, _, hpart, _⟩ := hs.above hc
    exact .inr ⟨fun hr => hm.place.not_part_root hr hpart, rfl⟩

-- The variables of a let are new where it stands.
theorem Situated.fresh {l : Let} (h : m.Situated e ρ x) (hl : m.kind x = .letIn l)
    (hd : .decl d ∈ l.items) : .decl d ∉ m.rootsWith e ∧ ∀ b ∈ ρ, b.1 ≠ d := by
  obtain ⟨args, ha, _, ds, hs, rfl⟩ := h
  have hroot : .decl d ∉ m.rootsWith e := fun hr =>
    hm.place.not_part_root hr (part_item hs.reached hl hd)
  refine ⟨hroot, fun b hb hbd => ?_⟩
  subst hbd
  cases List.mem_append.mp hb
  case inr hb => exact hroot (mem_roots_of_isParam (ha.param b hb).1)
  case inl hb =>
    obtain ⟨c, hc, rfl⟩ := List.mem_map.mp hb
    exact hs.not_mem hm.place hl hd hc

section Calls

variable {f : FuncId} {as : List ExprId} (h : m.Situated e ρ x)

include h

-- What is outside of the called function.
theorem Situated.enters {y : ExprId} (hy : m.Enters x ([], y)) : m.Situated e [] y := by
  obtain ⟨_, _, hc⟩ := h
  obtain ⟨args', _, ht, ds, hs, hρ⟩ := hc.enters hm hy
  have ⟨hds, _⟩ := List.append_eq_nil_iff.mp hρ.symm
  exact ⟨[], .nil, ht, ds, hs, by simpa using hds.symm⟩

variable (hf : m.callee? x = some (f, as))

include hf

theorem Situated.isParam (hd : d ∈ (m.func f).params) : m.IsParam d := by
  have ⟨i, hi, hat⟩ := hm.callees h.touches hf
  exact ⟨i, hi, f, hat, hd⟩

theorem Situated.nodup_params : (m.func f).params.Nodup := by
  have ⟨i, hi, hat⟩ := hm.callees h.touches hf
  have hp := (List.pairwise_flatMap.mp (List.pairwise_cons.mp hm.place.root_once).2).1 i hi
  have hs : ((m.func f).params.map Site.decl).Sublist ((m.itemAt? i).toList.flatMap m.itemSites) := by
    simp only [hat, Option.toList_some, List.flatMap_singleton, itemSites, List.cons_append]
    exact ((List.sublist_append_left _ _).trans (List.sublist_append_left _ _)).cons _
  refine (List.pairwise_map.mp (hp.sublist hs)).imp fun {c d} hcd hne => ?_
  exact hcd (congrArg Site.decl hne) (.of_isNode trivial)

-- The body is evaluated where only the parameters are known.
theorem Situated.body {body : ExprId} {vs : List Value} (hb : (m.func f).body = some body)
    (hdims : ∀ p ∈ (m.func f).params, (m.decl p).ty.dim = 0)
    (hvs : ∀ b ∈ (m.func f).params.zip vs, b.2.kind ≠ .array ∧ m.Fits b.1 b.2) :
    m.Situated e ((m.func f).params.zip (vs.map some)) body := by
  have ⟨i, hi, hat⟩ := hm.callees h.touches hf
  have harg : Env.Arguments m ((m.func f).params.zip (vs.map some)) := by
    constructor
    · intro b hb
      have hp := (List.of_mem_zip hb).1
      exact ⟨h.isParam hm hf hp, hdims b.1 hp⟩
    · intro b hb
      rw [List.zip_map_right] at hb
      obtain ⟨c, hc, rfl⟩ := List.mem_map.mp hb
      exact ⟨c.2, rfl, hvs c hc⟩
  have hroot : .expr body ∈ m.rootsWith e := mem_rootsWith hi hat (by simp [itemSites, hb])
  exact ⟨_, harg, h.touches.enters (.body vs hf hb), [], .of_root hm.place hroot, rfl⟩

end Calls
end Model

theorem Model.Evaluable.passing (h : m.Evaluable e) (ha : m.Situated e ρ x) : ρ.Passing m := by
  intro b hb
  have hroot : _ → .decl b.1 ∈ m.rootsWith e := fun ht => mem_roots_of_isToplevel (h.marked ht)
  obtain ⟨hp, hd, v, hv, _⟩ | ⟨hr, hv⟩ := ha.local_cases h.toPlaced hb
  · refine ⟨?_, fun _ => hd⟩
    by_contra ht
    exact h.not_isParam (h.marked (by simpa using ht)) hp
  · refine ⟨?_, fun hs => by simp [hv] at hs⟩
    by_contra ht
    exact hr (hroot (by simpa using ht))

end Places

section Simulation

variable {m : Model} {e : ExprId} {limit depth : Nat}

theorem truth_of_literals {isAnn : Bool} {op : BinOp} {l r : ExprId} {v : Bool}
    (h : Reference.literalTruth op (m.kind l) (m.kind r) = some v) : truth m isAnn op l r = .ok v := by
  unfold Reference.literalTruth at h
  split at h
  case h_5 hl hr | h_6 hl hr =>
    split at h
    · next ho =>
      cases h
      simp [truth, hl, hr, ho, ExprKind.isAbsent]
    · cases h
  case h_8 => cases h
  all_goals
    next hl hr =>
    simp only [truth, hl, hr, ExprKind.isAbsent, Bool.or_self, Bool.and_false, Bool.false_eq_true, if_false]
    exact toOption_eq_some.mp h

theorem Ty.kind_ne_array {t : Ty} {k : ValueKind} (h : t.kind? = some k) : k ≠ .array := by
  simpa using (Option.filter_eq_some_iff.mp h).2

theorem Ty.dim_eq_of_kind {t : Ty} {k : ValueKind} (h : t.kind? = some k) : t.dim = 0 := by
  by_contra hd
  have ⟨hk, hne⟩ := Option.filter_eq_some_iff.mp h
  have hd : (t.withInst .par).dim ≠ 0 := hd
  unfold literalKind? at hk
  simp only [Ty.isIntSet, Ty.isBoolSet, Ty.isSetOf, Ty.isSetTy, Ty.isInt, Ty.isBool, Ty.isFloat,
    Ty.isString, Ty.isScalar, hd, decide_false, Bool.false_and, Bool.false_eq_true, if_false] at hk
  split at hk
  · cases hk
  · split at hk
    · cases hk
      simp at hne
    · cases hk

theorem Value.eq_of_read {w : Value} {k : ValueKind} {v : k.Val} (h : w.read k = some v) :
    w = ⟨k, v⟩ := by
  unfold Value.read at h
  split at h
  · next hk =>
    subst hk
    cases h
    rfl
  · cases h

theorem Reference.declared_eq_some {R : Reference} {ρ : Env} {k : ValueKind} {d : DeclId} {v : k.Val} :
    R.declared m ρ k d = some v ↔
      (m.decl d).ty.kind? = some k ∧ ∃ i, (m.decl d).init = some i ∧ R ρ k i = some v := by
  unfold Reference.declared
  split
  · next hk => simp [hk, Option.bind_eq_some_iff]
  · next hk => simp [hk]

theorem Env.find_mem {ρ scope : Env} {d : DeclId} {v : Option Value}
    (h : ρ.find? d = some (v, scope)) : (d, v) ∈ ρ ∧ scope ⊆ ρ := by
  induction ρ with
  | nil => cases h
  | cons b ρ ih =>
    rw [find?] at h
    split at h
    · next hc =>
      subst hc
      cases h
      exact ⟨List.mem_cons_self, List.subset_cons_self _ _⟩
    · exact ⟨List.mem_cons_of_mem _ (ih h).1, List.subset_cons_of_subset _ (ih h).2⟩

-- A local name stands for itself.
theorem Machine.Mirrors.followFlat_local {ρ : Env} {s : Machine} {b : DeclId × Option Value}
    (h : s.Mirrors m ρ depth) (hb : b ∈ ρ) : s.model.followFlat b.1 = b.1 := by
  rw [followFlat]
  cases s.model.decls.size with
  | zero => rfl
  | succ n => simp [follow, h.flat b hb]

theorem Machine.Mirrors.followFlat_top {ρ : Env} {s : Machine} {d : DeclId}
    (h : s.Mirrors m ρ depth) (hd : m.linksToplevel m.decls.size d) :
    s.model.followFlat d = m.followFlat d := by
  rw [followFlat, followFlat, h.above.size]
  generalize m.decls.size = steps at hd
  induction steps generalizing d with
  | zero => rfl
  | succ steps ih =>
    rw [linksToplevel, Bool.and_eq_true] at hd
    rw [follow, follow, (h.tops d hd.1).1]
    cases hf : (m.decl d).flat with
    | none => rfl
    | some next =>
      rw [hf] at hd
      by_cases hn : next = d
      · simp [hn]
      · simp only [hn, if_false]
        exact ih (by simpa [hn] using hd.2)

-- The machine follows evaluation in environments, wherever these are mirrored.
structure Simulates (m : Model) (e : ExprId) (depth : Nat) (ev : Eval) (R : Reference) : Prop where
  value : ∀ {ρ x s k v}, m.Situated e ρ x → s.Mirrors m ρ depth → R ρ k x = some v →
    ∃ t, ev.value k x s = .ok v t ∧ t.Mirrors m ρ depth
  operand : ∀ {ρ x s v}, m.Situated e ρ x → s.Mirrors m ρ depth → R.operand m ρ x = some v →
    ∃ a t, ev.residual x s = .ok a t ∧ t.Mirrors m ρ depth ∧ t.model.Stores a v
  literal : ∀ {a s k} {v : k.Val}, s.model.Stores a ⟨k, v⟩ → ev.value k a s = .ok v s
  framing : Framing ev
  valuing : Valuing ev

namespace Simulates

variable {ev : Eval} {R B : Reference} (h : Simulates m e depth ev R)
  {ρ : Env} {x l r : ExprId} {s : Machine} {k k' : ValueKind}

include h

section Nodes

variable (hp : ∀ y, .expr y ∈ (m.kind x).parts Generator.parts → m.Situated e ρ y)
  (hs : s.Mirrors m ρ depth)

include hp hs

-- A builtin operator on two values.
theorem bin {op : BinOp} {K : ValueKind} {v : K.Val} {a : k.Val} {b : k'.Val}
    {f : k.Val → k'.Val → EvalM K.Val} (hk : m.kind x = .bin op l r none)
    (hn : node ev K { m.expr x with kind := .bin op l r none } = do
      f (← ev.value k l) (← ev.value k' r))
    (ha : R ρ k l = some a) (hb : R ρ k' r = some b) (hf : ∀ u, f a b u = .ok v u) :
    ∃ t, compound ev limit K (m.expr x) s = .ok v t ∧ t.Mirrors m ρ depth := by
  obtain ⟨t, hlt, ht⟩ := h.value (hp l (by simp [hk, ExprKind.parts])) hs ha
  obtain ⟨u, hru, hu⟩ := h.value (hp r (by simp [hk, ExprKind.parts])) ht hb
  have hx : m.expr x = { m.expr x with kind := .bin op l r none } := by rw [← hk]; rfl
  refine ⟨u, (compound_bin hk rfl).mpr ⟨rfl, ?_⟩, hu⟩
  rw [hx, hn]
  simp only [bind_eq_ok]
  exact ⟨a, t, hlt, b, u, hru, hf u⟩

theorem un {op : UnOp} {K : ValueKind} {v : K.Val} {a : k.Val} {f : k.Val → EvalM K.Val}
    (hk : m.kind x = .un op l none)
    (hn : node ev K { m.expr x with kind := .un op l none } = ev.value k l >>= f)
    (ha : R ρ k l = some a) (hf : ∀ u, f a u = .ok v u) :
    ∃ t, compound ev limit K (m.expr x) s = .ok v t ∧ t.Mirrors m ρ depth := by
  have ⟨t, hlt, ht⟩ := h.value (hp l (by simp [hk, ExprKind.parts])) hs ha
  have hx : m.expr x = { m.expr x with kind := .un op l none } := by rw [← hk]; rfl
  refine ⟨t, (compound_un hk rfl).mpr ⟨rfl, ?_⟩, ht⟩
  rw [hx, hn]
  simp only [bind_eq_ok]
  exact ⟨a, t, hlt, hf t⟩

-- A coercion by a builtin.
theorem coercion {name : String} {fn : Option FuncId} {K : ValueKind} {v : K.Val} {a : k.Val}
    {f : k.Val → K.Val} (hk : m.kind x = .call name [l] fn) (hc : m.callee? x = none)
    (hn : builtin ev K name [l] (m.expr x).span = do return f (← ev.value k l))
    (ha : R ρ k l = some a) (hf : f a = v) :
    ∃ t, compound ev limit K (m.expr x) s = .ok v t ∧ t.Mirrors m ρ depth := by
  have ⟨t, hlt, ht⟩ := h.value (hp l (by simp [hk, ExprKind.parts])) hs ha
  have hb : s.model.withBody? fn = none := by
    rw [hs.above.withBody_eq]
    simpa [callee?, hk] using hc
  refine ⟨t, (compound_call hk hb).mpr ?_, ht⟩
  simp only [hn, bind_eq_ok, pure_eq_ok]
  exact ⟨a, t, hlt, hf, rfl⟩

theorem intNode {v : Int64} (hc : m.callee? x = none) (hv : R.intNode ρ (m.kind x) = some v) :
    ∃ t, compound ev limit .int (m.expr x) s = .ok v t ∧ t.Mirrors m ρ depth := by
  unfold Reference.intNode at hv
  split at hv
  · next op l r hk =>
    have ⟨a, ha, hv⟩ := Option.bind_eq_some_iff.mp hv
    have ⟨b, hb, hv⟩ := Option.bind_eq_some_iff.mp hv
    exact h.bin hp hs hk rfl ha hb fun u => ofCause_eq_ok.mpr ⟨toOption_eq_some.mp hv, rfl⟩
  · next l hk => exact h.un hp hs hk (bind_pure _).symm hv fun u => rfl
  · next l hk =>
    have ⟨a, ha, hv⟩ := Option.bind_eq_some_iff.mp hv
    exact h.un hp hs hk rfl ha fun u => ofCause_eq_ok.mpr ⟨overflowing_eq_ok.mpr hv, rfl⟩
  · next name l fn hk =>
    split at hv
    · next hname =>
      subst hname
      have ⟨a, ha, hv⟩ := Option.map_eq_some_iff.mp hv
      exact h.coercion hp hs hk hc rfl ha hv
    · cases hv
  · cases hv

theorem floatNode {v : Float} (hc : m.callee? x = none) (hv : R.floatNode ρ (m.kind x) = some v) :
    ∃ t, compound ev limit .float (m.expr x) s = .ok v t ∧ t.Mirrors m ρ depth := by
  unfold Reference.floatNode at hv
  split at hv
  · next op l r hk =>
    have ⟨a, ha, hv⟩ := Option.bind_eq_some_iff.mp hv
    have ⟨b, hb, hv⟩ := Option.bind_eq_some_iff.mp hv
    exact h.bin hp hs hk rfl ha hb fun u => ofCause_eq_ok.mpr ⟨toOption_eq_some.mp hv, rfl⟩
  · next l hk => exact h.un hp hs hk (bind_pure _).symm hv fun u => rfl
  · next l hk =>
    have ⟨a, ha, hv⟩ := Option.map_eq_some_iff.mp hv
    exact h.un hp hs hk rfl ha fun u => pure_eq_ok.mpr ⟨hv, rfl⟩
  · next name l fn hk =>
    split at hv
    · next hname =>
      subst hname
      have ⟨a, ha, hv⟩ := Option.map_eq_some_iff.mp hv
      exact h.coercion hp hs hk hc rfl ha hv
    · split at hv
      · next hname =>
        subst hname
        have ⟨a, ha, hv⟩ := Option.map_eq_some_iff.mp hv
        exact h.coercion hp hs hk hc rfl ha hv
      · cases hv
  · cases hv

omit hp

-- The operands of a comparison are evaluated as residuals, which are literals.
theorem operands {isAnn v : Bool} {op : BinOp} {span : Span} (hl : m.Situated e ρ l)
    (hr : m.Situated e ρ r) (hv : (do
      let a ← R.operand m ρ l
      let b ← R.operand m ρ r
      Reference.literalTruth op a.literal b.literal) = some v) :
    ∃ t, (do
      let a ← ev.residual l
      let b ← ev.residual r
      EvalM.ofCause span (truth (← EvalM.model) isAnn op a b)) s = .ok v t ∧ t.Mirrors m ρ depth := by
  have ⟨a, ha, hv⟩ := Option.bind_eq_some_iff.mp hv
  have ⟨b, hb, hv⟩ := Option.bind_eq_some_iff.mp hv
  have hkind : ∀ {y w}, R.operand m ρ y = some w → w.kind ≠ .array := by
    intro y w hw
    have ⟨k, hk, hw⟩ := Option.bind_eq_some_iff.mp hw
    have ⟨_, _, hw⟩ := Option.bind_eq_some_iff.mp hw
    cases hw
    exact Ty.kind_ne_array hk
  have ⟨c, t, hct, ht, hc⟩ := h.operand hl hs ha
  have ⟨d, u, hdu, hu, hd⟩ := h.operand hr ht hb
  have hg := ((h.framing [] .residual r).of_ok hdu).grows
  refine ⟨u, ?_, hu⟩
  simp only [bind_eq_ok, model_eq_ok, ofCause_eq_ok]
  refine ⟨c, t, hct, d, u, hdu, u.model, u, ⟨rfl, rfl⟩, truth_of_literals ?_, rfl⟩
  rw [(hc.mono hg).kind_eq (hkind ha), hd.kind_eq (hkind hb)]
  exact hv

theorem elements {elems : List ExprId} {vs : List k.Val} (hp : ∀ y ∈ elems, m.Situated e ρ y)
    (hv : elems.mapM (R ρ k) = some vs) :
    ∃ t, elems.mapM (ev.value k) s = .ok vs t ∧ t.Mirrors m ρ depth := by
  have step : ∀ y ∈ elems, ∀ {s v}, s.Mirrors m ρ depth → R ρ k y = some v →
      ∃ b t, ev.value k y s = .ok b t ∧ t.Mirrors m ρ depth ∧ b = v := by
    intro y hy s v hs hv
    have ⟨t, ht, hm⟩ := h.value (hp y hy) hs hv
    exact ⟨v, t, ht, hm, rfl⟩
  have ⟨bs, t, ht, hm, heq⟩ := exists_mapM step (fun y _ => h.framing [] _ y) (fun _ h => h) hs hv
  obtain rfl : bs = vs := List.forall₂_eq_eq_eq ▸ heq
  exact ⟨t, ht, hm⟩

-- What comes after a condition depends on it.
theorem branch {α : Type} {v : α} {y : ExprId} {A B : Option α} {A' B' : EvalM α}
    (hy : m.Situated e ρ y)
    (hA : ∀ t, t.Mirrors m ρ depth → A = some v → ∃ u, A' t = .ok v u ∧ u.Mirrors m ρ depth)
    (hB : ∀ t, t.Mirrors m ρ depth → B = some v → ∃ u, B' t = .ok v u ∧ u.Mirrors m ρ depth)
    (hv : (do if ← R.bool ρ y then A else B) = some v) :
    ∃ t, (do if ← ev.bool y then A' else B') s = .ok v t ∧ t.Mirrors m ρ depth := by
  obtain ⟨c, hc, hv⟩ := Option.bind_eq_some_iff.mp hv
  obtain ⟨t, hct, ht⟩ := h.value hy hs hc
  simp only [bind_eq_ok]
  cases c
  case true =>
    obtain ⟨u, hu, hm⟩ := hA t ht hv
    exact ⟨u, ⟨true, t, hct, hu⟩, hm⟩
  case false =>
    obtain ⟨u, hu, hm⟩ := hB t ht hv
    exact ⟨u, ⟨false, t, hct, hu⟩, hm⟩

theorem test {v : Bool} {op : BinOp} (span : Span) (hl : m.Situated e ρ l) (hr : m.Situated e ρ r)
    (hlt : l.index < m.exprs.size) (hrt : r.index < m.exprs.size)
    (hv : R.test m ρ op l r = some v) :
    ∃ t, boolBin ev op l r span s = .ok v t ∧ t.Mirrors m ρ depth := by
  have decided : ∀ {c : Bool} (t : Machine), t.Mirrors m ρ depth → some c = some v →
      ∃ u, (pure c : EvalM Bool) t = .ok v u ∧ u.Mirrors m ρ depth :=
    fun t ht hc => ⟨t, pure_eq_ok.mpr ⟨Option.some.inj hc, rfl⟩, ht⟩
  simp only [boolBin, model_bind, hs.above.grows.ty_eq hlt, hs.above.grows.ty_eq hrt]
  unfold Reference.test at hv
  dsimp only at hv
  generalize ((m.ty l).isBool && !(m.ty l).isOpt && ((m.ty r).isBool && !(m.ty r).isOpt)) = present
    at hv ⊢
  cases present
  case false => exact h.operands hs hl hr hv
  case true =>
    cases op
    case and => exact h.branch hs hl (fun t ht => h.value hr ht) decided hv
    case or => exact h.branch hs hl decided (fun t ht => h.value hr ht) hv
    case imp => exact h.branch hs hl (fun t ht => h.value hr ht) decided hv
    case revImp => exact h.branch hs hr (fun t ht => h.value hl ht) decided hv
    all_goals exact h.operands hs hl hr hv

theorem select {branches : List (ExprId × ExprId)} {otherwise y : ExprId}
    (hb : ∀ b ∈ branches, m.Situated e ρ b.1)
    (hv : Meaning.choose (R.bool ρ) otherwise branches = some y) :
    ∃ t, selectBranch ev otherwise branches s = .ok y t ∧ t.Mirrors m ρ depth := by
  induction branches generalizing s with
  | nil => exact ⟨s, pure_eq_ok.mpr ⟨Option.some.inj hv, rfl⟩, hs⟩
  | cons b rest ih =>
    have ⟨hc, hrest⟩ := List.forall_mem_cons.mp hb
    refine h.branch hs hc (fun t ht hy => ?_) (fun t ht hy => ih ht hrest hy) hv
    exact ⟨t, pure_eq_ok.mpr ⟨Option.some.inj hy, rfl⟩, ht⟩

include hp

theorem boolNode {v : Bool} (hm : m.Placed e) (hv : R.boolNode m ρ (m.kind x) = some v) :
    ∃ t, compound ev limit .bool (m.expr x) s = .ok v t ∧ t.Mirrors m ρ depth := by
  unfold Reference.boolNode at hv
  split at hv
  · next op l r hk =>
    have hl := hp l (by simp [hk, ExprKind.parts])
    have hr := hp r (by simp [hk, ExprKind.parts])
    have hx : m.expr x = { m.expr x with kind := .bin op l r none } := by rw [← hk]; rfl
    obtain ⟨t, ht, hm'⟩ := h.test hs (m.expr x).span hl hr (hl.present hm) (hr.present hm) hv
    exact ⟨t, (compound_bin hk rfl).mpr ⟨rfl, hx ▸ ht⟩, hm'⟩
  · next l hk =>
    obtain ⟨a, ha, hv⟩ := Option.map_eq_some_iff.mp hv
    exact h.un hp hs hk rfl ha fun u => pure_eq_ok.mpr ⟨hv, rfl⟩
  · cases hv

theorem stringNode {v : String} (hv : R.stringNode ρ (m.kind x) = some v) :
    ∃ t, compound ev limit .string (m.expr x) s = .ok v t ∧ t.Mirrors m ρ depth := by
  unfold Reference.stringNode at hv
  split at hv
  · next l r hk =>
    have ⟨a, ha, hv⟩ := Option.bind_eq_some_iff.mp hv
    have ⟨b, hb, hv⟩ := Option.bind_eq_some_iff.mp hv
    exact h.bin hp hs hk rfl ha hb fun u => pure_eq_ok.mpr ⟨Option.some.inj hv, rfl⟩
  · cases hv

theorem setLit {elems : List ExprId} {K : ValueKind} {v : K.Val} {vs : List k.Val}
    {f : List k.Val → K.Val} (hk : m.kind x = .setLit elems)
    (hn : node ev K { m.expr x with kind := .setLit elems } = do
      return f (← elems.mapM (ev.value k)))
    (hvs : elems.mapM (R ρ k) = some vs) (hf : f vs = v) :
    ∃ t, compound ev limit K (m.expr x) s = .ok v t ∧ t.Mirrors m ρ depth := by
  have ⟨t, ht, hm⟩ := h.elements hs (fun y hy => hp y (by simpa [hk, ExprKind.parts] using hy)) hvs
  have hx : m.expr x = { m.expr x with kind := .setLit elems } := by rw [← hk]; rfl
  refine ⟨t, ?_, hm⟩
  rw [hx]
  change node ev K _ s = _
  rw [hn]
  simp only [bind_eq_ok, pure_eq_ok]
  exact ⟨vs, t, ht, hf, rfl⟩

theorem intSetNode {v : IntSet} (hv : R.intSetNode ρ (m.kind x) = some v) :
    ∃ t, compound ev limit .intSet (m.expr x) s = .ok v t ∧ t.Mirrors m ρ depth := by
  unfold Reference.intSetNode at hv
  split at hv
  · next elems hk =>
    have ⟨vs, hvs, hv⟩ := Option.map_eq_some_iff.mp hv
    exact h.setLit hp hs hk rfl hvs hv
  · next op l r hk =>
    split at hv
    · next hop =>
      subst hop
      have ⟨a, ha, hv⟩ := Option.bind_eq_some_iff.mp hv
      have ⟨b, hb, hv⟩ := Option.bind_eq_some_iff.mp hv
      exact h.bin hp hs hk rfl ha hb fun u => pure_eq_ok.mpr ⟨Option.some.inj hv, rfl⟩
    · next hop =>
      have ⟨a, ha, hv⟩ := Option.bind_eq_some_iff.mp hv
      have ⟨b, hb, hv⟩ := Option.bind_eq_some_iff.mp hv
      have hn : node ev .intSet { m.expr x with kind := .bin op l r none } = (do
          EvalM.ofCause (m.expr x).span (setOp .intSet op (← ev.intSet l) (← ev.intSet r))) := by
        cases op
        case range => exact (hop rfl).elim
        all_goals rfl
      exact h.bin hp hs hk hn ha hb fun u => ofCause_eq_ok.mpr ⟨toOption_eq_some.mp hv, rfl⟩
  · cases hv

theorem boolSetNode {v : IntSet} (hv : R.boolSetNode ρ (m.kind x) = some v) :
    ∃ t, compound ev limit .boolSet (m.expr x) s = .ok v t ∧ t.Mirrors m ρ depth := by
  unfold Reference.boolSetNode at hv
  split at hv
  · next elems hk =>
    have ⟨vs, hvs, hv⟩ := Option.map_eq_some_iff.mp hv
    exact h.setLit hp hs hk rfl hvs hv
  · next op l r hk =>
    have ⟨a, ha, hv⟩ := Option.bind_eq_some_iff.mp hv
    have ⟨b, hb, hv⟩ := Option.bind_eq_some_iff.mp hv
    exact h.bin hp hs hk rfl ha hb fun u => ofCause_eq_ok.mpr ⟨toOption_eq_some.mp hv, rfl⟩
  · cases hv

theorem nodeValue (hm : m.Placed e) {v : k.Val} (hc : m.callee? x = none)
    (hv : R.node m ρ k (m.kind x) = some v) :
    ∃ t, compound ev limit k (m.expr x) s = .ok v t ∧ t.Mirrors m ρ depth := by
  cases k with
  | int => exact h.intNode hp hs hc hv
  | float => exact h.floatNode hp hs hc hv
  | bool => exact h.boolNode hp hs hm hv
  | string => exact h.stringNode hp hs hv
  | intSet => exact h.intSetNode hp hs hv
  | boolSet => exact h.boolSetNode hp hs hv
  | array => cases hv

end Nodes

section Names

variable (hm : m.Evaluable e)

include hm

section Local

variable {name : String} {d : DeclId} {v : k.Val} (span : Span) (hx : m.Situated e ρ x)
  (hs : s.Mirrors m ρ depth)

include hx hs

theorem argument (hd : (d, some ⟨k, v⟩) ∈ ρ) :
    ∃ t, identValue ev k name (some d) span s = .ok v t ∧ ∀ c, m.isToplevel c → t.Computed m c := by
  have ⟨a, ha, hst⟩ := hs.binds _ hd
  have ⟨htop, hdim⟩ := hm.passing hx _ hd
  have hrem : remember k d v s = .ok () s := by
    refine remember_passing ((hs.above.toplevel_eq d).trans htop) ?_
    rw [hs.above.ty_eq]
    exact Int.le_of_eq (hdim rfl)
  refine ⟨s, identValue_eq_ok.mpr ⟨a, s, ?_, h.literal hst, ?_⟩, hs.tops⟩
  all_goals rw [hs.followFlat_local hd]
  · exact ha
  · exact hrem

-- The initializer of a variable is evaluated in the scope of its let.
theorem letVariable {scope : Env} (hk : m.kind x = .ident name (some d))
    (hd : ρ.find? d = some (none, scope)) (hv : R.declared m scope k d = some v) :
    ∃ t, identValue ev k name (some d) span s = .ok v t ∧ ∀ c, m.isToplevel c → t.Computed m c := by
  have ⟨hmem, hsub⟩ := Env.find_mem hd
  have ⟨hkind, i, hi, hv⟩ := Reference.declared_eq_some.mp hv
  have hdim := Ty.dim_eq_of_kind hkind
  have ⟨t, ht, hmt⟩ := h.value (hx.asks hm.toPlaced (.bound hk hd hi)) (hs.mono hsub) hv
  have hrem : remember k d v t = .ok () t := by
    refine remember_passing ((hmt.above.toplevel_eq d).trans (hm.passing hx _ hmem).1) ?_
    rw [hmt.above.ty_eq]
    exact Int.le_of_eq hdim
  refine ⟨t, identValue_eq_ok.mpr ⟨i, t, ?_, ht, ?_⟩, hmt.tops⟩
  all_goals rw [hs.followFlat_local hmem]
  · exact hs.binds _ hmem i hi hdim
  · exact hrem

-- A toplevel declaration holds its initializer or the value of that, and keeps the value.
theorem toplevel {fuel calls : Nat} (hR : R = Reference.run m fuel calls)
    (hk : m.kind x = .ident name (some d)) (hd : m.linksToplevel m.decls.size d)
    (hv : R.declared m [] k (m.followFlat d) = some v) :
    ∃ t, identValue ev k name (some d) span s = .ok v t ∧ ∀ c, m.isToplevel c → t.Computed m c := by
  have ⟨hkind, i, hi, hv⟩ := Reference.declared_eq_some.mp hv
  have ⟨a, t, ha, hat, htops⟩ : ∃ a t, (s.model.decl (m.followFlat d)).init = some a ∧
      ev.value k a s = .ok v t ∧ ∀ c, m.isToplevel c → t.Computed m c := by
    obtain ⟨_, hinit | ⟨i', k', v', a, f, n, hi', hk', hv', ha, hst⟩⟩ :=
      hs.tops _ (isToplevel_follow hd)
    · have ⟨t, ht, hmt⟩ :=
        h.value (hx.asks hm.toPlaced (.toplevel hk hd hi)) (hs.mono (List.nil_subset ρ)) hv
      exact ⟨i, t, hinit.trans hi, ht, hmt.tops⟩
    · cases hi.symm.trans hi'
      cases hkind.symm.trans hk'
      cases Reference.run_unique (hR ▸ hv) hv'
      exact ⟨a, s, ha, h.literal hst, hs.tops⟩
  have ⟨u, hu, hg, hne, hrem⟩ := remember_eq (s := t) (d := m.followFlat d) (v := v) (Ty.kind_ne_array hkind)
  refine ⟨u, identValue_eq_ok.mpr ⟨a, t, ?_, hat, ?_⟩, fun c hc => ?_⟩
  · rw [hs.followFlat_top hd]
    exact ha
  · rw [hs.followFlat_top hd]
    exact hu
  · by_cases hcd : c = m.followFlat d
    · subst hcd
      obtain hsame | ⟨hflat, b, hb, hst⟩ := hrem
      · exact (htops _ hc).congr hsame hg
      · exact ⟨hflat.trans (htops _ hc).1, .inr ⟨i, k, v, b, fuel, calls, hi, hkind, hR ▸ hv, hb, hst⟩⟩
    · exact (htops c hc).congr (hne c hcd) hg

theorem nameValue {fuel calls : Nat} (hR : R = Reference.run m fuel calls)
    (hk : m.kind x = .ident name (some d)) (hv : R.name m ρ k d = some v) :
    ∃ t, identValue ev k name (some d) span s = .ok v t ∧ ∀ c, m.isToplevel c → t.Computed m c := by
  unfold Reference.name at hv
  split at hv
  · next w scope hf =>
    obtain rfl := Value.eq_of_read hv
    exact h.argument hm span hx hs (Env.find_mem hf).1
  · next scope hf => exact h.letVariable hm span hx hs hk hf hv
  · split at hv
    · next hd => exact h.toplevel hm span hx hs hR hk hd hv
    · cases hv

end Local

-- A let binds its variables to their initializers, for the time of its body.
theorem letValue {l : Let} {v : k.Val} (hx : m.Situated e ρ x) (hs : s.Mirrors m ρ depth)
    (hl : m.kind x = .letIn l) (hv : R (ρ.letIn l.items) k l.body = some v) :
    ∃ t, withLet l (ev.value k l.body) s = .ok v t ∧ ∀ c, m.isToplevel c → t.Computed m c := by
  have ⟨bs, saved, hbind, hopens, hds, hinit⟩ := bindLet_eq s (hm.noted hx.touches hl)
  have hfresh : ∀ b ∈ bs, .decl b.1 ∉ m.rootsWith e ∧ ∀ c ∈ ρ, c.1 ≠ b.1 := fun b hb =>
    hx.fresh hm.toPlaced hl (mem_decls_of_mem.mp (hds ▸ List.mem_map_of_mem hb))
  have htop : ∀ b ∈ bs, ¬m.isToplevel b.1 := fun b hb hd =>
    (hfresh b hb).1 (mem_roots_of_isToplevel hd)
  have hmirror : (bindAll s bs).Mirrors m (ρ.letIn l.items) depth := by
    refine hs.bindAll ?_ htop fun b hb => ?_
    · rw [hds]
      exact nodup_items hm.place hx.reached hl
    · cases List.mem_append.mp hb
      case inr hb =>
        refine .inl ⟨hb, fun hbs => ?_⟩
        have ⟨c, hc, hcb⟩ := List.mem_map.mp hbs
        exact (hfresh c hc).2 b hb hcb.symm
      case inl hb =>
        obtain ⟨d, hd, rfl⟩ := List.mem_map.mp hb
        have hd := List.mem_reverse.mp hd
        have ⟨b, hbs, hbd⟩ := List.mem_map.mp (hds ▸ hd)
        subst hbd
        have hpart := part_item hx.reached hl (mem_decls_of_mem.mp hd)
        exact .inr ⟨b.2, hbs, hm.place.present (hx.reached.part hpart.mem), hinit b hbs⟩
  have ⟨u, hu, hmu⟩ := h.value (hx.asks hm.toPlaced (.body hl)) hmirror hv
  refine ⟨restoreAll saved u, ?_, fun c hc => ?_⟩
  · simp only [withLet, bind_eq_ok, restoring_eq_ok]
    exact ⟨saved, _, hbind, u, hu, rfl⟩
  · refine (hmu.tops c hc).congr (decl_restoreAll_of_notMem hopens fun hcs => ?_) (grows_restoreAll _ _)
    have ⟨b, hb, hbc⟩ := List.mem_map.mp hcs
    exact htop b hb (hbc ▸ hc)

end Names
end Simulates
end Simulation
end Parvar
