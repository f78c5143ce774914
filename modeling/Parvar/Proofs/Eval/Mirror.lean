import Parvar.Proofs.Eval.Framing
import Parvar.Proofs.Eval.Scope

/-!
Machines and environments. A machine mirrors an environment if the declarations of the local names
hold what these stand for, and if every toplevel declaration holds what it was declared with or the
value of that. Nothing that is evaluated in between changes this.
-/

namespace Parvar

open Eval Machine

section Literals

variable {m m' : Model} {a : ExprId} {v : Value} {k : ValueKind} {s : Machine}

-- A literal that reads as the given value.
def Model.Stores (m : Model) (a : ExprId) (v : Value) : Prop :=
  v.kind.literal? a (m.kind a) = some v.val ∧ v.kind.smaller? (m.ty a) = none

theorem Model.Stores.lt (h : m.Stores a v) : a.index < m.exprs.size := by
  refine lt_of_kind_ne_anon fun ha => ?_
  have h := h.1
  obtain ⟨k, v⟩ := v
  cases k <;> simp [ha, ValueKind.literal?] at h

theorem Model.Stores.mono (h : m.Stores a v) (hg : m.Grows m') : m'.Stores a v := by
  rw [Stores, hg.kind_eq h.lt, hg.ty_eq h.lt]
  exact h

theorem Model.Stores.kind_eq (h : m.Stores a v) (hv : v.kind ≠ .array) : m.kind a = v.literal := by
  have h := h.1
  obtain ⟨k, v⟩ := v
  cases k
  case array => exact (hv rfl).elim
  all_goals
    cases hk : m.kind a <;> simp only [hk, ValueKind.literal?, reduceCtorEq] at h
    cases h
    rfl

namespace Eval

variable {ev : Eval} {e : ExprId} {limit : Nat}

theorem fromSmaller_eq (k : ValueKind) (ty : Ty) (e : ExprId) :
    fromSmaller? ev k ty e = (k.smaller? ty).map fun p => do return p.2 (← ev.value p.1 e) := by
  cases k
  case int =>
    simp only [fromSmaller?, ValueKind.smaller?]
    split <;> rfl
  case float =>
    simp only [fromSmaller?, ValueKind.smaller?]
    split
    · rfl
    · split <;> rfl
  all_goals rfl

-- Reading a literal changes nothing.
theorem run_stores {fuel : Nat} {v : k.Val} (h : s.model.Stores a ⟨k, v⟩) (hf : 0 < fuel) :
    run limit fuel (.value k) a s = .ok v s := by
  obtain ⟨fuel, rfl⟩ : ∃ n, fuel = n + 1 := ⟨fuel - 1, by omega⟩
  have hs : fromSmaller? (run limit fuel) k (s.model.ty a) a = none := by
    rw [fromSmaller_eq, h.2]
    rfl
  have hl : k.literal? a (s.model.kind a) = some v := h.1
  rw [run, step, valueStep_eq hs, hl]
  rfl

-- A new literal.
theorem store_stores {v : k.Val} (hk : k ≠ .array) :
    ∃ a t, EvalM.build (k.store v) s = .ok a t ∧ t.model.decls = s.model.decls ∧
      s.model.Grows t.model ∧ t.model.Stores a ⟨k, v⟩ := by
  cases k
  case array => exact (hk rfl).elim
  all_goals
    refine ⟨_, _, rfl, rfl, Model.grows_addExpr _ _, ?_⟩
    simp [Model.Stores, Model.kind, Model.ty, Model.expr, ValueKind.literal?,
      ValueKind.smaller?, Ty.isBool, Ty.isInt, Ty.isScalar, Ty.parInt, Ty.parFloat, Ty.of]

-- What does not last is not remembered.
theorem remember_passing {d : DeclId} {v : k.Val} (ht : (s.model.decl d).toplevel = false)
    (hd : (s.model.decl d).ty.dim ≤ 0) : remember k d v s = .ok () s := by
  simp [remember, ht, Int.not_lt.mpr hd]

-- A literal takes the place of what it was computed from, or nothing happens.
theorem remember_eq {d : DeclId} {v : k.Val} (hk : k ≠ .array) :
    ∃ t, remember k d v s = .ok () t ∧ s.model.Grows t.model ∧
      (∀ c, c ≠ d → t.model.decl c = s.model.decl c) ∧
      (t.model.decl d = s.model.decl d ∨ (t.model.decl d).flat = (s.model.decl d).flat ∧
        ∃ a, (t.model.decl d).init = some a ∧ t.model.Stores a ⟨k, v⟩) := by
  have ⟨a, t, hb, hd, hg, hv⟩ := store_stores (s := s) (v := v) hk
  have hdecl : ∀ c, t.model.decl c = s.model.decl c := fun c => by simp [Model.decl, hd]
  by_cases hc : !(s.model.decl d).evaluated && ((s.model.decl d).toplevel || 0 < (s.model.decl d).ty.dim)
  · let u := { t with model := t.model.modifyDecl d ({ · with init := some a, evaluated := true }) }
    refine ⟨u, ?_, hg, fun c hcd => ?_, ?_⟩
    · simp only [remember, model_bind]
      rw [if_pos hc]
      exact bind_eq_ok.mpr ⟨a, t, hb, rfl⟩
    · exact (Model.decl_modifyDecl_ne hcd _).trans (hdecl c)
    · by_cases hlt : d.index < t.model.decls.size
      · refine .inr ?_
        simp only [u, Model.decl_modifyDecl, hlt, hdecl, and_self, if_true]
        exact ⟨trivial, a, rfl, hv⟩
      · refine .inl ?_
        simp only [u, Model.decl_modifyDecl, hlt, hdecl, and_false, if_false]
  · refine ⟨s, ?_, .refl _, fun _ _ => rfl, .inl rfl⟩
    simp only [remember, model_bind]
    rw [if_neg hc]
    rfl

end Eval
end Literals

-- Local names are not marked as toplevel, and arguments are scalars.
def Env.Passing (m : Model) (ρ : Env) : Prop :=
  ∀ b ∈ ρ, (m.decl b.1).toplevel = false ∧ (b.2.isSome → (m.decl b.1).ty.dim = 0)

namespace Machine

variable {m : Model} {ρ scope : Env} {s t : Machine} {d : DeclId} {depth : Nat}

section Definitions

variable (m : Model) (s : Machine)

-- Nodes were added to a model, and declarations bound.
structure Above : Prop where
  grows : m.Grows s.model
  others : s.model.surroundings = m.surroundings
  size : s.model.decls.size = m.decls.size
  rebound : ∀ d, (m.decl d).Rebound (s.model.decl d)

-- A declaration holds its initializer or a literal of the value of that.
def Computed (d : DeclId) : Prop :=
  (s.model.decl d).flat = (m.decl d).flat ∧
    ((s.model.decl d).init = (m.decl d).init ∨
      ∃ i k v a fuel calls, (m.decl d).init = some i ∧ (m.decl d).ty.kind? = some k ∧
        Reference.run m fuel calls [] k i = some v ∧ (s.model.decl d).init = some a ∧
        s.model.Stores a ⟨k, v⟩)

-- A declaration holds what its name stands for in an environment.
def Binds (d : DeclId) : Option Value → Prop
  | some v => ∃ a, (s.model.decl d).init = some a ∧ s.model.Stores a v
  | none => ∀ i, (m.decl d).init = some i → (m.decl d).ty.dim = 0 → (s.model.decl d).init = some i

structure Mirrors (ρ : Env) (depth : Nat) : Prop where
  above : s.Above m
  tops : ∀ d, m.isToplevel d → s.Computed m d
  flat : ∀ b ∈ ρ, (s.model.decl b.1).flat = none
  binds : ∀ b ∈ ρ, s.Binds m b.1 b.2
  depth : s.depth = depth

end Definitions

section Above

theorem Above.framed {ds : List DeclId} (h : s.Above m) (hf : Framed ds s t) : t.Above m where
  grows := h.grows.trans hf.grows
  others := hf.others.trans h.others
  size := hf.size.trans h.size
  rebound d := (h.rebound d).trans (hf.rebound d)

variable (h : s.Above m)

include h

theorem Above.ty_eq (d : DeclId) : (s.model.decl d).ty = (m.decl d).ty := by
  rw [h.rebound d]

theorem Above.toplevel_eq (d : DeclId) : (s.model.decl d).toplevel = (m.decl d).toplevel := by
  rw [h.rebound d]

theorem Above.func_eq (f : FuncId) : s.model.func f = m.func f := by
  have hf : s.model.funcs = m.funcs := congrArg (·.2.2.2.1) h.others
  rw [Model.func, Model.func, hf]

theorem Above.domain_eq (d : DeclId) : s.model.domain d = m.domain d := by
  have hd : (s.model.decl d).ti = (m.decl d).ti := by rw [h.rebound d]
  have ht : s.model.typeInsts = m.typeInsts := congrArg (·.2.2.1) h.others
  rw [Model.domain, Model.domain, Model.typeInst, Model.typeInst, hd, ht]

theorem Above.withBody_eq (fn : Option FuncId) : s.model.withBody? fn = m.withBody? fn := by
  simp [Model.withBody?, h.func_eq]

end Above

section Change

-- Only the declaration and the nodes matter.
theorem Computed.congr (h : s.Computed m d) (hd : t.model.decl d = s.model.decl d)
    (hg : s.model.Grows t.model) : t.Computed m d := by
  obtain ⟨hf, hi⟩ := h
  rw [Computed, hd]
  refine ⟨hf, hi.imp_right fun ⟨i, k, v, a, fuel, calls, h₁, h₂, h₃, h₄, h₅⟩ => ?_⟩
  exact ⟨i, k, v, a, fuel, calls, h₁, h₂, h₃, h₄, h₅.mono hg⟩

theorem Mirrors.mono (h : s.Mirrors m ρ depth) (hs : scope ⊆ ρ) : s.Mirrors m scope depth :=
  { h with flat := fun b hb => h.flat b (hs hb), binds := fun b hb => h.binds b (hs hb) }

-- What is evaluated in between leaves the local names alone.
theorem Mirrors.framed (h : s.Mirrors m ρ depth) (hp : ρ.Passing m) (hf : Framed [] s t)
    (ht : ∀ d, m.isToplevel d → t.Computed m d) : t.Mirrors m ρ depth where
  above := h.above.framed hf
  tops := ht
  flat b hb := (hf.kept b.1 List.not_mem_nil).flat_eq.trans (h.flat b hb)
  binds b hb := by
    have hk := hf.kept b.1 List.not_mem_nil
    have ⟨htop, hdim⟩ := hp b hb
    have hsame : (m.decl b.1).ty.dim = 0 → (t.model.decl b.1).init = (s.model.decl b.1).init :=
      fun hd => (hk.same_of_passing ((h.above.toplevel_eq b.1).trans htop)
        (Int.le_of_eq ((congrArg Ty.dim (h.above.ty_eq b.1)).trans hd))).1
    have hs := h.binds b hb
    obtain ⟨c, v⟩ := b
    cases v
    case none => exact fun i hi hd => (hsame hd).trans (hs i hi hd)
    case some v =>
      have ⟨a, ha, hv⟩ := hs
      exact ⟨a, (hsame (hdim rfl)).trans ha, hv.mono hf.grows⟩
  depth := hf.depth.trans h.depth

theorem Mirrors.store {k : ValueKind} {v : k.Val} (h : s.Mirrors m ρ depth) (hp : ρ.Passing m)
    (hk : k ≠ .array) : ∃ a t, EvalM.build (k.store v) s = .ok a t ∧ t.Mirrors m ρ depth ∧
      t.model.Stores a ⟨k, v⟩ := by
  have ⟨a, t, ht, hd, hg, hst⟩ := store_stores (s := s) (v := v) hk
  refine ⟨a, t, ht, h.framed hp ((keeps_store k v).of_ok ht) fun c hc => ?_, hst⟩
  exact (h.tops c hc).congr (by simp [Model.decl, hd]) hg

theorem Mirrors.deeper (h : s.Mirrors m ρ depth) :
    Mirrors m { s with depth := s.depth + 1 } ρ (depth + 1) where
  above := ⟨h.above.grows, h.above.others, h.above.size, h.above.rebound⟩
  tops := h.tops
  flat := h.flat
  binds b hb := by
    have hb := h.binds b hb
    obtain ⟨d, v⟩ := b
    cases v <;> exact hb
  depth := congrArg (· + 1) h.depth

end Change
end Machine

namespace Eval

section Bindings

variable {m : Model} {s t : Machine} {d : DeclId} {v : Option ExprId}
  {bs : List (DeclId × Option ExprId)}

-- Declarations bound one after the other.
def bindAll (s : Machine) (bs : List (DeclId × Option ExprId)) : Machine :=
  bs.foldl (fun s b => bound s b.1 b.2) s

theorem mapM_bind (bs : List (DeclId × Option ExprId)) (s : Machine) :
    ∃ saved, (bs.mapM fun b => bind b.1 b.2 : EvalM (List Saved)) s = .ok saved (bindAll s bs) ∧
      Opens (bs.map (·.1)) s saved (bindAll s bs) := by
  induction bs generalizing s with
  | nil => exact ⟨[], rfl, .nil⟩
  | cons b bs ih =>
    have ⟨saved, h, ho⟩ := ih (bound s b.1 b.2)
    refine ⟨savedOf s b.1 :: saved, ?_, .cons ho⟩
    simp [List.mapM_cons, bind_eq, h, bindAll]

theorem decl_bindAll_of_notMem (hd : d ∉ bs.map (·.1)) :
    (bindAll s bs).model.decl d = s.model.decl d := by
  induction bs generalizing s with
  | nil => rfl
  | cons b bs ih =>
    have ⟨hb, hbs⟩ := not_or.mp (mt List.mem_cons.mpr hd)
    exact (ih hbs).trans (Model.decl_modifyDecl_ne hb _)

theorem decl_bindAll_of_mem (hn : (bs.map (·.1)).Nodup) (hb : (d, v) ∈ bs)
    (hd : d.index < s.model.decls.size) :
    ((bindAll s bs).model.decl d).init = v ∧ ((bindAll s bs).model.decl d).flat = none := by
  induction bs generalizing s with
  | nil => cases hb
  | cons b bs ih =>
    have ⟨hnb, hn⟩ := List.nodup_cons.mp hn
    cases List.mem_cons.mp hb
    case inl hb =>
      subst hb
      have h : (bindAll s ((d, v) :: bs)).model.decl d = (bound s d v).model.decl d :=
        decl_bindAll_of_notMem hnb
      rw [h]
      simp [bound, Model.decl_modifyDecl, hd]
    case inr hb => exact ih (s := bound s b.1 b.2) hn hb (by simpa [bound] using hd)

theorem framed_bindAll (bs : List (DeclId × Option ExprId)) (s : Machine) :
    Framed (bs.map (·.1)) s (bindAll s bs) := by
  induction bs generalizing s with
  | nil => exact .refl _ s
  | cons b bs ih =>
    have h : Framed (b.1 :: bs.map (·.1)) s (bound s b.1 b.2) :=
      .modifyDecl (fun _ => rfl) fun hb => (hb List.mem_cons_self).elim
    exact h.trans ((ih (bound s b.1 b.2)).mono fun d hd => List.mem_cons_of_mem _ hd)

theorem decl_restoreAll_of_notMem {ds : List DeclId} {saved : List Saved} {u : Machine}
    (ho : Opens ds s saved t) (hd : d ∉ ds) : (restoreAll saved u).model.decl d = u.model.decl d := by
  induction ho with
  | nil => rfl
  | cons ho ih =>
    have ⟨hc, hds⟩ := not_or.mp (mt List.mem_cons.mpr hd)
    exact (Model.decl_modifyDecl_ne hc _).trans (ih hds)

-- The variables of a let are bound to the initializers that are noted for them.
theorem mapM_bindItem {l : Let} (items : List LetItem) (n : Nat) (s : Machine)
    (hn : ∀ (i : Nat) d, items[i]? = some (.decl d) → l.origin[n + i]? = some (m.decl d).init) :
    ∃ bs saved, (items.zipIdx n).mapM (bindItem l) s = .ok saved (bindAll s bs) ∧
      Opens (bs.map (·.1)) s (saved.filterMap id) (bindAll s bs) ∧
      bs.map (·.1) = items.flatMap LetItem.decls ∧
      ∀ b ∈ bs, ∀ i, (m.decl b.1).init = some i → b.2 = some i := by
  induction items generalizing n s with
  | nil => exact ⟨[], [], rfl, .nil, rfl, by simp⟩
  | cons item items ih =>
    have hn' : ∀ (i : Nat) d, items[i]? = some (.decl d) →
        l.origin[n + 1 + i]? = some (m.decl d).init := by
      intro i d hi
      rw [Nat.add_assoc, Nat.add_comm 1 i]
      exact hn (i + 1) d hi
    cases item with
    | constraint e =>
      obtain ⟨bs, saved, h, ho, hd, hi⟩ := ih (n + 1) s hn'
      refine ⟨bs, none :: saved, ?_, ho, hd, hi⟩
      simp only [List.zipIdx_cons, List.mapM_cons, bind_eq_ok]
      exact ⟨_, _, rfl, _, _, h, rfl⟩
    | decl d =>
      let v := (l.origin[n]?.getD none) <|> (s.model.decl d).init
      obtain ⟨bs, saved, h, ho, hd, hi⟩ := ih (n + 1) (bound s d v) hn'
      refine ⟨(d, v) :: bs, some (savedOf s d) :: saved, ?_, .cons ho, by simp [LetItem.decls, hd], ?_⟩
      · simp only [List.zipIdx_cons, List.mapM_cons, bind_eq_ok]
        exact ⟨_, _, rfl, _, _, h, rfl⟩
      · refine List.forall_mem_cons.mpr ⟨fun i hi => ?_, hi⟩
        have ho : l.origin[n]? = some (some i) := hi ▸ hn 0 d rfl
        simp [v, ho]

theorem bindLet_eq {l : Let} (s : Machine)
    (hl : ∀ (i : Nat) d, l.items[i]? = some (.decl d) → l.origin[i]? = some (m.decl d).init) :
    ∃ bs saved, bindLet l s = .ok saved (bindAll s bs) ∧
      Opens (bs.map (·.1)) s saved (bindAll s bs) ∧ bs.map (·.1) = l.items.flatMap LetItem.decls ∧
      ∀ b ∈ bs, ∀ i, (m.decl b.1).init = some i → b.2 = some i := by
  have ⟨bs, saved, h, ho, hd, hi⟩ := mapM_bindItem (m := m) (l := l) l.items 0 s (by simpa using hl)
  refine ⟨bs, saved.filterMap id, ?_, ho, hd, hi⟩
  simp only [bindLet, bind_eq_ok]
  exact ⟨saved, _, h, rfl⟩

end Bindings
end Eval

namespace Machine

variable {m : Model} {ρ ρ' : Env} {s : Machine} {depth : Nat} {bs : List (DeclId × Option ExprId)}

-- What a declaration is bound to is what its name stands for.
def Agrees (m : Model) (s : Machine) (d : DeclId) (a : Option ExprId) : Option Value → Prop
  | some v => ∃ e, a = some e ∧ s.model.Stores e v
  | none => ∀ i, (m.decl d).init = some i → a = some i

theorem Mirrors.bindAll (h : s.Mirrors m ρ depth) (hn : (bs.map (·.1)).Nodup)
    (ht : ∀ b ∈ bs, ¬m.isToplevel b.1)
    (hb : ∀ b ∈ ρ', (b ∈ ρ ∧ b.1 ∉ bs.map (·.1)) ∨
      ∃ a, (b.1, a) ∈ bs ∧ b.1.index < m.decls.size ∧ s.Agrees m b.1 a b.2) :
    (bindAll s bs).Mirrors m ρ' depth := by
  have hf := framed_bindAll bs s
  refine ⟨h.above.framed hf, fun d hd => ?_, fun b hb' => ?_, fun b hb' => ?_, hf.depth.trans h.depth⟩
  · refine (h.tops d hd).congr (decl_bindAll_of_notMem fun hm => ?_) hf.grows
    have ⟨b, hbs, he⟩ := List.mem_map.mp hm
    exact ht b hbs (he ▸ hd)
  · obtain ⟨hρ, hnot⟩ | ⟨a, ha, hlt, -⟩ := hb b hb'
    · rw [decl_bindAll_of_notMem hnot]
      exact h.flat b hρ
    · exact (decl_bindAll_of_mem hn ha (h.above.size ▸ hlt)).2
  · obtain ⟨c, o⟩ := b
    obtain ⟨hρ, hnot⟩ | ⟨a, ha, hlt, hag⟩ := hb _ hb'
    · have hs := h.binds _ hρ
      cases o with
      | none => exact fun i hi hd => (congrArg Decl.init (decl_bindAll_of_notMem hnot)).trans (hs i hi hd)
      | some v =>
        have ⟨e, he, hv⟩ := hs
        exact ⟨e, (congrArg Decl.init (decl_bindAll_of_notMem hnot)).trans he, hv.mono hf.grows⟩
    · have hi := (decl_bindAll_of_mem hn ha (h.above.size ▸ hlt)).1
      cases o with
      | none => exact fun i hm _ => hi.trans (hag i hm)
      | some v =>
        have ⟨e, he, hv⟩ := hag
        exact ⟨e, hi.trans he, hv.mono hf.grows⟩

end Machine
end Parvar
