import Parvar.Eval.Run
import Parvar.Proofs.Model.Lookup
import Parvar.Proofs.Outcome

/-!
What evaluation leaves as it was. Nodes are only added, and a declaration that was bound for a time
holds in the end what it held before; all that can remain is the value of a declaration that keeps
its value once it is computed. `Framed ds` says this of all declarations but `ds`, which are bound
at the moment.
-/

namespace Parvar

namespace Model

-- A node that is its own value, of one kind or another.
def IsLiteral (m : Model) (e : ExprId) : Prop := ∃ k, (ValueKind.literal? k e (m.kind e)).isSome

theorem IsLiteral.mono {m m' : Model} {e : ExprId} (h : m.IsLiteral e) (hg : m.Grows m') :
    m'.IsLiteral e := by
  have ⟨k, hk⟩ := h
  have he : m.kind e ≠ .anon := fun ha => by cases k <;> simp [ha, ValueKind.literal?] at hk
  exact ⟨k, hg.kind_eq (lt_of_kind_ne_anon he) ▸ hk⟩

theorem isLiteral_addExpr {m : Model} (k : ValueKind) (x : Expr)
    (h : ∀ e, (k.literal? e x.kind).isSome) : (m.addExpr x).2.IsLiteral (m.addExpr x).1 :=
  ⟨k, by rw [kind, expr_addExpr_new]; exact h _⟩

-- The value of an array is an array literal; the other values stand for themselves.
def IsValue (m : Model) : (k : ValueKind) → k.Val → Prop
  | .array, e => (m.kind e).isArrayLit
  | _, _ => True

theorem IsValue.mono {m m' : Model} {k : ValueKind} {v : k.Val} (h : m.IsValue k v)
    (hg : m.Grows m') : m'.IsValue k v := by
  cases k
  case array =>
    have hv : m.kind v ≠ .anon := fun ha => by simp [IsValue, ha, ExprKind.isArrayLit] at h
    rwa [IsValue, hg.kind_eq (lt_of_kind_ne_anon hv)]
  all_goals trivial

end Model

namespace Decl

-- Binding changes these three parts of a declaration.
def Rebound (x y : Decl) : Prop :=
  y = { x with init := y.init, flat := y.flat, evaluated := y.evaluated }

theorem Rebound.refl (x : Decl) : Rebound x x := rfl

theorem Rebound.trans {x y z : Decl} (h₁ : Rebound x y) (h₂ : Rebound y z) : Rebound x z := by
  rw [Rebound, h₂, h₁]

-- A declaration is as it was, or has come to hold its value.
inductive Kept (m : Model) (x : Decl) : Decl → Prop
  | same : Kept m x x
  | stored (e : ExprId) (new : x.evaluated = false) (lasts : x.toplevel ∨ 0 < x.ty.dim)
      (had : x.init.isSome) (lit : m.IsLiteral e) : Kept m x { x with init := some e, evaluated := true }

variable {m m' : Model} {x y z : Decl}

theorem Kept.mono (h : Kept m x y) (hg : m.Grows m') : Kept m' x y := by
  cases h with
  | same => exact .same
  | stored e new lasts had lit => exact .stored e new lasts had (lit.mono hg)

theorem Kept.trans (h₁ : Kept m x y) (h₂ : Kept m y z) : Kept m x z := by
  cases h₁ with
  | same => exact h₂
  | stored e new lasts had lit =>
    cases h₂ with
    | same => exact .stored e new lasts had lit
    | stored _ new _ _ _ => contradiction

theorem Kept.flat_eq (h : Kept m x y) : y.flat = x.flat := by
  cases h <;> rfl

theorem Kept.isSome_init (h : Kept m x y) (hx : x.init.isSome) : y.init.isSome := by
  cases h with
  | same => exact hx
  | stored => rfl

theorem Kept.same_of_passing (h : Kept m x y) (ht : x.toplevel = false) (hd : x.ty.dim ≤ 0) :
    y.init = x.init ∧ y.evaluated = x.evaluated := by
  cases h with
  | same => exact ⟨rfl, rfl⟩
  | stored _ _ lasts =>
    cases lasts with
    | inl htop => simp [ht] at htop
    | inr hdim => exact (Int.not_lt_of_ge hd hdim).elim

theorem Kept.init_eq_none (h : Kept m x y) (hx : x.init = none) : y.init = none := by
  cases h with
  | same => exact hx
  | stored _ _ _ had => simp [hx] at had

end Decl

namespace Model

-- All but the nodes and the declarations.
def surroundings (m : Model) :
    Array Slot × Array Submodel × Array TypeInst × Array Func × List (String × List FuncId) × Nat :=
  (m.items, m.submodels, m.typeInsts, m.funcs, m.overloads, m.pauses)

end Model

namespace Machine

structure Framed (ds : List DeclId) (s t : Machine) : Prop where
  grows : s.model.Grows t.model
  others : t.model.surroundings = s.model.surroundings
  size : t.model.decls.size = s.model.decls.size
  rebound : ∀ d, (s.model.decl d).Rebound (t.model.decl d)
  kept : ∀ d, d ∉ ds → (s.model.decl d).Kept t.model (t.model.decl d)
  depth : t.depth = s.depth

namespace Framed

variable {ds : List DeclId} {s t u : Machine}

theorem refl (ds : List DeclId) (s : Machine) : Framed ds s s where
  grows := .refl _
  others := rfl
  size := rfl
  rebound _ := .refl _
  kept _ _ := .same
  depth := rfl

theorem trans (h₁ : Framed ds s t) (h₂ : Framed ds t u) : Framed ds s u where
  grows := h₁.grows.trans h₂.grows
  others := h₂.others.trans h₁.others
  size := h₂.size.trans h₁.size
  rebound d := (h₁.rebound d).trans (h₂.rebound d)
  kept d hd := ((h₁.kept d hd).mono h₂.grows).trans (h₂.kept d hd)
  depth := h₂.depth.trans h₁.depth

instance : Std.Refl (Framed ds) := ⟨refl ds⟩

instance : IsTrans Machine (Framed ds) := ⟨fun _ _ _ => trans⟩

theorem mono {cs : List DeclId} (h : Framed cs s t) (hs : ∀ d ∈ cs, d ∈ ds) : Framed ds s t :=
  { h with kept := fun d hd => h.kept d fun hc => hd (hs d hc) }

-- A change to one declaration.
theorem modifyDecl {d : DeclId} {f : Decl → Decl} (hr : ∀ x, Decl.Rebound x (f x))
    (hk : d ∉ ds → (s.model.decl d).Kept s.model (f (s.model.decl d))) :
    Framed ds s { s with model := s.model.modifyDecl d f } where
  grows := .of_eq rfl
  others := rfl
  size := Model.size_modifyDecl f
  rebound c := by
    rw [Model.decl_modifyDecl]
    split
    · next h => exact h.1 ▸ hr _
    · exact .refl _
  kept c hc := by
    rw [Model.decl_modifyDecl]
    split
    · next h =>
      obtain ⟨rfl, -⟩ := h
      exact (hk hc).mono (.of_eq rfl)
    · exact .same
  depth := rfl

theorem addExpr (ds : List DeclId) (s : Machine) (x : Expr) :
    Framed ds s { s with model := (s.model.addExpr x).2 } where
  grows := Model.grows_addExpr _ _
  others := rfl
  size := rfl
  rebound _ := .refl _
  kept _ _ := .same
  depth := rfl

end Framed
end Machine

namespace Eval

open Machine

section Bindings

-- What is noted about a declaration when it is bound.
def savedOf (s : Machine) (d : DeclId) : Saved :=
  ⟨d, (s.model.decl d).init, (s.model.decl d).flat, (s.model.decl d).evaluated⟩

def bound (s : Machine) (d : DeclId) (v : Option ExprId) : Machine :=
  { s with model :=
      s.model.modifyDecl d ({ · with init := v, flat := none, evaluated := false }) }

theorem bind_eq (d : DeclId) (v : Option ExprId) (s : Machine) :
    bind d v s = .ok (savedOf s d) (bound s d v) :=
  rfl

-- Declarations bound one after the other.
inductive Opens : List DeclId → Machine → List Saved → Machine → Prop
  | nil {s} : Opens [] s [] s
  | cons {d v ds s saved t} : Opens ds (bound s d v) saved t → Opens (d :: ds) s (savedOf s d :: saved) t

-- One binding is undone.
theorem framed_restore {ds : List DeclId} {s t : Machine} {d : DeclId} {v : Option ExprId}
    (h : Framed (d :: ds) (bound s d v) t) :
    Framed ds s { t with model := (savedOf s d).restore t.model } := by
  have h₁ : Framed (d :: ds) s (bound s d v) :=
    .modifyDecl (fun _ => rfl) fun hd => (hd List.mem_cons_self).elim
  have h₂ : Framed (d :: ds) t { t with model := (savedOf s d).restore t.model } :=
    .modifyDecl (fun _ => rfl) fun hd => (hd List.mem_cons_self).elim
  have h₃ := (h₁.trans h).trans h₂
  refine { h₃ with kept := fun c hc => ?_ }
  by_cases hcd : c = d
  · subst hcd
    have hs : ((savedOf s c).restore t.model).decl c = s.model.decl c := by
      have hr := (h₁.trans h).rebound c
      have hz := (h₁.trans h).size
      simp only [Saved.restore, savedOf, Model.decl_modifyDecl]
      split
      · rw [hr]
      · next hn =>
        have hl : s.model.decls.size ≤ c.index := by simpa [hz] using hn
        rw [Model.decl_of_le hl, Model.decl_of_le (hz ▸ hl)]
    exact hs ▸ .same
  · exact h₃.kept c (by simp [hcd, hc])

theorem Opens.framed {cs ds : List DeclId} {s t u : Machine} {saved : List Saved}
    (ho : Opens cs s saved t) (h : Framed (cs ++ ds) t u) : Framed ds s (restoreAll saved u) := by
  induction ho generalizing ds with
  | nil => exact h
  | @cons d v cs s saved t _ ih =>
    have h' : Framed (cs ++ d :: ds) t u := by
      refine h.mono fun c hc => ?_
      simp only [List.mem_append, List.mem_cons] at hc ⊢
      tauto
    exact framed_restore (ih h')

theorem opens_mapM {α : Type} (as : List α) (f : α → DeclId) (v : α → Option ExprId) (s : Machine) :
    ∃ saved t, (as.mapM fun a => bind (f a) (v a)) s = .ok saved t ∧ Opens (as.map f) s saved t := by
  induction as generalizing s with
  | nil => exact ⟨[], s, rfl, .nil⟩
  | cons a as ih =>
    have ⟨saved, t, h, ho⟩ := ih (bound s (f a) (v a))
    refine ⟨savedOf s (f a) :: saved, t, ?_, .cons ho⟩
    simp [List.mapM_cons, bind_eq, h]

theorem opens_bindItem (l : Let) (is : List (LetItem × Nat)) (s : Machine) :
    ∃ ds saved t, is.mapM (bindItem l) s = .ok saved t ∧ Opens ds s (saved.filterMap id) t := by
  induction is generalizing s with
  | nil => exact ⟨[], [], s, rfl, .nil⟩
  | cons i is ih =>
    match i with
    | (.decl d, i) =>
      obtain ⟨ds, saved, t, h, ho⟩ :=
        ih (bound s d ((l.origin[i]?.getD none) <|> (s.model.decl d).init))
      refine ⟨d :: ds, some (savedOf s d) :: saved, t, ?_, .cons ho⟩
      simp only [List.mapM_cons, bind_eq_ok]
      exact ⟨_, _, rfl, _, _, h, rfl⟩
    | (.constraint e, i) =>
      obtain ⟨ds, saved, t, h, ho⟩ := ih s
      refine ⟨ds, none :: saved, t, ?_, ho⟩
      simp only [List.mapM_cons, bind_eq_ok]
      exact ⟨_, _, rfl, _, _, h, rfl⟩

theorem opens_bindLet (l : Let) (s : Machine) :
    ∃ ds saved t, bindLet l s = .ok saved t ∧ Opens ds s saved t := by
  have ⟨ds, saved, t, h, ho⟩ := opens_bindItem l l.items.zipIdx s
  refine ⟨ds, saved.filterMap id, t, ?_, ho⟩
  simp only [bindLet, bind_eq_ok]
  exact ⟨saved, t, h, rfl⟩

variable {α : Type} {ds : List DeclId}

-- What is bound before a step and restored after it need not be kept by the step.
theorem keeps_restoring {cs : List DeclId} {s : Machine} {saved : List Saved} {t : Machine}
    (ho : Opens cs s saved t) {x : EvalM α} (hx : Keeps (Framed (cs ++ ds)) x) :
    Framed ds s (final (restoring saved x) t) := by
  have h := ho.framed (hx t)
  cases e : x t <;> simp_all [final, restoring]

theorem keeps_withLet {l : Let} {x : EvalM α} (hx : ∀ cs, Keeps (Framed cs) x) :
    Keeps (Framed ds) (withLet l x) := by
  intro s
  have ⟨cs, saved, t, h, ho⟩ := opens_bindLet l s
  rw [withLet, final_bind_of_ok h]
  exact keeps_restoring ho (hx _)

theorem keeps_deeper {x : EvalM α} (hx : Keeps (Framed ds) x) : Keeps (Framed ds) (deeper x) := by
  intro s
  have h := hx { s with depth := s.depth + 1 }
  have e : final (deeper x) s =
      { final x { s with depth := s.depth + 1 } with
        depth := (final x { s with depth := s.depth + 1 }).depth - 1 } := by
    cases e : x { s with depth := s.depth + 1 } <;> simp [final, deeper, e]
  rw [e]
  exact { h with depth := by simp [h.depth] }

end Bindings

-- An evaluator that leaves things as they were, whatever is bound at the moment.
def Framing (ev : Eval) : Prop := ∀ ds t e, Keeps (Framed ds) (ev t e)

-- What a step ends in is a value.
def Yields {k : ValueKind} (x : EvalM k.Val) : Prop :=
  ∀ ⦃s v t⦄, x s = .ok v t → t.model.IsValue k v

def Valuing (ev : Eval) : Prop := ∀ k e, Yields (ev.value k e)

section Plain

variable {α : Type} {R : Machine → Machine → Prop}

theorem model_eq (s : Machine) : EvalM.model s = .ok s.model s := rfl

theorem keeps_within {span : Span} {c : EvalError.Context} {x : EvalM α} (hx : Keeps R x) :
    Keeps R (EvalM.within span c x) := by
  intro s
  have h := hx s
  cases e : x s <;> simp_all [final, EvalM.within]

theorem keeps_attempt {x : EvalM α} (hx : Keeps R x) : Keeps R (EvalM.attempt? x) := by
  intro s
  have h := hx s
  cases e : x s with
  | ok a t => simp_all [final, EvalM.attempt?]
  | error k t => cases k <;> simp_all [final, EvalM.attempt?]

variable [Std.Refl R]

theorem keeps_fail (c : EvalError.Cause) (span : Span) : Keeps R (EvalM.fail c span : EvalM α) :=
  .throw _

theorem keeps_model : Keeps R EvalM.model := fun s => Std.Refl.refl s

theorem keeps_arrayElems [IsTrans Machine R] {ev : Eval} (h : ∀ t e, Keeps R (ev t e)) (e : ExprId) :
    Keeps R (arrayElems ev e) := by
  refine .bind (h _ _) fun a => .bind keeps_model fun m => ?_
  split
  · exact .pure _
  · exact keeps_fail _ _

end Plain

section Steps

variable {α : Type} {ds : List DeclId}

theorem keeps_buildExpr (kind : ExprKind) (ty : Ty) (span : Span) :
    Keeps (Framed ds) (EvalM.build (Build.expr kind ty span)) :=
  fun s => .addExpr ds s { kind, ty, span }

theorem keeps_store (k : ValueKind) (v : k.Val) : Keeps (Framed ds) (EvalM.build (k.store v)) := by
  cases k with
  | array => exact fun s => .refl ds s
  | _ => exact keeps_buildExpr _ _ _

theorem keeps_declared (name : String) (span : Span) (d : Option DeclId) :
    Keeps (Framed ds) (declared name span d) := by
  cases d with
  | none => exact keeps_fail _ _
  | some d => exact .bind keeps_model fun _ => .pure _

-- Storing a value adds a node at most, and leads to a literal.
theorem store_eq_ok {k : ValueKind} {v : k.Val} {s : Machine} (hv : s.model.IsValue k v) :
    ∃ lit t, EvalM.build (k.store v) s = .ok lit t ∧ t.model.decls = s.model.decls ∧
      t.model.IsLiteral lit := by
  cases k
  case array =>
    refine ⟨v, s, rfl, rfl, .array, ?_⟩
    cases hk : s.model.kind v <;> simp_all [Model.IsValue, ExprKind.isArrayLit, ValueKind.literal?]
  case int => exact ⟨_, _, rfl, rfl, Model.isLiteral_addExpr .int _ fun _ => rfl⟩
  case bool => exact ⟨_, _, rfl, rfl, Model.isLiteral_addExpr .bool _ fun _ => rfl⟩
  case float => exact ⟨_, _, rfl, rfl, Model.isLiteral_addExpr .float _ fun _ => rfl⟩
  case string => exact ⟨_, _, rfl, rfl, Model.isLiteral_addExpr .string _ fun _ => rfl⟩
  case intSet | boolSet => exact ⟨_, _, rfl, rfl, Model.isLiteral_addExpr .intSet _ fun _ => rfl⟩

-- What is remembered is the value of a declaration that had one.
theorem framed_remember {k : ValueKind} {d : DeclId} {v : k.Val} {s : Machine}
    (hv : s.model.IsValue k v) (hd : d ∉ ds → (s.model.decl d).init.isSome) :
    Framed ds s (final (remember k d v) s) := by
  unfold remember
  rw [final_bind_of_ok (model_eq s)]
  dsimp only
  split
  · next hc =>
    have ⟨lit, t, e, hs, hlit⟩ := store_eq_ok hv
    have ht : Framed ds s t := (keeps_store k v).of_ok e
    have hdecl : t.model.decl d = s.model.decl d := by simp [Model.decl, hs]
    rw [final_bind_of_ok e]
    refine ht.trans (.modifyDecl (fun _ => rfl) fun h => ?_)
    simp only [Bool.and_eq_true, Bool.not_eq_true', Bool.or_eq_true, decide_eq_true_eq] at hc
    exact hdecl ▸ .stored lit hc.1 hc.2 (hd h) hlit
  · exact .refl ds s

-- A name that runs through values is bound, so its value need not be kept.
theorem keeps_eachAssignment {values : List ExprId}
    {next : Array α → EvalM (Array α)} (hn : ∀ out, Keeps (Framed ds) (next out)) :
    ∀ {names : List DeclId} {out : Array α}, (∀ d ∈ names, d ∈ ds) →
      Keeps (Framed ds) (eachAssignment values next names out)
  | [], out, _ => hn out
  | d :: names, out, hs => .foldlM fun out v _ => by
    refine .bind (.modify fun s => .modifyDecl (fun _ => rfl) fun hd => ?_) fun _ => ?_
    · exact (hd (hs d List.mem_cons_self)).elim
    · exact keeps_eachAssignment hn fun c hc => hs c (List.mem_cons_of_mem _ hc)

end Steps

end Eval
end Parvar
