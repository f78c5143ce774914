import Parvar.Proofs.Eval.Frame
import Parvar.Proofs.Eval.Success
import Parvar.Proofs.Eval.Walk

/-!
Every rule of evaluation leaves things as they were, if evaluating the parts does, and so does every
run.
-/

namespace Parvar.Eval

open Machine

namespace Framing

variable {ev : Eval} {α : Type} {ds : List DeclId} (h : Framing ev)
include h

theorem comparison (ds : List DeclId) : Comparison (fun x _ => Keeps (Framed ds) x) ev ev where
  pure := .pure
  fail := keeps_fail
  model := keeps_model
  expr := keeps_buildExpr
  bind := .bind
  elems _ hf := .bind (keeps_arrayElems (h ds) _) (hf (h ds))

theorem checkParam (span : Span) (p : DeclId) : Keeps (Framed ds) (checkParam ev span p) :=
  (h.comparison ds).checkParam (h ds) span p

theorem call {limit : Nat} {f : FuncId} {args : List ExprId} {span : Span} {run : ExprId → EvalM α}
    (hr : ∀ ds e, Keeps (Framed ds) (run e)) :
    Keeps (Framed ds) (call ev limit f args span run) := by
  unfold Eval.call
  refine .bind keeps_model fun m => ?_
  dsimp only
  split
  · exact keeps_fail _ _
  · next body _ =>
    have hbody : Keeps (Framed ds) (do
        let values ← args.mapM ev.residual
        let saved ← ((m.func f).params.zip values).mapM fun q => bind q.1 (some q.2)
        restoring saved <| deeper do
          (m.func f).params.forM (Eval.checkParam ev span)
          run (← Eval.detach ev body)) := by
      refine .bind (.mapM fun a _ => h ds _ _) fun values => ?_
      intro s
      obtain ⟨saved, t, e, ho⟩ :=
        opens_mapM ((m.func f).params.zip values) (·.1) (fun a => some a.2) s
      rw [final_bind_of_ok e]
      refine keeps_restoring ho (keeps_deeper ?_)
      refine .bind (.forM fun p _ => h.checkParam span p) fun _ => ?_
      exact .bind ((h.comparison _).detach (h _) body) fun b => hr _ b
    split
    · exact .bind (keeps_fail _ _) fun _ => .bind .get fun s => by
        split
        · exact .bind (keeps_fail _ _) fun _ => hbody
        · exact hbody
    · exact .bind .get fun s => by
        split
        · exact .bind (keeps_fail _ _) fun _ => hbody
        · exact hbody

theorem eachBinding {guard : Option ExprId} {each : EvalM α} (he : Keeps (Framed ds) each) :
    ∀ {generators : List Generator} {out : Array α},
      (∀ d ∈ generators.flatMap (·.decls), d ∈ ds) →
        Keeps (Framed ds) (eachBinding ev guard each generators out)
  | [], out, _ => by
    have hp (holds : Bool) :
        Keeps (Framed ds) (if holds then do return out.push (← each) else return out) := by
      split
      · exact .bind he fun _ => .pure _
      · exact .pure _
    cases guard with
    | none => exact .bind (.pure true) hp
    | some g => exact .bind (h ds _ _) hp
  | g :: generators, out, hs => by
    simp only [Eval.eachBinding]
    simp only [List.flatMap_cons, List.mem_append] at hs
    refine .bind ((h.comparison ds).sourceValues (h ds) g.source) fun values => ?_
    exact keeps_eachAssignment (fun out => eachBinding he fun d hd => hs d (.inr hd))
      fun d hd => hs d (.inl hd)

theorem comprehension (c : Comprehension) {each : ExprId → EvalM α}
    (he : ∀ ds e, Keeps (Framed ds) (each e)) : Keeps (Framed ds) (comprehension ev c each) := by
  unfold Eval.comprehension
  intro s
  have ⟨saved, t, e, ho⟩ :=
    opens_mapM (c.generators.flatMap (·.decls)) (·) (fun _ => none) s
  rw [final_bind_of_ok e, final_bind_pure]
  have hb : Keeps (Framed (c.generators.flatMap (·.decls) ++ ds))
      (Eval.eachBinding ev c.guard (each c.body) c.generators #[]) :=
    h.eachBinding (he _ _) fun d hd => List.mem_append_left _ hd
  exact keeps_restoring ho (by simpa using hb)

section Stored

variable (hv : Valuing ev) (limit : Nat)
include hv

theorem identValue (k : ValueKind) (name : String) (decl : Option DeclId) (span : Span) :
    Keeps (Framed ds) (identValue ev k name decl span) := by
  unfold Eval.identValue
  refine .bind (keeps_declared _ _ _) fun d s => ?_
  rw [final_bind_of_ok (model_eq s)]
  cases hi : (s.model.decl d).init with
  | none => exact .refl ds s
  | some init =>
    have hk : Keeps (Framed ds) (ev.value k init) := h ds _ _
    cases he : ev.value k init s with
    | error k t => exact final_bind_of_error he ▸ (final_of_error he ▸ hk s)
    | ok v t =>
      have ht : Framed ds s t := hk.of_ok he
      have hd : d ∉ ds → (t.model.decl d).init.isSome := fun hd =>
        (ht.kept d hd).isSome_init (by simp [hi])
      dsimp only
      rw [final_bind_of_ok he, final_bind_pure (remember k d v) fun _ => v]
      exact ht.trans (framed_remember (hv k init he) hd)

theorem walks (ds : List DeclId) : Walks (fun x _ => Keeps (Framed ds) x) ev ev limit limit where
  toComparison := h.comparison ds
  asks := h ds
  within := keeps_within
  ident := h.identValue hv
  lets _ _ := keeps_withLet fun cs => h cs _ _
  calls _ _ _ _ := h.call fun ds e => h ds _ e
  comps _ c := h.comprehension c fun ds e => h ds _ e

theorem compound (k : ValueKind) (x : Expr) : Keeps (Framed ds) (compound ev limit k x) :=
  (h.walks hv limit ds).compound k x

theorem step : Framing (step limit ev) := fun ds => (h.walks hv limit ds).step

end Stored
end Framing

-- Restoring declarations leaves the nodes alone.
theorem grows_restoreAll (saved : List Saved) (s : Machine) : s.model.Grows (restoreAll saved s).model := by
  induction saved with
  | nil => exact .refl _
  | cons _ _ ih => exact ih.trans (.of_eq rfl)

namespace Yields

variable {α : Type} {k : ValueKind}

theorem bind {x : EvalM α} {f : α → EvalM k.Val} (hf : ∀ a, Yields (f a)) : Yields (x >>= f) := by
  intro s v t he
  have ⟨a, u, _, he⟩ := bind_eq_ok.mp he
  exact hf a he

theorem fail (c : EvalError.Cause) (span : Span) : Yields (EvalM.fail c span : EvalM k.Val) :=
  fun _ _ _ he => (fail_eq_ok.mp he).elim

theorem within {span : Span} {c : EvalError.Context} {x : EvalM k.Val} (hx : Yields x) :
    Yields (EvalM.within span c x) :=
  fun _ _ _ he => hx (within_eq_ok.mp he)

theorem restoring {saved : List Saved} {x : EvalM k.Val} (hx : Yields x) : Yields (restoring saved x) := by
  intro s v t he
  obtain ⟨u, hu, rfl⟩ := restoring_eq_ok.mp he
  exact (hx hu).mono (grows_restoreAll saved u)

theorem deeper {x : EvalM k.Val} (hx : Yields x) : Yields (deeper x) := by
  intro s v t he
  obtain ⟨u, hu, rfl⟩ := deeper_eq_ok.mp he
  exact (hx hu).mono (.refl _)

theorem arrayLit (elems : List ExprId) (dims : Dims) (ty : Ty) (span : Span) :
    Yields (k := .array) (arrayLit elems dims ty span) := by
  intro s v t he
  cases he
  simp [Model.IsValue, Model.kind, Model.expr, ExprKind.isArrayLit]

end Yields

namespace Valuing

variable {ev : Eval} {k : ValueKind} (h : Valuing ev)
include h

theorem call (limit : Nat) (f : FuncId) (args : List ExprId) (span : Span) :
    Yields (call ev limit f args span (ev.value k)) := by
  intro s v t he
  have ⟨_, _, _, _, _, _, _, _, _, _, he⟩ := call_eq_ok.mp he
  exact (Yields.restoring (.deeper (.bind fun _ => .bind fun b => h k b))) he

omit h in
theorem builtin (name : String) (args : List ExprId) (span : Span) :
    Yields (builtin ev k name args span) := by
  cases k
  case array =>
    change Yields (k := .array) (Eval.arrayBuiltin ev name args span)
    unfold Eval.arrayBuiltin
    split
    · exact .bind fun _ => .bind fun _ => .arrayLit _ _ _ _
    · exact .fail _ _
  all_goals exact fun _ _ _ _ => trivial

omit h in
theorem node (x : Expr) : Yields (node ev k x) := by
  cases k
  case array =>
    change Yields (k := .array) (Eval.arrayNode ev x.kind x.ty x.span)
    unfold Eval.arrayNode
    split
    · split
      · exact .bind fun _ => .bind fun _ => .arrayLit _ _ _ _
      · exact .bind fun _ => .arrayLit _ _ _ _
    · exact .bind fun _ => .bind fun _ => .arrayLit _ _ _ _
    · exact .fail _ _
  all_goals exact fun _ _ _ _ => trivial

theorem identValue (name : String) (d : Option DeclId) (span : Span) :
    Yields (identValue ev k name d span) := by
  intro s v t he
  cases d with
  | none => simp [Eval.identValue, declared] at he
  | some d =>
    obtain ⟨init, u, _, hv, hr⟩ := identValue_eq_ok.mp he
    have hv := h k init hv
    have hg := framed_remember hv fun hd => (hd (List.mem_singleton_self (s.model.followFlat d))).elim
    exact hv.mono (final_of_ok hr ▸ hg.grows)

theorem compound (limit : Nat) (x : Expr) : Yields (compound ev limit k x) := by
  unfold Eval.compound
  split
  · exact .within (h.identValue _ _ _)
  · exact .bind fun _ => h k _
  · exact .bind fun _ => h k _
  · exact .within (.bind fun _ => .restoring (h k _))
  · refine .bind fun _ => .within ?_
    split
    · exact h.call _ _ _ _
    · exact builtin _ _ _
  · exact .within (h.call _ _ _ _)
  · exact .within (h.call _ _ _ _)
  · exact node _

theorem step (limit : Nat) : Valuing (step limit ev) := by
  intro k e s v t he
  cases k
  case array =>
    have he : valueStep ev limit .array e s = .ok v t := he
    rw [valueStep_eq rfl] at he
    split at he
    · next w hw =>
      cases he
      cases hk : s.model.kind e <;> simp only [hk, ValueKind.literal?, reduceCtorEq] at hw
      cases hw
      simp [Model.IsValue, hk, ExprKind.isArrayLit]
    · exact h.compound limit _ he
  all_goals trivial

end Valuing

theorem valuing_run (limit : Nat) : ∀ fuel, Valuing (run limit fuel)
  | 0 => fun _ _ _ _ _ he => (throw_ne_ok.mp he).elim
  | fuel + 1 => (valuing_run limit fuel).step limit

theorem framing_run (limit : Nat) : ∀ fuel, Framing (run limit fuel)
  | 0 => fun _ _ _ => .throw _
  | fuel + 1 => (framing_run limit fuel).step (valuing_run limit fuel) limit

end Parvar.Eval
