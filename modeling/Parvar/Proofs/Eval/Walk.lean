import Parvar.Eval.Run
import Parvar.Proofs.Model.Place
import Parvar.Proofs.Outcome

/-!
Steps of two evaluators, side by side. A relation that holds of the plain steps and carries over to
sequences holds of a rule as soon as it holds of all that the rule asks for. `Comparison` has the rules
that only ask, and `Walks` all of them: what names, lets, calls and comprehensions do to declarations
is left to each relation.
-/

namespace Parvar.Eval

open EvalM

-- The elements of an array may be anything, so what comes after it may rely on all expressions.
structure Comparison (R : {α : Type} → EvalM α → EvalM α → Prop) (ev ev' : Eval) : Prop where
  pure : ∀ {α : Type} (a : α), R (Pure.pure a) (Pure.pure a)
  fail : ∀ {α : Type} cause span, R (EvalM.fail cause span : EvalM α) (EvalM.fail cause span)
  model : R EvalM.model EvalM.model
  expr : ∀ kind ty span, R (build (Build.expr kind ty span)) (build (Build.expr kind ty span))
  bind : ∀ {α β : Type} {x y : EvalM α} {f g : α → EvalM β},
    R x y → (∀ a, R (f a) (g a)) → R (x >>= f) (y >>= g)
  elems : ∀ {β : Type} {e : ExprId} {f g : List ExprId × Dims → EvalM β}, R (ev.array e) (ev'.array e) →
    ((∀ t x, R (ev t x) (ev' t x)) → ∀ p, R (f p) (g p)) →
      R (arrayElems ev e >>= f) (arrayElems ev' e >>= g)

namespace Comparison

variable {R : {α : Type} → EvalM α → EvalM α → Prop} {ev ev' : Eval} {α β : Type}
  (c : Comparison R ev ev')
include c

section Lists

theorem mapM {f g : α → EvalM β} : ∀ {as : List α}, (∀ a ∈ as, R (f a) (g a)) → R (as.mapM f) (as.mapM g)
  | [], _ => c.pure _
  | a :: as, h => by
    rw [List.mapM_cons, List.mapM_cons]
    refine c.bind (h a List.mem_cons_self) fun b => ?_
    exact c.bind (mapM fun a ha => h a (List.mem_cons_of_mem _ ha)) fun _ => c.pure _

theorem forM {f g : α → EvalM PUnit} : ∀ {as : List α}, (∀ a ∈ as, R (f a) (g a)) → R (as.forM f) (as.forM g)
  | [], _ => c.pure _
  | a :: as, h => by
    rw [List.forM, List.forM]
    exact c.bind (h a List.mem_cons_self) fun _ => forM fun a ha => h a (List.mem_cons_of_mem _ ha)

theorem foldlM {f g : β → α → EvalM β} :
    ∀ {as : List α} {b : β}, (∀ b, ∀ a ∈ as, R (f b a) (g b a)) → R (as.foldlM f b) (as.foldlM g b)
  | [], _, _ => c.pure _
  | a :: as, b, h => by
    rw [List.foldlM_cons, List.foldlM_cons]
    refine c.bind (h b a List.mem_cons_self) fun b => ?_
    exact foldlM fun b a ha => h b a (List.mem_cons_of_mem _ ha)

end Lists

theorem ofCause (span : Span) (r : Except EvalError.Cause α) : R (EvalM.ofCause span r) (EvalM.ofCause span r) := by
  cases r with
  | ok a => exact c.pure a
  | error cause => exact c.fail cause span

section Builtins

theorem nonempty (name : String) (span : Span) (r : Option α) : R (nonempty name span r) (nonempty name span r) := by
  cases r with
  | none => exact c.fail _ _
  | some a => exact c.pure a

-- The elements of an array, evaluated one after the other.
theorem elemsM {t : Target} {f g : List t.Out → EvalM β} {e : ExprId} (h : R (ev.array e) (ev'.array e))
    (hf : (∀ t x, R (ev t x) (ev' t x)) → ∀ vs, R (f vs) (g vs)) :
    R ((do (← arrayElems ev e).1.mapM (ev t)) >>= f) ((do (← arrayElems ev' e).1.mapM (ev' t)) >>= g) := by
  rw [bind_assoc, bind_assoc]
  exact c.elems h fun hx p => c.bind (c.mapM fun x _ => hx t x) (hf hx)

theorem checkLengths (i j : Nat) (span : Span) : R (checkLengths i j span) (checkLengths i j span) := by
  unfold Eval.checkLengths
  split
  · exact c.pure _
  · exact c.fail _ _

theorem allAre (h : ∀ t x, R (ev t x) (ev' t x)) (b : Bool) :
    ∀ es : List ExprId, R (allAre ev b es) (allAre ev' b es)
  | [] => c.pure _
  | e :: es => by
    refine c.bind (h _ e) fun a => ?_
    split
    · exact allAre h b es
    · exact c.pure _

variable {args : List ExprId} (h : ∀ a ∈ args, ∀ t, R (ev t a) (ev' t a)) (name : String) (span : Span)
include h

theorem intBuiltin : R (intBuiltin ev name args span) (intBuiltin ev' name args span) := by
  unfold Eval.intBuiltin
  split
  · exact c.bind (h _ (by simp) _) fun _ => c.pure _
  · exact c.bind (h _ (by simp) _) fun _ => c.ofCause _ _
  · exact c.bind (h _ (by simp) _) fun _ => c.bind (h _ (by simp) _) fun _ => c.pure _
  · exact c.bind (h _ (by simp) _) fun _ => c.bind (h _ (by simp) _) fun _ => c.pure _
  · exact c.elemsM (h _ (by simp) _) fun _ _ => c.nonempty _ _ _
  · exact c.elemsM (h _ (by simp) _) fun _ _ => c.nonempty _ _ _
  · exact c.elemsM (h _ (by simp) _) fun _ _ => c.ofCause _ _
  · exact c.elemsM (h _ (by simp) _) fun _ _ => c.ofCause _ _
  · refine c.elemsM (h _ (by simp) _) fun _ _ => c.elemsM (h _ (by simp) _) fun _ _ => ?_
    exact c.bind (c.checkLengths _ _ _) fun _ => c.bind (h _ (by simp) _) fun _ => c.ofCause _ _
  · exact c.bind (h _ (by simp) _) fun _ => c.bind (h _ (by simp) _) fun _ => c.ofCause _ _
  · refine c.bind (c.bind c.model fun m => ?_) fun _ => c.ofCause _ _
    split
    · exact c.bind (h _ (by simp) _) fun _ => c.pure _
    · exact c.bind (h _ (by simp) _) fun _ => c.pure _
  · exact c.elems (h _ (by simp) _) fun _ _ => c.ofCause _ _
  · exact c.fail _ _

theorem floatBuiltin : R (floatBuiltin ev name args span) (floatBuiltin ev' name args span) := by
  unfold Eval.floatBuiltin
  split
  · exact c.bind (h _ (by simp) _) fun _ => c.pure _
  · exact c.bind (h _ (by simp) _) fun _ => c.pure _
  · exact c.bind (h _ (by simp) _) fun _ => c.pure _
  · exact c.bind (h _ (by simp) _) fun _ => c.bind (h _ (by simp) _) fun _ => c.pure _
  · exact c.bind (h _ (by simp) _) fun _ => c.bind (h _ (by simp) _) fun _ => c.pure _
  · exact c.elemsM (h _ (by simp) _) fun _ _ => c.nonempty _ _ _
  · exact c.elemsM (h _ (by simp) _) fun _ _ => c.nonempty _ _ _
  · exact c.elemsM (h _ (by simp) _) fun _ _ => c.pure _
  · exact c.elemsM (h _ (by simp) _) fun _ _ => c.pure _
  · refine c.elemsM (h _ (by simp) _) fun _ _ => c.elemsM (h _ (by simp) _) fun _ _ => ?_
    exact c.bind (c.checkLengths _ _ _) fun _ => c.bind (h _ (by simp) _) fun _ => c.pure _
  · exact c.fail _ _

theorem boolBuiltin : R (boolBuiltin ev name args span) (boolBuiltin ev' name args span) := by
  unfold Eval.boolBuiltin
  split
  · exact c.elems (h _ (by simp) _) fun hx _ => c.allAre hx _ _
  · exact c.elems (h _ (by simp) _) fun hx _ => c.bind (c.allAre hx _ _) fun _ => c.pure _
  · exact c.fail _ _

theorem stringBuiltin : R (stringBuiltin ev name args span) (stringBuiltin ev' name args span) := by
  unfold Eval.stringBuiltin
  split
  · refine c.bind (h _ (by simp) _) fun v => c.bind c.model fun m => ?_
    split
    · exact c.pure _
    · exact c.fail _ _
  · exact c.elems (h _ (by simp) _) fun hx _ => c.bind (c.mapM fun x _ => hx _ x) fun _ => c.pure _
  · exact c.fail _ _

theorem intSetBuiltin : R (intSetBuiltin ev name args span) (intSetBuiltin ev' name args span) := by
  unfold Eval.intSetBuiltin
  split
  · exact c.bind (h _ (by simp) _) fun _ => c.bind (h _ (by simp) _) fun _ => c.pure _
  · exact c.bind (h _ (by simp) _) fun _ => c.bind (h _ (by simp) _) fun _ => c.pure _
  · exact c.bind (h _ (by simp) _) fun _ => c.bind (h _ (by simp) _) fun _ => c.pure _
  · exact c.fail _ _

theorem arrayBuiltin : R (arrayBuiltin ev name args span) (arrayBuiltin ev' name args span) := by
  unfold Eval.arrayBuiltin
  split
  · refine c.bind (h _ (by simp) _) fun s => c.bind (c.mapM fun _ _ => c.expr _ _ _) fun _ => ?_
    exact c.expr _ _ _
  · exact c.fail _ _

theorem builtin (k : ValueKind) : R (builtin ev k name args span) (builtin ev' k name args span) := by
  cases k with
  | int => exact c.intBuiltin h _ _
  | bool => exact c.boolBuiltin h _ _
  | float => exact c.floatBuiltin h _ _
  | string => exact c.stringBuiltin h _ _
  | intSet => exact c.intSetBuiltin h _ _
  | boolSet => exact c.fail _ _
  | array => exact c.arrayBuiltin h _ _

end Builtins

section Nodes

variable {kind : ExprKind} (h : ∀ a, .expr a ∈ kind.parts Generator.uses → ∀ t, R (ev t a) (ev' t a)) (span : Span)
include h

theorem intNode : R (intNode ev kind span) (intNode ev' kind span) := by
  unfold Eval.intNode
  split
  · refine c.bind (h _ (by simp [ExprKind.parts]) _) fun _ => ?_
    exact c.bind (h _ (by simp [ExprKind.parts]) _) fun _ => c.ofCause _ _
  · exact h _ (by simp [ExprKind.parts]) _
  · exact c.bind (h _ (by simp [ExprKind.parts]) _) fun _ => c.ofCause _ _
  · exact c.fail _ _

theorem floatNode : R (floatNode ev kind span) (floatNode ev' kind span) := by
  unfold Eval.floatNode
  split
  · refine c.bind (h _ (by simp [ExprKind.parts]) _) fun _ => ?_
    exact c.bind (h _ (by simp [ExprKind.parts]) _) fun _ => c.ofCause _ _
  · exact h _ (by simp [ExprKind.parts]) _
  · exact c.bind (h _ (by simp [ExprKind.parts]) _) fun _ => c.pure _
  · exact c.fail _ _

omit h in
theorem boolBin {l r : ExprId} (hl : ∀ t, R (ev t l) (ev' t l)) (hr : ∀ t, R (ev t r) (ev' t r)) (op : BinOp) :
    R (boolBin ev op l r span) (boolBin ev' op l r span) := by
  refine c.bind c.model fun m => ?_
  dsimp only
  split
  -- The connectives look at one operand first.
  all_goals try
    refine c.bind (by first | exact hl _ | exact hr _) fun a => ?_
    split
    all_goals first | exact hl _ | exact hr _ | exact c.pure _
  exact c.bind (hl _) fun _ => c.bind (hr _) fun _ => c.bind c.model fun _ => c.ofCause _ _

theorem boolNode : R (boolNode ev kind span) (boolNode ev' kind span) := by
  unfold Eval.boolNode
  split
  · exact c.boolBin _ (h _ (by simp [ExprKind.parts])) (h _ (by simp [ExprKind.parts])) _
  · exact c.bind (h _ (by simp [ExprKind.parts]) _) fun _ => c.pure _
  · exact c.fail _ _

theorem stringNode : R (stringNode ev kind span) (stringNode ev' kind span) := by
  unfold Eval.stringNode
  split
  · refine c.bind (h _ (by simp [ExprKind.parts]) _) fun _ => ?_
    exact c.bind (h _ (by simp [ExprKind.parts]) _) fun _ => c.pure _
  · exact c.fail _ _

variable (hc : ∀ d t, kind = .comp d → R (comprehension ev d (ev t)) (comprehension ev' d (ev' t)))
include hc

theorem intSetNode : R (intSetNode ev kind span) (intSetNode ev' kind span) := by
  unfold Eval.intSetNode
  split
  · exact c.bind (c.mapM fun a ha => h a (by simpa [ExprKind.parts] using ha) _) fun _ => c.pure _
  · exact c.bind (c.mapM fun a ha => h a (by simpa [ExprKind.parts] using ha) _) fun _ => c.pure _
  · exact c.bind (hc _ (.value .int) rfl) fun _ => c.pure _
  · refine c.bind (h _ (by simp [ExprKind.parts]) _) fun _ => ?_
    exact c.bind (h _ (by simp [ExprKind.parts]) _) fun _ => c.pure _
  · refine c.bind (h _ (by simp [ExprKind.parts]) _) fun _ => ?_
    exact c.bind (h _ (by simp [ExprKind.parts]) _) fun _ => c.ofCause _ _
  · exact c.fail _ _

theorem boolSetNode : R (boolSetNode ev kind span) (boolSetNode ev' kind span) := by
  unfold Eval.boolSetNode
  split
  · exact c.bind (c.mapM fun a ha => h a (by simpa [ExprKind.parts] using ha) _) fun _ => c.pure _
  · exact c.bind (c.mapM fun a ha => h a (by simpa [ExprKind.parts] using ha) _) fun _ => c.pure _
  · exact c.bind (hc _ (.value .bool) rfl) fun _ => c.pure _
  · refine c.bind (h _ (by simp [ExprKind.parts]) _) fun _ => ?_
    exact c.bind (h _ (by simp [ExprKind.parts]) _) fun _ => c.ofCause _ _
  · exact c.fail _ _

theorem arrayNode (ty : Ty) : R (arrayNode ev kind ty span) (arrayNode ev' kind ty span) := by
  unfold Eval.arrayNode
  dsimp only
  split
  · split
    · exact c.bind (c.fail _ _) fun _ => c.bind (hc _ .residual rfl) fun _ => c.expr _ _ _
    · exact c.bind (hc _ .residual rfl) fun _ => c.expr _ _ _
  · refine c.elems (h _ (by simp [ExprKind.parts]) _) fun _ _ => ?_
    exact c.elems (h _ (by simp [ExprKind.parts]) _) fun _ _ => c.expr _ _ _
  · exact c.fail _ _

omit h hc in
theorem node {x : Expr} (h : ∀ a, .expr a ∈ x.kind.parts Generator.uses → ∀ t, R (ev t a) (ev' t a))
    (hc : ∀ d t, x.kind = .comp d → R (comprehension ev d (ev t)) (comprehension ev' d (ev' t)))
    (k : ValueKind) : R (node ev k x) (node ev' k x) := by
  cases k with
  | int => exact c.intNode h _
  | bool => exact c.boolNode h _
  | float => exact c.floatNode h _
  | string => exact c.stringNode h _
  | intSet => exact c.intSetNode h _ hc
  | boolSet => exact c.boolSetNode h _ hc
  | array => exact c.arrayNode h _ hc _

end Nodes

-- One of the branches is taken.
theorem selectBranch {otherwise : ExprId} {f g : ExprId → EvalM β} :
    ∀ {branches : List (ExprId × ExprId)}, (∀ b ∈ branches, R (ev.bool b.1) (ev'.bool b.1)) →
      (∀ r, r = otherwise ∨ r ∈ branches.map (·.2) → R (f r) (g r)) →
        R (selectBranch ev otherwise branches >>= f) (selectBranch ev' otherwise branches >>= g)
  | [], _, hf => by
    simp only [Eval.selectBranch, pure_bind]
    exact hf otherwise (.inl rfl)
  | (cond, branch) :: rest, hb, hf => by
    simp only [Eval.selectBranch, bind_assoc]
    refine c.bind (hb _ List.mem_cons_self) fun taken => ?_
    split
    · simp only [pure_bind]
      exact hf branch (by simp)
    · exact selectBranch (fun b h => hb b (List.mem_cons_of_mem _ h)) fun r hr => hf r (hr.imp_right (by simp_all))

section Calls

theorem insideInts {domain : ExprId} {values : List ExprId} (ty : Ty) (hd : ∀ t, R (ev t domain) (ev' t domain))
    (hv : ∀ v ∈ values, ∀ k, R (ev.value k v) (ev'.value k v)) :
    R (insideInts ev ty domain values) (insideInts ev' ty domain values) := by
  refine c.bind (hd _) fun s => c.foldlM fun ok v h => c.bind ?_ fun _ => c.pure _
  split
  · exact c.bind (hv v h _) fun _ => c.pure _
  · exact c.bind (hv v h _) fun _ => c.pure _

theorem insideFloats {l r : ExprId} {values : List ExprId} (hl : ∀ t, R (ev t l) (ev' t l))
    (hr : ∀ t, R (ev t r) (ev' t r)) (hv : ∀ v ∈ values, ∀ k, R (ev.value k v) (ev'.value k v)) :
    R (insideFloats ev l r values) (insideFloats ev' l r values) := by
  refine c.bind (hl _) fun lo => c.bind (hr _) fun hi => c.foldlM fun ok v h => c.bind ?_ fun _ => c.pure _
  exact c.bind (hv v h _) fun _ => c.pure _

variable (h : ∀ t e, R (ev t e) (ev' t e))
include h

theorem residualArray (e : ExprId) : R (residualArray ev e) (residualArray ev' e) := by
  refine c.bind c.model fun m => c.elems (h _ e) fun _ p => ?_
  exact c.bind (c.mapM fun x _ => h _ x) fun _ => c.expr _ _ _

theorem checkParam (span : Span) (p : DeclId) : R (checkParam ev span p) (checkParam ev' span p) := by
  refine c.bind c.model fun m => ?_
  dsimp only
  split
  · next domain value _ _ =>
    split
    · refine c.bind (?_ : R (domainValues ev _ value) (domainValues ev' _ value)) fun vs => c.bind ?_ fun ok => ?_
      · unfold domainValues
        split
        · exact c.elems (h _ value) fun _ _ => c.pure _
        · exact c.pure _
      · refine c.bind c.model fun m => ?_
        split
        · exact c.insideInts _ (h · _) fun v _ k => h _ v
        · exact c.insideFloats (h · _) (h · _) fun v _ k => h _ v
        · exact c.pure _
      · split
        · exact c.fail _ _
        · exact c.pure _
    · exact c.pure _
  · exact c.pure _

theorem detach (body : ExprId) : R (detach ev body) (detach ev' body) := by
  refine c.bind c.model fun m => ?_
  split
  · exact c.residualArray h body
  · exact c.pure _

theorem sourceValues (source : ExprId) : R (sourceValues ev source) (sourceValues ev' source) := by
  refine c.bind c.model fun m => ?_
  split
  · exact c.bind (h _ source) fun s => c.mapM fun v _ => c.expr _ _ _
  · exact c.elems (h _ source) fun _ _ => c.pure _

theorem access (array : ExprId) (indices : List ExprId) (span : Span) :
    R (access ev array indices span) (access ev' array indices span) := by
  refine c.bind (h _ array) fun a => c.bind (c.mapM fun i _ => h _ i) fun is => c.bind c.model fun m => ?_
  split
  · split
    · exact c.pure _
    · exact c.fail _ _
  · exact c.fail _ _

theorem residualBranches : ∀ kept branches : List (ExprId × ExprId),
    R (residualBranches ev kept branches) (residualBranches ev' kept branches)
  | kept, [] => c.pure _
  | kept, (cond, branch) :: rest => by
    refine c.bind c.model fun m => ?_
    split
    · refine c.bind (h _ cond) fun b => ?_
      split
      · exact c.pure _
      · exact residualBranches kept rest
    · exact c.bind (h _ cond) fun _ => c.bind (h _ branch) fun _ => residualBranches _ rest

end Calls
end Comparison

-- All rules of two evaluators, under two limits on the depth of calls.
structure Walks (R : {α : Type} → EvalM α → EvalM α → Prop) (ev ev' : Eval) (limit limit' : Nat) : Prop
    extends Comparison R ev ev' where
  asks : ∀ t e, R (ev t e) (ev' t e)
  within : ∀ {α : Type} {span : Span} {context : EvalError.Context} {x y : EvalM α},
    R x y → R (EvalM.within span context x) (EvalM.within span context y)
  ident : ∀ k name d span, R (identValue ev k name d span) (identValue ev' k name d span)
  lets : ∀ t l, R (withLet l (ev t l.body)) (withLet l (ev' t l.body))
  calls : ∀ t f args span, R (call ev limit f args span (ev t)) (call ev' limit' f args span (ev' t))
  comps : ∀ t c, R (comprehension ev c (ev t)) (comprehension ev' c (ev' t))

namespace Walks

variable {R : {α : Type} → EvalM α → EvalM α → Prop} {ev ev' : Eval} {limit limit' : Nat}
  (w : Walks R ev ev' limit limit')
include w

section Values

theorem compound (k : ValueKind) (x : Expr) : R (compound ev limit k x) (compound ev' limit' k x) := by
  unfold Eval.compound
  split
  · exact w.within (w.ident _ _ _ _)
  · exact w.selectBranch (fun b _ => w.asks _ b.1) fun r _ => w.asks _ r
  · exact w.bind (w.access w.asks _ _ _) fun _ => w.asks _ _
  · exact w.within (w.lets _ _)
  · refine w.bind w.model fun m => w.within ?_
    split
    · exact w.calls _ _ _ _
    · exact w.builtin (fun a _ t => w.asks t a) _ _ _
  · exact w.within (w.calls _ _ _ _)
  · exact w.within (w.calls _ _ _ _)
  · exact w.node (fun a _ t => w.asks t a) (fun d t _ => w.comps t d) _

-- What has a smaller type for one has it for the other.
theorem fromSmaller (k : ValueKind) (ty : Ty) (e : ExprId) :
    Option.Rel R (fromSmaller? ev k ty e) (fromSmaller? ev' k ty e) := by
  cases k <;> simp only [fromSmaller?]
  case int =>
    split
    · exact .some (w.bind (w.asks _ e) fun _ => w.pure _)
    · exact .none
  case float =>
    split
    · exact .some (w.bind (w.asks _ e) fun _ => w.pure _)
    · split
      · exact .some (w.bind (w.asks _ e) fun _ => w.pure _)
      · exact .none
  all_goals exact .none

theorem valueStep (k : ValueKind) (e : ExprId) : R (valueStep ev limit k e) (valueStep ev' limit' k e) := by
  refine w.bind w.model fun m => ?_
  have hs := w.fromSmaller k (m.expr e).ty e
  dsimp only
  generalize fromSmaller? ev k (m.expr e).ty e = v, fromSmaller? ev' k (m.expr e).ty e = v' at hs ⊢
  cases hs with
  | some hv => exact hv
  | none =>
    dsimp only
    split
    · exact w.pure _
    · exact w.compound k _

end Values

section Residuals

theorem stored (k : ValueKind) (e : ExprId) : R (stored ev k e) (stored ev' k e) := by
  refine w.bind (w.asks _ e) fun v => ?_
  cases k with
  | array => exact w.pure v
  | _ => exact w.expr _ _ _

theorem residualNode (e : ExprId) (x : Expr) : R (residualNode ev limit e x) (residualNode ev' limit' e x) := by
  unfold Eval.residualNode
  split
  · refine w.bind (w.residualBranches w.asks _ _) fun r => ?_
    split
    · exact w.asks _ _
    · refine w.bind (w.asks _ _) fun o => ?_
      split
      · exact w.pure _
      · exact w.expr _ _ _
  · refine w.bind w.model fun m => ?_
    split
    · exact w.within (w.calls _ _ _ _)
    · exact w.bind (w.mapM fun a _ => w.asks _ a) fun _ => w.expr _ _ _
  · refine w.bind w.model fun m => ?_
    split
    · exact w.calls _ _ _ _
    · exact w.bind (w.asks _ _) fun _ => w.bind (w.asks _ _) fun _ => w.expr _ _ _
  · refine w.bind w.model fun m => ?_
    split
    · exact w.calls _ _ _ _
    · exact w.bind (w.asks _ _) fun _ => w.expr _ _ _
  · refine w.bind w.model fun m => ?_
    split
    · exact w.bind (w.access w.asks _ _ _) fun _ => w.asks _ _
    · exact w.bind (w.asks _ _) fun _ => w.bind (w.mapM fun a _ => w.asks _ a) fun _ => w.expr _ _ _
  · exact w.bind (w.mapM fun a _ => w.asks _ a) fun _ => w.expr _ _ _
  · exact w.lets _ _
  · exact w.pure _

theorem residualByType (e : ExprId) (x : Expr) : R (residualByType ev limit e x) (residualByType ev' limit' e x) := by
  unfold Eval.residualByType
  split
  all_goals
    dsimp only
    split
    · exact w.residualArray w.asks _
    · split
      · exact w.stored _ _
      · exact w.residualNode _ _

theorem onlyValue (d : DeclId) : R (onlyValue? d) (onlyValue? d) := by
  refine w.bind w.model fun m => ?_
  split
  · exact w.bind (w.expr _ _ _) fun _ => w.pure _
  · exact w.pure _
  · exact w.pure _

theorem residualStep (e : ExprId) : R (residualStep ev limit e) (residualStep ev' limit' e) := by
  refine w.bind w.model fun m => ?_
  dsimp only
  split
  · exact w.pure _
  · exact w.pure _
  · exact w.pure _
  · exact w.pure _
  · next name decl _ =>
    refine w.bind ?_ fun d => w.bind (w.onlyValue d) fun v => w.bind w.model fun m => ?_
    · cases decl with
      | none => exact w.fail _ _
      | some d => exact w.bind w.model fun _ => w.pure _
    · split
      · exact w.pure _
      · exact w.pure _
      · split
        · exact w.residualByType _ _
        · exact w.within (w.asks _ _)
  · split
    · exact w.residualByType _ _
    · split
      · exact w.stored _ _
      · exact w.stored _ _
  · exact w.residualByType _ _

end Residuals

theorem step (t : Target) (e : ExprId) : R (step limit ev t e) (step limit' ev' t e) := by
  cases t with
  | value k => exact w.valueStep k e
  | residual => exact w.residualStep e

end Walks
end Parvar.Eval
