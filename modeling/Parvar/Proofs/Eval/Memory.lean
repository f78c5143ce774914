import Parvar.Proofs.Eval.Refinement

/-!
Values that are kept. A toplevel declaration keeps the value that it was first asked for, and so a
request changes the model for all that come after it. Where every request has a value in
environments, this can be told from no answer: each is what it would have been on the model as it was.
In particular a fixed expression leaves a literal of its value, as often as it is asked for.
-/

namespace Parvar

open Eval Machine Model

section Requests

-- A request that evaluation in environments has an answer to: the value of a kind, or the literal
-- that an expression leaves.
inductive Model.Answered (m : Model) (limit : Nat) : Target → ExprId → Prop
  | value {k : ValueKind} {e : ExprId} {v : k.Val} : m.Evaluates limit k e v → Answered m limit (.value k) e
  | residual {k : ValueKind} {e : ExprId} {v : k.Val} : (m.ty e).kind? = some k → m.Evaluates limit k e v →
      Answered m limit .residual e

-- The model after requests, one after the other.
def Model.after (m : Model) (limit : Nat) (requests : List (Target × ExprId)) : Model :=
  requests.foldl (fun m q => (m.evaluate q.1 q.2 limit).2) m

end Requests

variable {m m' : Model} {e : ExprId} {limit : Nat} {k : ValueKind} {v : k.Val}

section Steps

-- Nodes are only added, so there is no less fuel than at the outset.
theorem Machine.Above.fuelFor_le {s : Machine} (h : s.Above m) : fuelFor limit m ≤ fuelFor limit s.model := by
  have hti : s.model.typeInsts = m.typeInsts := congrArg (·.2.2.1) h.others
  have hfn : s.model.funcs = m.funcs := congrArg (·.2.2.2.1) h.others
  have hsize : m.size ≤ s.model.size := by
    have := h.grows.size_le
    simp only [Model.size, h.size, hti, hfn]
    omega
  simp only [fuelFor, walkFuel]
  gcongr

-- A machine that is outside of all calls is told by its model.
theorem Machine.Mirrors.restart {t : Machine} (h : t.Mirrors m [] 0) : Mirrors m { model := t.model } [] 0 := by
  obtain ⟨m₁, depth⟩ := t
  obtain rfl : depth = 0 := h.depth
  exact h

variable (hm : m.Evaluable e) (h : Mirrors m { model := m' } [] 0)

include hm h

-- The fuel of a request is enough to follow evaluation in environments.
theorem Machine.Mirrors.simulates (hv : m.Evaluates limit k e v) :
    ∃ R, Simulates m e 0 (run limit (fuelFor limit m')) R ∧ R [] k e = some v := by
  obtain ⟨fuel, hv⟩ := hv
  refine ⟨_, simulates_run hm _ ((demand_le_fuelFor m limit).trans h.above.fuelFor_le) (Nat.zero_add limit), ?_⟩
  exact Reference.run_bounded hm.toPlaced limit [] ([], e) (by simp [Env.IsArgs])
    ⟨.refl, [], .of_root hm.place List.mem_cons_self, rfl⟩ fuel k v hv

-- An expression has its value on every model that mirrors the first.
theorem Machine.Mirrors.evaluate (hv : m.Evaluates limit k e v) :
    ∃ m₁, m'.evaluate (.value k) e limit = (.ok v, m₁) ∧ Mirrors m { model := m₁ } [] 0 := by
  obtain ⟨R, hsim, hv⟩ := h.simulates hm hv
  obtain ⟨t, ht, hmt⟩ := hsim.value (Situated.start hm.toPlaced) h hv
  exact ⟨t.model, evaluate_eq_ok.mpr ⟨t, ht, rfl⟩, hmt.restart⟩

-- It leaves a literal of the value.
theorem Machine.Mirrors.residual (hk : (m.ty e).kind? = some k) (hv : m.Evaluates limit k e v) :
    ∃ a m₁, m'.evaluate .residual e limit = (.ok a, m₁) ∧ Mirrors m { model := m₁ } [] 0 ∧
      m₁.Stores a ⟨k, v⟩ := by
  obtain ⟨R, hsim, hv⟩ := h.simulates hm hv
  have hop : R.operand m [] e = some ⟨k, v⟩ := by simp [Reference.operand, hk, hv]
  obtain ⟨a, t, ht, hmt, hst⟩ := hsim.operand (Situated.start hm.toPlaced) h hop
  exact ⟨a, t.model, evaluate_eq_ok.mpr ⟨t, ht, rfl⟩, hmt.restart, hst⟩

omit hm in
-- No request with an answer can be told from the model that it leaves.
theorem Machine.Mirrors.after {requests : List (Target × ExprId)}
    (hq : ∀ q ∈ requests, m.Evaluable q.2 ∧ m.Answered limit q.1 q.2) :
    Mirrors m { model := m'.after limit requests } [] 0 := by
  induction requests generalizing m' with
  | nil => exact h
  | cons q rest ih =>
    obtain ⟨⟨hm, hans⟩, hrest⟩ := List.forall_mem_cons.mp hq
    obtain ⟨t, e⟩ := q
    change Mirrors m { model := (m'.evaluate t e limit).2.after limit rest } [] 0
    refine ih ?_ hrest
    cases hans with
    | value hv =>
      obtain ⟨m₁, hx, hm₁⟩ := h.evaluate hm hv
      rwa [hx]
    | residual hk hv =>
      obtain ⟨a, m₁, hx, hm₁, -⟩ := h.residual hm hk hv
      rwa [hx]

end Steps

-- What was evaluated before changes no value, in whichever kind it was asked for.
theorem memory_unseen {requests : List (Target × ExprId)} (hm : m.Evaluable e)
    (hq : ∀ q ∈ requests, m.Evaluable q.2 ∧ m.Answered limit q.1 q.2) (hv : m.Evaluates limit k e v) :
    ((m.after limit requests).evaluate (.value k) e limit).1 = .ok v := by
  obtain ⟨m₁, hx, -⟩ := ((mirrors_start m).after hq).evaluate hm hv
  rw [hx]

-- `f(n)` is asked for twice, as a value and as a residual, before it is asked for again.
theorem memory_unseen_product : (∀ q ∈ [(Target.value .int, (⟨15⟩ : ExprId)), (.residual, ⟨15⟩)],
    productModel.Evaluable q.2 ∧ productModel.Answered 3 q.1 q.2) ∧
      ((productModel.after 3 [(.value .int, ⟨15⟩), (.residual, ⟨15⟩)]).evaluate (.value .int) ⟨15⟩ 3).1 =
        .ok (4 : Int64) := by
  have hv : productModel.Evaluates 3 .int ⟨15⟩ (4 : Int64) := ⟨20, by cbv⟩
  have hq : ∀ q ∈ [(Target.value .int, (⟨15⟩ : ExprId)), (.residual, ⟨15⟩)],
      productModel.Evaluable q.2 ∧ productModel.Answered 3 q.1 q.2 := by
    simp only [List.forall_mem_cons]
    exact ⟨⟨evaluable_product, .value hv⟩, ⟨evaluable_product, .residual rfl hv⟩, by simp⟩
  exact ⟨hq, memory_unseen evaluable_product hq hv⟩

-- A fixed expression leaves a literal of its value, which has that value again.
theorem residual_is_value (hm : m.Evaluable e) (hk : (m.ty e).kind? = some k) (hv : m.Evaluates limit k e v) :
    ∃ r m₁, m.evaluate .residual e limit = (.ok r, m₁) ∧ m₁.kind r = (⟨k, v⟩ : Value).literal ∧
      (m.evaluate (.value k) e limit).1 = .ok v ∧ (m₁.evaluate (.value k) r limit).1 = .ok v := by
  obtain ⟨r, m₁, hr, -, hst⟩ := (mirrors_start m).residual hm hk hv
  obtain ⟨m₂, hx, -⟩ := (mirrors_start m).evaluate hm hv
  have hfuel : 0 < fuelFor limit m₁ := by simp [fuelFor, walkFuel]
  refine ⟨r, m₁, hr, hst.kind_eq (Ty.kind_ne_array hk), congrArg Prod.fst hx, ?_⟩
  exact congrArg Prod.fst (evaluate_eq_ok.mpr ⟨_, run_stores hst hfuel, rfl⟩)

-- `f(n)` leaves the literal 4.
theorem residual_is_value_product : ∃ r m₁, productModel.evaluate .residual ⟨15⟩ 3 = (.ok r, m₁) ∧
    m₁.kind r = .int 4 ∧ (productModel.evaluate (.value .int) ⟨15⟩ 3).1 = .ok (4 : Int64) ∧
      (m₁.evaluate (.value .int) r 3).1 = .ok (4 : Int64) :=
  have hv : productModel.Evaluates 3 .int ⟨15⟩ (4 : Int64) := ⟨20, by cbv⟩
  residual_is_value evaluable_product rfl hv

end Parvar
