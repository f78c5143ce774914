import Parvar.Proofs.Eval.Arithmetic
import Parvar.Proofs.Model.Place

/-!
Evaluation of scalars without a machine. What the local names stand for is passed along in an
environment that nothing changes: an argument by its value, a variable of a let by its name, which is
looked up in the environment of the let each time. Toplevel declarations are evaluated anew at each
use. The operators, the limit on the depth of calls and the domains of parameters are those of the
machine.
-/

namespace Parvar

open Eval

-- The kind of the values of a present scalar type, fixed or not.
def Ty.kind? (t : Ty) : Option ValueKind := (literalKind? (t.withInst .par)).filter (· ≠ .array)

-- A truth value counts as 0 or 1, and an integer as a float.
def ValueKind.smaller? : (k : ValueKind) → Ty → Option ((k' : ValueKind) × (k'.Val → k.Val))
  | .int, ty => if ty.isBool then some ⟨.bool, Bool.toInt64⟩ else none
  | .float, ty =>
    if ty.isInt then some ⟨.int, Int64.toFloat⟩
    else if ty.isBool then some ⟨.bool, fun b : Bool => if b then (1 : Float) else (0 : Float)⟩
    else none
  | _, _ => none

structure Value where
  kind : ValueKind
  val : kind.Val

namespace Value

def read (v : Value) (k : ValueKind) : Option k.Val :=
  if h : v.kind = k then some (h ▸ v.val) else none

def literal : Value → ExprKind
  | ⟨.int, v⟩ => .int v
  | ⟨.bool, v⟩ => .bool v
  | ⟨.float, v⟩ => .float v
  | ⟨.string, v⟩ => .string v
  | ⟨.intSet, s⟩ | ⟨.boolSet, s⟩ => .intSet s
  | ⟨.array, _⟩ => .anon

end Value

-- The local names in scope, the innermost first. A variable of a let has no value of its own.
abbrev Env := List (DeclId × Option Value)

namespace Env

-- What a name stands for, and the environment that it was declared in.
def find? (d : DeclId) : Env → Option (Option Value × Env)
  | [] => none
  | (c, v) :: ρ => if c = d then some (v, ρ) else find? d ρ

def letIn (ρ : Env) (items : List LetItem) : Env :=
  (items.flatMap LetItem.decls).reverse.map (·, none) ++ ρ

end Env

namespace Model

section Names

variable (m : Model)

def isToplevel (d : DeclId) : Bool :=
  m.itemPaths.any fun p => (m.itemAt? p).any fun item => d ∈ item.decls

-- All declarations on the way to the one that stands in are toplevel.
def linksToplevel : Nat → DeclId → Bool
  | 0, d => m.isToplevel d
  | steps + 1, d =>
    m.isToplevel d && match (m.decl d).flat with
      | some next => next = d || linksToplevel steps next
      | none => true

-- The function with a body that an expression calls, by its name or by an operator.
def callee? (e : ExprId) : Option (FuncId × List ExprId) :=
  match m.kind e with
  | .call _ args fn => (m.withBody? fn).map (·, args)
  | .bin _ l r (some f) => some (f, [l, r])
  | .un _ a (some f) => some (f, [a])
  | _ => none

end Names
end Model

-- Values of expressions in environments, where there are any.
abbrev Reference := Env → (k : ValueKind) → ExprId → Option k.Val

namespace Reference

variable (m : Model) (R : Reference) (ρ : Env)

section Kinds

def int (e : ExprId) : Option Int64 := R ρ .int e

def bool (e : ExprId) : Option Bool := R ρ .bool e

def float (e : ExprId) : Option Float := R ρ .float e

def string (e : ExprId) : Option String := R ρ .string e

def intSet (e : ExprId) : Option IntSet := R ρ .intSet e

def boolSet (e : ExprId) : Option IntSet := R ρ .boolSet e

end Kinds

def operand (e : ExprId) : Option Value := do
  let k ← (m.ty e).kind?
  return ⟨k, ← R ρ k e⟩

section Nodes

def literalTruth (op : BinOp) : ExprKind → ExprKind → Option Bool
  | .bool a, .bool b => (boolOp op a b).toOption
  | .int a, .int b => (relation op (some (compare a b))).toOption
  | .float a, .float b => (relation op (floatCmp a b)).toOption
  | .string a, .string b => (relation op (some (compare a b))).toOption
  | .int v, .intSet s => if op = .mem then some (s.contains v) else none
  | .bool v, .intSet s => if op = .mem then some (s.contains v.toInt64) else none
  | .intSet a, .intSet b => (setRelation op a b).toOption
  | _, _ => none

def test (op : BinOp) (l r : ExprId) : Option Bool :=
  let present (e : ExprId) := (m.ty e).isBool && !(m.ty e).isOpt
  match present l && present r, op with
  | true, .and => do if ← R.bool ρ l then R.bool ρ r else return false
  | true, .or => do if ← R.bool ρ l then return true else R.bool ρ r
  | true, .imp => do if ← R.bool ρ l then R.bool ρ r else return true
  | true, .revImp => do if ← R.bool ρ r then R.bool ρ l else return true
  | _, _ => do
    let a ← R.operand m ρ l
    let b ← R.operand m ρ r
    literalTruth op a.literal b.literal

-- The builtin operators, the literals of sets, and the coercions that numbers are widened by.
def intNode : ExprKind → Option Int64
  | .bin op l r none => do (intOp op (← R.int ρ l) (← R.int ρ r)).toOption
  | .un .plus a none => R.int ρ a
  | .un .minus a none => do Checked.neg (← R.int ρ a)
  | .call name [a] _ => if name = "bool2int" then (R.bool ρ a).map Bool.toInt64 else none
  | _ => none

def floatNode : ExprKind → Option Float
  | .bin op l r none => do (floatOp op (← R.float ρ l) (← R.float ρ r)).toOption
  | .un .plus a none => R.float ρ a
  | .un .minus a none => (R.float ρ a).map (-·)
  | .call name [a] _ =>
    if name = "int2float" then (R.int ρ a).map Int64.toFloat
    else if name = "bool2float" then (R.bool ρ a).map fun b => if b then 1 else 0
    else none
  | _ => none

def boolNode : ExprKind → Option Bool
  | .bin op l r none => R.test m ρ op l r
  | .un .not a none => (R.bool ρ a).map not
  | _ => none

def stringNode : ExprKind → Option String
  | .bin .append l r none => do return (← R.string ρ l) ++ (← R.string ρ r)
  | _ => none

def intSetNode : ExprKind → Option IntSet
  | .setLit elems => (elems.mapM (R.int ρ)).map .ofValues
  | .bin op l r none =>
    if op = .range then do return .range (← R.int ρ l) (← R.int ρ r)
    else do (setOp .intSet op (← R.intSet ρ l) (← R.intSet ρ r)).toOption
  | _ => none

def boolSetNode : ExprKind → Option IntSet
  | .setLit elems => (elems.mapM (R.bool ρ)).map fun bs => .ofValues (bs.map Bool.toInt64)
  | .bin op l r none => do (setOp .boolSet op (← R.boolSet ρ l) (← R.boolSet ρ r)).toOption
  | _ => none

def node : (k : ValueKind) → ExprKind → Option k.Val
  | .int => R.intNode ρ
  | .float => R.floatNode ρ
  | .bool => R.boolNode m ρ
  | .string => R.stringNode ρ
  | .intSet => R.intSetNode ρ
  | .boolSet => R.boolSetNode ρ
  | .array => fun _ => none

end Nodes

section Names

-- A declaration of a scalar is evaluated by its initializer.
def declared (k : ValueKind) (d : DeclId) : Option k.Val :=
  if (m.decl d).ty.kind? = some k then (m.decl d).init.bind (R ρ k) else none

def name (k : ValueKind) (d : DeclId) : Option k.Val :=
  match ρ.find? d with
  | some (some v, _) => v.read k
  | some (none, scope) => R.declared m scope k d
  | none =>
    if m.linksToplevel m.decls.size d then R.declared m [] k (m.followFlat d) else none

end Names

section Calls

-- A domain is evaluated outside of the function. Only numbers are checked.
def inside (p : DeclId) (v : Value) : Option Bool :=
  let ty := (m.decl p).ty
  match m.domain p with
  | none => some true
  | some domain =>
    if !ty.isPar || (m.kind domain).isTypeVar then some true
    else match ty.base, m.kind domain with
      | .int, _ => do
        let s ← R.intSet [] domain
        if ty.isSetTy then return (← v.read .intSet).subset s
        return s.contains (← v.read .int)
      | .float, .bin .range l r _ => do
        let lo ← R.float [] l
        let hi ← R.float [] r
        let x : Float ← v.read .float
        return lo ≤ x && x ≤ hi
      | _, _ => some true

-- The arguments of a call where they are as many as the parameters and lie in their domains.
def arguments (below : Reference) (params : List DeclId) (args : List ExprId) :
    Option (List Value) := do
  guard (params.length = args.length ∧ ∀ p ∈ params, (m.decl p).ty.dim = 0)
  let vs ← args.mapM (R.operand m ρ)
  let fits ← (params.zip vs).mapM fun (p, v) => below.inside m p v
  guard (∀ fit ∈ fits, fit = true)
  return vs

-- The body sees the parameters and nothing else. `below` has one call less to spend.
def call (below : Reference) (f : FuncId) (args : List ExprId) (k : ValueKind) : Option k.Val := do
  let body ← (m.func f).body
  guard ((m.ty body).dim ≤ 0)
  let vs ← R.arguments m ρ below (m.func f).params args
  below ((m.func f).params.zip (vs.map some)) k body

end Calls

section Run

def compound (below : Option Reference) (k : ValueKind) (e : ExprId) : Option k.Val :=
  match m.callee? e with
  | some (f, args) => below.bind fun B => R.call m ρ B f args k
  | none => match m.kind e with
    | .ident _ (some d) => R.name m ρ k d
    | .ite branches otherwise => do R ρ k (← Meaning.choose (R.bool ρ) otherwise branches)
    | .letIn l => R (ρ.letIn l.items) k l.body
    | kind => R.node m ρ k kind

def step (below : Option Reference) : Reference := fun ρ k e =>
  if k = .array then none
  else match k.smaller? (m.ty e) with
    | some ⟨k', widen⟩ => (R ρ k' e).map widen
    | none => match k.literal? e (m.kind e) with
      | some v => some v
      | none => R.compound m ρ below k e

-- `calls` may be nested, and the whole is at most `fuel` steps deep.
def run : (fuel calls : Nat) → Reference
  | 0, _ => fun _ _ _ => none
  | fuel + 1, calls => step m (run fuel calls) <| match calls with
    | 0 => none
    | calls + 1 => some (run fuel calls)

end Run
end Reference

-- The value of an expression that stands outside of all functions.
def Model.Evaluates (m : Model) (limit : Nat) (k : ValueKind) (e : ExprId) (v : k.Val) : Prop :=
  ∃ fuel, Reference.run m fuel limit [] k e = some v

section Demand

variable (m : Model)

-- What the value of an expression is made of, at the same depth of calls.
inductive Model.Asks : Env × ExprId → Env × ExprId → Prop
  | self {c} : Asks c c
  | part {ρ e x} (hx : .expr x ∈ (m.kind e).parts Generator.parts) (hl : ∀ l, m.kind e ≠ .letIn l) :
      Asks (ρ, e) (ρ, x)
  | body {ρ e l} (hl : m.kind e = .letIn l) : Asks (ρ, e) (ρ.letIn l.items, l.body)
  | bound {ρ scope e name d i} (he : m.kind e = .ident name (some d))
      (hd : ρ.find? d = some (none, scope)) (hi : (m.decl d).init = some i) : Asks (ρ, e) (scope, i)
  | toplevel {ρ e name d i} (he : m.kind e = .ident name (some d))
      (hd : m.linksToplevel m.decls.size d) (hi : (m.decl (m.followFlat d)).init = some i) :
      Asks (ρ, e) ([], i)

-- The same, one call deeper.
inductive Model.Enters (e : ExprId) : Env × ExprId → Prop
  | body {f args body} (vs : List Value) (hf : m.callee? e = some (f, args))
      (hb : (m.func f).body = some body) : Enters e ((m.func f).params.zip (vs.map some), body)
  | domain {f args p domain} (hf : m.callee? e = some (f, args)) (hp : p ∈ (m.func f).params)
      (hd : m.domain p = some domain) : Enters e ([], domain)
  | ends {f args p domain l r fn x} (hf : m.callee? e = some (f, args)) (hp : p ∈ (m.func f).params)
      (hd : m.domain p = some domain) (hr : m.kind domain = .bin .range l r fn) (hx : x ∈ [l, r]) :
      Enters e ([], x)

end Demand

namespace Reference

open Meaning

variable {m : Model} {R R' B B' : Reference} {ρ : Env} {e : ExprId}

-- What has a value at some place has the same value there.
def Le (R R' : Reference) (c : Env × ExprId) : Prop := ∀ k, Sub (R c.1 k c.2) (R' c.1 k c.2)

section Order

theorem sub_operand {x : ExprId} (h : R.Le R' (ρ, x)) : Sub (R.operand m ρ x) (R'.operand m ρ x) :=
  .bind (.refl _) fun k => .bind (h k) fun _ => .refl _

theorem sub_test {op : BinOp} {l r : ExprId} (hl : R.Le R' (ρ, l)) (hr : R.Le R' (ρ, r)) :
    Sub (R.test m ρ op l r) (R'.test m ρ op l r) := by
  unfold test
  dsimp only
  split
  all_goals first
    | exact .bind (sub_operand hl) fun _ => .bind (sub_operand hr) fun _ => .refl _
    | refine .bind (hl .bool) fun b => ?_
      cases b
      all_goals first | exact hr .bool | exact .refl _
    | refine .bind (hr .bool) fun b => ?_
      cases b
      all_goals first | exact hl .bool | exact .refl _

section Nodes

variable {kind : ExprKind} (h : ∀ x, .expr x ∈ kind.parts Generator.parts → R.Le R' (ρ, x))
include h

theorem sub_intNode : Sub (R.intNode ρ kind) (R'.intNode ρ kind) := by
  unfold intNode
  split <;> simp [ExprKind.parts] at h
  · exact .bind (h.1 _) fun _ => .bind (h.2 _) fun _ => .refl _
  · exact h _
  · exact .bind (h _) fun _ => .refl _
  · split
    · exact .map (h _)
    · exact .refl _
  · exact .refl _

theorem sub_floatNode : Sub (R.floatNode ρ kind) (R'.floatNode ρ kind) := by
  unfold floatNode
  split <;> simp [ExprKind.parts] at h
  · exact .bind (h.1 _) fun _ => .bind (h.2 _) fun _ => .refl _
  · exact h _
  · exact .map (h _)
  · split
    · exact .map (h _)
    · split
      · exact .map (h _)
      · exact .refl _
  · exact .refl _

theorem sub_boolNode : Sub (R.boolNode m ρ kind) (R'.boolNode m ρ kind) := by
  unfold boolNode
  split <;> simp [ExprKind.parts] at h
  · exact sub_test h.1 h.2
  · exact .map (h _)
  · exact .refl _

theorem sub_stringNode : Sub (R.stringNode ρ kind) (R'.stringNode ρ kind) := by
  unfold stringNode
  split <;> simp [ExprKind.parts] at h
  · exact .bind (h.1 _) fun _ => .bind (h.2 _) fun _ => .refl _
  · exact .refl _

theorem sub_intSetNode : Sub (R.intSetNode ρ kind) (R'.intSetNode ρ kind) := by
  unfold intSetNode
  split <;> simp [ExprKind.parts] at h
  · exact .map (.mapM fun x hx => h x hx _)
  · split
    all_goals exact .bind (h.1 _) fun _ => .bind (h.2 _) fun _ => .refl _
  · exact .refl _

theorem sub_boolSetNode : Sub (R.boolSetNode ρ kind) (R'.boolSetNode ρ kind) := by
  unfold boolSetNode
  split <;> simp [ExprKind.parts] at h
  · exact .map (.mapM fun x hx => h x hx _)
  · exact .bind (h.1 _) fun _ => .bind (h.2 _) fun _ => .refl _
  · exact .refl _

theorem sub_node (k : ValueKind) : Sub (R.node m ρ k kind) (R'.node m ρ k kind) := by
  cases k with
  | int => exact sub_intNode h
  | float => exact sub_floatNode h
  | bool => exact sub_boolNode h
  | string => exact sub_stringNode h
  | intSet => exact sub_intSetNode h
  | boolSet => exact sub_boolSetNode h
  | array => exact .refl _

end Nodes

theorem sub_declared {k : ValueKind} {d : DeclId}
    (h : ∀ i, (m.decl d).init = some i → R.Le R' (ρ, i)) :
    Sub (R.declared m ρ k d) (R'.declared m ρ k d) := by
  unfold declared
  split
  · exact .bind_of (.refl _) fun i hi => h i hi k
  · exact .refl _

theorem sub_inside {p : DeclId} {v : Value}
    (h : ∀ domain, m.domain p = some domain → B.Le B' ([], domain))
    (hr : ∀ domain l r fn, m.domain p = some domain → m.kind domain = .bin .range l r fn →
      ∀ x ∈ [l, r], B.Le B' ([], x)) :
    Sub (B.inside m p v) (B'.inside m p v) := by
  unfold inside
  dsimp only
  split
  · exact .refl _
  · next domain hd =>
    split
    · exact .refl _
    · split
      · refine .bind (h domain hd _) fun s => .refl _
      · next l r fn _ hk =>
        have hx := hr domain l r fn hd hk
        exact .bind (hx l (by simp) _) fun _ => .bind (hx r (by simp) _) fun _ => .refl _
      · exact .refl _

theorem sub_call {f : FuncId} {args : List ExprId} {k : ValueKind}
    (hf : m.callee? e = some (f, args)) (hR : ∀ a ∈ args, R.Le R' (ρ, a))
    (hB : ∀ c, m.Enters e c → B.Le B' c) : Sub (R.call m ρ B f args k) (R'.call m ρ B' f args k) := by
  refine .bind_of (.refl _) fun body hb => .bind (.refl _) fun _ => ?_
  refine .bind ?_ fun vs => hB _ (.body vs hf hb) k
  refine .bind (.refl _) fun _ => .bind (.mapM fun a ha => sub_operand (hR a ha)) fun vs => ?_
  refine .bind (.mapM fun pv hpv => ?_) fun _ => .refl _
  have hp := (List.of_mem_zip hpv).1
  refine sub_inside (fun domain hd => hB _ (.domain hf hp hd)) ?_
  exact fun domain l r fn hd hk x hx => hB _ (.ends hf hp hd hk hx)

theorem mem_of_choose {test : ExprId → Option Bool} {otherwise b : ExprId} :
    ∀ {branches : List (ExprId × ExprId)}, choose test otherwise branches = some b →
      b = otherwise ∨ ∃ c, (c, b) ∈ branches
  | [], h => .inl (Option.some.inj h).symm
  | (c, x) :: rest, h => by
    have ⟨t, _, h⟩ := Option.bind_eq_some_iff.mp h
    cases t
    case true => exact .inr ⟨c, Option.some.inj h ▸ List.mem_cons_self⟩
    case false => exact (mem_of_choose h).imp_right fun ⟨c, hc⟩ => ⟨c, List.mem_cons_of_mem _ hc⟩

theorem mem_args {f : FuncId} {args : List ExprId} {a : ExprId} (hf : m.callee? e = some (f, args))
    (ha : a ∈ args) : .expr a ∈ (m.kind e).parts Generator.parts ∧ ∀ l, m.kind e ≠ .letIn l := by
  unfold Model.callee? at hf
  split at hf
  · next hk =>
    obtain ⟨_, _, hfa⟩ := Option.map_eq_some_iff.mp hf
    cases hfa
    simpa [hk, ExprKind.parts] using ha
  · next hk =>
    cases hf
    simpa [hk, ExprKind.parts] using ha
  · next hk =>
    cases hf
    simpa [hk, ExprKind.parts] using ha
  · cases hf

variable {below below' : Option Reference} (hR : ∀ c, m.Asks (ρ, e) c → R.Le R' c)
  (hB : ∀ B ∈ below, ∃ B' ∈ below', ∀ c, m.Enters e c → B.Le B' c)

include hR hB

theorem sub_compound (k : ValueKind) :
    Sub (R.compound m ρ below k e) (R'.compound m ρ below' k e) := by
  have hp : (∀ l, m.kind e ≠ .letIn l) → ∀ x, .expr x ∈ (m.kind e).parts Generator.parts →
      R.Le R' (ρ, x) := fun hl x hx => hR _ (.part hx hl)
  unfold compound
  split
  · next f args hf =>
    cases below with
    | none => exact nofun
    | some B =>
      obtain ⟨B', rfl, hE⟩ := hB B rfl
      exact sub_call hf (fun a ha => hR _ (.part (mem_args hf ha).1 (mem_args hf ha).2)) hE
  · split
    · next name d he =>
      unfold Reference.name
      split
      · exact .refl _
      · next hd => exact sub_declared fun i hi => hR _ (.bound he hd hi)
      · split
        · next hd => exact sub_declared fun i hi => hR _ (.toplevel he hd hi)
        · exact .refl _
    · next branches otherwise he =>
      have hp := hp (by simp [he])
      simp only [he, ExprKind.parts, List.mem_append, List.mem_flatMap] at hp
      refine .bind_of (.choose fun b hb => ?_) fun r hr => ?_
      · exact hp b.1 (.inl ⟨b, hb, by simp⟩) .bool
      · obtain rfl | ⟨c, hc⟩ := mem_of_choose hr
        · exact hp r (by simp) k
        · exact hp r (.inl ⟨_, hc, by simp⟩) k
    · next l hl => exact hR _ (.body hl) k
    · next hl => exact sub_node (hp fun l he => hl l he) k

theorem sub_step (k : ValueKind) : Sub (step m R below ρ k e) (step m R' below' ρ k e) := by
  unfold step
  split
  · exact .refl _
  · split
    · exact .map (hR _ .self _)
    · split
      · exact .refl _
      · exact sub_compound hR hB k

omit hR hB

-- One more step, from a start where all that is asked for has the same value.
theorem sub_run {fuel fuel' calls calls' : Nat}
    (hR : ∀ c, m.Asks (ρ, e) c → (run m fuel calls).Le (run m fuel' calls') c)
    (hB : ∀ n, calls = n + 1 → ∃ n', calls' = n' + 1 ∧ ∀ c, m.Enters e c →
      (run m fuel n).Le (run m fuel' n') c) :
    (run m (fuel + 1) calls).Le (run m (fuel' + 1) calls') (ρ, e) := by
  refine sub_step hR ?_
  cases calls with
  | zero =>
    intro _ hB
    cases hB
  | succ n =>
    obtain ⟨n', rfl, hE⟩ := hB n rfl
    rintro _ ⟨⟩
    exact ⟨_, rfl, hE⟩

-- More fuel and more calls do no harm.
theorem run_mono {k : ValueKind} {v : k.Val} {fuel fuel' calls calls' : Nat} (hf : fuel ≤ fuel')
    (hc : calls ≤ calls') (h : run m fuel calls ρ k e = some v) : run m fuel' calls' ρ k e = some v := by
  induction fuel generalizing fuel' calls calls' ρ k e with
  | zero => cases h
  | succ fuel ih =>
    obtain ⟨fuel', rfl⟩ : ∃ n, fuel' = n + 1 := ⟨fuel' - 1, by omega⟩
    have hf : fuel ≤ fuel' := by omega
    refine sub_run (fun c _ k v => ih hf hc) (fun n hn => ⟨calls' - 1, by omega, fun c _ k v => ?_⟩) k v h
    exact ih hf (by omega)

-- Values do not depend on how they were found.
theorem run_unique {k : ValueKind} {v w : k.Val} {fuel fuel' calls calls' : Nat}
    (hv : run m fuel calls ρ k e = some v) (hw : run m fuel' calls' ρ k e = some w) : v = w := by
  have hv := run_mono (Nat.le_max_left fuel fuel') (Nat.le_max_left calls calls') hv
  have hw := run_mono (Nat.le_max_right fuel fuel') (Nat.le_max_right calls calls') hw
  exact Option.some.inj (hv.symm.trans hw)

end Order
end Reference
end Parvar
