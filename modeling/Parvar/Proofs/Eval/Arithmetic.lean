import Parvar.Eval.Run
import Parvar.Proofs.Model.Lookup

/-!
Arithmetic over decision variables: which expressions belong to it, and what they mean once the
variables have values. Meanings are given apart from any machine, by the rules of evaluation without
its effects.
-/

namespace Parvar

-- An anonymous variable is no set, and a range has two ends.
def Model.IsDomain (m : Model) (domain : ExprId) : Prop :=
  match m.kind domain with
  | .anon => False
  | .bin .range l r _ => m.kind l ≠ .anon ∧ m.kind r ≠ .anon
  | _ => True

-- A declaration with a domain and without a value.
structure Model.IsVariable (m : Model) (d : DeclId) : Prop where
  free : (m.decl d).init = none
  domain : ∃ domain, m.domain d = some domain ∧ m.IsDomain domain

-- Expressions of type `int` and, as conditions, of type `bool`. No operator or function in them has
-- a body.
inductive Model.Arithmetic (m : Model) : ValueKind → ExprId → Prop
  | int {e v} : m.kind e = .int v → (m.ty e).isInt → Arithmetic m .int e
  | var {e name d} : m.kind e = .ident name (some d) → (m.ty e).isInt →
      m.IsVariable (m.followFlat d) → Arithmetic m .int e
  | un {e op a fn} : m.kind e = .un op a fn → (m.ty e).isInt → m.withBody? fn = none →
      Arithmetic m .int a → Arithmetic m .int e
  | bin {e op l r fn} : m.kind e = .bin op l r fn → (m.ty e).isInt → m.withBody? fn = none →
      Arithmetic m .int l → Arithmetic m .int r → Arithmetic m .int e
  | ite {e branches otherwise} : m.kind e = .ite branches otherwise → (m.ty e).isInt →
      (∀ b ∈ branches, Arithmetic m .bool b.1) → (∀ b ∈ branches, Arithmetic m .int b.2) →
      Arithmetic m .int otherwise → Arithmetic m .int e
  | bool2int {e b fn} : m.kind e = .call "bool2int" [b] fn → (m.ty e).isInt →
      m.withBody? fn = none → Arithmetic m .bool b → Arithmetic m .int e
  | abs {e a fn} : m.kind e = .call "abs" [a] fn → (m.ty e).isInt → m.withBody? fn = none →
      Arithmetic m .int a → Arithmetic m .int e
  | pair {e name a b fn} : m.kind e = .call name [a, b] fn → (m.ty e).isInt →
      m.withBody? fn = none → name ∈ ["min", "max", "int_times"] → Arithmetic m .int a →
      Arithmetic m .int b → Arithmetic m .int e
  | sum {e array elems dims fn} : m.kind e = .call "sum" [array] fn → (m.ty e).isInt →
      m.withBody? fn = none → m.kind array = .arrayLit elems dims → 0 < (m.ty array).dim →
      (∀ x ∈ elems, Arithmetic m .int x) → Arithmetic m .int e
  | linear {e weights array c fn as dims xs dims'} :
      m.kind e = .call "lin_exp" [weights, array, c] fn → (m.ty e).isInt →
      m.withBody? fn = none → m.kind weights = .arrayLit as dims → 0 < (m.ty weights).dim →
      m.kind array = .arrayLit xs dims' → 0 < (m.ty array).dim → (∀ a ∈ as, Arithmetic m .int a) →
      (∀ x ∈ xs, Arithmetic m .int x) → Arithmetic m .int c → Arithmetic m .int e
  | bool {e b} : m.kind e = .bool b → (m.ty e).isBool → Arithmetic m .bool e
  | not {e a fn} : m.kind e = .un .not a fn → (m.ty e).isBool → m.withBody? fn = none →
      Arithmetic m .bool a → Arithmetic m .bool e
  | test {e op k l r fn} : m.kind e = .bin op l r fn → (m.ty e).isBool → m.withBody? fn = none →
      Arithmetic m k l → Arithmetic m k r → Arithmetic m .bool e

-- What expressions mean as integers, as truth values, and as the literals that they leave as
-- operands of a comparison. Some have no meaning.
structure Meaning where
  int : ExprId → Option Int64
  bool : ExprId → Option Bool
  operand : ExprId → Option ExprKind

namespace Meaning

open Eval

variable (m : Model) (ρ : DeclId → Option Int64) (M : Meaning)

-- The branch of the first condition that holds.
def choose (test : ExprId → Option Bool) (otherwise : ExprId) :
    List (ExprId × ExprId) → Option ExprId
  | [] => some otherwise
  | (cond, branch) :: rest => do
    if ← test cond then return branch else choose test otherwise rest

def ints (array : ExprId) : Option (List Int64) :=
  match m.kind array with
  | .arrayLit elems _ => elems.mapM M.int
  | _ => none

def intCall (name : String) (args : List ExprId) : Option Int64 :=
  match name, args with
  | "bool2int", [b] => (M.bool b).map Bool.toInt64
  | "abs", [x] => do Checked.abs (← M.int x)
  | "min", [a, b] => do return min (← M.int a) (← M.int b)
  | "max", [a, b] => do return max (← M.int a) (← M.int b)
  | "int_times", [a, b] => do Checked.mul (← M.int a) (← M.int b)
  | "sum", [xs] => do (← M.ints m xs).foldlM Checked.add 0
  | "lin_exp", [as, xs, c] => do intLinear (← M.int c) ((← M.ints m as).zip (← M.ints m xs))
  | _, _ => none

-- An operator with a function attached has no meaning here: it is evaluated by a call.
def intStep (e : ExprId) : Option Int64 :=
  match m.kind e with
  | .int v => some v
  | .ident _ (some d) => ρ (m.followFlat d)
  | .un .plus a none => M.int a
  | .un .minus a none => do Checked.neg (← M.int a)
  | .bin op l r none => do (intOp op (← M.int l) (← M.int r)).toOption
  | .ite branches otherwise => do M.int (← choose M.bool otherwise branches)
  | .call name args fn => if (m.withBody? fn).isSome then none else M.intCall m name args
  | _ => none

def literalTruth (op : BinOp) : ExprKind → ExprKind → Option Bool
  | .bool a, .bool b => (boolOp op a b).toOption
  | .int a, .int b => (relation op (some (compare a b))).toOption
  | .float a, .float b => (relation op (floatCmp a b)).toOption
  | _, _ => none

def test (op : BinOp) (l r : ExprId) : Option Bool :=
  let present (e : ExprId) := (m.ty e).isBool && !(m.ty e).isOpt
  match present l && present r, op with
  | true, .and => do if ← M.bool l then M.bool r else return false
  | true, .or => do if ← M.bool l then return true else M.bool r
  | true, .imp => do if ← M.bool l then M.bool r else return true
  | true, .revImp => do if ← M.bool r then M.bool l else return true
  | _, _ => do literalTruth op (← M.operand l) (← M.operand r)

def boolStep (e : ExprId) : Option Bool :=
  match m.kind e with
  | .bool b => some b
  | .un .not a none => do return !(← M.bool a)
  | .bin op l r none => M.test m op l r
  | _ => none

-- The only value in the domain of a declaration, as a literal.
def onlyLiteral? (d : DeclId) : Option ExprKind := (only? m d).map (Sum.elim .int m.kind)

-- A condition of a fixed type.
def fixedTest (c : ExprId) : Option Bool := if (m.ty c).isPar then M.bool c else none

-- What has a fixed type is evaluated. Of all else, literals remain literals, and a conditional is
-- one if fixed conditions lead to it.
def operandStep (e : ExprId) : Option ExprKind :=
  match m.kind e with
  | .ident _ (some d) =>
    match onlyLiteral? m (m.followFlat d) with
    | some kind => some kind
    | none =>
      if (literalKind? (m.ty e)).isSome then (M.int e).map .int
      else (ρ (m.followFlat d)).map .int
  | kind =>
    match literalKind? (m.ty e) with
    | some .int => (M.int e).map .int
    | some .bool => (M.bool e).map .bool
    | _ => match kind with
      | .int v => some (.int v)
      | .bool b => some (.bool b)
      | .ite branches otherwise => do M.operand (← choose (M.fixedTest m) otherwise branches)
      | _ => none

def step : Meaning where
  int := M.intStep m ρ
  bool := M.boolStep m
  operand := M.operandStep m ρ

-- Meanings of expressions that are at most `depth` nodes deep.
def upTo : Nat → Meaning
  | 0 => ⟨fun _ => none, fun _ => none, fun _ => none⟩
  | depth + 1 => (upTo depth).step m ρ

section Order

-- A result there is remains the same.
def Sub {α : Type} (a b : Option α) : Prop := ∀ v, a = some v → b = some v

namespace Sub

variable {α β : Type}

theorem refl (a : Option α) : Sub a a := fun _ => id

theorem bind_of {a b : Option α} {f g : α → Option β} (h : Sub a b)
    (hf : ∀ v, a = some v → Sub (f v) (g v)) : Sub (a >>= f) (b >>= g) := by
  intro w hw
  have ⟨v, hv, hf'⟩ := Option.bind_eq_some_iff.mp hw
  exact Option.bind_eq_some_iff.mpr ⟨v, h v hv, hf v hv w hf'⟩

theorem bind {a b : Option α} {f g : α → Option β} (h : Sub a b) (hf : ∀ v, Sub (f v) (g v)) :
    Sub (a >>= f) (b >>= g) :=
  h.bind_of fun v _ => hf v

theorem map {a b : Option α} {f : α → β} (h : Sub a b) : Sub (a.map f) (b.map f) := by
  intro w hw
  have ⟨v, hv, hf⟩ := Option.map_eq_some_iff.mp hw
  exact Option.map_eq_some_iff.mpr ⟨v, h v hv, hf⟩

theorem mapM {f g : α → Option β} :
    ∀ {as : List α}, (∀ a ∈ as, Sub (f a) (g a)) → Sub (as.mapM f) (as.mapM g)
  | [], _ => refl _
  | a :: as, h => by
    rw [List.mapM_cons, List.mapM_cons]
    refine bind (h a List.mem_cons_self) fun _ => ?_
    exact bind (mapM fun b hb => h b (List.mem_cons_of_mem _ hb)) fun _ => refl _

theorem choose {f g : ExprId → Option Bool} {otherwise : ExprId} :
    ∀ {branches : List (ExprId × ExprId)}, (∀ b ∈ branches, Sub (f b.1) (g b.1)) →
      Sub (choose f otherwise branches) (choose g otherwise branches)
  | [], _ => refl _
  | (c, b) :: rest, h => bind (h (c, b) List.mem_cons_self) fun t => by
    split
    · exact refl _
    · exact choose fun b hb => h b (List.mem_cons_of_mem _ hb)

end Sub

-- Whatever means something to the first means the same to the second.
structure Le (M N : Meaning) : Prop where
  int : ∀ e, Sub (M.int e) (N.int e)
  bool : ∀ e, Sub (M.bool e) (N.bool e)
  operand : ∀ e, Sub (M.operand e) (N.operand e)

namespace Le

variable {m ρ M} {N : Meaning} (h : Le M N)
include h

theorem ints (array : ExprId) : Sub (M.ints m array) (N.ints m array) := by
  unfold Meaning.ints
  split
  · exact .mapM fun a _ => h.int a
  · exact .refl _

theorem intCall (name : String) (args : List ExprId) :
    Sub (M.intCall m name args) (N.intCall m name args) := by
  unfold Meaning.intCall
  split
  · exact .map (h.bool _)
  · exact .bind (h.int _) fun _ => .refl _
  · exact .bind (h.int _) fun _ => .bind (h.int _) fun _ => .refl _
  · exact .bind (h.int _) fun _ => .bind (h.int _) fun _ => .refl _
  · exact .bind (h.int _) fun _ => .bind (h.int _) fun _ => .refl _
  · exact .bind (h.ints _) fun _ => .refl _
  · exact .bind (h.int _) fun _ => .bind (h.ints _) fun _ => .bind (h.ints _) fun _ => .refl _
  · exact .refl _

theorem intStep (e : ExprId) : Sub (M.intStep m ρ e) (N.intStep m ρ e) := by
  unfold Meaning.intStep
  split
  · exact .refl _
  · exact .refl _
  · exact h.int _
  · exact .bind (h.int _) fun _ => .refl _
  · exact .bind (h.int _) fun _ => .bind (h.int _) fun _ => .refl _
  · exact .bind (.choose fun b _ => h.bool b.1) fun _ => h.int _
  · split
    · exact .refl _
    · exact h.intCall _ _
  · exact .refl _

theorem test (op : BinOp) (l r : ExprId) : Sub (M.test m op l r) (N.test m op l r) := by
  unfold Meaning.test
  dsimp only
  split
  all_goals first
    | exact .bind (h.operand _) fun _ => .bind (h.operand _) fun _ => .refl _
    | refine .bind (h.bool _) fun b => ?_
      cases b
      all_goals first | exact h.bool _ | exact .refl _

theorem boolStep (e : ExprId) : Sub (M.boolStep m e) (N.boolStep m e) := by
  unfold Meaning.boolStep
  split
  · exact .refl _
  · exact .bind (h.bool _) fun _ => .refl _
  · exact h.test _ _ _
  · exact .refl _

theorem fixedTest (c : ExprId) : Sub (M.fixedTest m c) (N.fixedTest m c) := by
  unfold Meaning.fixedTest
  split
  · exact h.bool _
  · exact .refl _

theorem operandStep (e : ExprId) : Sub (M.operandStep m ρ e) (N.operandStep m ρ e) := by
  unfold Meaning.operandStep
  split
  · split
    · exact .refl _
    · split
      · exact .map (h.int _)
      · exact .refl _
  · split
    · exact .map (h.int _)
    · exact .map (h.bool _)
    · split
      · exact .refl _
      · exact .refl _
      · exact .bind (.choose fun b _ => h.fixedTest b.1) fun _ => h.operand _
      · exact .refl _

theorem step : Le (M.step m ρ) (N.step m ρ) := ⟨h.intStep, h.boolStep, h.operandStep⟩

end Le

variable {m ρ}

theorem upTo_le_succ : ∀ n, Le (upTo m ρ n) (upTo m ρ (n + 1))
  | 0 => ⟨nofun, nofun, nofun⟩
  | n + 1 => (upTo_le_succ n).step

theorem int_upTo_mono {n k : Nat} (h : n ≤ k) (e : ExprId) :
    Sub ((upTo m ρ n).int e) ((upTo m ρ k).int e) := by
  induction h with
  | refl => exact .refl _
  | step _ ih => exact fun v hv => (upTo_le_succ _).int e v (ih v hv)

theorem bool_upTo_mono {n k : Nat} (h : n ≤ k) (e : ExprId) :
    Sub ((upTo m ρ n).bool e) ((upTo m ρ k).bool e) := by
  induction h with
  | refl => exact .refl _
  | step _ ih => exact fun v hv => (upTo_le_succ _).bool e v (ih v hv)

-- Meanings do not depend on the depth that they were found at.
theorem int_unique {n k : Nat} {e : ExprId} {v w : Int64} (hv : (upTo m ρ n).int e = some v)
    (hw : (upTo m ρ k).int e = some w) : v = w := by
  have hv := int_upTo_mono (Nat.le_max_left n k) e v hv
  have hw := int_upTo_mono (Nat.le_max_right n k) e w hw
  exact Option.some.inj (hv.symm.trans hw)

theorem bool_unique {n k : Nat} {e : ExprId} {a b : Bool} (ha : (upTo m ρ n).bool e = some a)
    (hb : (upTo m ρ k).bool e = some b) : a = b := by
  have ha := bool_upTo_mono (Nat.le_max_left n k) e a ha
  have hb := bool_upTo_mono (Nat.le_max_right n k) e b hb
  exact Option.some.inj (ha.symm.trans hb)

end Order
end Meaning
end Parvar
