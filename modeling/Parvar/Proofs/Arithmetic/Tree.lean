import Parvar.Eval.Run
import Parvar.Proofs.Typing.Standard

/-!
Closed arithmetic and what it means. Truth values are the numbers 0 and 1. Meanings are unbounded
integers, of which only those of 64 bits are results; all others are errors of the place where they
come up.
-/

namespace Parvar

-- The types that closed arithmetic has.
inductive Scalar where
  | int
  | bool
deriving DecidableEq

namespace Scalar

def ty : Scalar → Ty
  | int => .parInt
  | bool => .parBool

def kind : Scalar → ValueKind
  | int => .int
  | bool => .bool

def number : (k : Scalar) → k.kind.Val → Int
  | int, v => Int64.toInt v
  | bool, b => Bool.toInt b

-- Truth values can be taken for integers.
def Fits (a k : Scalar) : Prop := a = .bool ∨ a = k

def join : Scalar → Scalar → Scalar
  | bool, k => k
  | int, _ => int

end Scalar

namespace Arith

inductive Op where
  | add
  | sub
  | mul
  | div
  | mod
  | lt
  | le
  | gt
  | ge
  | eq
  | ne
  | iff
  | xor
  | and
  | or
  | imp
  | revImp
deriving DecidableEq

def Op.symbol : Op → BinOp
  | add => .add
  | sub => .sub
  | mul => .mul
  | div => .idiv
  | mod => .mod
  | lt => .lt
  | le => .le
  | gt => .gt
  | ge => .ge
  | eq => .eq
  | ne => .ne
  | iff => .iff
  | xor => .xor
  | and => .and
  | or => .or
  | imp => .imp
  | revImp => .revImp

-- What both operands are taken for, and the type of the result.
def Op.scalars : Op → Scalar → Scalar → Option (Scalar × Scalar)
  | add, _, _ | sub, _, _ | mul, _, _ | div, _, _ | mod, _, _ => some (.int, .int)
  | lt, a, b | le, a, b | gt, a, b | ge, a, b | eq, a, b | ne, a, b => some (a.join b, .bool)
  | _, .bool, .bool => some (.bool, .bool)
  | _, _, _ => none

def unary : UnOp → Scalar → Option (Scalar × Scalar)
  | .not, .bool => some (.bool, .bool)
  | .not, .int => none
  | .plus, _ | .minus, _ => some (.int, .int)

-- An error and the place where it comes up.
structure Failure where
  cause : EvalError.Cause
  span : Span
deriving DecidableEq

def truth (p : Prop) [Decidable p] : Int := if p then 1 else 0

def fit (span : Span) (n : Int) : Except Failure Int :=
  if -2 ^ 63 ≤ n ∧ n < 2 ^ 63 then .ok n else .error ⟨.overflow, span⟩

def nonzero (span : Span) (n : Int) : Except Failure Unit :=
  if n = 0 then .error ⟨.divisionByZero, span⟩ else .ok ()

-- The first operand comes first, except for `<-`. Some operators look at the other one only if they
-- must. A remainder overflows where the quotient does.
def Op.meaning (op : Op) (span : Span) (l r : Except Failure Int) : Except Failure Int :=
  match op with
  | add => do fit span ((← l) + (← r))
  | sub => do fit span ((← l) - (← r))
  | mul => do fit span ((← l) * (← r))
  | div => do
    let (a, b) := (← l, ← r)
    nonzero span b
    fit span (a.tdiv b)
  | mod => do
    let (a, b) := (← l, ← r)
    nonzero span b
    if a = -2 ^ 63 ∧ b = -1 then .error ⟨.overflow, span⟩ else .ok (a.tmod b)
  | lt => do return truth ((← l) < (← r))
  | le => do return truth ((← l) ≤ (← r))
  | gt => do return truth ((← l) > (← r))
  | ge => do return truth ((← l) ≥ (← r))
  | eq | iff => do return truth ((← l) = (← r))
  | ne | xor => do return truth ((← l) ≠ (← r))
  | and => do if (← l) = 0 then return 0 else r
  | or => do if (← l) = 0 then r else return 1
  | imp => do if (← l) = 0 then return 1 else r
  | revImp => do if (← r) = 0 then return 1 else l

def unaryMeaning (op : UnOp) (span : Span) (a : Except Failure Int) : Except Failure Int :=
  match op with
  | .not => do return truth ((← a) = 0)
  | .plus => a
  | .minus => do fit span (-(← a))

end Arith

-- Expressions of literals, operators and conditionals. Operators know their places.
inductive Arith where
  | int (v : Int64)
  | bool (b : Bool)
  | bin (span : Span) (op : Arith.Op) (lhs rhs : Arith)
  | un (span : Span) (op : UnOp) (arg : Arith)
  | ite (cond value rest : Arith)
deriving DecidableEq

namespace Arith

-- The value, or the first error.
def eval : Arith → Except Failure Int
  | int v => .ok v.toInt
  | bool b => .ok b.toInt
  | bin span op l r => op.meaning span l.eval r.eval
  | un span op a => unaryMeaning op span a.eval
  | ite c v r => do if (← c.eval) = 0 then r.eval else v.eval

def size : Arith → Nat
  | int _ | bool _ => 1
  | bin _ _ l r => l.size + r.size + 1
  | un _ _ a => a.size + 1
  | ite c v r => c.size + v.size + r.size + 1

theorem size_pos (a : Arith) : 0 < a.size := by
  cases a <;> simp [size]

end Arith

section Definitions

variable (m : Model)

-- A node without annotations.
structure Model.Node (e : ExprId) (kind : ExprKind) (ty : Ty) : Prop where
  kind : m.kind e = kind
  ty : m.ty e = ty
  ann : (m.expr e).ann = []

-- An expression, together with branches that are to be tried before it, is closed arithmetic. Only
-- literals need to have types.
inductive Model.Denotes : List (ExprId × ExprId) → ExprId → Arith → Prop
  | int {e v} : m.Node e (.int v) .parInt → Denotes [] e (.int v)
  | bool {e b} : m.Node e (.bool b) .parBool → Denotes [] e (.bool b)
  | bin {e op l r fn a b t} : m.Node e (.bin op.symbol l r fn) t → Denotes [] l a → Denotes [] r b →
      Denotes [] e (.bin (m.spanOf e) op a b)
  | un {e op x fn a t} : m.Node e (.un op x fn) t → Denotes [] x a → Denotes [] e (.un (m.spanOf e) op a)
  | ite {e b bs o a t} : m.Node e (.ite (b :: bs) o) t → Denotes (b :: bs) o a → Denotes [] e a
  | branch {c v bs o a b r} : Denotes [] c a → Denotes [] v b → Denotes bs o r →
      Denotes ((c, v) :: bs) o (.ite a b r)

-- The same after a check: at most `n` nodes deep, all of them typed, operands with the types that
-- they are taken for, and truth values promoted where integers are expected.
inductive Model.Elaborated : Nat → List (ExprId × ExprId) → ExprId → Arith → Scalar → Prop
  | int {n e v} : m.Node e (.int v) .parInt → Elaborated (n + 1) [] e (.int v) .int
  | bool {n e b} : m.Node e (.bool b) .parBool → Elaborated (n + 1) [] e (.bool b) .bool
  | bin {n e op l r a b κ k} : m.Node e (.bin op.symbol l r none) k.ty → op.scalars κ κ = some (κ, k) →
      Elaborated n [] l a κ → Elaborated n [] r b κ → Elaborated (n + 1) [] e (.bin (m.spanOf e) op a b) k
  | un {n e op x a κ k} : m.Node e (.un op x none) k.ty → Arith.unary op κ = some (κ, k) →
      Elaborated n [] x a κ → Elaborated (n + 1) [] e (.un (m.spanOf e) op a) k
  | ite {n e b bs o a k} : m.Node e (.ite (b :: bs) o) k.ty → Elaborated n (b :: bs) o a k →
      Elaborated (n + 1) [] e a k
  | promoted {n e x a} : m.Node e (.call "bool2int" [x] (m.matchOverload? "bool2int" [.parBool])) .parInt →
      Elaborated n [] x a .bool → Elaborated (n + 1) [] e a .int
  | branch {n c v bs o a b r k} : Elaborated n [] c a .bool → Elaborated n [] v b k →
      Elaborated n bs o r k → Elaborated n ((c, v) :: bs) o (.ite a b r) k

-- A node of the given kind would be elaborated by its parts.
inductive Model.Composed (n : Nat) (e : ExprId) : ExprKind → Arith → Scalar → Prop
  | int {v} : Composed n e (.int v) (.int v) .int
  | bool {b} : Composed n e (.bool b) (.bool b) .bool
  | bin {op l r a b κ k} : op.scalars κ κ = some (κ, k) → m.Elaborated n [] l a κ → m.Elaborated n [] r b κ →
      Composed n e (.bin op.symbol l r none) (.bin (m.spanOf e) op a b) k
  | un {op x a κ k} : Arith.unary op κ = some (κ, k) → m.Elaborated n [] x a κ →
      Composed n e (.un op x none) (.un (m.spanOf e) op a) k
  | ite {b bs o a k} : m.Elaborated n (b :: bs) o a k → Composed n e (.ite (b :: bs) o) a k
  | promoted {x a} : m.Elaborated n [] x a .bool →
      Composed n e (.call "bool2int" [x] (m.matchOverload? "bool2int" [.parBool])) a .int

-- The parts of a conditional, each with a type of its own.
inductive Model.Branches (n : Nat) : List (ExprId × ExprId) → ExprId → Arith → Prop
  | last {o a k} : m.Elaborated n [] o a k → Branches n [] o a
  | next {c v bs o a b r κ k} : m.Elaborated n [] c a κ → m.Elaborated n [] v b k → Branches n bs o r →
      Branches n ((c, v) :: bs) o (.ite a b r)

-- Parts of a conditional whose type can be `k`.
inductive Model.Fitting (n : Nat) (k : Scalar) : List (ExprId × ExprId) → ExprId → Arith → Prop
  | last {o a κ} : m.Elaborated n [] o a κ → κ.Fits k → Fitting n k [] o a
  | next {c v bs o a b r κ} : m.Elaborated n [] c a .bool → m.Elaborated n [] v b κ → κ.Fits k →
      Fitting n k bs o r → Fitting n k ((c, v) :: bs) o (.ite a b r)

end Definitions

variable {m m₁ : Model} {e o : ExprId} {bs : List (ExprId × ExprId)} {a b : Arith} {k : Scalar} {n : Nat}

section Denotation

theorem Arith.Op.symbol_inj {op op' : Arith.Op} (h : op.symbol = op'.symbol) : op = op' := by
  cases op <;> cases op' <;> first | rfl | cases h

-- The parts of what a node of the given kind denotes.
def Model.Parts (m : Model) (e : ExprId) (a : Arith) : ExprKind → Prop
  | .int v => a = .int v
  | .bool b => a = .bool b
  | .bin s l r _ => ∃ op x y, op.symbol = s ∧ a = .bin (m.spanOf e) op x y ∧ m.Denotes [] l x ∧ m.Denotes [] r y
  | .un op x _ => ∃ y, a = .un (m.spanOf e) op y ∧ m.Denotes [] x y
  | .ite bs o => bs ≠ [] ∧ m.Denotes bs o a
  | _ => False

theorem Model.Denotes.parts (h : m.Denotes [] e a) : m.Parts e a (m.kind e) ∧ (m.expr e).ann = [] := by
  cases h with
  | int h => exact ⟨h.kind ▸ rfl, h.ann⟩
  | bool h => exact ⟨h.kind ▸ rfl, h.ann⟩
  | bin h hl hr => exact ⟨h.kind ▸ ⟨_, _, _, rfl, rfl, hl, hr⟩, h.ann⟩
  | un h hx => exact ⟨h.kind ▸ ⟨_, rfl, hx⟩, h.ann⟩
  | ite h hb => exact ⟨h.kind ▸ ⟨by simp, hb⟩, h.ann⟩

theorem Model.Denotes.kind_ne_anon (h : m.Denotes [] e a) : m.kind e ≠ .anon := by
  intro hk
  have hp := h.parts.1
  rw [hk] at hp
  exact hp

-- What an expression denotes is determined.
theorem Model.Denotes.unique (ha : m.Denotes bs o a) (hb : m.Denotes bs o b) : b = a := by
  induction ha generalizing b with
  | int h | bool h =>
    have hp := hb.parts.1
    rw [h.kind] at hp
    exact hp
  | bin h _ _ ihl ihr =>
    obtain ⟨op, x, y, hop, rfl, hx, hy⟩ := h.kind ▸ hb.parts.1
    rw [Arith.Op.symbol_inj hop, ihl hx, ihr hy]
  | un h _ ih =>
    obtain ⟨y, rfl, hy⟩ := h.kind ▸ hb.parts.1
    rw [ih hy]
  | ite h _ ih => exact ih (h.kind ▸ hb.parts.1).2
  | branch _ _ _ ihc ihv ihr =>
    cases hb with
    | branch hc hv hr => rw [ihc hc, ihv hv, ihr hr]

end Denotation

section Elaboration

theorem Model.Node.congr {kind : ExprKind} {ty : Ty} (h : m.Node e kind ty) (he : m₁.expr e = m.expr e) :
    m₁.Node e kind ty := by
  refine ⟨?_, ?_, ?_⟩
  · rw [Model.kind, he, ← Model.kind, h.kind]
  · rw [Model.ty, he, ← Model.ty, h.ty]
  · rw [he, h.ann]

theorem Model.Node.present {kind : ExprKind} {ty : Ty} (h : m.Node e kind ty) (hk : kind ≠ .anon) :
    e.index < m.exprs.size :=
  lt_of_kind_ne_anon (h.kind ▸ hk)

-- What an elaborated node is, apart from its parts.
theorem Model.Elaborated.node (h : m.Elaborated n [] e a k) : ∃ kind, kind ≠ .anon ∧ m.Node e kind k.ty := by
  cases h with
  | int h | bool h | bin h _ _ _ | un h _ _ | ite h _ | promoted h _ => exact ⟨_, by simp, h⟩

theorem Model.Elaborated.ty_eq (h : m.Elaborated n [] e a k) : m.ty e = k.ty :=
  have ⟨_, _, h⟩ := h.node
  h.ty

theorem Model.Elaborated.present (h : m.Elaborated n [] e a k) : e.index < m.exprs.size :=
  have ⟨_, hk, h⟩ := h.node
  h.present hk

theorem Scalar.ty_inj {k κ : Scalar} (h : k.ty = κ.ty) : k = κ := by
  cases k <;> cases κ <;> first | rfl | cases h

theorem Model.Elaborated.succ (h : m.Elaborated n bs o a k) : m.Elaborated (n + 1) bs o a k := by
  induction h with
  | int h => exact .int h
  | bool h => exact .bool h
  | bin h hs _ _ ihl ihr => exact .bin h hs ihl ihr
  | un h hs _ ih => exact .un h hs ih
  | ite h _ ih => exact .ite h ih
  | promoted h _ ih => exact .promoted h ih
  | branch _ _ _ ihc ihv ihr => exact .branch ihc ihv ihr

theorem Model.Elaborated.mono {n' : Nat} (h : m.Elaborated n bs o a k) (hn : n ≤ n') : m.Elaborated n' bs o a k := by
  induction hn with
  | refl => exact h
  | step _ ih => exact ih.succ

-- The two models differ in nothing but expressions.
def Model.SameTables (m m₁ : Model) : Prop := m₁ = { m with exprs := m₁.exprs }

theorem Model.SameTables.refl (m : Model) : m.SameTables m := rfl

theorem Model.SameTables.trans {m₂ : Model} (h₁ : m.SameTables m₁) (h₂ : m₁.SameTables m₂) : m.SameTables m₂ := by
  rw [SameTables] at h₁ h₂ ⊢
  rw [h₁] at h₂
  rw [h₂]

theorem Model.SameTables.matchOverload_eq (h : m.SameTables m₁) : m₁.matchOverload? = m.matchOverload? := by
  rw [h]
  rfl

-- An elaborated expression stays so for as long as no elaborated node changes.
theorem Model.Elaborated.transfer (hm : m.SameTables m₁)
    (hx : ∀ n e a k, m.Elaborated n [] e a k → m₁.expr e = m.expr e) (h : m.Elaborated n bs o a k) :
    m₁.Elaborated n bs o a k := by
  have hspan : ∀ {n e a k}, m.Elaborated n [] e a k → m.spanOf e = m₁.spanOf e := fun h => by
    rw [spanOf, spanOf, hx _ _ _ _ h]
  induction h with
  | branch _ _ _ ihc ihv ihr => exact .branch ihc ihv ihr
  | int h => exact .int (h.congr (hx _ _ _ _ (.int (n := 0) h)))
  | bool h => exact .bool (h.congr (hx _ _ _ _ (.bool (n := 0) h)))
  | bin h hs hl hr ihl ihr =>
    have he := Elaborated.bin h hs hl hr
    rw [hspan he]
    exact .bin (h.congr (hx _ _ _ _ he)) hs ihl ihr
  | un h hs ha ih =>
    have he := Elaborated.un h hs ha
    rw [hspan he]
    exact .un (h.congr (hx _ _ _ _ he)) hs ih
  | ite h hb ih => exact .ite (h.congr (hx _ _ _ _ (.ite h hb))) ih
  | promoted h ha ih =>
    have he := h.congr (hx _ _ _ _ (.promoted h ha))
    rw [← hm.matchOverload_eq] at he
    exact .promoted he ih

theorem Model.Elaborated.composed (h : m.Elaborated n [] e a k) :
    ∃ n' kind, m.Node e kind k.ty ∧ m.Composed n' e kind a k := by
  cases h with
  | int h => exact ⟨0, _, h, .int⟩
  | bool h => exact ⟨0, _, h, .bool⟩
  | bin h hs hl hr => exact ⟨_, _, h, .bin hs hl hr⟩
  | un h hs hx => exact ⟨_, _, h, .un hs hx⟩
  | ite h hb => exact ⟨_, _, h, .ite hb⟩
  | promoted h hx => exact ⟨_, _, h, .promoted hx⟩

theorem Model.Composed.elaborated {kind : ExprKind} (h : m.Composed n e kind a k) (hn : m.Node e kind k.ty) :
    m.Elaborated (n + 1) [] e a k := by
  cases h with
  | int => exact .int hn
  | bool => exact .bool hn
  | bin hs hl hr => exact .bin hn hs hl hr
  | un hs hx => exact .un hn hs hx
  | ite hb => exact .ite hn hb
  | promoted hx => exact .promoted hn hx

theorem Model.Composed.transfer {kind : ExprKind} (hm : m.SameTables m₁) (he : m₁.spanOf e = m.spanOf e)
    (hx : ∀ {n bs o a k}, m.Elaborated n bs o a k → m₁.Elaborated n bs o a k) (h : m.Composed n e kind a k) :
    m₁.Composed n e kind a k := by
  cases h with
  | int => exact .int
  | bool => exact .bool
  | bin hs hl hr => exact he ▸ .bin hs (hx hl) (hx hr)
  | un hs ha => exact he ▸ .un hs (hx ha)
  | ite hb => exact .ite (hx hb)
  | promoted ha => exact hm.matchOverload_eq ▸ .promoted (hx ha)

end Elaboration
end Parvar
