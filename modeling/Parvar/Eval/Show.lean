import Parvar.Decimal.Shortest
import Parvar.Model.Basic
import Parvar.Text.Quoted

/-! The text of a value, as `show` gives it. -/

namespace Parvar.Eval

-- Whole numbers have one decimal, all others as many as it takes to read them back.
def magnitudeText (b : Decimal.Binary) : String :=
  if b.isIntegral then toString b.floor ++ ".0"
  else
    let (digits, k) := b.shortest
    Decimal.positional digits k

def isNegative (x : Float) : Bool := 1 <<< 63 ≤ x.toBits.toNat

def floatText (x : Float) : String :=
  if x.isNaN then "NaN"
  else
    let sign := if isNegative x then "-" else ""
    sign ++ if x.isInf then "inf" else magnitudeText (.ofFloat x)

def boolText (b : Bool) : String := if b then "true" else "false"

def boolSetText (s : IntSet) : String := IntSet.listed (s.values.map fun v => boolText (v ≠ 0))

-- The text of an expression that is at most `depth` literals deep. There is none where some part is
-- no literal.
def textTo (m : Model) : Nat → ExprId → Option String
  | 0, _ => none
  | depth + 1, e =>
    match m.kind e with
    | .int v => some (toString v)
    | .float v => some (floatText v)
    | .bool b => some (boolText b)
    | .string s => some (Text.quoted s)
    | .absent => some "<>"
    | .intSet s => some (if (m.ty e).base = .bool then boolSetText s else s.text)
    | .arrayLit elems _ => do
      let texts ← elems.mapM (textTo m depth)
      return "[" ++ ", ".intercalate texts ++ "]"
    | _ => none

def text? (m : Model) (e : ExprId) : Option String := textTo m (m.exprs.size + 1) e

end Parvar.Eval
