/-!
The fewest decimal digits that read back as a given double. A finite double is `m · 2^q`, and the
reals that round to it form an interval whose ends belong to it exactly if `m` is even. For one
digit, two digits and so on, the two neighbours of the double on that decimal grid are tried.
-/

namespace Parvar.Decimal

-- The magnitude `mantissa · 2^exponent`.
structure Binary where
  mantissa : Nat
  exponent : Int
deriving DecidableEq, Repr

namespace Binary

-- The magnitude of a finite double, from its bits.
def ofBits (bits : UInt64) : Binary :=
  let fraction : Nat := bits.toNat % 1 <<< 52
  let e : Nat := bits.toNat >>> 52 % 1 <<< 11
  if e = 0 then ⟨fraction, -1074⟩ else ⟨1 <<< 52 + fraction, (e : Int) - 1075⟩

def ofFloat (x : Float) : Binary := ofBits x.toBits

-- The numerator and the denominator of the magnitude.
def ratio (b : Binary) : Nat × Nat :=
  (b.mantissa <<< b.exponent.toNat, 1 <<< (-b.exponent).toNat)

def isIntegral (b : Binary) : Bool := b.ratio.1 % b.ratio.2 = 0

def floor (b : Binary) : Nat := b.ratio.1 / b.ratio.2

-- How many times `num / den < 1` must be made ten times larger to reach 1, in at most `fuel` steps.
def stepsToOne : Nat → Nat → Nat → Nat
  | 0, _, _ => 0
  | fuel + 1, num, den => if den ≤ num then 0 else stepsToOne fuel (num * 10) den + 1

-- The exponent of the leading decimal digit. No positive double is below `10^-324`.
def leading (b : Binary) : Int :=
  let (num, den) := b.ratio
  if den ≤ num then (Nat.toDigits 10 (num / den)).length - 1
  else -(stepsToOne 330 num den : Int)

-- Ends of the interval in quarters of the last place. Below a power of two, doubles are twice as
-- dense.
def low (b : Binary) : Nat :=
  if b.mantissa = 1 <<< 52 && b.exponent > -1074 then 4 * b.mantissa - 1 else 4 * b.mantissa - 2

def high (b : Binary) : Nat := 4 * b.mantissa + 2

-- Both `c · 10^k` and `x · 2^(exponent - 2)` as multiples of one unit.
def aligned (b : Binary) (c : Nat) (k : Int) (x : Nat) : Nat × Nat :=
  let u := b.exponent - 2
  ((c * Nat.pow 10 k.toNat) <<< (-u).toNat, x <<< u.toNat * Nat.pow 10 (-k).toNat)

def roundsHere (b : Binary) (k : Int) (c : Nat) : Bool :=
  let (lo, l) := b.aligned c k b.low
  let (hi, h) := b.aligned c k b.high
  if b.mantissa % 2 = 0 then l ≤ lo && hi ≤ h else l < lo && hi < h

-- The nearer of the two neighbours on the grid of `10^k`, of those that read back; the upper one if
-- they are equally near.
def onGrid? (b : Binary) (k : Int) : Option Nat :=
  let (unit, value) := b.aligned 1 k (4 * b.mantissa)
  let c := value / unit
  match b.roundsHere k c, b.roundsHere k (c + 1) with
  | true, true => some (if 2 * value < (2 * c + 1) * unit then c else c + 1)
  | true, false => some c
  | false, true => some (c + 1)
  | false, false => none

-- Digits and the exponent of the last of them. Seventeen digits are enough for any double.
def shortest (b : Binary) : Nat × Int :=
  let found := (List.range 17).findSome? fun (n : Nat) =>
    let k := b.leading - n
    (b.onGrid? k).map fun c => (c, k)
  match found with
  | some (c, k) => if c % 10 = 0 then (c / 10, k + 1) else (c, k)
  | none => (b.mantissa, b.exponent)

end Binary

-- `digits · 10^k` without an exponent.
def positional (digits : Nat) (k : Int) : String :=
  let ds := Nat.toDigits 10 digits
  let places := (-k).toNat
  if 0 ≤ k then String.ofList (ds ++ List.replicate k.toNat '0')
  else
    let ds := List.replicate (places + 1 - ds.length) '0' ++ ds
    let whole := ds.length - places
    String.ofList (ds.take whole ++ '.' :: ds.drop whole)

end Parvar.Decimal
