/-!
Arithmetic on 64-bit integers that notices overflow. Each operation is the one on unbounded
integers, with no result where that result does not fit.
-/

namespace Parvar.Checked

def fits (n : Int) : Bool :=
  Int64.minValue.toInt ≤ n && n ≤ Int64.maxValue.toInt

def ofInt? (n : Int) : Option Int64 :=
  if fits n then some (Int64.ofInt n) else none

def neg (a : Int64) : Option Int64 := ofInt? (-a.toInt)

def abs (a : Int64) : Option Int64 := ofInt? a.toInt.natAbs

def add (a b : Int64) : Option Int64 := ofInt? (a.toInt + b.toInt)

def sub (a b : Int64) : Option Int64 := ofInt? (a.toInt - b.toInt)

def mul (a b : Int64) : Option Int64 := ofInt? (a.toInt * b.toInt)

-- The quotient rounds toward zero.
def div (a b : Int64) : Option Int64 :=
  if b = 0 then none else ofInt? (a.toInt.tdiv b.toInt)

-- The remainder has the sign of the dividend. There is none where the quotient overflows.
def mod (a b : Int64) : Option Int64 :=
  (div a b).bind fun _ => ofInt? (a.toInt.tmod b.toInt)

end Parvar.Checked
