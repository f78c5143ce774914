import Parvar.Ty.Basic

/-!
Each type has a code number. Types are compared by their codes, which leave out the mark for
contained variables and keep twenty bits of the dimension.
-/

namespace Parvar

def Inst.code : Inst → Nat
  | par => 0
  | var => 1

def Inst.ofCode? : Nat → Option Inst
  | 0 => some par
  | 1 => some var
  | _ => none

def Base.code : Base → Nat
  | top => 0
  | bool => 1
  | int => 2
  | float => 3
  | string => 4
  | ann => 5
  | bot => 6
  | unknown => 7

-- Codes past the last base stand for an unknown one.
def Base.ofCode : Nat → Base
  | 0 => top
  | 1 => bool
  | 2 => int
  | 3 => float
  | 4 => string
  | 5 => ann
  | 6 => bot
  | _ => unknown

namespace Ty

-- An array of any rank has code 1, and the ranks follow it.
def dimCode (dim : Int) : Nat :=
  if dim = -1 then 1 else if dim = 0 then 0 else ((dim + 1) % 0x100000).toNat

def dimOfCode : Nat → Int
  | 0 => 0
  | 1 => -1
  | n => n - 1

def encode (t : Ty) : Nat :=
  (1 - t.isSet.toNat) <<< 28 + t.base.code <<< 24 + t.inst.code <<< 21 + t.isOpt.toNat <<< 20
    + dimCode t.dim

def decode (code : Nat) : Option Ty := do
  guard (code >>> 29 = 0)
  let inst ← Inst.ofCode? (code >>> 21 % 8)
  let t := of inst (.ofCode (code >>> 24 % 16)) (code >>> 28 % 2 = 0)
    (dimOfCode (code % 0x100000))
  return t.withOpt (code >>> 20 % 2 = 1)

-- Types with one code count as equal.
def same (t u : Ty) : Bool := t.encode = u.encode

def cmp (t u : Ty) : Ordering := compare t.encode u.encode

-- What a type adds to the state of a hash function is its code.
def hashInto {σ : Type} (write : σ → Nat → σ) (state : σ) (t : Ty) : σ := write state t.encode

end Ty
end Parvar
