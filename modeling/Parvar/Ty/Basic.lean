/-!
Types of expressions and declarations. A type says whether a value is fixed or to be found, what
its base is, whether it is a set, whether it may be absent, and how many array dimensions it has.
-/

namespace Parvar

-- A `par` value is known before solving, a `var` value is a decision of the solver.
inductive Inst where
  | par
  | var
deriving DecidableEq, Repr, Inhabited

-- `bot` is the base of what has no elements yet, `top` that of a type variable, `unknown` that of
-- what has not been typed.
inductive Base where
  | top
  | bool
  | int
  | float
  | string
  | ann
  | bot
  | unknown
deriving DecidableEq, Repr, Inhabited

-- `dim` is 0 for a scalar, the number of dimensions for an array, and -1 for an array of any number
-- of dimensions. `cv` marks what contains a decision variable somewhere inside.
structure Ty where
  inst : Inst := .par
  base : Base := .unknown
  isSet : Bool := false
  isOpt : Bool := false
  cv : Bool := false
  dim : Int := 0
  cv_of_var : inst = .var → cv = true := by decide
deriving DecidableEq, Repr

namespace Ty

-- A present type; it contains a variable exactly if it is one.
def of (inst : Inst) (base : Base) (isSet : Bool) (dim : Int) : Ty where
  inst := inst
  base := base
  isSet := isSet
  dim := dim
  cv := inst = .var
  cv_of_var := by simp

def unknown : Ty := of .par .unknown false 0
def parInt : Ty := of .par .int false 0
def parBool : Ty := of .par .bool false 0
def parFloat : Ty := of .par .float false 0
def parString : Ty := of .par .string false 0
def ann : Ty := of .par .ann false 0
def parSetInt : Ty := of .par .int true 0
def parSetBool : Ty := of .par .bool true 0
def parSetFloat : Ty := of .par .float true 0
def parSetString : Ty := of .par .string true 0
def varInt : Ty := of .var .int false 0
def varBool : Ty := of .var .bool false 0
def varFloat : Ty := of .var .float false 0
def varSetInt : Ty := of .var .int true 0
def varBot : Ty := of .var .bot false 0
def bot : Ty := of .par .bot false 0
def top : Ty := of .par .top false 0
def varTop : Ty := of .var .top false 0

instance : Inhabited Ty := ⟨unknown⟩

-- A type that becomes `var` contains a variable from then on.
def withInst (t : Ty) (inst : Inst) : Ty :=
  { t with
    inst := inst
    cv := t.cv || inst = .var
    cv_of_var := by intro h; simp [h] }

def withBase (t : Ty) (base : Base) : Ty := { t with base := base }

def withSet (t : Ty) (isSet : Bool) : Ty := { t with isSet := isSet }

def withOpt (t : Ty) (isOpt : Bool) : Ty := { t with isOpt := isOpt }

-- The mark of a `var` type cannot be cleared.
def withCv (t : Ty) (cv : Bool) : Ty :=
  { t with
    cv := cv || t.inst = .var
    cv_of_var := by intro h; simp [h] }

def withDim (t : Ty) (dim : Int) : Ty := { t with dim := dim }

def optVarTop : Ty := varTop.withOpt true

-- The type of an array's elements; a scalar type is its own.
def elem (t : Ty) : Ty := t.withDim 0

section Classes

variable (t : Ty)

def isUnknown : Bool := t.base = .unknown

-- A present scalar that is not a set.
def isPlain : Bool := t.dim = 0 && !t.isSet && !t.isOpt

def isPar : Bool := t.inst = .par

def isVar : Bool := t.inst = .var

def isPresent : Bool := !t.isOpt

-- A scalar of the given base that is not a set.
def isScalar (base : Base) : Bool := t.dim = 0 && !t.isSet && t.base = base

def isInt : Bool := t.isScalar .int

def isBool : Bool := t.isScalar .bool

def isFloat : Bool := t.isScalar .float

def isString : Bool := t.isScalar .string

def isBot : Bool := t.base = .bot

def isAnn : Bool := t.isPlain && t.base = .ann

-- A set that is not an array of sets.
def isSetTy : Bool := t.dim = 0 && t.isSet

-- The empty set is a set of every base.
def isSetOf (base : Base) : Bool := t.isSetTy && (t.base = base || t.base = .bot)

def isIntSet : Bool := t.isSetOf .int

def isBoolSet : Bool := t.isSetOf .bool

def isVarInt : Bool := t.isVar && t.isPresent && t.isInt

def isVarBool : Bool := t.isVar && t.isPresent && t.isBool

def isVarFloat : Bool := t.isVar && t.isPresent && t.isFloat

def isIntArray : Bool := t.dim = 1 && !t.isSet && !t.isOpt && t.base = .int

end Classes
end Ty
end Parvar
