/-! Operators and the names under which their overloads are declared. -/

namespace Parvar

inductive BinOp where
  | add
  | sub
  | mul
  | div
  | idiv
  | mod
  | lt
  | le
  | gt
  | ge
  | eq
  | ne
  | mem
  | subset
  | superset
  | union
  | diff
  | symdiff
  | inter
  | append
  | iff
  | imp
  | revImp
  | or
  | and
  | xor
  | range
deriving DecidableEq, Repr, Inhabited

namespace BinOp

def name : BinOp → String
  | add => "+"
  | sub => "-"
  | mul => "*"
  | div => "/"
  | idiv => "div"
  | mod => "mod"
  | lt => "<"
  | le => "<="
  | gt => ">"
  | ge => ">="
  | eq => "="
  | ne => "!="
  | mem => "in"
  | subset => "subset"
  | superset => "superset"
  | union => "union"
  | diff => "diff"
  | symdiff => "symdiff"
  | inter => "intersect"
  | append => "++"
  | iff => "<->"
  | imp => "->"
  | revImp => "<-"
  | or => "\\/"
  | and => "/\\"
  | xor => "xor"
  | range => ".."

end BinOp

inductive UnOp where
  | not
  | plus
  | minus
deriving DecidableEq, Repr, Inhabited

namespace UnOp

def name : UnOp → String
  | not => "not"
  | plus => "+"
  | minus => "-"

end UnOp
end Parvar
