import Parvar.Ty.Basic

/-! The text of a type, as messages show it. -/

namespace Parvar

def Base.text : Base → String
  | top => "top"
  | bool => "bool"
  | int => "int"
  | float => "float"
  | string => "string"
  | ann => "ann"
  | bot => "bot"
  | unknown => "???"

namespace Ty

-- The index part of an array type; every negative dimension reads as any rank.
def indexText (dim : Int) : String :=
  if 0 < dim then "array[" ++ ",".intercalate (List.replicate dim.toNat "int") ++ "] of "
  else if dim < 0 then "array[$_] of "
  else ""

def text (t : Ty) : String :=
  indexText t.dim ++ (if t.isVar then "var " else "") ++ (if t.isOpt then "opt " else "")
    ++ (if t.isSet then "set of " else "") ++ t.base.text

end Ty
end Parvar
