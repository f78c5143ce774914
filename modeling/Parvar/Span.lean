/-! Stretches of source text, by the offsets of their two ends. -/

namespace Parvar

structure Span where
  start : Nat := 0
  stop : Nat := 0
deriving DecidableEq, Repr, Inhabited

namespace Span

-- The least stretch that covers both.
def merge (a b : Span) : Span :=
  ⟨min a.start b.start, max a.stop b.stop⟩

-- Every message about a place in the source opens with this text.
def text (s : Span) : String :=
  "[" ++ toString s.start ++ ":" ++ toString s.stop ++ "]"

end Span
end Parvar
