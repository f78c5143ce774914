/-!
Why a walk over a model stopped short of an answer. Walks follow links between nodes, and nothing
in a model keeps these links from running in a circle, so each walk carries a supply of fuel.
Running dry is not an error of the model and is kept apart from one.
-/

namespace Parvar

inductive Halt (ε : Type) where
  | failed (e : ε)
  | outOfFuel
deriving DecidableEq, Repr

instance {ε : Type} : Inhabited (Halt ε) := ⟨.outOfFuel⟩

namespace Halt

def map {ε δ : Type} (f : ε → δ) : Halt ε → Halt δ
  | failed e => failed (f e)
  | outOfFuel => outOfFuel

@[simp] theorem map_failed {ε δ : Type} (f : ε → δ) (e : ε) : (failed e).map f = failed (f e) :=
  rfl

@[simp] theorem map_outOfFuel {ε δ : Type} (f : ε → δ) : (outOfFuel : Halt ε).map f = outOfFuel :=
  rfl

end Halt
end Parvar
