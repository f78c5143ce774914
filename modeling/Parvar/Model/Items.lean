import Parvar.Model.Basic

/-! The items of a model in the order in which they are visited, and the removal of spent ones. -/

namespace Parvar.Model

-- Submodels already entered, and the paths met so far.
structure Tour where
  seen : List Nat := []
  paths : Array ItemPath := #[]
deriving Inhabited

section

variable (m : Model)

-- One item of a list: a submodel is entered the first time it is met.
def visitSlot (enter : Nat → Tour → Tour) (submodel : Option Nat) (t : Tour) (slot : Slot)
    (index : Nat) : Tour :=
  if slot.removed then t
  else match slot.item with
    | .submodel s =>
      if s < m.submodels.size && !t.seen.contains s then
        enter s { t with seen := s :: t.seen }
      else t
    | _ => { t with paths := t.paths.push ⟨submodel, index⟩ }

-- The items of one list in their order, `depth` submodels deep at most.
def tour : Nat → Option Nat → Tour → Tour
  | 0, _, t => t
  | depth + 1, submodel, t =>
    (m.itemsOf submodel).toList.zipIdx.foldl
      (fun t (slot, index) =>
        m.visitSlot (fun s => tour depth (some s)) submodel t slot index)
      t

-- All items, each submodel at the place of its first inclusion. Removed items are left out, and so
-- are the inclusions themselves. No submodel is entered twice, so the depth is bounded.
def itemPaths : List ItemPath := (m.tour (m.submodels.size + 1) none {}).paths.toList

def paused : Bool := 0 < m.pauses

def pause : Model := { m with pauses := m.pauses + 1 }

def resume : Model := { m with pauses := m.pauses - 1 }

-- Drops removed items, and says whether it did: while the model is paused nothing changes.
def compact : Bool × Model :=
  if m.paused then (false, m)
  else
    (true, { m with
      items := m.items.filter (!·.removed)
      submodels := m.submodels.map fun s => { s with items := s.items.filter (!·.removed) } })

end
end Parvar.Model
