import WireFlow.Code.Lower
import WireFlow.PointerMap

/-!
# Programs

A program is lowered code together with the pointer map of its frame. The map
is placed and pinned when the program is assembled, so the program's map
address can be resolved as long as the heap lives.
-/

namespace WireFlow

/-- Code with the pinned pointer map of its frame. -/
structure Program where
  code : Code
  frameMap : PlacedMap
deriving DecidableEq

namespace Program

/-- The address that stands for the frame's pointer map. -/
def mapAddress (p : Program) : Address := p.frameMap.address

end Program

/-- Lower a graph, then place and pin the map of its frame. A rejected graph
leaves the heap alone. -/
def Graph.assemble (g : Graph) (h : Heap) : Except Rejection (Program × Heap) := do
  let code ← g.lower
  let (placed, h) := h.place (Layout.bitmap code.layout)
  return (⟨code, placed⟩, h.pin placed)

end WireFlow
