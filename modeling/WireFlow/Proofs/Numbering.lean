import WireFlow.Proofs.Predecessors

/-!
# Names and places

A block carries a name, and it has a place in the graph. Edges lead to places,
so the walk and the table of predecessors do not depend on names. A graph is
numbered if every block carries its place. Every graph can be numbered, and then
differs from what it was in the names alone.
-/

namespace WireFlow.Graph

variable {g : Graph}

/-- Blocks go by the names that they carry. -/
abbrev byLabel (_ : Label) (b : Block) : Label := b.label

/-- Blocks go by their places. -/
abbrev byPlace (id : Label) (_ : Block) : Label := id

/-- Every block carries its place as its name. -/
def Numbered (g : Graph) : Prop := ∀ id b, g.block? id = some b → b.label = id

/-- The graph with every block named by its place. -/
def numbered (g : Graph) : Graph :=
  { g with
    blocks := g.blocks.mapIdx fun id b => { b with label := id }
    entry_lt := by simpa using g.entry_lt }

theorem block?_numbered (g : Graph) (id : Label) :
    g.numbered.block? id = (g.block? id).map fun b => { b with label := id } := by
  simp [numbered, block?]

theorem numbered_numbered (g : Graph) : g.numbered.Numbered := by
  intro id b hb
  rw [block?_numbered] at hb
  obtain ⟨c, -, rfl⟩ := Option.map_eq_some_iff.mp hb
  rfl

/-- Blocks do not move, so a graph stays numbered as long as they keep their names. -/
theorem Numbered.mapReachable (h : g.Numbered) {f : Block → Block}
    (hf : ∀ b, (f b).label = b.label) : (g.mapReachable f).Numbered := by
  intro id b hb
  rw [block?_mapReachable] at hb
  obtain ⟨c, hc, rfl⟩ := Option.map_eq_some_iff.mp hb
  split
  · exact (hf c).trans (h id c hc)
  · exact h id c hc

theorem Numbered.modifyBlock (h : g.Numbered) {place : Label} {f : Block → Block} {g' : Graph}
    (hf : ∀ b, (f b).label = b.label) (hg' : g.modifyBlock place f = .ok g') : g'.Numbered := by
  unfold Graph.modifyBlock at hg'
  split at hg'
  · cases hg'
    intro id b hb
    simp only [block?, Array.getElem?_modify] at hb
    split at hb
    · obtain ⟨c, hc, rfl⟩ := Option.map_eq_some_iff.mp hb
      exact (hf c).trans (h id c hc)
    · exact h id b hb
  · cases hg'

theorem successors_numbered (g : Graph) : g.numbered.successors = g.successors := by
  funext id
  have hblock := g.block?_numbered id
  simp only [block?] at hblock
  simp only [successors, hblock]
  cases g.blocks[id]? with
  | none => rfl
  | some b => rfl

theorem postOrder_numbered (g : Graph) : g.numbered.postOrder = g.postOrder := by
  have hsize : g.numbered.size = g.size := by simp [numbered, size]
  rw [postOrder, postOrder, successors_numbered, hsize]
  rfl

theorem predecessors_numbered (g : Graph) : g.numbered.predecessors = g.predecessors := by
  have hadd : g.numbered.addEdges = g.addEdges := by
    funext table id
    simp only [addEdges, successors_numbered]
  rw [predecessors, predecessors, postOrder_numbered, hadd]

theorem walk_numbered (g : Graph) :
    g.numbered.walk = g.walk.map fun e => (e.1, { e.2 with label := e.1 }) := by
  simp only [walk, pick, postOrder_numbered, List.map_filterMap, block?_numbered, Option.map_map]
  rfl

theorem defs_numbered (g : Graph) : g.numbered.defs = g.defs := by
  simp only [defs, walk_numbered, List.flatMap_map]
  rfl

theorem uses_numbered (g : Graph) : g.numbered.uses = g.uses := by
  simp only [uses, walk_numbered, List.flatMap_map]
  rfl

end WireFlow.Graph
