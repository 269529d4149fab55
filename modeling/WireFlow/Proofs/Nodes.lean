import WireFlow.Proofs.Reachable

/-!
# Nodes

Phis, instructions and terminators define registers and read registers. What
counts for all three alike is said about the nodes of a block, its terminator
last, and about the nodes of the reachable blocks.
-/

namespace WireFlow

/-- A phi, an instruction or a terminator. -/
inductive Node where
  | phi (φ : Phi)
  | instr (i : Instr)
  | term (t : Terminator)
deriving DecidableEq

namespace Node

def defs : Node → List Reg
  | phi φ => [φ.dst]
  | instr i => i.defs
  | term t => t.defs

def uses : Node → List Reg
  | phi φ => φ.uses
  | instr i => i.uses
  | term t => t.uses

def mapDefs (σ : Reg → Reg) : Node → Node
  | phi φ => phi (φ.mapDefs σ)
  | instr i => instr (i.mapDefs σ)
  | term t => term (t.mapDefs σ)

/-- The node is there for the registers it defines and for nothing else. -/
def Removable : Node → Prop
  | phi _ => True
  | instr i => i.hasEffect = false ∧ i.defs ≠ []
  | term _ => False

instance : DecidablePred Removable
  | phi _ => isTrue trivial
  | instr _ => inferInstanceAs (Decidable (_ ∧ _))
  | term _ => isFalse id

@[simp] theorem defs_mapDefs (σ : Reg → Reg) (n : Node) : (n.mapDefs σ).defs = n.defs.map σ := by
  cases n with
  | phi φ => rfl
  | instr i => exact i.defs_mapDefs σ
  | term t => exact t.defs_mapDefs σ

@[simp] theorem uses_mapDefs (σ : Reg → Reg) (n : Node) : (n.mapDefs σ).uses = n.uses := by
  cases n with
  | phi φ => rfl
  | instr i => exact i.uses_mapDefs σ
  | term t => exact t.uses_mapDefs σ

@[simp] theorem removable_mapDefs (σ : Reg → Reg) (n : Node) :
    (n.mapDefs σ).Removable ↔ n.Removable := by
  cases n with
  | instr i => simp [mapDefs, Removable]
  | _ => rfl

end Node

namespace Block

/-- The nodes in order, the terminator last. -/
def nodes (b : Block) : List Node := b.phis.map .phi ++ b.instrs.map .instr ++ [.term b.term]

theorem flatMap_defs_nodes (b : Block) : b.nodes.flatMap Node.defs = b.defs := by
  have hphis : b.phis.map Phi.dst = b.phis.flatMap fun φ => [φ.dst] := List.map_eq_flatMap
  simp [nodes, defs, Node.defs, List.flatMap_map, hphis]

theorem flatMap_uses_nodes (b : Block) : b.nodes.flatMap Node.uses = b.uses := by
  simp [nodes, uses, Node.uses, List.flatMap_map]

end Block

namespace Graph

variable {g : Graph} {r : Reg}

/-- The nodes of the reachable blocks. -/
def nodes (g : Graph) : List Node := g.walk.flatMap fun e => e.2.nodes

theorem flatMap_defs_nodes (g : Graph) : g.nodes.flatMap Node.defs = g.defs := by
  simp only [nodes, List.flatMap_assoc, Block.flatMap_defs_nodes, defs]

theorem flatMap_uses_nodes (g : Graph) : g.nodes.flatMap Node.uses = g.uses := by
  simp only [nodes, List.flatMap_assoc, Block.flatMap_uses_nodes, uses]

theorem mem_defs_iff : r ∈ g.defs ↔ ∃ n ∈ g.nodes, r ∈ n.defs := by
  rw [← flatMap_defs_nodes, List.mem_flatMap]

theorem mem_uses_iff : r ∈ g.uses ↔ ∃ n ∈ g.nodes, r ∈ n.uses := by
  rw [← flatMap_uses_nodes, List.mem_flatMap]

/-- The walk lists exactly the reachable blocks. -/
theorem mem_walk_iff {id : Label} {b : Block} :
    (id, b) ∈ g.walk ↔ g.Reachable id ∧ g.block? id = some b := by
  rw [mem_walk, mem_postOrder_iff]

end Graph

end WireFlow
