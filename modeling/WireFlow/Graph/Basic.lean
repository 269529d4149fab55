import Std.Data.TreeMap
import WireFlow.Node
import WireFlow.Graph.Walk

/-!
# Flow graphs

A graph is a row of blocks with an entry and a supply of fresh registers. What
matters is what can be reached from the entry: analyses look at reachable
blocks only, in the order of a depth-first walk. Edges lead to places in the
row. The name that a block carries is for messages, and for the checker.
-/

namespace WireFlow

/-- A straight piece of a routine. -/
structure Block where
  /-- The name that the block carries. In a graph fresh from a draft it is the
  block's place, but it can be changed like the rest of the block. -/
  label : Label
  phis : List Phi
  instrs : List Instr
  term : Terminator
deriving DecidableEq

namespace Block

/-- Every register the block defines, one entry per place. -/
def defs (b : Block) : List Reg :=
  b.phis.map Phi.dst ++ b.instrs.flatMap Instr.defs ++ b.term.defs

/-- Every register the block reads, one entry per place. -/
def uses (b : Block) : List Reg :=
  b.phis.flatMap Phi.uses ++ b.instrs.flatMap Instr.uses ++ b.term.uses

def mapDefs (σ : Reg → Reg) (b : Block) : Block where
  label := b.label
  phis := b.phis.map (Phi.mapDefs σ)
  instrs := b.instrs.map (Instr.mapDefs σ)
  term := b.term.mapDefs σ

def mapUses (σ : Reg → Reg) (b : Block) : Block where
  label := b.label
  phis := b.phis.map (Phi.mapUses σ)
  instrs := b.instrs.map (Instr.mapUses σ)
  term := b.term.mapUses σ

/-- Phis and instructions, the terminator apart. -/
def nodeCount (b : Block) : Nat := b.phis.length + b.instrs.length

/-- A heading with the block's name, then one node a line. -/
def text (b : Block) (heading : Label := b.label) : String :=
  let lines := b.phis.map Phi.text ++ b.instrs.map Instr.text ++ [b.term.text]
  Label.text heading ++ ":\n" ++ String.join (lines.map fun line => "    " ++ line ++ "\n")

@[simp] theorem defs_mapDefs (σ : Reg → Reg) (b : Block) : (b.mapDefs σ).defs = b.defs.map σ := by
  simp [defs, mapDefs, List.map_flatMap, List.flatMap_map, Function.comp_def]

@[simp] theorem uses_mapDefs (σ : Reg → Reg) (b : Block) : (b.mapDefs σ).uses = b.uses := by
  simp [uses, mapDefs, List.flatMap_map]

@[simp] theorem defs_mapUses (σ : Reg → Reg) (b : Block) : (b.mapUses σ).defs = b.defs := by
  simp [defs, mapUses, List.flatMap_map, Function.comp_def]

@[simp] theorem uses_mapUses (σ : Reg → Reg) (b : Block) : (b.mapUses σ).uses = b.uses.map σ := by
  simp [uses, mapUses, List.map_flatMap, List.flatMap_map]

@[simp] theorem nodeCount_mapDefs (σ : Reg → Reg) (b : Block) :
    (b.mapDefs σ).nodeCount = b.nodeCount := by
  simp [nodeCount, mapDefs]

@[simp] theorem nodeCount_mapUses (σ : Reg → Reg) (b : Block) :
    (b.mapUses σ).nodeCount = b.nodeCount := by
  simp [nodeCount, mapUses]

end Block

/-- A routine as a flow graph. Its entry is one of its blocks. -/
structure Graph where
  blocks : Array Block
  entry : Label
  /-- The index of the next fresh register. -/
  nextReg : Nat
  entry_lt : entry < blocks.size
deriving DecidableEq

namespace Graph

def size (g : Graph) : Nat := g.blocks.size

def block? (g : Graph) (id : Label) : Option Block := g.blocks[id]?

/-- The successors of a block; a name outside the graph has none. -/
def successors (g : Graph) (id : Label) : List Label :=
  match g.blocks[id]? with
  | some b => b.term.successors
  | none => []

/-- The reachable blocks, each after what it leads to, loops apart. -/
def postOrder (g : Graph) : List Label := Walk.postOrder g.size g.successors g.entry

def reversePostOrder (g : Graph) : List Label := g.postOrder.reverse

/-- The given blocks with their names. -/
def pick (g : Graph) (ids : List Label) : List (Label × Block) :=
  ids.filterMap fun id => (g.block? id).map fun b => (id, b)

/-- The reachable blocks in walk order. -/
def walk (g : Graph) : List (Label × Block) := g.pick g.postOrder

/-- Enter every edge from `id` once, however often its target is repeated. -/
def addEdges (g : Graph) (table : Std.TreeMap Label (List Label)) (id : Label) :
    Std.TreeMap Label (List Label) :=
  (g.successors id).eraseDups.foldl
    (fun t succ => t.alter succ fun preds => some (preds.getD [] ++ [id]))
    (table.alter id fun preds => some (preds.getD []))

/-- Where control can come from, for every block that is reached or named as a
successor: the reachable predecessors in walk order. -/
def predecessors (g : Graph) : Std.TreeMap Label (List Label) :=
  g.postOrder.foldl g.addEdges ∅

/-- The nodes of reachable blocks, terminators apart. -/
def nodeCount (g : Graph) : Nat := sumOf (fun e => e.2.nodeCount) g.walk

/-- Every register defined in a reachable block, one entry per place. -/
def defs (g : Graph) : List Reg := g.walk.flatMap fun e => e.2.defs

/-- Every register read in a reachable block, one entry per place. -/
def uses (g : Graph) : List Reg := g.walk.flatMap fun e => e.2.uses

/-- Change the reachable blocks and leave the others alone. -/
def mapReachable (g : Graph) (f : Block → Block) : Graph :=
  let reachable := g.postOrder
  { g with
    blocks := g.blocks.mapIdx fun id b => if id ∈ reachable then f b else b
    entry_lt := by simpa using g.entry_lt }

/-- Make a fresh register. -/
def freshReg (g : Graph) (kind : RegKind) : Except Fault (Reg × Graph) := do
  return (← Reg.ofKind kind g.nextReg, { g with nextReg := g.nextReg + 1 })

/-- Change one block, which has to be there. -/
def modifyBlock (g : Graph) (id : Label) (f : Block → Block) : Except Fault Graph :=
  if id < g.size then
    .ok { g with blocks := g.blocks.modify id f, entry_lt := by simpa using g.entry_lt }
  else .error (.outOfBounds id g.size)

/-- Add a phi to a block, unchecked. -/
def pushPhi (g : Graph) (id : Label) (φ : Phi) : Except Fault Graph :=
  g.modifyBlock id fun b => { b with phis := b.phis ++ [φ] }

/-- Add an instruction to a block, unchecked. -/
def pushInstr (g : Graph) (id : Label) (i : Instr) : Except Fault Graph :=
  g.modifyBlock id fun b => { b with instrs := b.instrs ++ [i] }

/-- Replace a block's terminator, unchecked. -/
def setTerminator (g : Graph) (id : Label) (t : Terminator) : Except Fault Graph :=
  g.modifyBlock id fun b => { b with term := t }

/-- Give a block another name, unchecked. It stays in its place. -/
def setLabel (g : Graph) (id label : Label) : Except Fault Graph :=
  g.modifyBlock id fun b => { b with label }

/-- Replace a register in the reachable definitions and reads asked for; also
the number of places replaced. -/
def rename (g : Graph) (old new : Reg) (inDefs inUses : Bool) : Graph × Nat :=
  let swap := fun r => if r = old then new else r
  let change := fun (b : Block) =>
    let b := if inDefs then b.mapDefs swap else b
    if inUses then b.mapUses swap else b
  let count := (if inDefs then g.defs.count old else 0) + (if inUses then g.uses.count old else 0)
  (g.mapReachable change, count)

/-- All blocks, reachable or not, in order. -/
def text (g : Graph) : String :=
  String.join (g.blocks.toList.map fun b => b.text)

@[simp] theorem entry_mapReachable (g : Graph) (f : Block → Block) :
    (g.mapReachable f).entry = g.entry := rfl

@[simp] theorem nextReg_mapReachable (g : Graph) (f : Block → Block) :
    (g.mapReachable f).nextReg = g.nextReg := rfl

@[simp] theorem size_mapReachable (g : Graph) (f : Block → Block) :
    (g.mapReachable f).size = g.size := by
  simp [mapReachable, size]

theorem block?_mapReachable (g : Graph) (f : Block → Block) (id : Label) :
    (g.mapReachable f).block? id =
      (g.block? id).map fun b => if id ∈ g.postOrder then f b else b := by
  simp [mapReachable, block?]

theorem successors_mapReachable (g : Graph) (f : Block → Block)
    (hf : ∀ b, (f b).term.successors = b.term.successors) :
    (g.mapReachable f).successors = g.successors := by
  funext id
  have h := block?_mapReachable g f id
  simp only [block?] at h
  simp only [successors, h]
  cases g.blocks[id]? with
  | none => rfl
  | some b =>
      simp only [Option.map_some]
      split <;> simp [hf]

/-- A change that keeps successors keeps the walk. -/
theorem postOrder_mapReachable (g : Graph) (f : Block → Block)
    (hf : ∀ b, (f b).term.successors = b.term.successors) :
    (g.mapReachable f).postOrder = g.postOrder := by
  simp [postOrder, successors_mapReachable g f hf]

end Graph

end WireFlow
