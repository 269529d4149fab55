import WireFlow.Bitmap
import WireFlow.Code.Basic
import WireFlow.Graph.Check

/-!
# Lowering a graph to code

Slots are handed out along the reverse post-order, in order of definition.
Blocks are then lowered in the same order, and the first node that cannot be
lowered decides why the graph is rejected.
-/

namespace WireFlow

open Code (Op Exit)

namespace Layout

/-- Give a register the next slot. The sentinel needs none. -/
def define (layout : List Reg) (r : Reg) : Except Rejection (List Reg) :=
  if r = .zero then .ok layout
  else if r ∈ layout then .error (.duplicateDefinition r)
  else .ok (layout ++ [r])

/-- Give registers slots in order. -/
def defineAll (layout rs : List Reg) : Except Rejection (List Reg) := rs.foldlM define layout

/-- Instructions that can be lowered. -/
def supported : Instr → Bool
  | .nop => false
  | .foreign _ _ => false
  | _ => true

/-- Give slots to what an instruction of block `id` defines. -/
def addInstr (id : Label) (layout : List Reg) (i : Instr) : Except Rejection (List Reg) :=
  if supported i then defineAll layout i.defs else .error (.unsupportedNode id i.text)

/-- Give slots to what a block defines, phis first. -/
def addBlock (layout : List Reg) (b : Label × Block) : Except Rejection (List Reg) := do
  b.2.instrs.foldlM (addInstr b.1) (← defineAll layout (b.2.phis.map Phi.dst))

/-- The layout of a frame for the given blocks. -/
def ofBlocks (bs : List (Label × Block)) : Except Rejection (List Reg) := bs.foldlM addBlock []

/-- The layout as a bitmap, with a bit set where a slot holds a pointer. -/
def bitmap (layout : List Reg) : Bitmap := .ofList (layout.map Reg.isPointer)

end Layout

namespace Lower

/-- The slot a register is written to. -/
def dest (layout : List Reg) (r : Reg) : Dest := layout.idxOf? r

/-- The operand a register read in block `id` becomes. -/
def operand (layout : List Reg) (id : Label) (r : Reg) : Except Rejection Operand :=
  if r = .zero then .ok .zero
  else
    match layout.idxOf? r with
    | some i => .ok (.slot i)
    | none => .error (.undefinedRegister id r)

def operands (layout : List Reg) (id : Label) (rs : List Reg) : Except Rejection (List Operand) :=
  rs.mapM (operand layout id)

/-- The widths that can be emitted. -/
def widths : List Nat := [1, 2, 4, 8]

/-- Lower a call. The callee is looked up first, then the number of arguments
and of results is compared, then the arguments are lowered. -/
def call (layout : List Reg) (id : Label) (handle : Nat) (args results : List Reg) :
    Except Rejection Op :=
  match Callee.ofHandle? handle with
  | none => .error (.unsupportedNode id (Instr.call handle args results).text)
  | some f =>
      if args.length ≠ f.argCount then
        .error (.callArity f.name .arguments f.argCount args.length)
      else if f.resultCount < results.length then
        .error (.callArity f.name .results f.resultCount results.length)
      else do return .call f (← operands layout id args) (results.map (dest layout))

def instr (layout : List Reg) (id : Label) (i : Instr) : Except Rejection Op :=
  match i with
  | .const r v => .ok (.const (dest layout r) v)
  | .arg r k => .ok (.arg (dest layout r) k)
  | .binary r op x y => do
      return .binary (dest layout r) op (← operand layout id x) (← operand layout id y)
  | .emit v w =>
      if w ∈ widths then do return .emit (← operand layout id v) w
      else .error (.emitWidth w)
  | .call h args results => call layout id h args results
  | .nop => .error (.unsupportedNode id i.text)
  | .foreign _ _ => .error (.unsupportedNode id i.text)

/-- Lower an entry of the phi that defines `dst`. It has to name a block of the
graph that is a predecessor. -/
def incoming (layout : List Reg) (size : Nat) (preds : List Label) (id : Label) (dst : Reg)
    (e : Label × Reg) : Except Rejection (Label × Operand) :=
  if size ≤ e.1 then .error (.unknownBlock id e.1)
  else if e.1 ∉ preds then .error (.strayIncoming id dst e.1)
  else do return (e.1, ← operand layout id e.2)

def phi (layout : List Reg) (size : Nat) (preds : List Label) (id : Label) (φ : Phi) :
    Except Rejection Code.Phi := do
  return ⟨dest layout φ.dst, ← φ.incoming.mapM (incoming layout size preds id φ.dst)⟩

/-- Lower a terminator whose successors are all in the graph. -/
def terminator (layout : List Reg) (id : Label) (t : Terminator) : Except Rejection Exit :=
  match t with
  | .ret values => do return .ret (← operands layout id values)
  | .jump target => .ok (.jump target)
  | .branch cond target otherwise => do return .branch (← operand layout id cond) target otherwise
  | .switch value targets default => do
      return .switch (← operand layout id value) targets default
  | .foreign _ _ => .error (.unsupportedNode id t.text)

/-- Lower a terminator; a successor outside the graph comes before all else. -/
def exit (layout : List Reg) (size : Nat) (id : Label) (t : Terminator) :
    Except Rejection Exit :=
  match t.successors.find? (size ≤ ·) with
  | some target => .error (.unknownBlock id target)
  | none => terminator layout id t

/-- Lower a block whose predecessors `preds` lists. -/
def block (layout : List Reg) (size : Nat) (preds : Label → List Label) (b : Label × Block) :
    Except Rejection Code.Block := do
  let phis ← b.2.phis.mapM (phi layout size (preds b.1) b.1)
  let ops ← b.2.instrs.mapM (instr layout b.1)
  return ⟨b.1, phis, ops, ← exit layout size b.1 b.2.term⟩

/-- Put lowered blocks at their labels. -/
def arrange (size : Nat) (lowered : List Code.Block) : Array (Option Code.Block) :=
  lowered.foldl (fun row b => row.setIfInBounds b.id (some b)) (Array.replicate size none)

/-- One more than the argument an operation loads; zero for the others. -/
def argBound : Op → Nat
  | .arg _ k => k + 1
  | _ => 0

/-- One more than the largest argument loaded. -/
def argCount (lowered : List Code.Block) : Nat :=
  ((lowered.flatMap Code.Block.ops).map argBound).foldl max 0

end Lower

namespace Graph

/-- The name of the entry block and what its first phi defines. -/
def entryPhi? (g : Graph) : Option (Label × Reg) :=
  match g.block? g.entry with
  | some b => b.phis.head?.map fun φ => (b.label, φ.dst)
  | none => none

/-- Lower the reachable blocks. -/
def lowerBlocks (g : Graph) : Except Rejection Code := do
  let order := g.pick g.reversePostOrder
  let layout ← Layout.ofBlocks order
  let preds := g.predecessors
  let lowered ← order.mapM (Lower.block layout g.size fun id => preds.getD id [])
  return ⟨Lower.arrange g.size lowered, g.entry, layout, Lower.argCount lowered⟩

/-- Lower the reachable part of a graph whose entry has no phis. -/
def lower (g : Graph) : Except Rejection Code :=
  match g.entryPhi? with
  | some (label, dst) => .error (.entryPhi label dst)
  | none => g.lowerBlocks

end Graph

end WireFlow
