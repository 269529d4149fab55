import WireFlow.Rejection
import WireFlow.Graph.Basic

/-!
# Graphs under construction

A draft grows block by block and node by node. Finishing it checks that every
block ends and that every edge leads to a block of the draft; the first block
becomes the entry.
-/

namespace WireFlow

/-- A block whose terminator may be missing yet. -/
structure DraftBlock where
  phis : List Phi := []
  instrs : List Instr := []
  term : Option Terminator := none
deriving DecidableEq

/-- A graph under construction. -/
structure Draft where
  blocks : Array DraftBlock := #[]
  nextReg : Nat := 0
deriving DecidableEq

namespace Draft

def empty : Draft := {}

/-- Open a new block. -/
def addBlock (d : Draft) : Label × Draft :=
  (d.blocks.size, { d with blocks := d.blocks.push {} })

/-- Make a fresh register. -/
def freshReg (d : Draft) (kind : RegKind) : Except Fault (Reg × Draft) := do
  return (← Reg.ofKind kind d.nextReg, { d with nextReg := d.nextReg + 1 })

/-- Make `n` fresh scalar registers. -/
def freshScalars (d : Draft) (n : Nat) : List Reg × Draft :=
  ((List.range n).map fun i => .scalar (d.nextReg + i), { d with nextReg := d.nextReg + n })

/-- Change one block, which has to be there. -/
def modifyBlock (d : Draft) (id : Label) (f : DraftBlock → DraftBlock) : Except Fault Draft :=
  if id < d.blocks.size then .ok { d with blocks := d.blocks.modify id f }
  else .error (.outOfBounds id d.blocks.size)

def pushPhi (d : Draft) (id : Label) (φ : Phi) : Except Fault Draft :=
  d.modifyBlock id fun b => { b with phis := b.phis ++ [φ] }

def pushInstr (d : Draft) (id : Label) (i : Instr) : Except Fault Draft :=
  d.modifyBlock id fun b => { b with instrs := b.instrs ++ [i] }

/-- End a block; a later ending replaces an earlier one. -/
def terminate (d : Draft) (id : Label) (t : Terminator) : Except Fault Draft :=
  d.modifyBlock id fun b => { b with term := some t }

/-- Add an instruction that defines a fresh register of the given kind. -/
def define (d : Draft) (id : Label) (kind : RegKind) (make : Reg → Instr) :
    Except Fault (Reg × Draft) := do
  let (r, d) ← d.freshReg kind
  return (r, ← d.pushInstr id (make r))

def const (d : Draft) (id : Label) (v : UInt64) : Except Fault (Reg × Draft) :=
  d.define id .scalar fun r => .const r v

def arg (d : Draft) (id : Label) (kind : RegKind) (index : Nat) : Except Fault (Reg × Draft) :=
  d.define id kind fun r => .arg r index

def binary (d : Draft) (id : Label) (op : BinOp) (x y : Reg) : Except Fault (Reg × Draft) :=
  d.define id .scalar fun r => .binary r op x y

def emit (d : Draft) (id : Label) (v : Reg) (width : Nat) : Except Fault Draft :=
  d.pushInstr id (.emit v width)

/-- Add a call with `n` fresh scalar results. -/
def call (d : Draft) (id : Label) (handle : Nat) (args : List Reg) (n : Nat) :
    Except Fault (List Reg × Draft) := do
  let (results, d) := d.freshScalars n
  return (results, ← d.pushInstr id (.call handle args results))

/-- A finished block: it carries its place as its name, it ends, and it refers to
blocks below `count` only. -/
def closeBlock (count : Nat) (id : Label) (b : DraftBlock) : Except Rejection Block :=
  match b.term with
  | none => .error (.missingTerminator id)
  | some t =>
      match (t.successors ++ b.phis.flatMap fun φ => φ.incoming.map Prod.fst).find? (count ≤ ·) with
      | some target => .error (.unknownBlock id target)
      | none => .ok ⟨id, b.phis, b.instrs, t⟩

/-- The finished graph; the first block that cannot be closed decides. -/
def finish (d : Draft) : Except Rejection Graph := do
  let blocks ← d.blocks.toList.zipIdx.mapM fun e => closeBlock d.blocks.size e.2 e.1
  if h : 0 < blocks.length then return ⟨blocks.toArray, 0, d.nextReg, by simpa using h⟩
  else throw .emptyGraph

end Draft

end WireFlow
