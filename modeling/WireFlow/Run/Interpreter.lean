import WireFlow.Run.Basic

/-!
# Interpreted runs

The interpreter remembers the block it came from and resolves the phis of a
block when it enters it. Calls go through a call context.
-/

namespace WireFlow.Interpreter

open Wire (Buffer)
open Code (Op)

/-- The interpreter between two blocks. -/
structure State where
  /-- The block control came from; none at the start. -/
  pred : Option Label
  block : Label
  machine : Machine
deriving DecidableEq

def start (c : Code) (out : Buffer) : State := ⟨none, c.entry, .start c.frameSize out⟩

/-- Call through a context that starts with cleared results. -/
def call : Machine → Callee → List UInt64 → List Dest → Except Fault Machine
  | ⟨frame, out⟩, f, given, dsts => do
      let c ← f.through ⟨out, given, List.replicate dsts.length 0⟩
      Machine.writeAll ⟨frame, c.out⟩ dsts c.results

/-- Do one operation. -/
def step (args : List UInt64) (m : Machine) (op : Op) : Except Run Machine := do
  match op with
  | .const dst v => m.write dst v
  | .arg dst i => m.write dst (← m.loadArg args i)
  | .binary dst op x y => m.write dst (op.eval (← m.read x) (← m.read y))
  | .emit src width => m.emit width (← m.read src)
  | .call f xs dsts => call m f (← m.readAll xs) dsts

/-- Do operations in order. -/
def steps (args : List UInt64) (ops : List Op) (m : Machine) : Except Run Machine :=
  ops.foldlM (step args) m

/-- The word a phi of `block` takes on the edge from `pred`. -/
def phiValue (block pred : Label) (m : Machine) (φ : Code.Phi) : Except Run UInt64 :=
  match φ.incomingFrom? pred with
  | some x => m.read x
  | none => .error (.failed (.phiMismatch block pred) m.out)

/-- Resolve the phis of a block: all words are read before any is written. -/
def resolve (b : Code.Block) (pred : Label) (m : Machine) : Except Run Machine := do
  let values ← b.phis.mapM (phiValue b.id pred m)
  m.writeAll (b.phis.map Code.Phi.dst) values

/-- Enter a block; at the start of a run there are no phis to resolve. -/
def enter (b : Code.Block) (pred : Option Label) (m : Machine) : Except Run Machine :=
  match pred with
  | none => .ok m
  | some pred => resolve b pred m

/-- The block control is in. -/
def fetch (c : Code) (id : Label) : Except Run Code.Block :=
  match c.block? id with
  | some b => .ok b
  | none => .error (.crashed (.interpretedHole id))

/-- Enter the current block, do its operations and leave it. -/
def visit (c : Code) (args : List UInt64) : State → Except Run State
  | ⟨pred, block, m⟩ => do
      let b ← fetch c block
      let m ← enter b pred m
      let m ← steps args b.ops m
      return ⟨some block, ← m.leave b.exit, m⟩

/-- Stop before the operations of the current block. -/
def stand (c : Code) (s : State) : Except Run Run := do
  let m ← enter (← fetch c s.block) s.pred s.machine
  return .standing s.block m.frame m.out

/-- Run for at most `n` transitions. -/
def run (c : Code) (args : List UInt64) : Nat → State → Run
  | 0, s =>
      match stand c s with
      | .ok r => r
      | .error r => r
  | n + 1, s =>
      match visit c args s with
      | .ok s => run c args n s
      | .error r => r

end WireFlow.Interpreter

namespace WireFlow

/-- Interpret code from its entry for at most `n` transitions. -/
def Code.interpret (c : Code) (n : Nat) (args : List UInt64) (out : Wire.Buffer) : Run :=
  Interpreter.run c args n (Interpreter.start c out)

end WireFlow
