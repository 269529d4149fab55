import WireFlow.Run.Basic

/-!
# Staged runs

Staging turns every operation into an action once, and works out for every edge
which moves the phis of its target ask for. An edge on which a phi has no entry
is staged as the failure it leads to. Calls use the direct entry.
-/

namespace WireFlow.Staged

open Wire (Buffer)
open Code (Op)

/-- A staged operation, still to be given the arguments of the run. -/
abbrev Action := List UInt64 → Machine → Except Run Machine

/-- The moves an edge asks for, to be done at once. -/
abbrev Moves := List (Dest × Operand)

/-- A staged block. -/
structure Block where
  actions : List Action
  exit : Code.Exit
  /-- For every successor, its moves or the failure taking the edge leads to. -/
  edges : List (Label × Except RunError Moves)

/-- A staged routine. -/
structure Routine where
  blocks : Array (Option Block)
  entry : Label
  frameSize : Nat

/-- Call the direct entry with cleared results. -/
def call : Machine → Callee → List UInt64 → List Dest → Except Fault Machine
  | ⟨frame, out⟩, f, given, dsts => do
      let (out, results) ← f.direct out given (List.replicate dsts.length 0)
      Machine.writeAll ⟨frame, out⟩ dsts results

def action : Op → Action
  | .const none _ => fun _ m => .ok m
  | .const (some i) v => fun _ m => m.write (some i) v
  | .arg dst i => fun args m => do m.write dst (← m.loadArg args i)
  | .binary dst op x y => fun _ m => do m.write dst (op.eval (← m.read x) (← m.read y))
  | .emit src width => fun _ m => do m.emit width (← m.read src)
  | .call f xs dsts => fun _ m => do call m f (← m.readAll xs) dsts

/-- What a phi of `block` asks for on the edge from `pred`. -/
def move (block pred : Label) (φ : Code.Phi) : Except RunError (Dest × Operand) :=
  match φ.incomingFrom? pred with
  | some x => .ok (φ.dst, x)
  | none => .error (.phiMismatch block pred)

/-- The moves of the edge from `pred` to a block. -/
def moves (pred : Label) (target : Code.Block) : Except RunError Moves :=
  target.phis.mapM (move target.id pred)

def edges (c : Code) (b : Code.Block) : List (Label × Except RunError Moves) :=
  b.exit.successors.filterMap fun id => (c.block? id).map fun target => (id, moves b.id target)

def block (c : Code) (b : Code.Block) : Block := ⟨b.ops.map action, b.exit, edges c b⟩

/-- Stage lowered code. -/
def ofCode (c : Code) : Routine := ⟨c.blocks.map (Option.map (block c)), c.entry, c.frameSize⟩

/-- Staged code at the start of a block. -/
structure State where
  block : Label
  machine : Machine
deriving DecidableEq

def start (r : Routine) (out : Buffer) : State := ⟨r.entry, .start r.frameSize out⟩

/-- The block control is in. -/
def fetch (r : Routine) (id : Label) : Except Run Block :=
  match r.blocks[id]? with
  | some (some b) => .ok b
  | _ => .error (.crashed (.stagedHole id))

/-- Do actions in order. -/
def perform (args : List UInt64) (actions : List Action) (m : Machine) : Except Run Machine :=
  actions.foldlM (fun m act => act args m) m

/-- Do all moves of an edge at once. -/
def shift (ms : Moves) (m : Machine) : Except Fault Machine := do
  let values ← m.readAll (ms.map Prod.snd)
  m.writeAll (ms.map Prod.fst) values

/-- Take the edge to `next`. -/
def cross (b : Block) (next : Label) (m : Machine) : Except Run Machine :=
  match b.edges.lookup next with
  | none => .ok m
  | some (.error e) => .error (.failed e m.out)
  | some (.ok ms) => shift ms m

/-- Do the actions of the current block, leave it and cross the edge. -/
def visit (r : Routine) (args : List UInt64) : State → Except Run State
  | ⟨block, m⟩ => do
      let b ← fetch r block
      let m ← perform args b.actions m
      let next ← m.leave b.exit
      return ⟨next, ← cross b next m⟩

/-- Run for at most `n` transitions. -/
def run (r : Routine) (args : List UInt64) : Nat → State → Run
  | 0, s => .standing s.block s.machine.frame s.machine.out
  | n + 1, s =>
      match visit r args s with
      | .ok s => run r args n s
      | .error e => e

end WireFlow.Staged
