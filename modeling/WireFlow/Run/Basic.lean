import WireFlow.Code.Basic

/-!
# Runs of lowered code

A run goes from block to block until it returns or fails. What it has written
stays written, also when it fails. A run can be stopped after a number of
transitions; it is then standing at the start of a block, with the phis of the
edge just taken already in the frame. A crash leaves nothing behind.
-/

namespace WireFlow

open Wire (Buffer)

/-- The ways in which a run can fail. -/
inductive RunError where
  /-- Argument `index` was loaded, and only `count` were passed. -/
  | missingArgument (index count : Nat)
  /-- A phi of `block` has no entry for `pred`, where control came from. -/
  | phiMismatch (block pred : Label)
deriving DecidableEq

def RunError.message : RunError → String
  | missingArgument i n => s!"Argument {i} requested, but only {n} were passed"
  | phiMismatch b p =>
      "Block " ++ Label.text b ++ " was entered from " ++ Label.text p ++
        ", which has no PHI incoming value"

/-- Where a run is, or how it ended, with what it has written. -/
inductive Run where
  | standing (block : Label) (frame : Frame) (out : Buffer)
  | returned (values : List UInt64) (out : Buffer)
  | failed (error : RunError) (out : Buffer)
  | crashed (fault : Fault)
deriving DecidableEq

/-- A fault ends the run. -/
instance : MonadLift (Except Fault) (Except Run) := ⟨Except.mapError .crashed⟩

/-- The state that operations work on. -/
structure Machine where
  frame : Frame
  out : Buffer
deriving DecidableEq

namespace Machine

/-- The state at the start of a run with a frame of `n` words. -/
def start (n : Nat) (out : Buffer) : Machine := ⟨Frame.blank n, out⟩

def read (m : Machine) (x : Operand) : Except Fault UInt64 := x.read m.frame

def readAll (m : Machine) (xs : List Operand) : Except Fault (List UInt64) :=
  Operand.readAll m.frame xs

def write : Machine → Dest → UInt64 → Except Fault Machine
  | ⟨frame, out⟩, dst, v => do return ⟨← frame.write dst v, out⟩

def writeAll : Machine → List Dest → List UInt64 → Except Fault Machine
  | ⟨frame, out⟩, dsts, vs => do return ⟨← frame.writeAll dsts vs, out⟩

/-- Write the low bytes of a word, of which there are eight. -/
def emit : Machine → Nat → UInt64 → Except Fault Machine
  | ⟨frame, out⟩, width, v =>
      if width ≤ 8 then .ok ⟨frame, out ++ Wire.lowBytes width v⟩ else .error (.rangeEnd width 8)

/-- Load argument `i` of the run. -/
def loadArg (m : Machine) (args : List UInt64) (i : Nat) : Except Run UInt64 :=
  match args[i]? with
  | some v => .ok v
  | none => .error (.failed (.missingArgument i args.length) m.out)

/-- Take the exit of a block: a transition, or the return that ends the run. -/
def leave (m : Machine) (x : Code.Exit) : Except Run Label := do
  match ← x.target m.frame with
  | some next => return next
  | none => throw (.returned (← x.values m.frame) m.out)

end Machine

end WireFlow
