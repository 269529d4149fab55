import WireFlow.Callee
import WireFlow.Code.Frame
import WireFlow.Node

/-!
# Lowered code

Lowering turns registers into frame slots. Code keeps the blocks that can be
reached at their old positions, together with the layout of the frame.
-/

namespace WireFlow

namespace Code

/-- A lowered instruction. -/
inductive Op where
  | const (dst : Dest) (value : UInt64)
  | arg (dst : Dest) (index : Nat)
  | binary (dst : Dest) (op : BinOp) (x y : Operand)
  | emit (src : Operand) (width : Nat)
  | call (callee : Callee) (args : List Operand) (results : List Dest)
deriving DecidableEq

/-- A lowered phi. -/
structure Phi where
  dst : Dest
  incoming : List (Label × Operand)
deriving DecidableEq

/-- The operand taken when control comes from `pred`. -/
def Phi.incomingFrom? (φ : Phi) (pred : Label) : Option Operand :=
  (φ.incoming.find? fun e => e.1 == pred).map Prod.snd

/-- A lowered terminator. -/
inductive Exit where
  | ret (values : List Operand)
  | jump (target : Label)
  | branch (cond : Operand) (target otherwise : Label)
  | switch (value : Operand) (targets : List Label) (default : Label)
deriving DecidableEq

namespace Exit

/-- The block control goes to; none after a return. -/
def target (t : Exit) (f : Frame) : Except Fault (Option Label) := do
  match t with
  | ret _ => return none
  | jump target => return some target
  | branch cond target otherwise =>
      let v ← cond.read f
      return some (if v ≠ 0 then target else otherwise)
  | switch value targets default =>
      let v ← value.read f
      return some (targets[v.toNat]?.getD default)

/-- The words a return hands over; none for other exits. -/
def values (t : Exit) (f : Frame) : Except Fault (List UInt64) :=
  match t with
  | ret xs => Operand.readAll f xs
  | _ => .ok []

/-- The blocks control can go to, in order and with repetitions. -/
def successors : Exit → List Label
  | ret _ => []
  | jump target => [target]
  | branch _ target otherwise => [target, otherwise]
  | switch _ targets default => targets ++ [default]

end Exit

/-- A lowered block. -/
structure Block where
  id : Label
  phis : List Phi
  ops : List Op
  exit : Exit
deriving DecidableEq

end Code

/-- A lowered routine. -/
structure Code where
  /-- By label; blocks that cannot be reached are missing. -/
  blocks : Array (Option Code.Block)
  entry : Label
  /-- The registers of the frame, slot by slot. -/
  layout : List Reg
  /-- The number of arguments the routine reads. -/
  argCount : Nat
deriving DecidableEq

namespace Code

def block? (c : Code) (id : Label) : Option Block :=
  match c.blocks[id]? with
  | some b => b
  | none => none

/-- The slot of a register, if it has one. -/
def slot? (c : Code) (r : Reg) : Option Nat := c.layout.idxOf? r

def frameSize (c : Code) : Nat := c.layout.length

/-- The blocks present, by label. -/
def blockList (c : Code) : List Block := c.blocks.toList.filterMap id

end Code

end WireFlow
