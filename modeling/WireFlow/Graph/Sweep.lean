import WireFlow.Graph.Basic

/-!
# Sweeping away unread definitions

A round turns every definition that nothing reads into the sentinel, and then
drops the phis and the effect-free instructions that define nothing else.
Dropping a node can leave its operands unread, so rounds go on until one
retires nothing. Terminators stay.
-/

namespace WireFlow

/-- What one round did. -/
structure SweepRound where
  /-- Definitions turned into the sentinel. -/
  retired : Nat
  /-- Phis and instructions dropped. -/
  removed : Nat
deriving DecidableEq

namespace Block

/-- Turn the definitions of the given registers into the sentinel. -/
def retire (dead : List Reg) (b : Block) : Block :=
  b.mapDefs fun r => if r ∈ dead then .zero else r

/-- The definitions that `retire` turns into the sentinel. -/
def retireCount (dead : List Reg) (b : Block) : Nat :=
  b.defs.countP fun r => r ≠ .zero ∧ r ∈ dead

/-- A phi stays while it defines a register. -/
def keepsPhi (φ : Phi) : Bool := φ.dst ≠ .zero

/-- An instruction stays if it has an effect, if it never defined a register,
or while it defines one. -/
def keepsInstr (i : Instr) : Bool :=
  i.hasEffect || i.defs.isEmpty || i.defs.any (· ≠ .zero)

/-- Drop the nodes that define the sentinel only. -/
def compact (b : Block) : Block :=
  { b with phis := b.phis.filter keepsPhi, instrs := b.instrs.filter keepsInstr }

end Block

namespace Graph

/-- The registers that are defined and not read. -/
def deadRegs (g : Graph) : List Reg :=
  let uses := g.uses
  g.defs.filter (· ∉ uses)

/-- The reachable definitions other than of the sentinel. -/
def liveDefCount (g : Graph) : Nat := g.defs.countP (· ≠ .zero)

/-- Retire what is dead, then compact. -/
def sweepRound (g : Graph) : Graph × SweepRound :=
  let dead := g.deadRegs
  let retiredCount := sumOf (fun e => e.2.retireCount dead) g.walk
  let retired := g.mapReachable (Block.retire dead)
  let compacted := retired.mapReachable Block.compact
  let removed := sumOf (fun e => e.2.nodeCount - e.2.compact.nodeCount) retired.walk
  (compacted, ⟨retiredCount, removed⟩)

/-- At most `n` rounds, ending with the first that retires nothing. -/
def sweepRounds : Nat → Graph → Graph × List SweepRound
  | 0, g => (g, [])
  | n + 1, g =>
      let (g, round) := g.sweepRound
      if round.retired = 0 then (g, [round])
      else
        let (g, rounds) := sweepRounds n g
        (g, round :: rounds)

/-- Sweep until a round retires nothing. Every other round uses up at least
one definition, so their number bounds the rounds. -/
def sweep (g : Graph) : Graph × List SweepRound := sweepRounds (g.liveDefCount + 1) g

end Graph

namespace SweepRound

def totalRetired (rounds : List SweepRound) : Nat := sumOf SweepRound.retired rounds

def totalRemoved (rounds : List SweepRound) : Nat := sumOf SweepRound.removed rounds

end SweepRound

end WireFlow
