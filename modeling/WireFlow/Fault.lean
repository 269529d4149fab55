/-!
# Faults

A fault is the use of an operation outside its domain: a position past the end,
the sentinel kind where a real register is asked for, control in a block that
holds no code. Operations with a domain return their fault as a value, so that
the absence of faults is something to prove.
-/

namespace WireFlow

/-- The ways in which an operation can be used outside its domain. -/
inductive Fault where
  /-- A bit was written at `index` in a bitmap of `length` bits. -/
  | bitPosition (index length : Nat)
  /-- Word `index` of a pointer map was asked for past its end. -/
  | mapWord (index : Nat)
  /-- A register was to be made of the sentinel kind. -/
  | sentinelKind
  /-- A sequence of `length` items was indexed at `index`. -/
  | outOfBounds (index length : Nat)
  /-- The first `stop` items of only `length` were asked for. -/
  | rangeEnd (stop length : Nat)
  /-- The interpreter stands in a block without lowered code. -/
  | interpretedHole (block : Nat)
  /-- Staged code stands in a block without actions. -/
  | stagedHole (block : Nat)
deriving DecidableEq

/-- The text a fault is reported with. -/
def Fault.message : Fault → String
  | bitPosition i n => s!"bitmap: invalid bit position {i} (len {n})"
  | mapWord i => s!"stackmap: word {i} out of range"
  | sentinelKind => "reg: use Reg::zero() for the sentinel"
  | outOfBounds i n => s!"index out of bounds: the len is {n} but the index is {i}"
  | rangeEnd i n => s!"range end index {i} out of range for slice of length {n}"
  | interpretedHole b =>
      s!"internal error: entered unreachable code: emu: control reached unassembled block bb{b}"
  | stagedHole b =>
      s!"internal error: entered unreachable code: native: control reached uncompiled block bb{b}"

end WireFlow
