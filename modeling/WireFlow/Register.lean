import WireFlow.Fault

/-!
# Registers

A register holds a scalar word or a pointer word. The zero register is the
sentinel: reading it gives zero and writing it does nothing, so it can stand
in any number of definitions.
-/

namespace WireFlow

/-- What a register holds. -/
inductive RegKind where
  | zero
  | scalar
  | pointer
deriving DecidableEq

/-- A register of a flow graph. -/
inductive Reg where
  | zero
  | scalar (index : Nat)
  | pointer (index : Nat)
deriving DecidableEq

namespace RegKind

/-- Kinds are ordered sentinel, scalar, pointer. -/
def rank : RegKind → Nat
  | zero => 0
  | scalar => 1
  | pointer => 2

end RegKind

namespace Reg

/-- The register of a kind and an index. The sentinel is not made this way. -/
def ofKind : RegKind → Nat → Except Fault Reg
  | .zero, _ => .error .sentinelKind
  | .scalar, i => .ok (.scalar i)
  | .pointer, i => .ok (.pointer i)

def kind : Reg → RegKind
  | zero => .zero
  | scalar _ => .scalar
  | pointer _ => .pointer

def index : Reg → Nat
  | zero => 0
  | scalar i => i
  | pointer i => i

def isZero (r : Reg) : Bool := r.kind == .zero

def isPointer (r : Reg) : Bool := r.kind == .pointer

/-- By kind, then by index. -/
def le (a b : Reg) : Bool :=
  a.kind.rank < b.kind.rank || (a.kind.rank == b.kind.rank && a.index ≤ b.index)

/-- The least register of a list. -/
def least? : List Reg → Option Reg
  | [] => none
  | r :: rest =>
      match least? rest with
      | none => some r
      | some s => some (if r.le s then r else s)

def text : Reg → String
  | zero => "%z"
  | scalar i => s!"%r{i}"
  | pointer i => s!"%p{i}"

/-- Registers in a row, with commas between. -/
def listText (rs : List Reg) : String := ", ".intercalate (rs.map text)

end Reg

end WireFlow
