import WireFlow.Fault

/-!
# Memory blocks

A block is a run of bytes of a declared type. Allocation counts blocks and
bytes, and separately the bytes of types that hold no pointers.
-/

namespace WireFlow

/-- What a collector needs to know of a type: `pointerData` is the length of
the leading part that may hold pointers. -/
structure BlockType where
  name : String
  size : Nat
  pointerData : Nat
deriving DecidableEq

namespace BlockType

/-- The type of plain bytes. -/
def byte : BlockType := ⟨"uint8", 1, 0⟩

/-- Blocks of the type hold no pointers. -/
def noScan (t : BlockType) : Bool := t.pointerData == 0

end BlockType

/-- An allocated block. -/
structure MemBlock where
  type : BlockType
  data : Array UInt8
deriving DecidableEq

namespace MemBlock

/-- A new block has clear bytes. -/
def new (type : BlockType) (size : Nat) : MemBlock := ⟨type, Array.replicate size 0⟩

def size (m : MemBlock) : Nat := m.data.size

def isEmpty (m : MemBlock) : Bool := m.data.isEmpty

/-- Overwrite the whole block with one byte. -/
def fill (m : MemBlock) (byte : UInt8) : MemBlock :=
  { m with data := Array.replicate m.data.size byte }

/-- Overwrite byte `i`. -/
def put (m : MemBlock) (i : Nat) (byte : UInt8) : Except Fault MemBlock :=
  if i < m.data.size then .ok { m with data := m.data.setIfInBounds i byte }
  else .error (.outOfBounds i m.data.size)

end MemBlock

/-- What has been allocated so far. -/
structure AllocCounts where
  blocks : Nat := 0
  bytes : Nat := 0
  noScanBytes : Nat := 0
deriving DecidableEq

/-- Count one more block. -/
def AllocCounts.add (c : AllocCounts) (m : MemBlock) : AllocCounts where
  blocks := c.blocks + 1
  bytes := c.bytes + m.size
  noScanBytes := c.noScanBytes + if m.type.noScan then m.size else 0

end WireFlow
