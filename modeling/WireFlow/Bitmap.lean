import WireFlow.Fault

/-!
# Growable bitmaps

Bits are packed from the least significant position of each byte: bit `i` is
position `i % 8` of byte `i / 8`. A byte is added when the bits present fill
all bytes, and bits past the length stay clear.
-/

namespace WireFlow

/-- A sequence of bits, packed eight to a byte. -/
structure Bitmap where
  length : Nat
  bytes : Array UInt8
deriving DecidableEq

namespace Bitmap

/-- The byte with only position `i % 8` set. -/
def mask (i : Nat) : UInt8 := 1 <<< (i % 8).toUInt8

/-- Read position `i % 8` of a byte. -/
def testByte (byte : UInt8) (i : Nat) : Bool := byte &&& mask i != 0

/-- Write position `i % 8` of a byte. -/
def markByte (byte : UInt8) (i : Nat) (bit : Bool) : UInt8 :=
  if bit then byte ||| mask i else byte &&& ~~~mask i

/-- Write bit `i` of packed bytes. -/
def mark (bytes : Array UInt8) (i : Nat) (bit : Bool) : Array UInt8 :=
  bytes.modify (i / 8) fun byte => markByte byte i bit

/-- Read bit `i` of packed bytes; bits past the last byte are clear. -/
def test (bytes : Array UInt8) (i : Nat) : Bool :=
  match bytes[i / 8]? with
  | some byte => testByte byte i
  | none => false

/-- The bitmap without bits. -/
def empty : Bitmap := ⟨0, #[]⟩

def isEmpty (b : Bitmap) : Bool := b.length == 0

/-- The bytes with room for one more bit. -/
def room (b : Bitmap) : Array UInt8 :=
  if b.length < 8 * b.bytes.size then b.bytes else b.bytes.push 0

/-- Add one bit at the end. -/
def append (b : Bitmap) (bit : Bool) : Bitmap :=
  ⟨b.length + 1, mark b.room b.length bit⟩

/-- Add `n` equal bits at the end. -/
def appendMany (b : Bitmap) : Nat → Bool → Bitmap
  | 0, _ => b
  | n + 1, bit => (b.append bit).appendMany n bit

/-- Bit `i`, if there is one. -/
def get? (b : Bitmap) (i : Nat) : Option Bool :=
  if i < b.length then some (test b.bytes i) else none

/-- Overwrite bit `i`, which has to be present. -/
def set (b : Bitmap) (i : Nat) (bit : Bool) : Except Fault Bitmap :=
  if i < b.length then .ok { b with bytes := mark b.bytes i bit }
  else .error (.bitPosition i b.length)

/-- The bits in order. -/
def toList (b : Bitmap) : List Bool := (List.range b.length).map (test b.bytes)

/-- The bitmap of a list of bits. -/
def ofList (bits : List Bool) : Bitmap := bits.foldl append empty

@[simp] theorem length_append (b : Bitmap) (bit : Bool) : (b.append bit).length = b.length + 1 :=
  rfl

@[simp] theorem length_appendMany (b : Bitmap) (n : Nat) (bit : Bool) :
    (b.appendMany n bit).length = b.length + n := by
  induction n generalizing b with
  | zero => rfl
  | succ n ih => simp only [appendMany, ih, length_append]; omega

@[simp] theorem length_toList (b : Bitmap) : b.toList.length = b.length := by
  simp [toList]

/-- Reading a bit is indexing the list of bits. -/
theorem get?_eq_toList (b : Bitmap) (i : Nat) : b.get? i = b.toList[i]? := by
  by_cases h : i < b.length <;> simp [get?, toList, h]

end Bitmap

end WireFlow
