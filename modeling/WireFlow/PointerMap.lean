import WireFlow.Bitmap
import WireFlow.Memory

/-!
# Pointer maps and pins

A pointer map says which words of a frame hold pointers. A map placed in memory
is known by its address. Pinning keeps a placed map for good, so that its
address can be resolved later, whoever else has let go of it. An address that
the heap hands out differs from every address that is written down as a number.
-/

namespace WireFlow

/-- One bit per frame word, set where the word holds a pointer. -/
structure PointerMap where
  /-- How many bitmaps the map holds. -/
  count : Nat
  /-- Words per bitmap. -/
  length : Nat
  storage : MemBlock
deriving DecidableEq

namespace PointerMap

/-- The map of one bitmap, with its own copy of the bytes. -/
def ofBitmap (b : Bitmap) : PointerMap := ⟨1, b.length, ⟨.byte, b.bytes⟩⟩

def bytes (m : PointerMap) : Array UInt8 := m.storage.data

/-- Whether word `i` holds a pointer. -/
def isPointer (m : PointerMap) (i : Nat) : Except Fault Bool :=
  if i < m.length then .ok (Bitmap.test m.bytes i) else .error (.mapWord i)

/-- The words that hold pointers, in order. -/
def pointerWords (m : PointerMap) : List Nat :=
  (List.range m.length).filter (Bitmap.test m.bytes)

end PointerMap

/-- A place in memory. -/
inductive Address where
  /-- The place the heap chose for the map of a serial number. -/
  | allotted (serial : Nat)
  /-- A place that is named by its number, whatever may be there. -/
  | numbered (n : Nat)
deriving DecidableEq

namespace Address

/-- The address that stands for no place. -/
def null : Address := .numbered 0

/-- A number in base sixteen, or the serial number of the map. -/
def text : Address → String
  | allotted serial => s!"map {serial}"
  | numbered n => "0x" ++ String.ofList (Nat.toDigits 16 n)

end Address

/-- A pointer map at its place in memory. -/
structure PlacedMap where
  address : Address
  map : PointerMap
deriving DecidableEq

/-- The maps kept for good, oldest first. -/
structure Pins where
  maps : List PlacedMap := []
deriving DecidableEq

namespace Pins

/-- The map kept under an address. -/
def lookup (p : Pins) (a : Address) : Option PlacedMap :=
  p.maps.find? fun m => m.address == a

/-- Keep a map. An address that is kept already stays as it is. -/
def pin (p : Pins) (m : PlacedMap) : Pins :=
  match p.lookup m.address with
  | some _ => p
  | none => ⟨p.maps ++ [m]⟩

def size (p : Pins) : Nat := p.maps.length

theorem pin_of_lookup {p : Pins} {m n : PlacedMap} (h : p.lookup m.address = some n) :
    p.pin m = p := by
  simp [pin, h]

theorem lookup_pin_self {p : Pins} {m : PlacedMap} (h : p.lookup m.address = none) :
    (p.pin m).lookup m.address = some m := by
  simp only [lookup] at h
  simp [pin, lookup, List.find?_append, h]

theorem lookup_pin_of_ne {p : Pins} {m : PlacedMap} {a : Address} (h : a ≠ m.address) :
    (p.pin m).lookup a = p.lookup a := by
  unfold pin
  split
  · rfl
  · simp [lookup, List.find?_append, beq_eq_false_iff_ne.mpr h.symm]

end Pins

/-- The memory that assembly works in. -/
structure Heap where
  counts : AllocCounts := {}
  pins : Pins := {}
  /-- The serial number of the next map. -/
  next : Nat := 0
deriving DecidableEq

namespace Heap

/-- Build a map from a bitmap and place it at the given address. -/
def placeAt (h : Heap) (a : Address) (b : Bitmap) : PlacedMap × Heap :=
  let map := PointerMap.ofBitmap b
  (⟨a, map⟩, { h with counts := h.counts.add map.storage, next := h.next + 1 })

/-- Build a map from a bitmap and place it at a fresh address. -/
def place (h : Heap) (b : Bitmap) : PlacedMap × Heap := h.placeAt (.allotted h.next) b

/-- Keep a placed map for good. -/
def pin (h : Heap) (m : PlacedMap) : Heap := { h with pins := h.pins.pin m }

/-- No number names the place of a map that the heap has placed. -/
theorem address_place_ne_numbered (h : Heap) (b : Bitmap) (n : Nat) :
    (h.place b).1.address ≠ .numbered n := by
  intro e
  cases e

end Heap

end WireFlow
