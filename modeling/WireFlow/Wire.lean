/-!
# Words on the wire

A word is written either as its low bytes, least significant first, or as a
varint: groups of seven bits, least significant first, with the high bit of a
byte set as long as more groups follow.
-/

namespace WireFlow.Wire

/-- What has been written, oldest byte first. -/
abbrev Buffer := Array UInt8

/-- The low `width` bytes of a word, least significant first. -/
def lowBytes (width : Nat) (v : UInt64) : List UInt8 :=
  (List.range width).map fun i => (v >>> (8 * i).toUInt64).toUInt8

theorem shiftRight_seven_lt {v : UInt64} (h : ¬v < 128) : (v >>> 7).toNat < v.toNat := by
  have hv : ¬v.toNat < 128 := h
  rw [UInt64.toNat_shiftRight]
  simp only [UInt64.reduceToNat, Nat.reduceMod, Nat.shiftRight_eq_div_pow]
  omega

/-- Write a word in groups of seven bits. -/
def pushVarint (out : Buffer) (v : UInt64) : Buffer :=
  if v < 128 then out.push v.toUInt8
  else pushVarint (out.push (v.toUInt8 &&& 0x7f ||| 0x80)) (v >>> 7)
termination_by v.toNat
decreasing_by exact shiftRight_seven_lt ‹_›

/-- Write a word as a varint; also the number of bytes it took. -/
def writeVarint (out : Buffer) (v : UInt64) : Buffer × Nat :=
  let start := out.size
  let out := pushVarint out v
  (out, out.size - start)

end WireFlow.Wire
