import WireFlow.Proofs.PackedBits

/-!
# Bitmaps as lists of bits

Bitmaps are compared by length and bytes, so two of them with the same bits are
equal only if nothing else is in their bytes. The relation between a bitmap and
its list says what every position of every byte holds, past the length too, and
every change keeps it. It leaves no freedom: a list of bits has one bitmap,
whatever changes have led to it.
-/

namespace WireFlow.Bitmap

theorem testByte_eq_testBit (byte : UInt8) (i : Nat) :
    testByte byte i = byte.toNat.testBit (i % 8) := by
  rw [testByte_eq_getLsbD, BitVec.getLsbD]
  rfl

theorem test_eq_testBit {bytes : Array UInt8} {i : Nat} {byte : UInt8}
    (h : bytes[i / 8]? = some byte) : test bytes i = byte.toNat.testBit (i % 8) := by
  simp only [test, h, testByte_eq_testBit]

/-- Bytes of the same number that read alike are the same. -/
theorem bytes_ext {xs ys : Array UInt8} (hsize : xs.size = ys.size)
    (h : ∀ i, test xs i = test ys i) : xs = ys := by
  refine Array.ext hsize fun k hx hy => ?_
  rw [← UInt8.toNat_inj]
  refine Nat.eq_of_testBit_eq fun j => ?_
  by_cases hj : j < 8
  · have hk : (8 * k + j) / 8 = k := by omega
    have hx : xs[(8 * k + j) / 8]? = some xs[k] := by rw [hk, Array.getElem?_eq_getElem hx]
    have hy : ys[(8 * k + j) / 8]? = some ys[k] := by rw [hk, Array.getElem?_eq_getElem hy]
    have hbit := h (8 * k + j)
    rwa [test_eq_testBit hx, test_eq_testBit hy, Nat.mul_add_mod, Nat.mod_eq_of_lt hj] at hbit
  · have hlt (byte : UInt8) : byte.toNat < 2 ^ j :=
      Nat.lt_of_lt_of_le byte.toNat_lt (Nat.pow_le_pow_right (by decide) (Nat.le_of_not_lt hj))
    rw [Nat.testBit_lt_two_pow (hlt _), Nat.testBit_lt_two_pow (hlt _)]

/-- The bitmap holds the bits of the list, in as many bytes as they need, and
nothing else. -/
structure Holds (b : Bitmap) (bits : List Bool) : Prop where
  length : b.length = bits.length
  size : b.bytes.size = (bits.length + 7) / 8
  test : ∀ i, test b.bytes i = bits.getD i false

theorem holds_empty : empty.Holds [] := ⟨rfl, rfl, fun _ => rfl⟩

namespace Holds

variable {b b' : Bitmap} {bits bits' : List Bool} {i : Nat}

theorem packed (h : b.Holds bits) : b.Packed := by
  rw [Packed, h.size, h.length]

/-- The new bit takes a position that was clear, or a byte that is new. -/
theorem append (h : b.Holds bits) (bit : Bool) : (b.append bit).Holds (bits ++ [bit]) where
  length := by simp [h.length]
  size := by
    rw [(h.packed.append bit : _ = _), length_append, h.length, List.length_append,
      List.length_singleton]
  test i := by
    have hroom : b.length / 8 < b.room.size := by
      rw [h.packed.size_room]
      omega
    calc
      Bitmap.test (mark b.room b.length bit) i
          = if b.length = i then bit else bits.getD i false := by
        rw [test_mark hroom, test_room, h.test]
      _ = (bits ++ [bit]).getD i false := by
        rw [h.length]
        grind

theorem appendMany (h : b.Holds bits) (n : Nat) (bit : Bool) :
    (b.appendMany n bit).Holds (bits ++ List.replicate n bit) := by
  induction n generalizing b bits with
  | zero => simpa [Bitmap.appendMany] using h
  | succ n ih => simpa [Bitmap.appendMany, List.replicate_succ] using ih (h.append bit)

/-- A bit is overwritten where there is one. -/
theorem set (h : b.Holds bits) (hi : i < bits.length) (bit : Bool) :
    ∃ b', b.set i bit = .ok b' ∧ b'.Holds (bits.set i bit) := by
  have hbyte : i / 8 < b.bytes.size := by
    rw [h.size]
    omega
  refine ⟨_, if_pos (h.length ▸ hi), by simp [h.length], by simp [mark, h.size], fun j => ?_⟩
  simp only [test_mark hbyte, h.test]
  grind

theorem set_of_le (h : b.Holds bits) (hi : bits.length ≤ i) (bit : Bool) :
    b.set i bit = .error (.bitPosition i bits.length) := by
  rw [← h.length] at hi ⊢
  exact if_neg (Nat.not_lt.mpr hi)

theorem get? (h : b.Holds bits) (i : Nat) : b.get? i = bits[i]? := by
  simp only [Bitmap.get?, h.length, h.test]
  grind

/-- A list of bits has one bitmap. -/
theorem unique (h : b.Holds bits) (h' : b'.Holds bits) : b = b' := by
  have hlength : b.length = b'.length := h.length.trans h'.length.symm
  have hbytes : b.bytes = b'.bytes :=
    bytes_ext (h.size.trans h'.size.symm) fun i => (h.test i).trans (h'.test i).symm
  cases b
  cases b'
  simp_all

/-- A bitmap has one list of bits. -/
theorem bits_eq (h : b.Holds bits) (h' : b.Holds bits') : bits = bits' :=
  List.ext_getElem? fun i => (h.get? i).symm.trans (h'.get? i)

theorem eq_iff (h : b.Holds bits) (h' : b'.Holds bits') : b = b' ↔ bits = bits' := by
  constructor
  · rintro rfl
    exact h.bits_eq h'
  · rintro rfl
    exact h.unique h'

theorem toList_eq (h : b.Holds bits) : b.toList = bits :=
  List.ext_getElem? fun i => (b.get?_eq_toList i).symm.trans (h.get? i)

/-- Every bit is at its position of its byte. -/
theorem exists_byte (h : b.Holds bits) {bit : Bool} (hi : bits[i]? = some bit) :
    ∃ byte, b.bytes[i / 8]? = some byte ∧ byte.toNat.testBit (i % 8) = bit := by
  obtain ⟨hlt, hbit⟩ := List.getElem?_eq_some_iff.mp hi
  have hbyte : i / 8 < b.bytes.size := by
    rw [h.size]
    omega
  have hsome := Array.getElem?_eq_getElem hbyte
  refine ⟨_, hsome, ?_⟩
  rw [← test_eq_testBit hsome, h.test, List.getD_eq_getElem?_getD, hi, Option.getD_some]

/-- Positions past the last bit are clear. -/
theorem clear (h : b.Holds bits) {byte : UInt8} (hi : bits.length ≤ i)
    (hbyte : b.bytes[i / 8]? = some byte) : byte.toNat.testBit (i % 8) = false := by
  rw [← test_eq_testBit hbyte, h.test, List.getD_eq_getElem?_getD, List.getElem?_eq_none hi,
    Option.getD_none]

end Holds

/-- A change of a bitmap. -/
inductive Edit where
  | append (bit : Bool)
  | appendMany (n : Nat) (bit : Bool)
  | set (i : Nat) (bit : Bool)
deriving DecidableEq

namespace Edit

def apply : Edit → Bitmap → Except Fault Bitmap
  | append bit, b => .ok (b.append bit)
  | appendMany n bit, b => .ok (b.appendMany n bit)
  | set i bit, b => b.set i bit

/-- A change that faults leaves the bitmap as it was. -/
def attempt (b : Bitmap) (e : Edit) : Bitmap :=
  match e.apply b with
  | .ok b' => b'
  | .error _ => b

/-- The same change of a list. Nothing is overwritten past the end. -/
def onList (bits : List Bool) : Edit → List Bool
  | append bit => bits ++ [bit]
  | appendMany n bit => bits ++ List.replicate n bit
  | set i bit => bits.set i bit

/-- The bitmap after changes in order. -/
def bitmap (edits : List Edit) : Bitmap := edits.foldl attempt empty

/-- The list after the same changes. -/
def bits (edits : List Edit) : List Bool := edits.foldl onList []

end Edit

theorem Holds.attempt {b : Bitmap} {bits : List Bool} (h : b.Holds bits) (e : Edit) :
    (e.attempt b).Holds (e.onList bits) := by
  cases e with
  | append bit => exact h.append bit
  | appendMany n bit => exact h.appendMany n bit
  | set i bit =>
      by_cases hi : i < bits.length
      · obtain ⟨b', hset, hb'⟩ := h.set hi bit
        simpa only [Edit.attempt, Edit.apply, Edit.onList, hset] using hb'
      · have hi := Nat.le_of_not_lt hi
        simpa only [Edit.attempt, Edit.apply, Edit.onList, h.set_of_le hi,
          List.set_eq_of_length_le hi] using h

theorem holds_foldl {b : Bitmap} {bits : List Bool} (h : b.Holds bits) (edits : List Edit) :
    (edits.foldl Edit.attempt b).Holds (edits.foldl Edit.onList bits) := by
  induction edits generalizing b bits with
  | nil => exact h
  | cons e rest ih => exact ih (h.attempt e)

theorem holds_bitmap (edits : List Edit) : (Edit.bitmap edits).Holds (Edit.bits edits) :=
  holds_foldl holds_empty edits

theorem bitmap_concat (edits : List Edit) (e : Edit) :
    Edit.bitmap (edits ++ [e]) = e.attempt (Edit.bitmap edits) := by
  simp [Edit.bitmap]

/-- After any changes of the empty bitmap, some of which may have been refused,
the bitmap has the length and the bits of a list after the same changes. It has
as many bytes as the bits need, with bit `i` at position `i % 8` of byte `i / 8`,
and all other positions are clear. A bit that is not there cannot be overwritten,
and trying to changes nothing. So two bitmaps are equal when their lists are,
whatever has happened to each. -/
theorem refines_list_of_bits (edits : List Edit) :
    let b := Edit.bitmap edits
    let bits := Edit.bits edits
    b.length = bits.length ∧ (∀ i, b.get? i = bits[i]?) ∧ b.bytes.size = (bits.length + 7) / 8 ∧
      (∀ i bit, bits[i]? = some bit →
        ∃ byte, b.bytes[i / 8]? = some byte ∧ byte.toNat.testBit (i % 8) = bit) ∧
      (∀ i byte, bits.length ≤ i → b.bytes[i / 8]? = some byte →
        byte.toNat.testBit (i % 8) = false) ∧
      (∀ i bit, i < bits.length → b.set i bit = .ok (Edit.bitmap (edits ++ [.set i bit]))) ∧
      (∀ i bit, bits.length ≤ i → b.set i bit = .error (.bitPosition i bits.length) ∧
        Edit.bitmap (edits ++ [.set i bit]) = b) ∧
      ∀ edits', Edit.bitmap edits' = b ↔ Edit.bits edits' = bits := by
  intro b bits
  have h : b.Holds bits := holds_bitmap edits
  refine ⟨h.length, h.get?, h.size, fun i bit => h.exists_byte, fun i byte => h.clear, ?_, ?_,
    fun edits' => (holds_bitmap edits').eq_iff h⟩
  · intro i bit hi
    obtain ⟨b', hset, -⟩ := h.set hi bit
    have happly : (Edit.set i bit).apply (Edit.bitmap edits) = .ok b' := hset
    rw [hset, bitmap_concat, Edit.attempt, happly]
  · intro i bit hi
    have hset := h.set_of_le hi bit
    have happly : (Edit.set i bit).apply (Edit.bitmap edits) = _ := hset
    refine ⟨hset, ?_⟩
    rw [bitmap_concat, Edit.attempt, happly]

-- a bit that was set and cleared again leaves no trace, nor does one that was never there
example : Edit.bitmap [.appendMany 9 true, .set 8 false, .set 9 true] =
    Edit.bitmap [.appendMany 8 true, .append false] := by
  decide

end WireFlow.Bitmap
