import WireFlow.PointerMap

/-!
# Packed bits

A bitmap is looked at through the list of its bits. Writing a bit changes one
position of one byte and no other bit, so that adding a bit at the end of a
bitmap adds it to the end of the list, and packing a list of bits loses nothing.
The reader of a pointer map does its own indexing, and finds the same bits.
-/

namespace WireFlow

namespace Bitmap

theorem toBitVec_mask (i : Nat) : (mask i).toBitVec = BitVec.twoPow 8 (i % 8) := by
  have hmask : ∀ k : Fin 8, (1 <<< k.val.toUInt8 : UInt8).toBitVec = BitVec.twoPow 8 k := by
    decide
  exact hmask ⟨i % 8, Nat.mod_lt i (by decide)⟩

theorem testByte_eq_getLsbD (byte : UInt8) (i : Nat) :
    testByte byte i = byte.toBitVec.getLsbD (i % 8) := by
  have hi : i % 8 < 8 := Nat.mod_lt i (by decide)
  have hmask : BitVec.twoPow 8 (i % 8) ≠ 0#8 := by
    intro hzero
    have hbit := congrArg (fun bits => bits.getLsbD (i % 8)) hzero
    simp [hi] at hbit
  have hand : byte &&& mask i = 0 ↔ byte.toBitVec.getLsbD (i % 8) = false := by
    rw [← UInt8.toBitVec_inj, UInt8.toBitVec_and, toBitVec_mask, BitVec.and_twoPow]
    cases byte.toBitVec.getLsbD (i % 8) <;> simp [hmask]
  cases hbit : byte.toBitVec.getLsbD (i % 8) with
  | false => simpa [testByte] using hand.mpr hbit
  | true => simpa [testByte, hbit] using hand

/-- Writing one position of a byte leaves the others alone. -/
theorem testByte_markByte (byte : UInt8) (i j : Nat) (bit : Bool) :
    testByte (markByte byte i bit) j = if i % 8 = j % 8 then bit else testByte byte j := by
  have hj : j % 8 < 8 := Nat.mod_lt j (by decide)
  rw [testByte_eq_getLsbD, testByte_eq_getLsbD]
  by_cases hij : i % 8 = j % 8
  · cases bit <;> simp [markByte, toBitVec_mask, hj, hij]
  · cases bit <;> simp [markByte, toBitVec_mask, hj, hij, Ne.symm hij]

/-- Writing one bit leaves the others alone, in its own byte and elsewhere. -/
theorem test_mark {bytes : Array UInt8} {i : Nat} (hi : i / 8 < bytes.size) (bit : Bool) (j : Nat) :
    test (mark bytes i bit) j = if i = j then bit else test bytes j := by
  simp only [test, mark, Array.getElem?_modify]
  by_cases hbyte : i / 8 = j / 8
  · have hbit : i = j ↔ i % 8 = j % 8 := by omega
    have hj : bytes[j / 8]? = some bytes[i / 8] := by
      rw [← hbyte]
      exact Array.getElem?_eq_getElem hi
    simp only [hbyte, if_true, hj, Option.map_some, testByte_markByte, hbit]
  · have hne : i ≠ j := by
      rintro rfl
      exact hbyte rfl
    simp only [hbyte, if_false, hne]

theorem test_push_zero (bytes : Array UInt8) (i : Nat) : test (bytes.push 0) i = test bytes i := by
  have hzero : testByte 0 i = false := by simp [testByte]
  simp only [test, Array.getElem?_push]
  by_cases hi : i / 8 = bytes.size
  · simp [hi, hzero]
  · simp [hi]

/-- There are as many bytes as the bits need. -/
def Packed (b : Bitmap) : Prop := b.bytes.size = (b.length + 7) / 8

theorem packed_empty : Packed empty := rfl

theorem test_room (b : Bitmap) (i : Nat) : test b.room i = test b.bytes i := by
  unfold room
  split
  · rfl
  · exact test_push_zero b.bytes i

theorem Packed.size_room {b : Bitmap} (h : b.Packed) : b.room.size = b.length / 8 + 1 := by
  unfold Packed at h
  unfold room
  split
  · omega
  · rw [Array.size_push]
    omega

theorem Packed.append {b : Bitmap} (h : b.Packed) (bit : Bool) : (b.append bit).Packed := by
  have hsize : (b.append bit).bytes.size = b.room.size := by simp [Bitmap.append, mark]
  have hroom := h.size_room
  unfold Packed
  rw [hsize, length_append]
  omega

theorem Packed.toList_append {b : Bitmap} (h : b.Packed) (bit : Bool) :
    (b.append bit).toList = b.toList ++ [bit] := by
  have hroom : b.length / 8 < b.room.size := by
    rw [h.size_room]
    omega
  have htest (i : Nat) :
      test (b.append bit).bytes i = if b.length = i then bit else test b.bytes i := by
    simp only [Bitmap.append, test_mark hroom, test_room]
  have hold : (List.range b.length).map (test (b.append bit).bytes) = b.toList := by
    apply List.map_congr_left
    intro i hi
    rw [htest, if_neg (Nat.ne_of_gt (List.mem_range.mp hi))]
  rw [toList, length_append, List.range_succ, List.map_append, hold, List.map_singleton, htest,
    if_pos rfl]

theorem packed_foldl_append {b : Bitmap} (h : b.Packed) (bits : List Bool) :
    (bits.foldl append b).Packed ∧ (bits.foldl append b).toList = b.toList ++ bits := by
  induction bits generalizing b with
  | nil => simpa using h
  | cons bit rest ih =>
      obtain ⟨hpacked, hbits⟩ := ih (h.append bit)
      refine ⟨hpacked, ?_⟩
      rw [List.foldl_cons, hbits, h.toList_append, List.append_assoc, List.singleton_append]

/-- Packing a list of bits loses nothing. -/
theorem toList_ofList (bits : List Bool) : (ofList bits).toList = bits :=
  (packed_foldl_append packed_empty bits).2

end Bitmap

namespace PointerMap

theorem isPointer_ofBitmap {b : Bitmap} {i : Nat} {bit : Bool} (h : b.toList[i]? = some bit) :
    (ofBitmap b).isPointer i = .ok bit := by
  rw [← Bitmap.get?_eq_toList, Bitmap.get?] at h
  obtain ⟨hi, hbit⟩ := Option.ite_none_right_eq_some.mp h
  rw [isPointer, if_pos (show i < (ofBitmap b).length from hi)]
  exact congrArg Except.ok (Option.some.inj hbit)

theorem mem_pointerWords_ofBitmap {b : Bitmap} {i : Nat} :
    i ∈ (ofBitmap b).pointerWords ↔ b.toList[i]? = some true := by
  rw [← Bitmap.get?_eq_toList, Bitmap.get?, Option.ite_none_right_eq_some, Option.some.injEq,
    pointerWords, List.mem_filter, List.mem_range]
  rfl

/-- Pointer words are listed in increasing order. -/
theorem pairwise_pointerWords (m : PointerMap) : m.pointerWords.Pairwise (· < ·) :=
  List.pairwise_lt_range.filter _

end PointerMap

end WireFlow
