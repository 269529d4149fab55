import Mathlib.Tactic.Ring
import WireFlow.Proofs.Growth

/-!
# Varints can be read back

A word is written in groups of seven bits, and the first byte without a high bit
ends it. Many rows of bytes spell the same number, since groups of zeros may
follow the others. What is written is the shortest spelling, and the only one of
its length.

A reader puts groups together by shifts until a byte has no high bit. It takes
every spelling that fits into a word, the shortest or not, and stops where the
spelling ends. So a row of words can be written without marks between them, and
is read back as it was.
-/

namespace WireFlow.Wire

/-- Another group follows. -/
def Continues (byte : UInt8) : Prop := byte &&& 0x80 ≠ 0

instance : DecidablePred Continues := fun _ => inferInstanceAs (Decidable (_ ≠ _))

/-- The number that groups of seven bits stand for, least significant first. -/
def value : List UInt8 → Nat
  | [] => 0
  | byte :: rest => (byte &&& 0x7f).toNat + 128 * value rest

/-- The bytes end a number with the last of them and not before. -/
inductive Spelling : List UInt8 → Prop
  | last {byte : UInt8} (h : ¬Continues byte) : Spelling [byte]
  | more {byte : UInt8} {rest : List UInt8} (h : Continues byte) (hrest : Spelling rest) :
      Spelling (byte :: rest)

/-- Read groups until one is the last. The next group goes to position `shift`,
and at position 63 there is room for one bit. -/
def readGroups (acc : UInt64) (shift : Nat) : List UInt8 → Option (UInt64 × List UInt8)
  | [] => none
  | byte :: rest =>
      if shift = 63 ∧ 1 < byte then none
      else
        let acc := acc ||| (byte &&& 0x7f).toUInt64 <<< shift.toUInt64
        if Continues byte then readGroups acc (shift + 7) rest else some (acc, rest)

/-- Read one word; also the bytes after it. -/
def readVarint (bytes : List UInt8) : Option (UInt64 × List UInt8) := readGroups 0 0 bytes

theorem length_lt_of_readGroups {acc v : UInt64} {shift : Nat} {bytes rest : List UInt8}
    (h : readGroups acc shift bytes = some (v, rest)) : rest.length < bytes.length := by
  induction bytes generalizing acc shift with
  | nil => cases h
  | cons byte bytes ih =>
      simp only [readGroups] at h
      split at h
      · cases h
      · split at h
        · exact (ih h).trans (Nat.lt_succ_self _)
        · cases h
          exact Nat.lt_succ_self _

/-- Read words until the bytes are used up. -/
def readWords (bytes : List UInt8) : Option (List UInt64) :=
  if bytes = [] then some []
  else
    match h : readVarint bytes with
    | none => none
    | some (v, rest) =>
        have : rest.length < bytes.length := length_lt_of_readGroups h
        (readWords rest).map (v :: ·)
termination_by bytes.length

/-- Write words one after the other. -/
def writeWords (out : Buffer) (words : List UInt64) : Buffer :=
  words.foldl (fun out v => (writeVarint out v).1) out

section Bytes

variable {byte : UInt8}

theorem toNat_and_low (byte : UInt8) : (byte &&& 0x7f).toNat = byte.toNat % 128 := by
  rw [UInt8.toNat_and]
  exact Nat.and_two_pow_sub_one_eq_mod byte.toNat 7

theorem and_low_lt (byte : UInt8) : (byte &&& 0x7f).toNat < 128 := by
  rw [toNat_and_low]
  exact Nat.mod_lt _ (by decide)

theorem continues_iff : Continues byte ↔ 128 ≤ byte.toNat := by
  have hmask : (0x80 : UInt8).toBitVec = BitVec.twoPow 8 7 := rfl
  have hbit : Continues byte ↔ byte.toBitVec.msb = true := by
    rw [Continues, Ne, ← UInt8.toBitVec_inj, UInt8.toBitVec_and, hmask, BitVec.and_twoPow]
    cases hmsb : byte.toBitVec.getLsbD 7 <;>
      simp only [BitVec.msb, BitVec.getMsbD, hmsb] <;> decide
  rw [hbit, BitVec.msb_eq_decide, decide_eq_true_iff]
  rfl

/-- A group with its high bit set. -/
theorem toNat_or_high (v : UInt64) :
    (v.toUInt8 &&& 0x7f ||| 0x80).toNat = v.toNat % 128 + 128 := by
  have hlow : (v.toUInt8 &&& 0x7f).toNat = v.toNat % 128 := by
    rw [toNat_and_low, UInt64.toNat_toUInt8]
    omega
  have hor := Nat.two_pow_add_eq_or_of_lt (i := 7) (Nat.mod_lt v.toNat (by decide)) 1
  rw [UInt8.toNat_or, hlow, Nat.or_comm]
  exact hor.symm.trans (Nat.add_comm ..)

theorem toNat_shiftRight_seven (v : UInt64) : (v >>> 7).toNat = v.toNat / 128 := by
  rw [UInt64.toNat_shiftRight]
  exact Nat.shiftRight_eq_div_pow v.toNat 7

end Bytes

/-- The bytes of a word. -/
def varint (v : UInt64) : List UInt8 := (pushVarint #[] v).toList

theorem pushVarint_eq (out : Buffer) (v : UInt64) :
    pushVarint out v = out ++ (varint v).toArray := by
  have happend := pushVarint_append out #[] v
  rwa [Array.append_empty] at happend

theorem varint_of_lt {v : UInt64} (h : v < 128) : varint v = [v.toUInt8] := by
  rw [varint, pushVarint, if_pos h]
  rfl

theorem varint_of_not_lt {v : UInt64} (h : ¬v < 128) :
    varint v = (v.toUInt8 &&& 0x7f ||| 0x80) :: varint (v >>> 7) := by
  rw [varint, pushVarint, if_neg h, pushVarint_eq]
  simp

/-- What every group adds to the groups after it holds of the bytes of a word. -/
theorem varint_induction {P : UInt64 → List UInt8 → Prop}
    (last : ∀ v : UInt64, v.toNat < 128 → P v [v.toUInt8])
    (more : ∀ v : UInt64, 128 ≤ v.toNat → P (v >>> 7) (varint (v >>> 7)) →
      P v ((v.toUInt8 &&& 0x7f ||| 0x80) :: varint (v >>> 7)))
    (v : UInt64) : P v (varint v) := by
  by_cases h : v < 128
  · rw [varint_of_lt h]
    exact last v h
  · rw [varint_of_not_lt h]
    exact more v (Nat.le_of_not_lt h) (varint_induction last more (v >>> 7))
termination_by v.toNat
decreasing_by exact shiftRight_seven_lt h

theorem writeVarint_eq (out : Buffer) (v : UInt64) :
    writeVarint out v = (out ++ (varint v).toArray, (varint v).length) := by
  simp [writeVarint, pushVarint_eq]

theorem writeWords_eq (out : Buffer) (words : List UInt64) :
    writeWords out words = out ++ (words.flatMap varint).toArray := by
  induction words generalizing out with
  | nil => simp [writeWords]
  | cons v rest ih =>
      have hcons : writeWords out (v :: rest) = writeWords (writeVarint out v).1 rest := rfl
      rw [hcons, ih, writeVarint_eq, List.flatMap_cons]
      simp

theorem value_lt (bytes : List UInt8) : value bytes < 128 ^ bytes.length := by
  induction bytes with
  | nil => simp [value]
  | cons byte rest ih =>
      have hlow := and_low_lt byte
      rw [value, List.length_cons, Nat.pow_succ]
      omega

namespace Spelling

variable {bytes other : List UInt8}

theorem exists_last (h : Spelling bytes) :
    ∃ init last, bytes = init ++ [last] ∧ (∀ byte ∈ init, Continues byte) ∧ ¬Continues last := by
  induction h with
  | @last byte h => exact ⟨[], byte, rfl, by simp, h⟩
  | @more byte rest h _ ih =>
      obtain ⟨init, last, rfl, hinit, hlast⟩ := ih
      exact ⟨byte :: init, last, rfl, List.forall_mem_cons.mpr ⟨h, hinit⟩, hlast⟩

theorem length_pos (h : Spelling bytes) : 0 < bytes.length := by
  cases h <;> simp

/-- Spellings of one length are told apart by their numbers. -/
theorem eq_of_value_eq (h : Spelling bytes) (h' : Spelling other)
    (hlength : bytes.length = other.length) (hvalue : value bytes = value other) :
    bytes = other := by
  induction h generalizing other with
  | @last byte h =>
      cases h' with
      | @last byte' h' =>
          simp only [value, toNat_and_low] at hvalue
          rw [continues_iff] at h h'
          have hbyte : byte.toNat = byte'.toNat := by omega
          rw [UInt8.toNat_inj.mp hbyte]
      | more _ hrest =>
          have := hrest.length_pos
          simp only [List.length_cons, List.length_nil] at hlength
          omega
  | @more byte rest h hrest ih =>
      cases h' with
      | last _ =>
          have := hrest.length_pos
          simp only [List.length_cons, List.length_nil] at hlength
          omega
      | @more byte' rest' h' hrest' =>
          simp only [value, toNat_and_low] at hvalue
          rw [continues_iff] at h h'
          have hlt := byte.toNat_lt
          have hlt' := byte'.toNat_lt
          have hbyte : byte.toNat = byte'.toNat := by omega
          rw [UInt8.toNat_inj.mp hbyte, ih hrest' (Nat.succ.inj hlength) (by omega)]

end Spelling

theorem spelling_varint (v : UInt64) : Spelling (varint v) := by
  refine varint_induction (P := fun _ bytes => Spelling bytes) ?_ ?_ v
  · intro v hv
    refine .last ?_
    rw [continues_iff, UInt64.toNat_toUInt8]
    omega
  · intro v _ hrest
    refine .more ?_ hrest
    rw [continues_iff, toNat_or_high]
    omega

theorem value_varint (v : UInt64) : value (varint v) = v.toNat := by
  refine varint_induction (P := fun v bytes => value bytes = v.toNat) ?_ ?_ v
  · intro v hv
    simp only [value, toNat_and_low, UInt64.toNat_toUInt8]
    omega
  · intro v _ hrest
    rw [value, hrest, toNat_and_low, toNat_or_high, toNat_shiftRight_seven]
    omega

/-- No group of zeros is written but the one that zero needs. -/
theorem eq_zero_of_getLast?_varint {v : UInt64} (h : (varint v).getLast? = some 0) : v = 0 := by
  revert h
  refine varint_induction (P := fun v bytes => bytes.getLast? = some 0 → v = 0) ?_ ?_ v
  · intro v hv h
    have hbyte : v.toUInt8 = 0 := by simpa using h
    rw [← UInt8.toNat_inj, UInt64.toNat_toUInt8, UInt8.toNat_zero] at hbyte
    rw [← UInt64.toNat_inj, UInt64.toNat_zero]
    omega
  · intro v hv ih h
    have hrest : varint (v >>> 7) ≠ [] := List.ne_nil_of_length_pos (spelling_varint _).length_pos
    rw [List.getLast?_cons_of_ne_nil hrest] at h
    have hshift := congrArg UInt64.toNat (ih h)
    rw [toNat_shiftRight_seven, UInt64.toNat_zero] at hshift
    omega

/-- All groups of a word are needed. -/
theorem pow_length_varint_le {v : UInt64} (hv : v ≠ 0) :
    128 ^ (varint v).length ≤ 128 * v.toNat := by
  revert hv
  refine varint_induction (P := fun v bytes => v ≠ 0 → 128 ^ bytes.length ≤ 128 * v.toNat) ?_ ?_ v
  · intro v _ hv
    have hpos : v.toNat ≠ 0 := fun h => hv (UInt64.toNat_inj.mp h)
    rw [List.length_singleton]
    omega
  · intro v hv ih _
    have hshift := toNat_shiftRight_seven v
    have hrest := ih fun h => by
      rw [h, UInt64.toNat_zero] at hshift
      omega
    rw [List.length_cons, Nat.pow_succ]
    omega

/-- What is written is no longer than any spelling of a number as large. -/
theorem length_varint_le {v : UInt64} {k : Nat} (hk : 0 < k) (h : v.toNat < 128 ^ k) :
    (varint v).length ≤ k := by
  by_cases hv : v = 0
  · rw [hv, varint_of_lt (by decide), List.length_singleton]
    exact hk
  · have hpow : 128 ^ (varint v).length < 128 ^ (k + 1) := by
      have hle := pow_length_varint_le hv
      rw [Nat.pow_succ]
      omega
    exact Nat.le_of_lt_succ ((Nat.pow_lt_pow_iff_right (by decide)).mp hpow)

/-- Adding a group to what has been read. -/
theorem toNat_or_shiftLeft {acc : UInt64} {byte : UInt8} {k : Nat} (hk : k < 10)
    (hacc : acc.toNat < 128 ^ k)
    (hfits : acc.toNat + 128 ^ k * (byte &&& 0x7f).toNat < UInt64.size) :
    (acc ||| (byte &&& 0x7f).toUInt64 <<< (7 * k).toUInt64).toNat =
      acc.toNat + 128 ^ k * (byte &&& 0x7f).toNat := by
  have hpow : 2 ^ (7 * k) = 128 ^ k := Nat.pow_mul 2 7 k
  have hshift : (7 * k).toUInt64.toNat % 64 = 7 * k := by
    rw [Nat.toUInt64_eq, UInt64.toNat_ofNat_of_lt' (by simp only [UInt64.size]; omega)]
    omega
  have hor := Nat.two_pow_add_eq_or_of_lt (hpow ▸ hacc) (byte &&& 0x7f).toNat
  rw [hpow] at hor
  have hshifted := Nat.lt_of_le_of_lt (Nat.le_add_left ..) hfits
  rw [UInt64.toNat_or, UInt64.toNat_shiftLeft, hshift, Nat.shiftLeft_eq, hpow,
    UInt8.toNat_toUInt64, Nat.mul_comm, Nat.mod_eq_of_lt hshifted, Nat.or_comm, ← hor, Nat.add_comm]

/-- A spelling of ten bytes at most is read if its number fits into a word, and
the bytes after it are left. -/
theorem readGroups_spelling {bytes : List UInt8} (h : Spelling bytes) (rest : List UInt8) (k : Nat)
    (acc : UInt64) (hk : k + bytes.length ≤ 10) (hacc : acc.toNat < 128 ^ k)
    (hfits : acc.toNat + 128 ^ k * value bytes < UInt64.size) :
    readGroups acc (7 * k) (bytes ++ rest) =
      some (UInt64.ofNat (acc.toNat + 128 ^ k * value bytes), rest) := by
  induction h generalizing k acc with
  | @last byte h =>
      rw [continues_iff] at h
      have hvalue : value [byte] = (byte &&& 0x7f).toNat := by simp [value]
      rw [hvalue] at hfits ⊢
      have hroom : ¬(7 * k = 63 ∧ 1 < byte) := by
        rintro ⟨hk, hbyte⟩
        cases (show k = 9 by omega)
        rw [UInt8.lt_iff_toNat_lt, UInt8.toNat_one] at hbyte
        rw [toNat_and_low, UInt64.size] at hfits
        omega
      have hgroup := toNat_or_shiftLeft (Nat.lt_of_succ_le hk) hacc hfits
      rw [List.singleton_append, readGroups, if_neg hroom, if_neg (by rwa [continues_iff]),
        ← hgroup, UInt64.ofNat_toNat]
  | @more byte bytes h hbytes ih =>
      have hpos := hbytes.length_pos
      rw [List.length_cons] at hk
      have hroom : ¬(7 * k = 63 ∧ 1 < byte) := fun h => by omega
      have hbelow : acc.toNat + 128 ^ k * (byte &&& 0x7f).toNat < 128 ^ (k + 1) := by
        calc
          acc.toNat + 128 ^ k * (byte &&& 0x7f).toNat
              < 128 ^ k + 128 ^ k * (byte &&& 0x7f).toNat := Nat.add_lt_add_right hacc _
          _ = 128 ^ k * ((byte &&& 0x7f).toNat + 1) := by rw [Nat.mul_add_one, Nat.add_comm]
          _ ≤ 128 ^ k * 128 := Nat.mul_le_mul_left _ (and_low_lt byte)
      have hsplit : acc.toNat + 128 ^ k * value (byte :: bytes) =
          acc.toNat + 128 ^ k * (byte &&& 0x7f).toNat + 128 ^ (k + 1) * value bytes := by
        rw [value, Nat.pow_succ]
        ring
      rw [hsplit] at hfits ⊢
      have hgroup := toNat_or_shiftLeft (by omega) hacc
        (Nat.lt_of_le_of_lt (Nat.le_add_right ..) hfits)
      rw [List.cons_append, readGroups, if_neg hroom, if_pos h, ← Nat.mul_add_one,
        ih _ _ (by omega) (hgroup ▸ hbelow) (hgroup ▸ hfits), hgroup]

theorem length_varint_le_ten (v : UInt64) : (varint v).length ≤ 10 :=
  length_varint_le (by decide) (Nat.lt_of_lt_of_le v.toNat_lt (by decide))

theorem readVarint_varint (v : UInt64) (rest : List UInt8) :
    readVarint (varint v ++ rest) = some (v, rest) := by
  have hlength := length_varint_le_ten v
  have hvalue : (0 : UInt64).toNat + 128 ^ 0 * value (varint v) = v.toNat := by
    rw [value_varint, UInt64.toNat_zero, Nat.pow_zero, Nat.one_mul, Nat.zero_add]
  have hread := readGroups_spelling (spelling_varint v) rest 0 0 (by omega) (by decide)
    (by rw [hvalue]; exact v.toNat_lt)
  rwa [hvalue, UInt64.ofNat_toNat] at hread

theorem readWords_flatMap_varint (words : List UInt64) :
    readWords (words.flatMap varint) = some words := by
  induction words with
  | nil => simp [readWords]
  | cons v rest ih =>
      have hread := readVarint_varint v (rest.flatMap varint)
      have hne : varint v ++ rest.flatMap varint ≠ [] := by
        have := (spelling_varint v).length_pos
        exact List.ne_nil_of_length_pos (by rw [List.length_append]; omega)
      rw [List.flatMap_cons, readWords, if_neg hne]
      split
      · next h =>
          rw [hread] at h
          cases h
      · next h =>
          rw [hread] at h
          cases h
          rw [ih, Option.map_some]

/-- No spelling of the number is shorter than what is written, and no other is as short. -/
theorem varint_shortest {v : UInt64} {bytes : List UInt8} (h : Spelling bytes)
    (hvalue : value bytes = v.toNat) :
    (varint v).length ≤ bytes.length ∧ (bytes.length = (varint v).length → bytes = varint v) := by
  constructor
  · exact length_varint_le h.length_pos (hvalue ▸ value_lt bytes)
  · intro hlength
    exact h.eq_of_value_eq (spelling_varint v) hlength (hvalue.trans (value_varint v).symm)

/-- Writing a word appends its bytes, ten at most, and reports their number. All
bytes but the last have their high bit set, and the last is zero for zero only.
They spell the word, and every other spelling of it is longer. Words that are
written in a row are read back one by one, so that different rows of words never
look the same. -/
theorem varints_canonical_and_decodable (out : Buffer) :
    (∀ v, writeVarint out v = (out ++ (varint v).toArray, (varint v).length) ∧
      1 ≤ (varint v).length ∧ (varint v).length ≤ 10 ∧
      (∃ init last, varint v = init ++ [last] ∧ (∀ byte ∈ init, Continues byte) ∧
        ¬Continues last ∧ (last = 0 → v = 0)) ∧
      value (varint v) = v.toNat ∧
      ∀ bytes, Spelling bytes → value bytes = v.toNat →
        (varint v).length ≤ bytes.length ∧ (bytes.length = (varint v).length → bytes = varint v)) ∧
      (∀ words, writeWords out words = out ++ (words.flatMap varint).toArray ∧
        readWords (words.flatMap varint) = some words) ∧
      ∀ words words' : List UInt64,
        words.flatMap varint = words'.flatMap varint ↔ words = words' := by
  refine ⟨fun v => ?_, fun words => ⟨writeWords_eq out words, readWords_flatMap_varint words⟩, ?_⟩
  · obtain ⟨init, last, heq, hinit, hlast⟩ := (spelling_varint v).exists_last
    refine ⟨writeVarint_eq out v, (spelling_varint v).length_pos, length_varint_le_ten v,
      ⟨init, last, heq, hinit, hlast, ?_⟩, value_varint v, fun bytes => varint_shortest⟩
    rintro rfl
    exact eq_zero_of_getLast?_varint (by rw [heq, List.getLast?_concat])
  · intro words words'
    constructor
    · intro h
      have hread := readWords_flatMap_varint words
      rw [h, readWords_flatMap_varint words'] at hread
      exact (Option.some.inj hread).symm
    · rintro rfl
      rfl

-- the reader does not ask for the shortest spelling
example : varint 300 = [0xac, 0x02] ∧
    readWords [0xac, 0x82, 0x80, 0x00, 0x07] = some [300, 7] := by
  decide +kernel

end WireFlow.Wire
