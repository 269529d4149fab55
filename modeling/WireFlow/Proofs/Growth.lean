import Mathlib.Data.Nat.Digits.Lemmas
import WireFlow.Graph.Meaning
import WireFlow.Proofs.Sequencing

/-!
# Output only grows

No instruction takes back what has been written. So the output of a run, however
it ends, starts with the output of each of its earlier states. Callees do not
look at the output either: they report how many bytes they wrote, which is the
difference of two lengths and the same whatever was there before. An emit writes
as many bytes as its width says, the last digits of the word to base 256.
-/

namespace WireFlow

open Sequencing
open Wire (Buffer)

namespace Wire

theorem pushVarint_append (b out : Buffer) (v : UInt64) :
    pushVarint (b ++ out) v = b ++ pushVarint out v := by
  induction out, v using pushVarint.induct with
  | case1 out v h => rw [pushVarint, if_pos h, pushVarint, if_pos h, Array.append_push]
  | case2 out v h ih =>
      rw [pushVarint, if_neg h, ← Array.append_push, ih]
      conv_rhs => rw [pushVarint, if_neg h]

/-- The number of bytes written does not depend on the bytes before. -/
theorem writeVarint_append (b out : Buffer) (v : UInt64) :
    writeVarint (b ++ out) v = (b ++ (writeVarint out v).1, (writeVarint out v).2) := by
  simp only [writeVarint, pushVarint_append, Array.size_append, Nat.add_sub_add_left]

section LowBytes

variable {v : UInt64} {k width : Nat}

@[simp]
theorem length_lowBytes (width : Nat) (v : UInt64) : (lowBytes width v).length = width := by
  simp [lowBytes]

/-- A shift goes by its amount modulo 64, so there are only eight bytes to take. -/
theorem toNat_shiftRight_bytes (h : k < 8) (v : UInt64) :
    (v >>> (8 * k).toUInt64).toUInt8.toNat = v.toNat / 256 ^ k % 256 := by
  have hshift : (8 * k).toUInt64.toNat % 64 = 8 * k := by
    rw [Nat.toUInt64_eq, UInt64.toNat_ofNat_of_lt' (by simp [UInt64.size]; omega)]
    omega
  rw [UInt64.toNat_toUInt8, UInt64.toNat_shiftRight, hshift, Nat.shiftRight_eq_div_pow, Nat.pow_mul]

theorem ofDigits_lowBytes (h : width ≤ 8) (v : UInt64) :
    Nat.ofDigits 256 ((lowBytes width v).map UInt8.toNat) = v.toNat % 256 ^ width := by
  induction width with
  | zero => simp [lowBytes, Nat.mod_one]
  | succ k ih =>
      have hk := ih (by omega)
      rw [lowBytes] at hk ⊢
      rw [List.range_succ, List.map_append, List.map_append, Nat.ofDigits_append, hk]
      simp only [List.map_cons, List.map_nil, Nat.ofDigits_singleton, List.length_map,
        List.length_range, toNat_shiftRight_bytes (by omega : k < 8)]
      exact Nat.mod_pow_succ.symm

theorem toNat_lt_of_mem_map {bytes : List UInt8} {d : Nat} (h : d ∈ bytes.map UInt8.toNat) :
    d < 256 := by
  obtain ⟨byte, -, rfl⟩ := List.mem_map.mp h
  exact byte.toNat_lt

/-- The low bytes of a word are its last digits to base 256, and nothing else of
their number spells the same. -/
theorem eq_lowBytes_iff (h : width ≤ 8) {bytes : List UInt8} :
    bytes = lowBytes width v ↔ bytes.length = width ∧
      Nat.ofDigits 256 (bytes.map UInt8.toNat) = v.toNat % 256 ^ width := by
  constructor
  · rintro rfl
    exact ⟨length_lowBytes width v, ofDigits_lowBytes h v⟩
  · rintro ⟨hlength, hdigits⟩
    rw [← ofDigits_lowBytes h] at hdigits
    have hmap := Nat.ofDigits_inj_of_len_eq (by decide) (by simp [hlength])
      (fun _ => toNat_lt_of_mem_map) (fun _ => toNat_lt_of_mem_map) hdigits
    exact List.map_injective_iff.mpr (fun _ _ => UInt8.toNat_inj.mp) hmap

end LowBytes

end Wire

/-- An emit of up to eight bytes appends those that spell the end of the word and
leaves the frame alone. A wider one is a fault. -/
theorem Machine.emit_eq_ok_iff {m m' : Machine} {width : Nat} {v : UInt64} :
    m.emit width v = .ok m' ↔ width ≤ 8 ∧ ∃ bytes : List UInt8,
      m' = ⟨m.frame, m.out ++ bytes⟩ ∧ bytes.length = width ∧
        Nat.ofDigits 256 (bytes.map UInt8.toNat) = v.toNat % 256 ^ width := by
  by_cases h : width ≤ 8
  · have hemit : m.emit width v = .ok ⟨m.frame, m.out ++ Wire.lowBytes width v⟩ := if_pos h
    simp only [hemit, h, true_and, ← Wire.eq_lowBytes_iff h]
    constructor
    · rintro ⟨⟩
      exact ⟨_, rfl, rfl⟩
    · rintro ⟨bytes, rfl, rfl⟩
      rfl
  · simp [emit, h]

theorem Callee.direct_append (f : Callee) (b out : Buffer) (args results : List UInt64) :
    f.direct (b ++ out) args results =
      (f.direct out args results).map fun r => (b ++ r.1, r.2) := by
  cases f with
  | encode =>
      simp only [direct, Wire.writeVarint_append]
      cases wordAt args 0 with
      | error fault => rfl
      | ok v =>
          cases results with
          | nil => rfl
          | cons w rest => rfl

theorem Callee.prefix_of_direct {f : Callee} {out out' : Buffer} {args results words : List UInt64}
    (h : f.direct out args results = .ok (out', words)) : out.toList <+: out'.toList := by
  have hfrom := f.direct_append out #[] args results
  rw [Array.append_empty, h] at hfrom
  cases hnone : f.direct #[] args results with
  | error fault =>
      rw [hnone] at hfrom
      cases hfrom
  | ok r =>
      rw [hnone] at hfrom
      cases hfrom
      rw [Array.toList_append]
      exact List.prefix_append ..

namespace Meaning

variable {args : List UInt64} {g : Graph}

/-- The output of a run, wherever it is. -/
def Reached.out : Reached → Buffer
  | .standing _ s => s.out
  | .ended e => e.out

/-- The output starts with what had been written before. -/
def Ended.Grown (out : Buffer) (e : Ended) : Prop := out.toList <+: e.out.toList

/-- The output starts with what had been written before. -/
def Store.Grown (out : Buffer) (s : Store) : Prop := out.toList <+: s.out.toList

theorem grown_step (args : List UInt64) (s : Store) (i : Instr) :
    Ensures (fun _ => True) (Store.Grown s.out) (step args s i) := by
  have hrefl : s.out.toList <+: s.out.toList := List.prefix_refl _
  cases i with
  | const r v => exact hrefl
  | arg r k =>
      simp only [step, loadWord]
      cases args[k]? with
      | none => trivial
      | some v => exact hrefl
  | binary r op x y => exact hrefl
  | emit x width => simp [step, Store.Grown]
  | call h xs rs =>
      simp only [step, call]
      split
      · trivial
      · split
        · trivial
        · rename_i hdirect
          exact Callee.prefix_of_direct hdirect
  | nop => trivial
  | foreign f effect => trivial

theorem grown_steps (args : List UInt64) (is : List Instr) {out : Buffer} {s : Store}
    (hs : s.Grown out) :
    Ensures (Ended.Grown out) (Store.Grown out) (steps args is s) := by
  apply Ensures.foldlM hs
  intro t ht i _
  have h := grown_step args t i
  cases hstep : step args t i with
  | error e => exact ht
  | ok t' =>
      rw [hstep] at h
      exact ht.trans h

theorem grown_enter {out : Buffer} {s : State} (hs : s.store.Grown out) :
    Ensures (Ended.Grown out) (fun p => p.2.Grown out) (enter g s) := by
  unfold enter
  cases g.block? s.block with
  | none => exact hs
  | some b =>
      cases s.pred with
      | none => exact hs
      | some pred =>
          dsimp only
          cases resolve s.block pred b.phis s.store.env with
          | error e => exact hs
          | ok ρ => exact hs

/-- What a visit does after entering block `id`. -/
def pass (args : List UInt64) (id : Label) (b : Block) (s : Store) : Except Ended State := do
  let s ← steps args b.instrs s
  let next ← (leave b.term s.env).mapError fun e => ⟨e, s.out⟩
  return ⟨some id, next, s⟩

theorem visit_eq_bind (g : Graph) (args : List UInt64) (s : State) :
    visit g args s = enter g s >>= fun p => pass args s.block p.1 p.2 := rfl

theorem grown_pass (args : List UInt64) (id : Label) (b : Block) {out : Buffer} {s : Store}
    (hs : s.Grown out) :
    Ensures (Ended.Grown out) (fun s' => s'.store.Grown out) (pass args id b s) := by
  apply (grown_steps args b.instrs hs).bind
  intro t ht
  cases leave b.term t.env with
  | error e => exact ht
  | ok next => exact ht

theorem grown_visit (args : List UInt64) {out : Buffer} {s : State} (hs : s.store.Grown out) :
    Ensures (Ended.Grown out) (fun s' => s'.store.Grown out) (visit g args s) := by
  rw [visit_eq_bind]
  exact (grown_enter hs).bind fun p hp => grown_pass args s.block p.1 hp

/-- A run keeps what had been written when it started. -/
theorem grown_run {out : Buffer} {s : State} (hs : s.store.Grown out) (n : Nat) :
    out.toList <+: (run g args n s).out.toList := by
  induction n generalizing s with
  | zero =>
      have h := grown_enter (g := g) hs
      unfold run
      cases henter : enter g s with
      | error e =>
          rw [henter] at h
          exact h
      | ok p =>
          rw [henter] at h
          exact h
  | succ n ih =>
      have h := grown_visit (g := g) args hs
      unfold run
      cases hvisit : visit g args s with
      | error e =>
          rw [hvisit] at h
          exact h
      | ok s' =>
          rw [hvisit] at h
          exact ih h

end Meaning

end WireFlow
