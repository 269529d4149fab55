import WireFlow.Fault

/-!
# Frames

A running routine keeps its registers in the slots of a frame. The zero
operand reads zero without a slot, and a write without a slot is discarded.
-/

namespace WireFlow

/-- The words of a running routine. -/
abbrev Frame := Array UInt64

/-- Where a lowered node reads from. -/
inductive Operand where
  | zero
  | slot (index : Nat)
deriving DecidableEq

/-- Where a lowered node writes to. -/
abbrev Dest := Option Nat

namespace Frame

/-- The frame of `n` zero words that every run starts with. -/
def blank (n : Nat) : Frame := Array.replicate n 0

/-- Write one word. -/
def write (f : Frame) (dst : Dest) (v : UInt64) : Except Fault Frame :=
  match dst with
  | none => .ok f
  | some i =>
      if i < f.size then .ok (f.setIfInBounds i v) else .error (.outOfBounds i f.size)

/-- Write words in order, as many as there are destinations and words. -/
def writeAll (f : Frame) (dsts : List Dest) (vs : List UInt64) : Except Fault Frame :=
  (dsts.zip vs).foldlM (fun f e => write f e.1 e.2) f

theorem size_write {f f' : Frame} {dst : Dest} {v : UInt64} (h : f.write dst v = .ok f') :
    f'.size = f.size := by
  unfold write at h
  split at h
  · cases h; rfl
  · split at h
    · cases h; simp
    · cases h

/-- A write is refused only past the end of the frame. -/
theorem write_eq_error_iff (f : Frame) (dst : Dest) (v : UInt64) (e : Fault) :
    f.write dst v = .error e ↔ ∃ i, dst = some i ∧ f.size ≤ i ∧ e = .outOfBounds i f.size := by
  cases dst with
  | none => simp [write]
  | some i =>
      by_cases h : i < f.size
      · simp only [write, h, if_true]
        constructor
        · intro he
          cases he
        · rintro ⟨j, hj, hle, _⟩
          cases hj
          omega
      · simp only [write, h, if_false, Except.error.injEq]
        constructor
        · intro he
          exact ⟨i, rfl, Nat.le_of_not_lt h, he.symm⟩
        · rintro ⟨j, hj, _, he⟩
          cases hj
          exact he.symm

end Frame

namespace Operand

def read (f : Frame) : Operand → Except Fault UInt64
  | zero => .ok 0
  | slot i =>
      match f[i]? with
      | some v => .ok v
      | none => .error (.outOfBounds i f.size)

/-- Read operands in order. -/
def readAll (f : Frame) (xs : List Operand) : Except Fault (List UInt64) := xs.mapM (read f)

end Operand

end WireFlow
