import WireFlow.Graph.Basic
import WireFlow.Run.Basic

/-!
# The meaning of a graph

A graph can be run as it stands, on registers in place of frame slots. Every
register starts at zero; the sentinel reads zero and writes to it are lost.
Entering a block gives all its phis their words at once, then the instructions
follow in order, then the terminator. A node from outside the instruction set
has no meaning, and a run that meets one is stuck.
-/

namespace WireFlow.Meaning

open Wire (Buffer)

/-- What the registers hold. -/
abbrev Env := Reg → UInt64

namespace Env

def blank : Env := fun _ => 0

def read (ρ : Env) (r : Reg) : UInt64 := if r = .zero then 0 else ρ r

def write (ρ : Env) (r : Reg) (v : UInt64) : Env :=
  if r = .zero then ρ else fun s => if s = r then v else ρ s

/-- Write words in order, as many as there are registers and words. -/
def writeAll (ρ : Env) (rs : List Reg) (vs : List UInt64) : Env :=
  (rs.zip vs).foldl (fun ρ e => write ρ e.1 e.2) ρ

@[simp] theorem write_zero (ρ : Env) (v : UInt64) : ρ.write .zero v = ρ := if_pos rfl

theorem write_of_ne (ρ : Env) {r s : Reg} (h : s ≠ r) (v : UInt64) : ρ.write r v s = ρ s := by
  unfold write
  split <;> simp [h]

end Env

/-- How a run ends. -/
inductive Ending where
  | returned (values : List UInt64)
  | failed (error : RunError)
  | stuck
deriving DecidableEq

/-- An ended run, with what it has written. -/
structure Ended where
  ending : Ending
  out : Buffer
deriving DecidableEq

/-- What instructions work on. -/
structure Store where
  env : Env
  out : Buffer

/-- A run between two blocks. -/
structure State where
  /-- The block control came from; none at the start. -/
  pred : Option Label
  block : Label
  store : Store

def start (g : Graph) (out : Buffer) : State := ⟨none, g.entry, ⟨.blank, out⟩⟩

def loadWord (args : List UInt64) (i : Nat) : Except Ending UInt64 :=
  match args[i]? with
  | some v => .ok v
  | none => .error (.failed (.missingArgument i args.length))

/-- Call what is registered under a handle. -/
def call (s : Store) (handle : Nat) (args results : List Reg) : Except Ending Store :=
  match Callee.ofHandle? handle with
  | none => .error .stuck
  | some f =>
      match f.direct s.out (args.map s.env.read) (results.map fun _ => 0) with
      | .error _ => .error .stuck
      | .ok (out, words) => .ok ⟨s.env.writeAll results words, out⟩

/-- Do one instruction. -/
def step (args : List UInt64) (s : Store) (i : Instr) : Except Ending Store :=
  match i with
  | .const r v => .ok { s with env := s.env.write r v }
  | .arg r k => do return { s with env := s.env.write r (← loadWord args k) }
  | .binary r op x y => .ok { s with env := s.env.write r (op.eval (s.env.read x) (s.env.read y)) }
  | .emit x width => .ok { s with out := s.out ++ Wire.lowBytes width (s.env.read x) }
  | .call h xs rs => call s h xs rs
  | .nop => .error .stuck
  | .foreign _ _ => .error .stuck

/-- Do instructions in order. -/
def steps (args : List UInt64) (is : List Instr) (s : Store) : Except Ended Store :=
  is.foldlM (fun s i => (step args s i).mapError fun e => ⟨e, s.out⟩) s

/-- The word a phi of `block` takes on the edge from `pred`. -/
def phiValue (block pred : Label) (ρ : Env) (φ : Phi) : Except Ending UInt64 :=
  match φ.incomingFrom? pred with
  | some r => .ok (ρ.read r)
  | none => .error (.failed (.phiMismatch block pred))

/-- Give all phis of a block their words at once. -/
def resolve (block pred : Label) (phis : List Phi) (ρ : Env) : Except Ending Env := do
  return ρ.writeAll (phis.map Phi.dst) (← phis.mapM (phiValue block pred ρ))

/-- Enter the current block. -/
def enter (g : Graph) (s : State) : Except Ended (Block × Store) :=
  match g.block? s.block with
  | none => .error ⟨.stuck, s.store.out⟩
  | some b =>
      match s.pred with
      | none => .ok (b, s.store)
      | some pred => do
          let env ← (resolve s.block pred b.phis s.store.env).mapError fun e => ⟨e, s.store.out⟩
          return (b, { s.store with env })

/-- Leave a block. -/
def leave (t : Terminator) (ρ : Env) : Except Ending Label :=
  match t with
  | .ret values => .error (.returned (values.map ρ.read))
  | .jump target => .ok target
  | .branch cond target otherwise => .ok (if ρ.read cond ≠ 0 then target else otherwise)
  | .switch value targets default => .ok (targets[(ρ.read value).toNat]?.getD default)
  | .foreign _ _ => .error .stuck

/-- Enter the current block, do its instructions and leave it. -/
def visit (g : Graph) (args : List UInt64) (s : State) : Except Ended State := do
  let (b, store) ← enter g s
  let store ← steps args b.instrs store
  let next ← (leave b.term store.env).mapError fun e => ⟨e, store.out⟩
  return ⟨some s.block, next, store⟩

/-- Where a run is after some transitions. -/
inductive Reached where
  /-- At the start of a block, its phis done. -/
  | standing (block : Label) (store : Store)
  | ended (e : Ended)

/-- Run for at most `n` transitions. -/
def run (g : Graph) (args : List UInt64) : Nat → State → Reached
  | 0, s =>
      match enter g s with
      | .ok (_, store) => .standing s.block store
      | .error e => .ended e
  | n + 1, s =>
      match visit g args s with
      | .ok s => run g args n s
      | .error e => .ended e

end WireFlow.Meaning
