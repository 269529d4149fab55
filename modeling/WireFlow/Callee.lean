import WireFlow.Fault
import WireFlow.Wire

/-!
# Routines that generated code can call

Every callee has two entries: a direct one on the output, the arguments and the
results, and one that works through a call context. Results that the caller
did not bind are dropped.
-/

namespace WireFlow

open Wire (Buffer)

/-- Item `i` of a row of words, which has to be there. -/
def wordAt (words : List UInt64) (i : Nat) : Except Fault UInt64 :=
  match words[i]? with
  | some v => .ok v
  | none => .error (.outOfBounds i words.length)

/-- A call as seen by a callee that works through a context. -/
structure CallContext where
  out : Buffer
  args : List UInt64
  results : List UInt64
deriving DecidableEq

namespace CallContext

def arg (c : CallContext) (i : Nat) : Except Fault UInt64 := wordAt c.args i

/-- Store result `i`, if the caller bound it. -/
def setResult (c : CallContext) (i : Nat) (v : UInt64) : CallContext :=
  { c with results := c.results.set i v }

/-- Write a word as a varint; also the number of bytes it took. -/
def writeVarint : CallContext → UInt64 → CallContext × Nat
  | ⟨out, args, results⟩, v =>
      let (out, n) := Wire.writeVarint out v
      (⟨out, args, results⟩, n)

/-- Write one byte. -/
def push (c : CallContext) (byte : UInt8) : CallContext := { c with out := c.out.push byte }

end CallContext

/-- The registered callees. -/
inductive Callee where
  /-- Write the argument as a varint; the result is the number of bytes. -/
  | encode
deriving DecidableEq

namespace Callee

def handle : Callee → Nat
  | encode => 0

/-- The callee registered under a handle. -/
def ofHandle? : Nat → Option Callee
  | 0 => some encode
  | _ + 1 => none

theorem ofHandle?_eq_some_iff (h : Nat) (f : Callee) : ofHandle? h = some f ↔ h = f.handle := by
  cases f
  cases h <;> simp [ofHandle?, handle]

def name : Callee → String
  | encode => "encode"

/-- The exact number of arguments. -/
def argCount : Callee → Nat
  | encode => 1

/-- The largest number of results; callers may bind fewer. -/
def resultCount : Callee → Nat
  | encode => 1

/-- The direct entry: the output and the results after the call. -/
def direct (f : Callee) (out : Buffer) (args results : List UInt64) :
    Except Fault (Buffer × List UInt64) :=
  match f with
  | encode => do
      let (out, n) := Wire.writeVarint out (← wordAt args 0)
      match results with
      | [] => return (out, [])
      | _ :: rest => return (out, UInt64.ofNat n :: rest)

/-- The entry through a call context. -/
def through (f : Callee) (c : CallContext) : Except Fault CallContext :=
  match f with
  | encode => do
      let v ← c.arg 0
      let (c, n) := c.writeVarint v
      return c.setResult 0 (UInt64.ofNat n)

end Callee

end WireFlow
