import WireFlow.Graph.Sweep

/-!
# Compilation sessions

A session counts what compilation does: the passes run, in all and by name,
the sweeping rounds and their effect, and the programs assembled.
-/

namespace WireFlow

/-- How often each name occurred, in order of first occurrence. -/
abbrev Tally := List (String × Nat)

namespace Tally

/-- Count one more occurrence of a name. -/
def bump : Tally → String → Tally
  | [], name => [(name, 1)]
  | (other, n) :: rest, name =>
      if other = name then (other, n + 1) :: rest else (other, n) :: bump rest name

def total (t : Tally) : Nat := sumOf Prod.snd t

/-- More frequent names first, equally frequent ones by code points. -/
def ranked (t : Tally) : Tally :=
  t.mergeSort fun a b => b.2 < a.2 || (a.2 == b.2 && a.1 ≤ b.1)

@[simp] theorem total_bump (t : Tally) (name : String) : (t.bump name).total = t.total + 1 := by
  induction t with
  | nil => rfl
  | cons e rest ih =>
      obtain ⟨other, n⟩ := e
      simp only [total] at ih
      by_cases h : other = name
      · simp only [bump, h, if_true, total, sumOf_cons]
        omega
      · simp only [bump, h, if_false, total, sumOf_cons, ih]
        omega

end Tally

/-- The state of a compilation session. -/
structure Session where
  passesRun : Nat := 0
  passCounts : Tally := []
  sweepRounds : Nat := 0
  registersRetired : Nat := 0
  nodesRemoved : Nat := 0
  programsAssembled : Nat := 0
  frameWords : Nat := 0
  mapsPinned : Nat := 0
  /-- The routine being compiled. -/
  routine : Option String := none
deriving DecidableEq

namespace Session

def countPass (s : Session) (name : String) : Session :=
  { s with passesRun := s.passesRun + 1, passCounts := s.passCounts.bump name }

def countRound (s : Session) (round : SweepRound) : Session :=
  { s with
    sweepRounds := s.sweepRounds + 1
    registersRetired := s.registersRetired + round.retired
    nodesRemoved := s.nodesRemoved + round.removed }

def countProgram (s : Session) (frameSize : Nat) : Session :=
  { s with
    programsAssembled := s.programsAssembled + 1
    frameWords := s.frameWords + frameSize }

def countPin (s : Session) : Session := { s with mapsPinned := s.mapsPinned + 1 }

def setRoutine (s : Session) (name : String) : Session := { s with routine := some name }

def clearRoutine (s : Session) : Session := { s with routine := none }

/-- The counters, one a line, and the passes by frequency. -/
def text (s : Session) : String :=
  let line := fun (label : String) (n : Nat) => "  " ++ label ++ ": " ++ toString n ++ "\n"
  "Compilation Session Statistics:\n" ++
    line "Passes run" s.passesRun ++
    line "DCE rounds" s.sweepRounds ++
    line "Registers rewritten" s.registersRetired ++
    line "Nodes removed" s.nodesRemoved ++
    line "Programs assembled" s.programsAssembled ++
    line "Frame words" s.frameWords ++
    line "Stack maps pinned" s.mapsPinned ++
    if s.passCounts.isEmpty then ""
    else "  Pass breakdown:\n" ++
      String.join (s.passCounts.ranked.map fun e => "  " ++ line e.1 e.2)

end Session

end WireFlow
