import WireFlow.Encoder
import WireFlow.Pipeline

/-!
# Compiling a routine

Compilation runs the pipeline over a graph and assembles what comes out of it.
The session names the routine meanwhile and counts the program once it is
there. The work done on the graph stays, also when it is rejected.
-/

namespace WireFlow

/-- Everything compilation works on. -/
structure Workshop where
  work : Work
  heap : Heap
deriving DecidableEq

namespace Workshop

/-- Assemble the graph and count the program. -/
def assemble (w : Workshop) : Workshop × Except Stop Program :=
  match w.work.graph.assemble w.heap with
  | .error e => (w, .error (.rejected e))
  | .ok (p, heap) =>
      let session := (w.work.session.countProgram p.code.frameSize).countPin
      (⟨{ w.work with session }, heap⟩, .ok p)

/-- Run the pipeline, then assemble. -/
def build (w : Workshop) (p : Pipeline) : Workshop × Except Stop Program :=
  match p.run w.work with
  | (work, .error e) => ({ w with work }, .error e)
  | (work, .ok _) => { w with work }.assemble

/-- Change the session. -/
def onSession (w : Workshop) (f : Session → Session) : Workshop :=
  { w with work := { w.work with session := f w.work.session } }

/-- Compile the graph as the named routine. -/
def compile (w : Workshop) (p : Pipeline) (name : String) : Workshop × Except Stop Program :=
  let (w, result) := (w.onSession fun s => s.setRoutine name).build p
  (w.onSession Session.clearRoutine, result)

/-- Compile, then link with what the slot holds. -/
def compileEncoder (w : Workshop) (p : Pipeline) (name : String) (slot : LinkerSlot) :
    Workshop × Except Stop Encoder :=
  match w.compile p name with
  | (w, .error e) => (w, .error e)
  | (w, .ok program) => (w, .ok (slot.link program))

end Workshop

end WireFlow
