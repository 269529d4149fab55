import WireFlow.Graph.Check
import WireFlow.Session

/-!
# Pass pipelines

A pipeline runs passes over a graph in order. If asked to, it checks the graph
before the first pass and after each, and after sweeping it also insists that
every definition is read.
-/

namespace WireFlow

/-- Why work on a routine ends early. -/
inductive Stop where
  | rejected (error : Rejection)
  | crashed (fault : Fault)
deriving DecidableEq

/-- A graph being worked on, with the session that counts the work. -/
structure Work where
  session : Session
  graph : Graph
deriving DecidableEq

/-- A named change of a graph, which reports whether it changed anything. -/
structure Pass where
  name : String
  run : Work → Except Fault (Work × Bool)

namespace Work

/-- Sweep the graph and record every round. -/
def sweep (w : Work) : Work × List SweepRound :=
  let (g, rounds) := w.graph.sweep
  (⟨rounds.foldl Session.countRound w.session, g⟩, rounds)

end Work

/-- Sweeping as a pass. -/
def Pass.sweep : Pass where
  name := "tdce"
  run w :=
    let (w, rounds) := w.sweep
    .ok (w, SweepRound.totalRetired rounds ≠ 0)

/-- What a pipeline does beside the passes added to it. -/
structure Pipeline.Config where
  sweep : Bool := true
  check : Bool := true
deriving DecidableEq

/-- Neither sweep nor check. -/
def Pipeline.Config.bare : Pipeline.Config := ⟨false, false⟩

/-- Passes in order, under a configuration. -/
structure Pipeline where
  config : Pipeline.Config
  passes : List Pass

namespace Pipeline

/-- The pipeline with the passes its configuration asks for. -/
def ofConfig (c : Config) : Pipeline := ⟨c, if c.sweep then [.sweep] else []⟩

/-- Add a pass at the end. -/
def add (p : Pipeline) (pass : Pass) : Pipeline := { p with passes := p.passes ++ [pass] }

def names (p : Pipeline) : List String := p.passes.map Pass.name

/-- Check a graph if `wanted`. -/
def checkIf (wanted live : Bool) (g : Graph) : Except Rejection Unit :=
  if wanted then g.check live else .ok ()

/-- Run passes in order, with a check after each if `wanted`. The result says
whether any pass reported a change; the work done stays, also after a stop. -/
def runPasses (wanted : Bool) : List Pass → Work → Bool → Work × Except Stop Bool
  | [], w, changed => (w, .ok changed)
  | pass :: rest, w, changed =>
      let w := { w with session := w.session.countPass pass.name }
      match pass.run w with
      | .error e => (w, .error (.crashed e))
      | .ok (w, did) =>
          match checkIf wanted false w.graph with
          | .error e => (w, .error (.rejected e))
          | .ok () => runPasses wanted rest w (changed || did)

/-- Run the whole pipeline. -/
def run (p : Pipeline) (w : Work) : Work × Except Stop Bool :=
  match checkIf p.config.check false w.graph with
  | .error e => (w, .error (.rejected e))
  | .ok () =>
      match runPasses p.config.check p.passes w false with
      | (w, .error e) => (w, .error e)
      | (w, .ok changed) =>
          match checkIf (p.config.check && p.config.sweep) true w.graph with
          | .error e => (w, .error (.rejected e))
          | .ok () => (w, .ok changed)

end Pipeline

end WireFlow
