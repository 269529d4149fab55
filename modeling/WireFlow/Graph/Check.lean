import WireFlow.Rejection
import WireFlow.Graph.Basic

/-!
# Checking a graph

A graph is in order when every register other than the sentinel has one
definition, phis list predecessors only, and every register read is defined.
On demand every register defined also has to be read. Reachable blocks count,
and the first fault in walk order is reported. For the checker a block is where
its name says.
-/

namespace WireFlow.Graph

/-- What the scan of definitions and edges meets. -/
inductive Mark where
  | define (reg : Reg)
  /-- A phi of `block` that defines `reg` has an entry for `pred`. -/
  | incoming (block : Label) (reg : Reg) (pred : Label)
deriving DecidableEq

/-- A phi is met before its entries. -/
def phiMarks (label : Label) (φ : Phi) : List Mark :=
  .define φ.dst :: φ.incoming.map fun e => .incoming label φ.dst e.1

/-- What the scan meets in a block. Phis belong to the name the block carries. -/
def blockMarks (b : Block) : List Mark :=
  b.phis.flatMap (phiMarks b.label) ++ (b.instrs.flatMap Instr.defs).map .define ++
    b.term.defs.map .define

def marks (g : Graph) : List Mark := g.walk.flatMap fun e => blockMarks e.2

/-- Collect the registers defined, up to the first second definition or stray
phi entry. -/
def scan (isPred : Label → Label → Bool) :
    List Mark → List Reg → Except Rejection (List Reg)
  | [], defined => .ok defined
  | .define r :: rest, defined =>
      if r = .zero then scan isPred rest defined
      else if r ∈ defined then .error (.duplicateDefinition r)
      else scan isPred rest (r :: defined)
  | .incoming b r p :: rest, defined =>
      if isPred b p then scan isPred rest defined else .error (.strayIncoming b r p)

/-- The table's verdict on an edge from `pred` to `id`. -/
def hasPredecessor (preds : Std.TreeMap Label (List Label)) (id pred : Label) : Bool :=
  (preds.getD id []).contains pred

/-- The registers read, with the names of the blocks that read them. -/
def reads (g : Graph) : List (Label × Reg) :=
  g.walk.flatMap fun e => e.2.uses.map fun r => (e.2.label, r)

/-- Whether the graph is in order; `live` asks for every definition to be read. -/
def check (g : Graph) (live : Bool) : Except Rejection Unit :=
  match scan (hasPredecessor g.predecessors) g.marks [] with
  | .error e => .error e
  | .ok defined =>
      match g.reads.find? fun e => e.2 ≠ .zero ∧ e.2 ∉ defined with
      | some (b, r) => .error (.undefinedRegister b r)
      | none =>
          match if live then Reg.least? (defined.filter (· ∉ g.uses)) else none with
          | some r => .error (.unusedDefinition r)
          | none => .ok ()

end WireFlow.Graph
