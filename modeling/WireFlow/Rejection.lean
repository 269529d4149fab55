import WireFlow.Node

/-!
# Why a routine is rejected

Causes are kept apart from their wording, so that a check can be shown to
report a fault the graph really has.
-/

namespace WireFlow

/-- The two sides of a call whose number is fixed by the callee. -/
inductive CallSide where
  | arguments
  | results
deriving DecidableEq

def CallSide.text : CallSide → String
  | arguments => "arguments"
  | results => "results"

/-- The reasons for which a graph is not built, checked or lowered. -/
inductive Rejection where
  | emptyGraph
  | missingTerminator (block : Label)
  /-- A terminator or phi of `block` names a block that does not exist. -/
  | unknownBlock (block target : Label)
  /-- A phi has an entry for a block that is not a predecessor. -/
  | strayIncoming (block : Label) (reg : Reg) (pred : Label)
  /-- The entry block starts with a phi, although control comes from nowhere. -/
  | entryPhi (block : Label) (reg : Reg)
  | undefinedRegister (block : Label) (reg : Reg)
  | duplicateDefinition (reg : Reg)
  | emitWidth (width : Nat)
  | callArity (callee : String) (side : CallSide) (expected given : Nat)
  /-- Lowering does not know the node with this text. -/
  | unsupportedNode (block : Label) (node : String)
  | unusedDefinition (reg : Reg)
deriving DecidableEq

namespace Rejection

def message : Rejection → String
  | emptyGraph => "CFG has no blocks"
  | missingTerminator b => "Block " ++ Label.text b ++ " has no terminator"
  | unknownBlock b t =>
      "Block " ++ Label.text b ++ " refers to unknown block " ++ Label.text t
  | strayIncoming b r p =>
      "PHI " ++ r.text ++ " in block " ++ Label.text b ++ " has an incoming edge from " ++
        Label.text p ++ ", which is not a predecessor"
  | entryPhi b r => "Entry block " ++ Label.text b ++ " starts with PHI " ++ r.text
  | undefinedRegister b r =>
      "Register " ++ r.text ++ " is read in block " ++ Label.text b ++ " but never defined"
  | duplicateDefinition r => "Register " ++ r.text ++ " is defined more than once"
  | emitWidth w => s!"Unsupported emit width: {w} bytes"
  | callArity name side expected given =>
      "Generic call `" ++ name ++ "` expects " ++ toString expected ++ " " ++ side.text ++
        ", got " ++ toString given
  | unsupportedNode b node => "Unsupported IR node in block " ++ Label.text b ++ ": " ++ node
  | unusedDefinition r => "Register " ++ r.text ++ " is defined but never read"

end Rejection

end WireFlow
