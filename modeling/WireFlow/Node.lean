import WireFlow.Register

/-!
# Nodes of a flow graph

A block starts with phis, goes on with instructions and ends with a terminator.
Every node lists the registers it defines and the registers it reads. Foreign
nodes come from outside the instruction set: they take part in every analysis
through the registers they list, and only lowering refuses them.
-/

namespace WireFlow

/-- A name for a block. As the target of an edge it stands for a place in the graph. -/
abbrev Label := Nat

def Label.text (b : Label) : String := s!"bb{b}"

/-- Operators on two words. Arithmetic wraps, and a shift takes its amount
modulo the word length. -/
inductive BinOp where
  | add
  | sub
  | mul
  | and
  | or
  | xor
  | shl
  | shr
deriving DecidableEq

namespace BinOp

def name : BinOp → String
  | add => "add"
  | sub => "sub"
  | mul => "mul"
  | and => "and"
  | or => "or"
  | xor => "xor"
  | shl => "shl"
  | shr => "shr"

def eval (op : BinOp) (x y : UInt64) : UInt64 :=
  match op with
  | add => x + y
  | sub => x - y
  | mul => x * y
  | and => x &&& y
  | or => x ||| y
  | xor => x ^^^ y
  | shl => x <<< y
  | shr => x >>> y

end BinOp

/-- A node from outside the instruction set. Without a list it has no
definitions, or no reads, to speak of. It is taken to list the same places
whenever it is asked, with the registers that were last put there, and never to
pass for a node of the instruction set. -/
structure Foreign where
  mnemonic : String
  defs : Option (List Reg)
  uses : Option (List Reg)
deriving DecidableEq

namespace Foreign

def operandText : Option (List Reg) → String
  | none => "-"
  | some rs => "[" ++ Reg.listText rs ++ "]"

def text (f : Foreign) : String :=
  operandText f.defs ++ " = " ++ f.mnemonic ++ " " ++ operandText f.uses

def mapDefs (σ : Reg → Reg) (f : Foreign) : Foreign := { f with defs := f.defs.map (List.map σ) }

def mapUses (σ : Reg → Reg) (f : Foreign) : Foreign := { f with uses := f.uses.map (List.map σ) }

end Foreign

/-- An instruction. -/
inductive Instr where
  | const (dst : Reg) (value : UInt64)
  /-- Load argument `index` of the routine. -/
  | arg (dst : Reg) (index : Nat)
  | binary (dst : Reg) (op : BinOp) (x y : Reg)
  /-- Write the low `width` bytes of a register. -/
  | emit (src : Reg) (width : Nat)
  /-- Call the routine registered under a handle. -/
  | call (handle : Nat) (args results : List Reg)
  /-- An outside node without lists of registers and without an effect, which is
  written as a bare word. -/
  | nop
  /-- An outside node. It has an effect at all times or at none. -/
  | foreign (node : Foreign) (effect : Bool)
deriving DecidableEq

/-- How a call handle is written. -/
def handleText (handle : Nat) : String := s!"#{handle}"

namespace Instr

/-- The registers an instruction defines, in order. -/
def defs : Instr → List Reg
  | const r _ => [r]
  | arg r _ => [r]
  | binary r _ _ _ => [r]
  | emit _ _ => []
  | call _ _ results => results
  | nop => []
  | foreign f _ => f.defs.getD []

/-- The registers an instruction reads, in order. -/
def uses : Instr → List Reg
  | const _ _ => []
  | arg _ _ => []
  | binary _ _ x y => [x, y]
  | emit v _ => [v]
  | call _ args _ => args
  | nop => []
  | foreign f _ => f.uses.getD []

/-- The instruction is of a sort that defines registers. -/
def hasDefs : Instr → Bool
  | const _ _ => true
  | arg _ _ => true
  | binary _ _ _ _ => true
  | emit _ _ => false
  | call _ _ _ => true
  | nop => false
  | foreign f _ => f.defs.isSome

/-- The instruction is of a sort that reads registers. -/
def hasUses : Instr → Bool
  | const _ _ => false
  | arg _ _ => false
  | binary _ _ _ _ => true
  | emit _ _ => true
  | call _ _ _ => true
  | nop => false
  | foreign f _ => f.uses.isSome

/-- The instruction does more than define registers. -/
def hasEffect : Instr → Bool
  | emit _ _ => true
  | call _ _ _ => true
  | foreign _ effect => effect
  | _ => false

def mapDefs (σ : Reg → Reg) : Instr → Instr
  | const r v => const (σ r) v
  | arg r i => arg (σ r) i
  | binary r op x y => binary (σ r) op x y
  | emit v w => emit v w
  | call h args results => call h args (results.map σ)
  | nop => nop
  | foreign f effect => foreign (f.mapDefs σ) effect

def mapUses (σ : Reg → Reg) : Instr → Instr
  | const r v => const r v
  | arg r i => arg r i
  | binary r op x y => binary r op (σ x) (σ y)
  | emit v w => emit (σ v) w
  | call h args results => call h (args.map σ) results
  | nop => nop
  | foreign f effect => foreign (f.mapUses σ) effect

def text : Instr → String
  | const r v => r.text ++ " = const " ++ toString v.toNat
  | arg r i => r.text ++ " = arg " ++ toString i
  | binary r op x y => r.text ++ " = " ++ op.name ++ " " ++ x.text ++ ", " ++ y.text
  | emit v w => "emit." ++ toString w ++ " " ++ v.text
  | call h args results =>
      (if results.isEmpty then "" else Reg.listText results ++ " = ") ++
        "gcall " ++ handleText h ++ "(" ++ Reg.listText args ++ ")"
  | nop => "nop"
  | foreign f _ => f.text

@[simp] theorem defs_mapDefs (σ : Reg → Reg) (i : Instr) : (i.mapDefs σ).defs = i.defs.map σ := by
  cases i with
  | foreign f _ => cases h : f.defs <;> simp [mapDefs, defs, Foreign.mapDefs, h]
  | _ => simp [mapDefs, defs]

@[simp] theorem uses_mapDefs (σ : Reg → Reg) (i : Instr) : (i.mapDefs σ).uses = i.uses := by
  cases i <;> rfl

@[simp] theorem defs_mapUses (σ : Reg → Reg) (i : Instr) : (i.mapUses σ).defs = i.defs := by
  cases i <;> rfl

@[simp] theorem uses_mapUses (σ : Reg → Reg) (i : Instr) : (i.mapUses σ).uses = i.uses.map σ := by
  cases i with
  | foreign f _ => cases h : f.uses <;> simp [mapUses, uses, Foreign.mapUses, h]
  | _ => simp [mapUses, uses]

@[simp] theorem hasEffect_mapDefs (σ : Reg → Reg) (i : Instr) :
    (i.mapDefs σ).hasEffect = i.hasEffect := by
  cases i <;> rfl

@[simp] theorem hasEffect_mapUses (σ : Reg → Reg) (i : Instr) :
    (i.mapUses σ).hasEffect = i.hasEffect := by
  cases i <;> rfl

end Instr

/-- A phi takes the register listed first for the block control came from. -/
structure Phi where
  dst : Reg
  incoming : List (Label × Reg)
deriving DecidableEq

namespace Phi

/-- The register taken when control comes from `pred`. -/
def incomingFrom? (φ : Phi) (pred : Label) : Option Reg :=
  (φ.incoming.find? fun e => e.1 == pred).map Prod.snd

def uses (φ : Phi) : List Reg := φ.incoming.map Prod.snd

def mapDefs (σ : Reg → Reg) (φ : Phi) : Phi := { φ with dst := σ φ.dst }

def mapUses (σ : Reg → Reg) (φ : Phi) : Phi :=
  { φ with incoming := φ.incoming.map fun e => (e.1, σ e.2) }

def text (φ : Phi) : String :=
  φ.dst.text ++ " = phi " ++
    ", ".intercalate (φ.incoming.map fun e => Label.text e.1 ++ ": " ++ e.2.text)

@[simp] theorem dst_mapDefs (σ : Reg → Reg) (φ : Phi) : (φ.mapDefs σ).dst = σ φ.dst := rfl

@[simp] theorem uses_mapDefs (σ : Reg → Reg) (φ : Phi) : (φ.mapDefs σ).uses = φ.uses := rfl

@[simp] theorem dst_mapUses (σ : Reg → Reg) (φ : Phi) : (φ.mapUses σ).dst = φ.dst := rfl

@[simp] theorem uses_mapUses (σ : Reg → Reg) (φ : Phi) : (φ.mapUses σ).uses = φ.uses.map σ := by
  simp [mapUses, uses]

end Phi

/-- How control leaves a block. -/
inductive Terminator where
  | ret (values : List Reg)
  | jump (target : Label)
  /-- Go to `target` unless the condition is zero. -/
  | branch (cond : Reg) (target otherwise : Label)
  /-- Go to the target at the position given by the value, if there is one. -/
  | switch (value : Reg) (targets : List Label) (default : Label)
  /-- An outside node, whose successors stay the same. -/
  | foreign (node : Foreign) (successors : List Label)
deriving DecidableEq

namespace Terminator

/-- The blocks control can go to, in order and with repetitions. -/
def successors : Terminator → List Label
  | ret _ => []
  | jump target => [target]
  | branch _ target otherwise => [target, otherwise]
  | switch _ targets default => targets ++ [default]
  | foreign _ succs => succs

def defs : Terminator → List Reg
  | foreign f _ => f.defs.getD []
  | _ => []

def uses : Terminator → List Reg
  | ret values => values
  | jump _ => []
  | branch cond _ _ => [cond]
  | switch value _ _ => [value]
  | foreign f _ => f.uses.getD []

def hasDefs : Terminator → Bool
  | foreign f _ => f.defs.isSome
  | _ => false

def hasUses : Terminator → Bool
  | jump _ => false
  | foreign f _ => f.uses.isSome
  | _ => true

def mapDefs (σ : Reg → Reg) : Terminator → Terminator
  | foreign f succs => foreign (f.mapDefs σ) succs
  | t => t

def mapUses (σ : Reg → Reg) : Terminator → Terminator
  | ret values => ret (values.map σ)
  | jump target => jump target
  | branch cond target otherwise => branch (σ cond) target otherwise
  | switch value targets default => switch (σ value) targets default
  | foreign f succs => foreign (f.mapUses σ) succs

def text : Terminator → String
  | ret values => "ret " ++ Reg.listText values
  | jump target => "jmp " ++ Label.text target
  | branch cond target otherwise =>
      "br " ++ cond.text ++ ", " ++ Label.text target ++ ", " ++ Label.text otherwise
  | switch value targets default =>
      "switch " ++ value.text ++ ", [" ++ ", ".intercalate (targets.map Label.text) ++ "], " ++
        Label.text default
  | foreign f _ => f.text

@[simp] theorem successors_mapDefs (σ : Reg → Reg) (t : Terminator) :
    (t.mapDefs σ).successors = t.successors := by
  cases t <;> rfl

@[simp] theorem successors_mapUses (σ : Reg → Reg) (t : Terminator) :
    (t.mapUses σ).successors = t.successors := by
  cases t <;> rfl

@[simp] theorem defs_mapDefs (σ : Reg → Reg) (t : Terminator) :
    (t.mapDefs σ).defs = t.defs.map σ := by
  cases t with
  | foreign f _ => cases h : f.defs <;> simp [mapDefs, defs, Foreign.mapDefs, h]
  | _ => rfl

@[simp] theorem uses_mapDefs (σ : Reg → Reg) (t : Terminator) : (t.mapDefs σ).uses = t.uses := by
  cases t <;> rfl

@[simp] theorem defs_mapUses (σ : Reg → Reg) (t : Terminator) : (t.mapUses σ).defs = t.defs := by
  cases t <;> rfl

@[simp] theorem uses_mapUses (σ : Reg → Reg) (t : Terminator) :
    (t.mapUses σ).uses = t.uses.map σ := by
  cases t with
  | foreign f _ => cases h : f.uses <;> simp [mapUses, uses, Foreign.mapUses, h]
  | _ => simp [mapUses, uses]

end Terminator

end WireFlow
