import WireFlow.Proofs.Acceptance
import WireFlow.Run.Interpreter

/-!
# Sound code

Code is sound when every slot it names lies in the frame, every block it can
go to is there under its own name, and every operation asks for something that
can be done. Lowering produces sound code only, and sound code never crashes,
however long it runs and whatever it is given.
-/

namespace WireFlow

open Sequencing
open Code (Op Exit)

namespace Code

namespace Op

/-- The operands an operation reads. -/
def operands : Op → List Operand
  | const _ _ => []
  | arg _ _ => []
  | binary _ _ x y => [x, y]
  | emit x _ => [x]
  | call _ xs _ => xs

/-- The destinations an operation writes to. -/
def dests : Op → List Dest
  | const d _ => [d]
  | arg d _ => [d]
  | binary d _ _ _ => [d]
  | emit _ _ => []
  | call _ _ ds => ds

end Op

/-- The operands an exit reads. -/
def Exit.operands : Exit → List Operand
  | .ret xs => xs
  | .jump _ => []
  | .branch x _ _ => [x]
  | .switch x _ _ => [x]

namespace Block

def operands (b : Block) : List Operand :=
  b.phis.flatMap (fun φ => φ.incoming.map Prod.snd) ++ b.ops.flatMap Op.operands ++
    b.exit.operands

def dests (b : Block) : List Dest := b.phis.map Phi.dst ++ b.ops.flatMap Op.dests

/-- The block can be run on a frame of `n` words. -/
structure Sound (n : Nat) (b : Block) : Prop where
  operands : ∀ i, .slot i ∈ b.operands → i < n
  dests : ∀ i, some i ∈ b.dests → i < n
  widths : ∀ x w, .emit x w ∈ b.ops → w ∈ [1, 2, 4, 8]
  calls : ∀ f xs ds, .call f xs ds ∈ b.ops → xs.length = f.argCount ∧ ds.length ≤ f.resultCount

end Block

/-- The code can be run. -/
structure Sound (c : Code) : Prop where
  blocks : ∀ id b, c.block? id = some b → b.Sound c.frameSize
  ids : ∀ id b, c.block? id = some b → b.id = id
  entry : ∃ b, c.block? c.entry = some b ∧ b.phis = []
  targets : ∀ id b, c.block? id = some b →
    ∀ next ∈ b.exit.successors, ∃ b', c.block? next = some b'

end Code

namespace Lower

variable {layout : List Reg}

theorem ReadAs.slot_lt {r : Reg} {i : Nat} (h : ReadAs layout r (.slot i)) :
    i < layout.length := by
  cases h with
  | slot _ hi => exact lt_of_idxOf? hi

theorem slot_lt_of_readAs_all {rs : List Reg} {xs : List Operand}
    (h : List.Forall₂ (ReadAs layout) rs xs) {i : Nat} (hi : .slot i ∈ xs) :
    i < layout.length := by
  obtain ⟨r, -, hr⟩ := exists_of_mem_right h hi
  exact hr.slot_lt

theorem InstrAs.slot_lt {j : Instr} {op : Op} (h : InstrAs layout j op) {i : Nat}
    (hi : .slot i ∈ op.operands) : i < layout.length := by
  cases h with
  | const r v => cases hi
  | arg r k => cases hi
  | binary r op hx hy =>
      rcases List.mem_cons.mp hi with rfl | hi
      · exact hx.slot_lt
      · exact (List.mem_singleton.mp hi ▸ hy).slot_lt
  | emit _ hv => exact (List.mem_singleton.mp hi ▸ hv).slot_lt
  | call _ _ _ hxs => exact slot_lt_of_readAs_all hxs hi

theorem InstrAs.dest_lt {j : Instr} {op : Op} (h : InstrAs layout j op) {i : Nat}
    (hi : some i ∈ op.dests) : i < layout.length := by
  have hdest : ∃ r, dest layout r = some i := by
    cases h with
    | const r v => exact ⟨r, (List.mem_singleton.mp hi).symm⟩
    | arg r k => exact ⟨r, (List.mem_singleton.mp hi).symm⟩
    | binary r op _ _ => exact ⟨r, (List.mem_singleton.mp hi).symm⟩
    | emit _ _ => cases hi
    | call _ _ _ _ =>
        obtain ⟨r, -, hr⟩ := List.mem_map.mp hi
        exact ⟨r, hr⟩
  obtain ⟨r, hr⟩ := hdest
  exact lt_of_idxOf? hr

theorem PhiAs.slot_lt {φ : Phi} {φ' : Code.Phi} (h : PhiAs layout φ φ') {i : Nat}
    (hi : .slot i ∈ φ'.incoming.map Prod.snd) : i < layout.length := by
  obtain ⟨e', he', hx⟩ := List.mem_map.mp hi
  obtain ⟨e, -, -, hr⟩ := exists_of_mem_right h.incoming he'
  exact (hx ▸ hr).slot_lt

theorem ExitAs.slot_lt {t : Terminator} {x : Exit} (h : ExitAs layout t x) {i : Nat}
    (hi : .slot i ∈ x.operands) : i < layout.length := by
  cases h with
  | ret hxs => exact slot_lt_of_readAs_all hxs hi
  | jump target => cases hi
  | branch _ _ hx => exact (List.mem_singleton.mp hi ▸ hx).slot_lt
  | switch _ _ hx => exact (List.mem_singleton.mp hi ▸ hx).slot_lt

/-- Lowered blocks can be run. -/
theorem BlockAs.sound {id : Label} {b : Block} {b' : Code.Block} (h : BlockAs layout id b b') :
    b'.Sound layout.length where
  operands i hi := by
    rcases List.mem_append.mp hi with hi | hi
    · rcases List.mem_append.mp hi with hi | hi
      · obtain ⟨φ', hφ', hx⟩ := List.mem_flatMap.mp hi
        obtain ⟨φ, -, hφ⟩ := exists_of_mem_right h.phis hφ'
        exact hφ.slot_lt hx
      · obtain ⟨op, hop, hx⟩ := List.mem_flatMap.mp hi
        obtain ⟨j, -, hj⟩ := exists_of_mem_right h.ops hop
        exact hj.slot_lt hx
    · exact h.exit.slot_lt hi
  dests i hi := by
    rcases List.mem_append.mp hi with hi | hi
    · obtain ⟨φ', hφ', hx⟩ := List.mem_map.mp hi
      obtain ⟨φ, -, hφ⟩ := exists_of_mem_right h.phis hφ'
      exact lt_of_idxOf? (hφ.dst.symm.trans hx)
    · obtain ⟨op, hop, hx⟩ := List.mem_flatMap.mp hi
      obtain ⟨j, -, hj⟩ := exists_of_mem_right h.ops hop
      exact hj.dest_lt hx
  widths x w hw := by
    obtain ⟨j, -, hj⟩ := exists_of_mem_right h.ops hw
    cases hj with
    | emit hw _ => exact hw
  calls f xs ds hc := by
    obtain ⟨j, -, hj⟩ := exists_of_mem_right h.ops hc
    cases hj with
    | call _ hargs hresults hxs =>
        exact ⟨hxs.length_eq.symm.trans hargs, by simpa using hresults⟩

end Lower

/-- Lowering makes sound code only. -/
theorem Graph.sound_of_lower {g : Graph} {c : Code} (h : g.lower = .ok c) : c.Sound := by
  have has := loweredAs_of_lower h
  have hl := lowerable_of_lower h
  refine ⟨?_, ?_, ?_, ?_⟩
  · intro id b' hb'
    obtain ⟨b, -, hb⟩ := has.block id b' hb'
    exact hb.sound
  · intro id b' hb'
    obtain ⟨b, -, hb⟩ := has.block id b' hb'
    exact hb.id
  · obtain ⟨b', hb'⟩ := has.covered g.entry g.entry_mem_postOrder
    obtain ⟨b, hw, hb⟩ := has.block _ b' hb'
    have hphis := hb.phis
    rw [hl.entry b (mem_walk.mp hw).2, List.forall₂_nil_left_iff] at hphis
    exact ⟨b', has.entry ▸ hb', hphis⟩
  · intro id b' hb' next hn
    obtain ⟨b, hw, hb⟩ := has.block id b' hb'
    rw [hb.exit.successors_eq] at hn
    obtain ⟨hid, hbl⟩ := mem_walk.mp hw
    exact has.covered next
      (mem_postOrder_of_successor hid hbl hn ((hl.blocks id b hw).inside next hn))

end WireFlow
