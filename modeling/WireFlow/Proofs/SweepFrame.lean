import WireFlow.Proofs.DeadRegisters
import WireFlow.Proofs.DefaultPipeline

/-!
# What a sweep leaves alone

A sweep is one purge of registers that the swept graph does not read. So it
touches reachable blocks only, and in them nothing but definitions: what is left
of a block is a part of its nodes in their old order, the terminator among them,
with some definitions retired. Every definition of a register that is still read
is left in its place. The sentinel is an exception, since a node that defines
nothing else is left out whether the sentinel is read or not.
-/

namespace WireFlow

/-- The instruction does not depend on registers being needed: it has an effect,
or no registers to define. -/
def Instr.lasting (i : Instr) : Bool := i.hasEffect || !i.hasDefs || i.defs.isEmpty

theorem Instr.defs_eq_nil_of_hasDefs {i : Instr} (h : i.hasDefs = false) : i.defs = [] := by
  cases i with
  | emit => rfl
  | nop => rfl
  | foreign f effect =>
      have hnone : f.defs = none := by simpa [hasDefs] using h
      simp [defs, hnone]
  | _ => cases h

theorem Instr.not_spent_of_lasting {i : Instr} (h : i.lasting = true) (dead : List Reg) :
    ¬(Node.instr i).Spent dead := by
  rintro ⟨⟨heffect, hdefs⟩, -⟩
  simp only [lasting, heffect, Bool.false_or, Bool.or_eq_true, Bool.not_eq_true',
    List.isEmpty_iff] at h
  rcases h with h | h
  · exact hdefs (defs_eq_nil_of_hasDefs h)
  · exact hdefs h

namespace Block

variable {dead : List Reg}

/-- How a block comes out of a sweep: under its name, with a part of its phis and
instructions, lasting instructions included, and with dead definitions retired. -/
structure SweptTo (dead : List Reg) (b b' : Block) : Prop where
  label : b'.label = b.label
  phis : ∃ kept : List Phi, kept.Sublist b.phis ∧
    b'.phis = kept.map (Phi.mapDefs (Reg.retired dead))
  instrs : ∃ kept : List Instr, kept.Sublist b.instrs ∧
    b'.instrs = kept.map (Instr.mapDefs (Reg.retired dead)) ∧
    kept.filter Instr.lasting = b.instrs.filter Instr.lasting
  term : b'.term = b.term.mapDefs (Reg.retired dead)

theorem sweptTo_purge (dead : List Reg) (b : Block) : b.SweptTo dead (b.purge dead) where
  label := rfl
  phis := ⟨_, List.filter_sublist, rfl⟩
  instrs := by
    refine ⟨_, List.filter_sublist, rfl, ?_⟩
    rw [List.filter_filter]
    apply List.filter_congr
    intro i _
    cases hi : i.lasting with
    | true => simp [Instr.not_spent_of_lasting hi]
    | false => rfl
  term := rfl

theorem count_map_retired {r : Reg} (hz : r ≠ .zero) (hd : r ∉ dead) (rs : List Reg) :
    (rs.map (Reg.retired dead)).count r = rs.count r := by
  rw [List.count_eq_countP, List.countP_map, List.count_eq_countP]
  apply List.countP_congr
  intro s _
  simp [Reg.retired_eq_iff hz, hd]

/-- A purge leaves the definitions of all other registers where they are. -/
theorem count_defs_purge {r : Reg} (hz : r ≠ .zero) (hd : r ∉ dead) (b : Block) :
    (b.purge dead).defs.count r = b.defs.count r := by
  rw [← flatMap_defs_nodes, ← flatMap_defs_nodes, nodes_purge]
  induction b.nodes with
  | nil => rfl
  | cons n rest ih =>
      rw [List.flatMap_cons, List.count_append, ← ih]
      by_cases hn : n.Spent dead
      · have hnone : n.defs.count r = 0 :=
          List.count_eq_zero.mpr fun hr => Node.not_spent_of_mem_defs hr hz hd hn
        rw [List.filter_cons_of_neg (by simpa using hn), hnone, Nat.zero_add]
      · rw [List.filter_cons_of_pos (by simpa using hn), List.map_cons, List.flatMap_cons,
          List.count_append, Node.defs_mapDefs, count_map_retired hz hd]

end Block

namespace Graph

variable {g : Graph} {dead : List Reg}

theorem mem_uses_of_purge {r : Reg} (h : r ∈ (g.purge dead).uses) : r ∈ g.uses := by
  obtain ⟨n, hn, -, hr⟩ := mem_uses_purge.mp h
  exact mem_uses_iff.mpr ⟨n, hn, hr⟩

/-- Nothing that a sweep purges is read in the end. -/
theorem exists_purge_sweep_unread (g : Graph) :
    ∃ purged, (∀ r ∈ (g.purge purged).uses, r ∉ purged) ∧ g.sweep.1 = g.purge purged := by
  refine exists_purge_sweep ?_ ?_
  · intro r hr hdead
    exact (mem_deadRegs.mp hdead).2 (mem_uses_of_purge hr)
  · intro dead hdead r hr hmem
    rw [← purge_purge] at hr
    have hbefore := mem_uses_of_purge hr
    rcases List.mem_append.mp hmem with hmem | hmem
    · exact hdead r hbefore hmem
    · exact (mem_deadRegs.mp hmem).2 hbefore

theorem block?_purge (dead : List Reg) (g : Graph) (id : Label) :
    (g.purge dead).block? id =
      (g.block? id).map fun b => if id ∈ g.postOrder then b.purge dead else b :=
  block?_mapReachable g _ id

/-- How a graph comes out of a sweep. -/
structure SweptTo (g g' : Graph) : Prop where
  entry : g'.entry = g.entry
  size : g'.size = g.size
  nextReg : g'.nextReg = g.nextReg
  postOrder : g'.postOrder = g.postOrder
  predecessors : g'.predecessors = g.predecessors
  unreachable : ∀ id, ¬g.Reachable id → g'.block? id = g.block? id
  reachable : ∃ dead, ∀ id b, g.Reachable id → g.block? id = some b →
    ∃ b', g'.block? id = some b' ∧ b.SweptTo dead b'
  /-- A register that is still read is defined as often as before, block by block. -/
  definitions : ∀ r ∈ g'.uses, r ≠ .zero → ∀ id b b', g.block? id = some b →
    g'.block? id = some b' → b'.defs.count r = b.defs.count r
  checked : g.check false = .ok () → g'.check false = .ok ()

/-- A word for nobody, and the sentinel written out. -/
def sentinelWritten : Graph where
  blocks := #[⟨0, [], [.const .zero 1, .emit .zero 1], .ret []⟩]
  entry := 0
  nextReg := 0
  entry_lt := by decide

end Graph

/-- A sweep changes nothing but definitions in reachable blocks, leaves out no
node that has to stay, keeps every definition of the registers that are still
read, the sentinel apart, and keeps a graph in order. -/
theorem sweep_changes_nothing_else (g : Graph) : g.SweptTo g.sweep.1 := by
  obtain ⟨dead, hunread, hsweep⟩ := g.exists_purge_sweep_unread
  obtain ⟨_, hthin⟩ := g.exists_thinned_sweep
  refine ⟨hthin.entry, hthin.size, ?_, hthin.postOrder_eq, hthin.predecessors_eq, ?_, ⟨dead, ?_⟩,
    ?_, ?_⟩
  · rw [hsweep]
    rfl
  · intro id hid
    rw [← Graph.mem_postOrder_iff] at hid
    simp [hsweep, Graph.block?_purge, hid]
  · intro id b hid hb
    rw [← Graph.mem_postOrder_iff] at hid
    exact ⟨b.purge dead, by simp [hsweep, Graph.block?_purge, hid, hb], b.sweptTo_purge dead⟩
  · intro r hr hz id b b' hb hb'
    rw [hsweep] at hr
    rw [hsweep, Graph.block?_purge, hb, Option.map_some, Option.some.injEq] at hb'
    rw [← hb']
    split
    · exact Block.count_defs_purge hz (hunread r hr) b
    · rfl
  · intro hcheck
    exact Graph.check_sweep (Graph.check_eq_ok_iff.mp hcheck).1

/-- The word is thrown away with its instruction, although the sentinel is read. -/
theorem sweep_keeps_not_all_sentinel_definitions :
    ¬∀ r ∈ Graph.sentinelWritten.sweep.1.uses, ∀ id b b',
      Graph.sentinelWritten.block? id = some b →
        Graph.sentinelWritten.sweep.1.block? id = some b' → b'.defs.count r = b.defs.count r := by
  intro h
  have hcount := h .zero (by decide +kernel) 0
    ⟨0, [], [.const .zero 1, .emit .zero 1], .ret []⟩ ⟨0, [], [.emit .zero 1], .ret []⟩
    (by decide +kernel) (by decide +kernel)
  exact absurd hcount (by decide)

end WireFlow
