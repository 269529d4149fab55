import WireFlow.Proofs.Nodes

/-!
# Dead registers

A register is dead if whatever reads it is there for dead registers only. This
is an inductive condition: registers that nothing reads come first, and a cycle
of reads is never dead. A round of a sweep purges the graph of the registers
that are not read at the moment, which leaves out the nodes that serve nothing
else. Two purges are one, so that a whole sweep is one purge; the registers it
purges are dead round by round, and no dead register is left where everything
defined is read.
-/

namespace WireFlow

namespace Reg

variable {dead dead' : List Reg} {r : Reg}

instance : Decidable (r.Gone dead) := inferInstanceAs (Decidable (_ ∨ _))

theorem gone_nil_iff : r.Gone [] ↔ r = .zero := by simp [Gone]

theorem gone_retired_iff : (r.retired dead).Gone dead' ↔ r.Gone (dead ++ dead') := by
  constructor
  · exact Gone.of_retired
  · rintro (rfl | hr)
    · exact Or.inl (by simp [retired])
    · by_cases hd : r ∈ dead
      · exact Or.inl (if_pos hd)
      · rw [retired_of_not_mem hd]
        exact Or.inr ((List.mem_append.mp hr).resolve_left hd)

end Reg

namespace Node

variable {dead dead' : List Reg} {n : Node}

/-- The node serves nothing once the dead registers are gone. -/
def Spent (dead : List Reg) (n : Node) : Prop := n.Removable ∧ ∀ r ∈ n.defs, r.Gone dead

instance : Decidable (n.Spent dead) := inferInstanceAs (Decidable (_ ∧ _))

theorem spent_mapDefs_iff :
    (n.mapDefs (Reg.retired dead)).Spent dead' ↔ n.Spent (dead ++ dead') := by
  simp only [Spent, removable_mapDefs, defs_mapDefs, List.forall_mem_map, Reg.gone_retired_iff]

theorem Spent.append (h : n.Spent dead) : n.Spent (dead ++ dead') :=
  ⟨h.1, fun r hr => (h.2 r hr).append⟩

theorem not_spent_of_mem_defs {r : Reg} (hr : r ∈ n.defs) (hz : r ≠ .zero) (hd : r ∉ dead) :
    ¬n.Spent dead := fun h => (h.2 r hr).elim hz hd

end Node

namespace Block

variable {dead dead' : List Reg}

/-- The block without its spent nodes and with the dead definitions of the
others retired. -/
def purge (dead : List Reg) (b : Block) : Block where
  label := b.label
  phis := (b.phis.filter fun φ => ¬(Node.phi φ).Spent dead).map (Phi.mapDefs (Reg.retired dead))
  instrs := (b.instrs.filter fun i => ¬(Node.instr i).Spent dead).map
    (Instr.mapDefs (Reg.retired dead))
  term := b.term.mapDefs (Reg.retired dead)

theorem keepsPhi_eq (φ : Phi) : keepsPhi φ = decide ¬(Node.phi φ).Spent [] := by
  simp [keepsPhi, Node.Spent, Node.Removable, Node.defs, Reg.gone_nil_iff]

theorem keepsInstr_eq (i : Instr) : keepsInstr i = decide ¬(Node.instr i).Spent [] := by
  rw [Bool.eq_iff_iff, decide_eq_true_iff]
  simp only [keepsInstr, Node.Spent, Node.Removable, Node.defs, Reg.gone_nil_iff,
    Bool.or_eq_true, List.isEmpty_iff, List.any_eq_true, decide_eq_true_eq, not_and, not_forall]
  cases i.hasEffect with
  | true => simp
  | false =>
      by_cases hdefs : i.defs = []
      · simp [hdefs]
      · simp [hdefs]

/-- What a round does to a block. -/
theorem compact_retire (dead : List Reg) (b : Block) : (b.retire dead).compact = b.purge dead := by
  have hspent (n : Node) : (n.mapDefs (Reg.retired dead)).Spent [] ↔ n.Spent dead := by
    rw [Node.spent_mapDefs_iff, List.append_nil]
  have hretire : b.retire dead = b.mapDefs (Reg.retired dead) := rfl
  simp only [hretire, compact, mapDefs, purge, mk.injEq, true_and, and_true, List.filter_map]
  constructor
  · congr 1
    apply List.filter_congr
    intro φ _
    exact (keepsPhi_eq _).trans (by simp only [← hspent (.phi φ)]; rfl)
  · congr 1
    apply List.filter_congr
    intro i _
    exact (keepsInstr_eq _).trans (by simp only [← hspent (.instr i)]; rfl)

theorem purge_purge (b : Block) : (b.purge dead).purge dead' = b.purge (dead ++ dead') := by
  have hspent (n : Node) :
      (n.mapDefs (Reg.retired dead)).Spent dead' ∨ n.Spent dead ↔ n.Spent (dead ++ dead') := by
    rw [Node.spent_mapDefs_iff, or_iff_left_of_imp Node.Spent.append]
  have hphi (φ : Phi) := hspent (.phi φ)
  have hinstr (i : Instr) := hspent (.instr i)
  simp only [Node.mapDefs] at hphi hinstr
  simp only [purge, mk.injEq, true_and, List.filter_map, List.filter_filter, List.map_map,
    Function.comp_def, ← Bool.decide_and, ← not_or, hphi, hinstr]
  rw [Reg.retired_append]
  refine ⟨rfl, ?_, (Terminator.mapDefs_comp _ _ _).symm⟩
  congr 1
  exact funext fun i => (Instr.mapDefs_comp _ _ i).symm

theorem nodes_purge (dead : List Reg) (b : Block) :
    (b.purge dead).nodes =
      (b.nodes.filter fun n => ¬n.Spent dead).map (Node.mapDefs (Reg.retired dead)) := by
  have hterm : ¬(Node.term b.term).Spent dead := fun h => h.1
  simp [nodes, purge, List.filter_map, Function.comp_def, Node.mapDefs, hterm]

theorem successors_purge (dead : List Reg) (b : Block) :
    (b.purge dead).term.successors = b.term.successors := Terminator.successors_mapDefs _ _

end Block

namespace Graph

variable {g : Graph} {dead dead' : List Reg} {r : Reg}

/-- Change after change of the reachable blocks. -/
theorem mapReachable_mapReachable (g : Graph) {f : Block → Block} (f' : Block → Block)
    (hf : ∀ b, (f b).term.successors = b.term.successors) :
    (g.mapReachable f).mapReachable f' = g.mapReachable fun b => f' (f b) := by
  refine ext_block? rfl rfl fun id => ?_
  simp only [block?_mapReachable, postOrder_mapReachable g f hf, Option.map_map]
  congr 1
  funext b
  by_cases hid : id ∈ g.postOrder <;> simp [hid]

/-- The graph without its spent nodes and with the other dead definitions
retired. -/
def purge (dead : List Reg) (g : Graph) : Graph := g.mapReachable (Block.purge dead)

theorem purge_purge (g : Graph) : (g.purge dead).purge dead' = g.purge (dead ++ dead') := by
  simp only [purge, mapReachable_mapReachable _ _ (Block.successors_purge dead), Block.purge_purge]

theorem sweepRound_eq_purge (g : Graph) : g.sweepRound.1 = g.purge g.deadRegs := by
  simp only [sweepRound, mapReachable_mapReachable _ _ (Block.successors_retire g.deadRegs),
    Block.compact_retire, purge]

theorem nodes_purge (dead : List Reg) (g : Graph) :
    (g.purge dead).nodes =
      (g.nodes.filter fun n => ¬n.Spent dead).map (Node.mapDefs (Reg.retired dead)) := by
  simp only [nodes, purge, walk_mapReachable _ _ (Block.successors_purge dead), List.flatMap_map,
    Block.nodes_purge, List.filter_flatMap, List.map_flatMap]

theorem mem_uses_purge :
    r ∈ (g.purge dead).uses ↔ ∃ n ∈ g.nodes, ¬n.Spent dead ∧ r ∈ n.uses := by
  simp only [mem_uses_iff, nodes_purge, List.mem_map, List.mem_filter, decide_eq_true_eq]
  constructor
  · rintro ⟨_, ⟨n, ⟨hn, hkept⟩, rfl⟩, hr⟩
    exact ⟨n, hn, hkept, by simpa using hr⟩
  · rintro ⟨n, hn, hkept, hr⟩
    exact ⟨_, ⟨n, ⟨hn, hkept⟩, rfl⟩, by simpa using hr⟩

theorem mem_defs_purge (hz : r ≠ .zero) : r ∈ (g.purge dead).defs ↔ r ∈ g.defs ∧ r ∉ dead := by
  simp only [mem_defs_iff, nodes_purge, List.mem_map, List.mem_filter, decide_eq_true_eq]
  constructor
  · rintro ⟨_, ⟨n, ⟨hn, -⟩, rfl⟩, hr⟩
    rw [Node.defs_mapDefs, List.mem_map] at hr
    obtain ⟨s, hs, hsr⟩ := hr
    obtain ⟨rfl, hd⟩ := (Reg.retired_eq_iff hz).mp hsr
    exact ⟨⟨n, hn, hs⟩, hd⟩
  · rintro ⟨⟨n, hn, hr⟩, hd⟩
    refine ⟨_, ⟨n, ⟨hn, Node.not_spent_of_mem_defs hr hz hd⟩, rfl⟩, ?_⟩
    rw [Node.defs_mapDefs, List.mem_map]
    exact ⟨r, hr, Reg.retired_of_not_mem hd⟩

/-- The sentinel makes no difference to a purge, and neither do order and
repetition. -/
theorem purge_congr (h : ∀ r, r ≠ .zero → (r ∈ dead ↔ r ∈ dead')) (g : Graph) :
    g.purge dead = g.purge dead' := by
  have hgone (r : Reg) : r.Gone dead ↔ r.Gone dead' := by
    by_cases hz : r = .zero
    · simp [Reg.Gone, hz]
    · simp [Reg.Gone, h r hz]
  have hretired : Reg.retired dead = Reg.retired dead' := by
    funext r
    by_cases hz : r = .zero
    · simp [Reg.retired, hz]
    · simp [Reg.retired, h r hz]
  have hspent (n : Node) : n.Spent dead ↔ n.Spent dead' := by simp only [Node.Spent, hgone]
  have hblock : Block.purge dead = Block.purge dead' := by
    funext b
    simp only [Block.purge, hspent, hretired]
  rw [purge, hblock, purge]

/-- What the first round establishes and the others keep holds of what the
rounds have purged together. -/
theorem exists_purge_sweepRounds {P : List Reg → Prop}
    (later : ∀ dead, P dead → P (dead ++ (g.purge dead).deadRegs)) (n : Nat) (hdead : P dead) :
    ∃ purged, P purged ∧ (sweepRounds n (g.purge dead)).1 = g.purge purged := by
  induction n generalizing dead with
  | zero => exact ⟨dead, hdead, rfl⟩
  | succ n ih =>
      have hround : (g.purge dead).sweepRound.1 = g.purge (dead ++ (g.purge dead).deadRegs) := by
        rw [sweepRound_eq_purge, purge_purge]
      simp only [sweepRounds, hround]
      split
      · exact ⟨_, later dead hdead, rfl⟩
      · exact ih (later dead hdead)

theorem exists_purge_sweep {P : List Reg → Prop} (first : P g.deadRegs)
    (later : ∀ dead, P dead → P (dead ++ (g.purge dead).deadRegs)) :
    ∃ purged, P purged ∧ g.sweep.1 = g.purge purged := by
  simp only [sweep, sweepRounds, sweepRound_eq_purge]
  split
  · exact ⟨_, first, rfl⟩
  · exact exists_purge_sweepRounds later _ first

/-- The least set of registers with this law: a register is dead if it is
defined, and all nodes that read it are removable and define dead registers
only. -/
inductive Dead (g : Graph) : Reg → Prop
  | intro {r : Reg} (hz : r ≠ .zero) (hdef : r ∈ g.defs)
      (removable : ∀ n ∈ g.nodes, r ∈ n.uses → n.Removable)
      (serves : ∀ n ∈ g.nodes, r ∈ n.uses → ∀ s ∈ n.defs, s ≠ .zero → Dead g s) : Dead g r

namespace Dead

theorem ne_zero (h : g.Dead r) : r ≠ .zero := by
  cases h
  assumption

theorem of_spent (hdead : ∀ s ∈ dead, s ≠ .zero → g.Dead s) (hz : r ≠ .zero) (hdef : r ∈ g.defs)
    (hspent : ∀ n ∈ g.nodes, r ∈ n.uses → n.Spent dead) : g.Dead r := by
  refine .intro hz hdef (fun n hn hr => (hspent n hn hr).1) fun n hn hr s hs hsz => ?_
  exact hdead s (((hspent n hn hr).2 s hs).resolve_left hsz) hsz

/-- Registers that are read for one another are not dead. -/
theorem not_of_cycle {S : Reg → Prop}
    (hS : ∀ r, S r → ∃ n ∈ g.nodes, r ∈ n.uses ∧ ∃ s ∈ n.defs, s ≠ .zero ∧ S s) (hr : S r) :
    ¬g.Dead r := by
  intro h
  induction h with
  | intro _ _ _ _ ih =>
      obtain ⟨n, hn, huse, s, hs, hsz, hSs⟩ := hS _ hr
      exact ih n hn huse s hs hsz hSs

/-- Where a purge leaves nothing unread, it has met all dead registers. -/
theorem mem_of_allRead (hread : (g.purge dead).AllRead) (h : g.Dead r) : r ∈ dead := by
  induction h with
  | @intro r hz hdef removable serves ih =>
      by_contra hd
      have huse := (hread r ((mem_defs_purge hz).mpr ⟨hdef, hd⟩)).resolve_left hz
      obtain ⟨n, hn, hkept, hr⟩ := mem_uses_purge.mp huse
      refine hkept ⟨removable n hn hr, fun s hs => ?_⟩
      by_cases hsz : s = .zero
      · exact Or.inl hsz
      · exact Or.inr (ih n hn hr s hs hsz)

end Dead

/-- All that a sweep purges is dead. -/
theorem exists_purge_sweep_dead (g : Graph) :
    ∃ purged, (∀ r ∈ purged, r ≠ .zero → g.Dead r) ∧ g.sweep.1 = g.purge purged := by
  refine exists_purge_sweep ?_ ?_
  · intro r hr hz
    obtain ⟨hdef, hunread⟩ := mem_deadRegs.mp hr
    have hnone : ∀ s ∈ ([] : List Reg), s ≠ .zero → g.Dead s := by simp
    refine Dead.of_spent hnone hz hdef fun n hn huse => ?_
    exact absurd (mem_uses_iff.mpr ⟨n, hn, huse⟩) hunread
  · intro dead hdead r hr hz
    rcases List.mem_append.mp hr with hr | hr
    · exact hdead r hr hz
    · -- what reads the register in the graph has not been left by the purge
      obtain ⟨hdef, hunread⟩ := mem_deadRegs.mp hr
      refine Dead.of_spent hdead hz ((mem_defs_purge hz).mp hdef).1 fun n hn huse => ?_
      by_contra hkept
      exact hunread (mem_uses_purge.mpr ⟨n, hn, hkept, huse⟩)

theorem compacted_eq_purge (g : Graph) : g.compacted = g.purge [] := by
  have hretire (b : Block) : b.retire [] = b :=
    (congrArg (Block.mapDefs · b) Reg.retired_nil).trans b.mapDefs_id
  have hblock : Block.compact = Block.purge [] := by
    funext b
    rw [← Block.compact_retire, hretire]
  rw [compacted, hblock, purge]

theorem compacted_eq_self_iff : g.compacted = g ↔ ∀ n ∈ g.nodes, ¬n.Spent [] := by
  constructor
  · intro h
    have hlength : g.compacted.nodes.length = g.nodes.length := by rw [h]
    rw [compacted_eq_purge, nodes_purge, List.length_map, List.length_filter_eq_length_iff]
      at hlength
    simpa using hlength
  · intro hkept
    apply mapReachable_eq_self_iff.mpr
    intro e he
    have hmem : ∀ n ∈ e.2.nodes, ¬n.Spent [] := fun n hn =>
      hkept n (List.mem_flatMap.mpr ⟨e, he, hn⟩)
    have hphis : e.2.phis.filter Block.keepsPhi = e.2.phis := by
      rw [List.filter_eq_self]
      intro φ hφ
      rw [Block.keepsPhi_eq]
      exact decide_eq_true (hmem _ (by simp [Block.nodes, hφ]))
    have hinstrs : e.2.instrs.filter Block.keepsInstr = e.2.instrs := by
      rw [List.filter_eq_self]
      intro i hi
      rw [Block.keepsInstr_eq]
      exact decide_eq_true (hmem _ (by simp [Block.nodes, hi]))
    rw [Block.compact, hphis, hinstrs]

theorem compacted_eq_self (h : ∀ n ∈ g.nodes, n.Removable → ∃ r ∈ n.defs, r ≠ .zero) :
    g.compacted = g := by
  apply compacted_eq_self_iff.mpr
  rintro n hn ⟨hremovable, hgone⟩
  obtain ⟨r, hr, hz⟩ := h n hn hremovable
  exact hz (Reg.gone_nil_iff.mp (hgone r hr))

/-- An argument that is kept, a chain of three registers that ends in nothing, a
phi that only feeds itself, a pair of which one half is read, a call for its
bytes, and a terminator with a result. -/
def feedback : Graph where
  blocks := #[
    ⟨0, [], [.arg (.scalar 0) 0, .const (.scalar 1) 5,
        .binary (.scalar 2) .add (.scalar 1) (.scalar 1),
        .binary (.scalar 3) .mul (.scalar 2) (.scalar 1)],
      .jump 1⟩,
    ⟨1, [⟨.scalar 4, [(0, .scalar 0), (1, .scalar 4)]⟩],
      [.foreign ⟨"split", some [.scalar 5, .pointer 6], some [.scalar 0]⟩ false,
        .call 0 [.scalar 5] [.scalar 7]],
      .branch (.scalar 0) 1 2⟩,
    ⟨2, [], [], .foreign ⟨"leave", some [.scalar 8], none⟩ []⟩]
  entry := 0
  nextReg := 9
  entry_lt := by decide

end Graph

/-- A sweep finds exactly the dead registers, unless the graph starts with
removable nodes that define the sentinel only: it retires all their definitions,
leaves out the removable nodes that define nothing else, and changes nothing
besides. Registers that are read for one another are not dead, be it one that is
only read for itself. -/
theorem sweep_purges_exactly_the_dead {g : Graph}
    (h : ∀ n ∈ g.nodes, n.Removable → ∃ r ∈ n.defs, r ≠ .zero) :
    ∃ dead : List Reg, (∀ r, r ∈ dead ↔ g.Dead r) ∧ g.sweep.1 = g.purge dead ∧
      ∀ S : Reg → Prop,
        (∀ r, S r → ∃ n ∈ g.nodes, r ∈ n.uses ∧ ∃ s ∈ n.defs, s ≠ .zero ∧ S s) →
          ∀ r, S r → r ∉ dead := by
  obtain ⟨purged, hpurged, hsweep⟩ := g.exists_purge_sweep_dead
  have hread : (g.purge purged).AllRead := by
    rw [← hsweep, Graph.allRead_sweep_iff, Graph.compacted_eq_self h]
    exact id
  have hdead (r : Reg) : r ∈ purged.filter (· ≠ .zero) ↔ g.Dead r := by
    rw [List.mem_filter, decide_eq_true_iff]
    constructor
    · rintro ⟨hr, hz⟩
      exact hpurged r hr hz
    · intro hr
      exact ⟨hr.mem_of_allRead hread, hr.ne_zero⟩
  refine ⟨_, hdead, ?_, ?_⟩
  · rw [hsweep]
    exact Graph.purge_congr (fun r hz => by simp [hz]) g
  · intro S hS r hr hmem
    exact Graph.Dead.not_of_cycle hS hr ((hdead r).mp hmem)

/-- The chain is dead, the phi is not, although nothing else reads its register. -/
theorem sweep_purges_exactly_the_dead_feedback :
    ∃ dead : List Reg, (∀ r, r ∈ dead ↔ Graph.feedback.Dead r) ∧
      Graph.feedback.sweep.1 = Graph.feedback.purge dead ∧
      .scalar 1 ∈ dead ∧ .pointer 6 ∈ dead ∧ .scalar 4 ∉ dead := by
  have hnodes : ∀ n ∈ Graph.feedback.nodes, n.Removable → ∃ r ∈ n.defs, r ≠ .zero := by
    decide +kernel
  obtain ⟨dead, hdead, hsweep, hcycle⟩ := sweep_purges_exactly_the_dead hnodes
  have hgone {r : Reg} (hz : r ≠ .zero) (hdef : r ∈ Graph.feedback.defs)
      (hswept : r ∉ Graph.feedback.sweep.1.defs) : r ∈ dead := by
    by_contra hd
    rw [hsweep, Graph.mem_defs_purge hz] at hswept
    exact hswept ⟨hdef, hd⟩
  refine ⟨dead, hdead, hsweep, ?_, ?_, ?_⟩
  · exact hgone (by decide) (by decide +kernel) (by decide +kernel)
  · exact hgone (by decide) (by decide +kernel) (by decide +kernel)
  · refine hcycle (· = .scalar 4) ?_ _ rfl
    rintro _ rfl
    exact ⟨.phi ⟨.scalar 4, [(0, .scalar 0), (1, .scalar 4)]⟩, by decide +kernel, by decide,
      .scalar 4, by decide, by decide, rfl⟩

end WireFlow
