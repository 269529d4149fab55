import WireFlow.Proofs.Rounds

/-!
# Sweeping a swept graph

The last round of a sweep retires nothing, so all it can do is drop nodes that
have defined the sentinel all along. If there were rounds before it, they have
dropped those already. A sweep that retired something, or that dropped nothing,
therefore ends with a graph in which everything defined is read, and sweeping
that graph again finds nothing to do in its only round.
-/

namespace WireFlow

namespace Block

/-- A block that compacting does not make shorter is left as it is. -/
theorem nodeCount_sub_compact_eq_zero_iff {b : Block} :
    b.nodeCount - b.compact.nodeCount = 0 ↔ b.compact = b := by
  obtain ⟨label, phis, instrs, term⟩ := b
  have hphis := List.length_filter_le keepsPhi phis
  have hinstrs := List.length_filter_le keepsInstr instrs
  simp only [nodeCount, compact, mk.injEq, true_and, and_true, List.filter_eq_self,
    ← List.length_filter_eq_length_iff]
  omega

end Block

namespace Graph

variable {g : Graph}

/-- The nodes that define the sentinel only and can be dropped for it. -/
def idleCount (g : Graph) : Nat := sumOf (fun e => e.2.nodeCount - e.2.compact.nodeCount) g.walk

theorem idleCount_eq_zero_iff : g.idleCount = 0 ↔ g.compacted = g := by
  rw [compacted, mapReachable_eq_self_iff, idleCount, sumOf_eq_zero_iff]
  simp only [Block.nodeCount_sub_compact_eq_zero_iff]

/-- The sweep of a graph in which all is read is one round of compaction. -/
theorem sweep_of_allRead (h : g.AllRead) : g.sweep = (g.compacted, [⟨0, g.idleCount⟩]) := by
  have hretired := retired_sweepRound_eq_zero_iff.mpr h
  have hremoved : g.sweepRound.2.removed = g.idleCount := by
    simp only [sweepRound, mapReachable_retire_of_allRead h, idleCount]
  have hround : g.sweepRound.2 = ⟨0, g.idleCount⟩ := by
    rw [← hretired, ← hremoved]
  simp only [sweep, sweepRounds, hround, if_true, sweepRound_of_allRead h]

theorem compacted_sweepRounds (g : Graph) (n : Nat) :
    (sweepRounds (n + 1) g).1.compacted = (sweepRounds (n + 1) g).1 := by
  induction n generalizing g with
  | zero =>
      simp only [sweepRounds]
      split <;> exact g.compacted_sweepRound
  | succ n ih =>
      rw [sweepRounds]
      dsimp only
      split
      · exact g.compacted_sweepRound
      · exact ih g.sweepRound.1

/-- A sweep leaves no node that could be dropped. -/
theorem compacted_sweep (g : Graph) : g.sweep.1.compacted = g.sweep.1 :=
  compacted_sweepRounds g g.liveDefCount

theorem allRead_sweep_of_counts
    (h : 0 < SweepRound.totalRetired g.sweep.2 ∨ SweepRound.totalRemoved g.sweep.2 = 0) :
    g.sweep.1.AllRead := by
  rw [allRead_sweep_iff]
  intro hread
  -- nothing was retired, so it is known that nothing was dropped
  rw [sweep_of_allRead hread] at h
  have hidle : g.idleCount = 0 := by
    simpa [SweepRound.totalRetired, SweepRound.totalRemoved] using h
  rwa [idleCount_eq_zero_iff.mp hidle]

end Graph

/-- A sweep that retired a definition, or that dropped no node, has come to a
fixed point: every register that the reachable blocks define is read by them,
and sweeping again is one round that retires and drops nothing and leaves the
graph as it is. -/
theorem sweep_reaches_fixed_point {g : Graph}
    (h : 0 < SweepRound.totalRetired g.sweep.2 ∨ SweepRound.totalRemoved g.sweep.2 = 0) :
    g.sweep.1.AllRead ∧ g.sweep.1.sweep = (g.sweep.1, [⟨0, 0⟩]) := by
  have hread := Graph.allRead_sweep_of_counts h
  have hcompact := g.compacted_sweep
  refine ⟨hread, ?_⟩
  rw [Graph.sweep_of_allRead hread, hcompact, Graph.idleCount_eq_zero_iff.mpr hcompact]

/-- What the first sweep of the countdown leaves, the second leaves alone. -/
theorem sweep_reaches_fixed_point_countdown :
    SweepRound.totalRetired Graph.countdown.sweep.2 = 3 ∧
      Graph.countdown.sweep.1.sweep = (Graph.countdown.sweep.1, [⟨0, 0⟩]) := by
  have hretired : SweepRound.totalRetired Graph.countdown.sweep.2 = 3 := by decide +kernel
  exact ⟨hretired, (sweep_reaches_fixed_point (Or.inl (by omega))).2⟩

end WireFlow
