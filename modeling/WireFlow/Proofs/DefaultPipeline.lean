import WireFlow.Pipeline
import WireFlow.Proofs.Rounds

/-!
# What the default pipeline accepts

The default pipeline checks a graph, sweeps it, checks it again and then insists
that everything defined is read. Sweeping keeps a graph in order, so only the
last of these checks can refuse what the first has accepted. It does so for the
graphs whose sweep ends too early: all their registers are read, but some of
them only by nodes that define the sentinel alone, which the one round drops.
-/

namespace WireFlow

theorem Graph.check_sweep {g : Graph} (h : g.InOrder byLabel) : g.sweep.1.check false = .ok () := by
  obtain ⟨dead, hthin⟩ := g.exists_thinned_sweep
  exact check_eq_ok_iff.mpr ⟨hthin.inOrder_byLabel h, by simp⟩

/-- On a graph in order the result of the default pipeline is that of its last
check. -/
theorem Pipeline.run_default {w : Work} (h : w.graph.InOrder Graph.byLabel) :
    ((ofConfig {}).run w).2 =
      match w.graph.sweep.1.check true with
      | .error e => .error (.rejected e)
      | .ok () => .ok (SweepRound.totalRetired w.graph.sweep.2 ≠ 0) := by
  have hfirst : w.graph.check false = .ok () := Graph.check_eq_ok_iff.mpr ⟨h, by simp⟩
  have hswept := Graph.check_sweep h
  simp only [run, ofConfig, checkIf, if_true, hfirst, runPasses, Pass.sweep, Work.sweep, hswept,
    Bool.and_self, Bool.false_or]
  cases w.graph.sweep.1.check true with
  | error e => rfl
  | ok u => rfl

/-- The default pipeline on a graph that passes its first check. The check after
the sweep passes too. The last one passes unless the graph reads all it defines
and ceases to do so when the nodes that define the sentinel only are dropped;
then the pipeline refuses it for a register that only those nodes read. -/
theorem default_pipeline_accepts_iff {w : Work} (hw : w.graph.check false = .ok ()) :
    w.graph.sweep.1.check false = .ok () ∧
      ((∃ changed, ((Pipeline.ofConfig {}).run w).2 = .ok changed) ↔
        (w.graph.AllRead → w.graph.compacted.AllRead)) ∧
      (¬(w.graph.AllRead → w.graph.compacted.AllRead) →
        ∃ r, ((Pipeline.ofConfig {}).run w).2 = .error (.rejected (.unusedDefinition r)) ∧
          r ∈ w.graph.defs ∧ r ∈ w.graph.uses ∧ r ∉ w.graph.compacted.uses) := by
  have horder := (Graph.check_eq_ok_iff.mp hw).1
  obtain ⟨dead, hthin⟩ := w.graph.exists_thinned_sweep
  have hswept := hthin.inOrder_byLabel horder
  rw [Pipeline.run_default horder, ← Graph.allRead_sweep_iff]
  refine ⟨Graph.check_sweep horder, ⟨?_, ?_⟩, ?_⟩
  · rintro ⟨changed, hrun⟩
    cases hcheck : w.graph.sweep.1.check true with
    | ok u => exact (Graph.check_eq_ok_iff.mp hcheck).2 rfl
    | error e =>
        rw [hcheck] at hrun
        cases hrun
  · intro hread
    rw [Graph.check_eq_ok_iff.mpr ⟨hswept, fun _ => hread⟩]
    exact ⟨_, rfl⟩
  · intro hread
    obtain ⟨r, hcheck, hd, hz, hu⟩ := Graph.exists_unused_of_not_allRead hswept hread
    rw [hcheck]
    -- the sweep was one round of compaction, so what is unread now was read before
    obtain ⟨hall, -⟩ := Classical.not_imp.mp (mt w.graph.allRead_sweep_iff.mpr hread)
    rw [Graph.sweep, Graph.sweepRounds_of_allRead hall] at hd hu
    have hd := (Graph.mem_defs_compacted hz).mp hd
    exact ⟨r, rfl, hd, (hall r hd).resolve_left hz, hu⟩

/-- The countdown holds definitions that nothing reads, and the sweep sees to them. -/
theorem default_pipeline_accepts_countdown :
    Graph.countdown.check false = .ok () ∧
      ∃ changed, ((Pipeline.ofConfig {}).run ⟨{}, Graph.countdown⟩).2 = .ok changed := by
  have hcheck : Graph.countdown.check false = .ok () := by decide +kernel
  have hunread : ¬Graph.countdown.AllRead := by
    unfold Graph.AllRead
    decide +kernel
  have haccepts := default_pipeline_accepts_iff (w := ⟨{}, Graph.countdown⟩) hcheck
  exact ⟨hcheck, haccepts.2.1.mpr fun hread => absurd hread hunread⟩

/-- A register that is read by a sum only, and the sum is thrown away. -/
def Graph.discardedSum : Graph where
  blocks := #[⟨0, [], [.const (.scalar 0) 1, .binary .zero .add (.scalar 0) (.scalar 0)], .ret []⟩]
  entry := 0
  nextReg := 1
  entry_lt := by decide

/-- The one round of the sweep drops the sum, and nobody looks at the register again. -/
theorem default_pipeline_rejects_discardedSum :
    Graph.discardedSum.check false = .ok () ∧
      ((Pipeline.ofConfig {}).run ⟨{}, Graph.discardedSum⟩).2 =
        .error (.rejected (.unusedDefinition (.scalar 0))) := by
  decide +kernel

end WireFlow
