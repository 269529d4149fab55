import Mathlib.Data.Set.Card
import WireFlow.Pipeline
import WireFlow.Proofs.DeadRegisters
import WireFlow.Proofs.FixedPoint
import WireFlow.Proofs.SingleAssignment

/-!
# What a sweep counts and reports

The rounds of a sweep form a loop that nothing bounds but the graph: every round
but the last retires a definition, and definitions are used up. What a round
retires is missing from the definitions after it, and what it removes from the
nodes, so the totals of a sweep are differences between the graph before and the
graph after. The report of a sweep looks at the first total only. A graph that
holds nodes which define the sentinel alone is changed without a report.
-/

namespace WireFlow

theorem sumOf_map {α β : Type} (f : β → Nat) (h : α → β) (xs : List α) :
    sumOf f (xs.map h) = sumOf (fun x => f (h x)) xs := by
  simp [sumOf_eq_sum, Function.comp_def]

theorem sumOf_add_sumOf_sub {α : Type} {f g : α → Nat} {xs : List α} (h : ∀ x ∈ xs, f x ≤ g x) :
    sumOf f xs + sumOf (fun x => g x - f x) xs = sumOf g xs := by
  rw [sumOf_eq_sum, sumOf_eq_sum, sumOf_eq_sum, ← List.sum_map_add]
  congr 1
  apply List.map_congr_left
  intro x hx
  exact Nat.add_sub_of_le (h x hx)

theorem Block.nodeCount_compact_le (b : Block) : b.compact.nodeCount ≤ b.nodeCount :=
  Nat.add_le_add (List.length_filter_le _ _) (List.length_filter_le _ _)

namespace Graph

variable {g g' g'' : Graph} {rounds rounds' : List SweepRound}

/-- The rounds as a loop without a bound: the first round that retires nothing
is the last. -/
inductive SweepLoop : Graph → Graph → List SweepRound → Prop
  | last {g : Graph} (h : g.sweepRound.2.retired = 0) :
      SweepLoop g g.sweepRound.1 [g.sweepRound.2]
  | next {g g' : Graph} {rounds : List SweepRound} (h : g.sweepRound.2.retired ≠ 0)
      (rest : SweepLoop g.sweepRound.1 g' rounds) : SweepLoop g g' (g.sweepRound.2 :: rounds)

namespace SweepLoop

/-- The loop has one way to go. -/
theorem unique (h : SweepLoop g g' rounds) (h' : SweepLoop g g'' rounds') :
    g' = g'' ∧ rounds = rounds' := by
  induction h generalizing g'' rounds' with
  | last hzero =>
      cases h' with
      | last _ => exact ⟨rfl, rfl⟩
      | next hne _ => exact absurd hzero hne
  | next hne _ ih =>
      cases h' with
      | last hzero => exact absurd hzero hne
      | next _ rest' =>
          obtain ⟨hg, hrounds⟩ := ih rest'
          exact ⟨hg, congrArg _ hrounds⟩

/-- Every round but the last retires something. -/
theorem length_bounds (h : SweepLoop g g' rounds) :
    1 ≤ rounds.length ∧ rounds.length ≤ SweepRound.totalRetired rounds + 1 := by
  induction h with
  | last _ => simp
  | next hne _ ih =>
      simp only [SweepRound.totalRetired, List.length_cons, sumOf_cons] at ih ⊢
      omega

theorem liveDefCount_add (h : SweepLoop g g' rounds) :
    g'.liveDefCount + SweepRound.totalRetired rounds = g.liveDefCount := by
  induction h with
  | @last g _ =>
      have hround := g.liveDefCount_sweepRound
      simpa [SweepRound.totalRetired] using hround
  | @next g g' rounds _ _ ih =>
      have hround := g.liveDefCount_sweepRound
      simp only [SweepRound.totalRetired, sumOf_cons] at ih ⊢
      omega

end SweepLoop

theorem nodeCount_compacted (g : Graph) : g.compacted.nodeCount + g.idleCount = g.nodeCount := by
  have hwalk : g.compacted.nodeCount = sumOf (fun e => e.2.compact.nodeCount) g.walk := by
    rw [compacted, nodeCount, walk_mapReachable _ Block.compact fun _ => rfl, sumOf_map]
  rw [hwalk]
  exact sumOf_add_sumOf_sub fun e _ => e.2.nodeCount_compact_le

/-- A round uses up the nodes it removes. -/
theorem nodeCount_sweepRound (g : Graph) :
    g.sweepRound.1.nodeCount + g.sweepRound.2.removed = g.nodeCount := by
  have hretired : (g.mapReachable (Block.retire g.deadRegs)).nodeCount = g.nodeCount := by
    rw [nodeCount, walk_mapReachable _ _ (Block.successors_retire g.deadRegs), sumOf_map]
    simp only [Block.retire, Block.nodeCount_mapDefs]
    rfl
  rw [← hretired]
  exact nodeCount_compacted _

theorem SweepLoop.nodeCount_add (h : SweepLoop g g' rounds) :
    g'.nodeCount + SweepRound.totalRemoved rounds = g.nodeCount := by
  induction h with
  | @last g _ =>
      have hround := g.nodeCount_sweepRound
      simpa [SweepRound.totalRemoved] using hround
  | @next g g' rounds _ _ ih =>
      have hround := g.nodeCount_sweepRound
      simp only [SweepRound.totalRemoved, sumOf_cons] at ih ⊢
      omega

/-- There are definitions enough to pay for all rounds. -/
theorem sweepLoop_sweepRounds {n : Nat} (hn : g.liveDefCount < n) :
    SweepLoop g (sweepRounds n g).1 (sweepRounds n g).2 := by
  induction n generalizing g with
  | zero => omega
  | succ n ih =>
      have hcount := g.liveDefCount_sweepRound
      unfold sweepRounds
      by_cases hzero : g.sweepRound.2.retired = 0
      · simp only [hzero, if_true]
        exact .last hzero
      · simp only [hzero, if_false]
        exact .next hzero (ih (by omega))

/-- A sweep is the loop carried through to its end. -/
theorem sweepLoop_sweep (g : Graph) : SweepLoop g g.sweep.1 g.sweep.2 :=
  sweepLoop_sweepRounds (Nat.lt_succ_self _)

/-- The sites at which a register other than the sentinel is defined. -/
def liveSites (g : Graph) : Set Site := {s | ∃ r, r ≠ .zero ∧ g.DefinedAt r s}

theorem DefinedAt.unique {r r' : Reg} {s : Site} (h : g.DefinedAt r s) (h' : g.DefinedAt r' s) :
    r = r' := by
  obtain ⟨-, b, n, hb, hn, hr⟩ := h
  obtain ⟨-, b', n', hb', hn', hr'⟩ := h'
  rw [hb] at hb'
  cases hb'
  rw [hn] at hn'
  cases hn'
  exact Option.some.inj (hr.symm.trans hr')

theorem ncard_liveSites (g : Graph) : g.liveSites.ncard = g.liveDefCount := by
  have hnodup : ((g.sites.filter fun d => d.2 ≠ .zero).map Prod.fst).Nodup := by
    apply (List.nodup_map_iff_inj_on (g.nodup_sites.filter _)).mpr
    rintro ⟨s, r⟩ hd ⟨_, r'⟩ hd' rfl
    have hr := mem_sites.mp (List.mem_filter.mp hd).1
    have hr' := mem_sites.mp (List.mem_filter.mp hd').1
    rw [hr.unique hr']
  have hset : g.liveSites =
      (((g.sites.filter fun d => d.2 ≠ .zero).map Prod.fst).toFinset : Set Site) := by
    ext s
    simp [liveSites, mem_sites, and_comm]
  rw [hset, Set.ncard_coe_finset, List.toFinset_card_of_nodup hnodup, List.length_map,
    ← List.countP_eq_length_filter, liveDefCount, ← map_snd_sites, List.countP_map]
  rfl

end Graph

theorem Session.foldl_countRound (rounds : List SweepRound) (s : Session) :
    rounds.foldl Session.countRound s =
      { s with
        sweepRounds := s.sweepRounds + rounds.length
        registersRetired := s.registersRetired + SweepRound.totalRetired rounds
        nodesRemoved := s.nodesRemoved + SweepRound.totalRemoved rounds } := by
  induction rounds generalizing s with
  | nil => rfl
  | cons round rest ih =>
      rw [List.foldl_cons, ih]
      simp only [Session.countRound, SweepRound.totalRetired, SweepRound.totalRemoved, sumOf_cons,
        List.length_cons, Session.mk.injEq, true_and, and_true]
      omega

theorem Work.sweep_eq (w : Work) :
    w.sweep = (⟨w.graph.sweep.2.foldl Session.countRound w.session, w.graph.sweep.1⟩,
      w.graph.sweep.2) :=
  rfl

/-- A sweep comes to an end, and its counts account for all it does: the loop of
rounds ends, in one way only; it takes one round at least and one more than it
retires definitions at most; it retires as many definitions as there are fewer
afterwards, and removes as many nodes; and the session counts all of them. -/
theorem sweep_counts_every_change (w : Work) :
    (w.graph.SweepLoop w.sweep.1.graph w.sweep.2 ∧
      ∀ g rounds, w.graph.SweepLoop g rounds → g = w.sweep.1.graph ∧ rounds = w.sweep.2) ∧
      (1 ≤ w.sweep.2.length ∧ w.sweep.2.length ≤ SweepRound.totalRetired w.sweep.2 + 1) ∧
      w.sweep.1.graph.liveSites.ncard + SweepRound.totalRetired w.sweep.2 =
        w.graph.liveSites.ncard ∧
      w.sweep.1.graph.nodeCount + SweepRound.totalRemoved w.sweep.2 = w.graph.nodeCount ∧
      w.sweep.1.session =
        { w.session with
          sweepRounds := w.session.sweepRounds + w.sweep.2.length
          registersRetired := w.session.registersRetired + SweepRound.totalRetired w.sweep.2
          nodesRemoved := w.session.nodesRemoved + SweepRound.totalRemoved w.sweep.2 } := by
  have hloop := w.graph.sweepLoop_sweep
  simp only [w.sweep_eq, Graph.ncard_liveSites]
  refine ⟨⟨hloop, fun g rounds h => h.unique hloop⟩, hloop.length_bounds,
    hloop.liveDefCount_add, hloop.nodeCount_add, Session.foldl_countRound _ _⟩

namespace Graph

variable {g g' : Graph} {rounds : List SweepRound}

theorem SweepLoop.totalRetired_eq_zero_iff (h : SweepLoop g g' rounds) :
    SweepRound.totalRetired rounds = 0 ↔ g.AllRead := by
  rw [← retired_sweepRound_eq_zero_iff]
  cases h with
  | last hzero => simp [SweepRound.totalRetired, hzero]
  | next hne _ => simp [SweepRound.totalRetired, hne]

/-- A sweep leaves a graph alone if it has nothing to retire and nothing to drop. -/
theorem sweep_eq_self_iff : g.sweep.1 = g ↔ g.AllRead ∧ g.compacted = g := by
  have hloop := g.sweepLoop_sweep
  by_cases hread : g.AllRead
  · simp [hread, sweep_of_allRead hread]
  · have hretired := mt hloop.totalRetired_eq_zero_iff.mp hread
    have hcount := hloop.liveDefCount_add
    simp only [hread, false_and, iff_false]
    intro hsame
    rw [hsame] at hcount
    omega

/-- One word, which is thrown away. -/
def discardedWord : Graph where
  blocks := #[⟨0, [], [.const .zero 1], .ret []⟩]
  entry := 0
  nextReg := 0
  entry_lt := by decide

end Graph

/-- A pipeline that does nothing but sweep hands on what the sweep reports. -/
theorem Pipeline.run_sweep {c : Config} {w w' : Work} {changed : Bool}
    (h : run ⟨c, [.sweep]⟩ w = (w', .ok changed)) :
    w'.graph = w.graph.sweep.1 ∧
      changed = decide (SweepRound.totalRetired w.graph.sweep.2 ≠ 0) := by
  simp only [run, runPasses, Pass.sweep, Work.sweep, Bool.false_or] at h
  cases hbefore : checkIf c.check false w.graph with
  | error e => simp [hbefore] at h
  | ok u =>
      cases hafter : checkIf c.check false w.graph.sweep.1 with
      | error e => simp [hbefore, hafter] at h
      | ok u =>
          cases hlive : checkIf (c.check && c.sweep) true w.graph.sweep.1 with
          | error e => simp [hbefore, hafter, hlive] at h
          | ok u =>
              simp only [hbefore, hafter, hlive, Prod.mk.injEq, Except.ok.injEq] at h
              obtain ⟨rfl, rfl⟩ := h
              exact ⟨rfl, rfl⟩

/-- What a sweep reports, as a pass and as the only pass of a pipeline. It
reports a change if some definition was unread, and then it has made one. But it
changes a graph also if there are removable nodes that define the sentinel only:
where all is read it drops these without a report. -/
theorem sweep_reports_unread_definitions (w : Work) :
    ∃ w' did, Pass.sweep.run w = .ok (w', did) ∧
      (did = true ↔ ∃ r, w.graph.Unread r) ∧
      (w'.graph ≠ w.graph ↔
        did = true ∨ ∃ n ∈ w.graph.nodes, n.Removable ∧ ∀ r ∈ n.defs, r = .zero) ∧
      (did = false → w'.graph = w.graph.compacted) ∧
      ∀ c w'' changed, Pipeline.run ⟨c, [.sweep]⟩ w = (w'', .ok changed) →
        w''.graph = w'.graph ∧ changed = did := by
  have hdid : decide (SweepRound.totalRetired w.graph.sweep.2 ≠ 0) = true ↔ ¬w.graph.AllRead := by
    rw [decide_eq_true_iff, ne_eq, w.graph.sweepLoop_sweep.totalRetired_eq_zero_iff]
  have hidle : ¬w.graph.compacted = w.graph ↔
      ∃ n ∈ w.graph.nodes, n.Removable ∧ ∀ r ∈ n.defs, r = .zero := by
    simp [Graph.compacted_eq_self_iff, Node.Spent, Reg.gone_nil_iff]
  refine ⟨⟨w.graph.sweep.2.foldl Session.countRound w.session, w.graph.sweep.1⟩,
    decide (SweepRound.totalRetired w.graph.sweep.2 ≠ 0), rfl, ?_, ?_, ?_, ?_⟩
  · rw [hdid, Graph.allRead_iff_unread]
    simp
  · rw [hdid, ← hidle, ne_eq, ← not_and_or, ← Graph.sweep_eq_self_iff]
  · intro hfalse
    have hread : w.graph.AllRead := by simpa [hfalse] using hdid
    exact congrArg Prod.fst (Graph.sweep_of_allRead hread)
  · intro c w'' changed hrun
    exact Pipeline.run_sweep hrun

/-- The word is dropped, by the pass and by the pipeline, and neither reports it. -/
theorem sweep_reports_not_every_change :
    (∃ w', Pass.sweep.run ⟨{}, .discardedWord⟩ = .ok (w', false) ∧ w'.graph ≠ .discardedWord) ∧
      ((Pipeline.ofConfig {}).run ⟨{}, .discardedWord⟩).2 = .ok false ∧
      ((Pipeline.ofConfig {}).run ⟨{}, .discardedWord⟩).1.graph ≠ .discardedWord := by
  refine ⟨⟨(Work.sweep ⟨{}, .discardedWord⟩).1, ?_⟩, ?_⟩
  · decide +kernel
  · decide +kernel

end WireFlow
