import WireFlow.Proofs.Rounds

/-!
# What cannot be reached has no influence

A walk depends on the vertices that can be reached from its entry and on nothing
else: neither the edges of other vertices nor the room it has for tasks make a
difference. Every analysis of a graph goes through its walk, so two graphs that
agree on the blocks one of them can reach are checked, lowered and swept alike,
whatever their other blocks hold and wherever these lead.
-/

namespace WireFlow

open Sequencing (Related)

namespace Walk

variable {size entry : Nat} {succ succ' : Nat → List Nat}

/-- A path of vertices of the graph leads to the vertex. -/
inductive Reachable (size : Nat) (succ : Nat → List Nat) (entry : Nat) : Nat → Prop
  | entry (h : entry < size) : Reachable size succ entry entry
  | next {v w : Nat} (hv : Reachable size succ entry v) (hw : w ∈ succ v) (hlt : w < size) :
      Reachable size succ entry w

/-- All that a walk has seen, or may still see from its stack, lies in `R`. -/
structure Within (R : Nat → Prop) (size : Nat) (stack : List Task) (s : State) : Prop where
  seen : ∀ v ∈ s.seen, R v
  waiting : ∀ v, .explore v ∈ stack → v < size → R v

namespace Within

variable {R : Nat → Prop} {v : Nat} {task : Task} {rest : List Task} {s : State}

theorem start : Within (Reachable size succ entry) size [.explore entry] {} where
  seen := by simp
  waiting v hv hlt := by
    cases List.mem_singleton.mp hv
    exact .entry hlt

/-- A task that does not expand a vertex adds nothing to what a walk may see. -/
theorem tail (h : Within R size (task :: rest) s) (done : List Nat) :
    Within R size rest { s with done } :=
  ⟨h.seen, fun w hw => h.waiting w (List.mem_cons_of_mem _ hw)⟩

/-- A set that is closed under successors is never left. -/
theorem explore (hclosed : ∀ v w, R v → w ∈ succ v → w < size → R w) (hv : v < size)
    (h : Within R size (.explore v :: rest) s) :
    Within R size (expand succ v ++ rest) { s with seen := v :: s.seen } := by
  have hR : R v := h.waiting v (List.mem_cons_self ..) hv
  refine ⟨?_, ?_⟩
  · intro w hw
    rcases List.mem_cons.mp hw with rfl | hw
    · exact hR
    · exact h.seen w hw
  · intro w hw hlt
    rcases List.mem_append.mp hw with hw | hw
    · have hsucc : w ∈ succ v := by simpa [expand] using hw
      exact hclosed v w hR hsucc hlt
    · exact h.waiting w (List.mem_cons_of_mem _ hw) hlt

end Within

theorem reachable_of_mem_postOrder {v : Nat} (h : v ∈ postOrder size succ entry) :
    Reachable size succ entry v := by
  have hwithin : Within (Reachable size succ entry) size []
      (drain size succ (taskBound size succ) [.explore entry] {}) :=
    drain_induction (fun _ _ _ h => h.tail _)
      (fun _ _ _ hv _ h => h.explore (fun _ _ => Reachable.next) hv)
      (fun _ _ s _ h => h.tail s.done) _ _ _ (work_start size succ entry).le Within.start
  exact hwithin.seen v (mem_postOrder_iff_seen.mp h)

/-- A walk finds exactly what can be reached. -/
theorem mem_postOrder_iff {v : Nat} :
    v ∈ postOrder size succ entry ↔ Reachable size succ entry v := by
  constructor
  · exact reachable_of_mem_postOrder
  · intro h
    induction h with
    | entry h => exact entry_mem_postOrder h
    | next _ hw hlt ih => exact mem_postOrder_of_succ ih hw hlt

/-- Room for more tasks than there can be makes no difference. -/
theorem drain_add {n : Nat} {stack : List Task} {s : State} (hn : work size succ stack s ≤ n)
    (k : Nat) : drain size succ (n + k) stack s = drain size succ n stack s := by
  induction n generalizing stack s with
  | zero =>
      have hnil : stack = [] := by
        simp only [work, Nat.le_zero, Nat.add_eq_zero_iff, List.length_eq_zero_iff] at hn
        exact hn.1
      subst hnil
      cases k <;> simp [drain]
  | succ n ih =>
      rw [Nat.succ_add]
      cases stack with
      | nil => rfl
      | cons task rest =>
          have hrest : work size succ rest s < work size succ (task :: rest) s := by
            simp only [work, List.length_cons]
            omega
          cases task with
          | finish v =>
              apply ih
              exact Nat.le_of_lt_succ (hrest.trans_le hn)
          | explore v =>
              by_cases hv : v < size ∧ v ∉ s.seen
              · simp only [drain, if_pos hv]
                apply ih
                have := work_explore succ rest hv.1 hv.2
                omega
              · simp only [drain, if_neg hv]
                apply ih
                omega

/-- A walk inside a closed set looks at the successors of its members only. -/
theorem drain_congr {R : Nat → Prop} (hclosed : ∀ v w, R v → w ∈ succ v → w < size → R w)
    (hsucc : ∀ v, R v → succ' v = succ v) (n : Nat) {stack : List Task} {s : State}
    (h : Within R size stack s) : drain size succ' n stack s = drain size succ n stack s := by
  induction n generalizing stack s with
  | zero => rfl
  | succ n ih =>
      cases stack with
      | nil => rfl
      | cons task rest =>
          cases task with
          | finish v => exact ih (h.tail _)
          | explore v =>
              by_cases hv : v < size ∧ v ∉ s.seen
              · have hexpand : expand succ' v = expand succ v := by
                  rw [expand, expand, hsucc v (h.waiting v (List.mem_cons_self ..) hv.1)]
                simp only [drain, if_pos hv, hexpand]
                exact ih (h.explore hclosed hv.1)
              · simp only [drain, if_neg hv]
                exact ih (h.tail s.done)

/-- Edges between vertices that cannot be reached have no influence on a walk,
although they count for its bound on tasks. -/
theorem postOrder_congr (h : ∀ v, Reachable size succ entry v → succ' v = succ v) :
    postOrder size succ' entry = postOrder size succ entry := by
  have hdrain : drain size succ' (taskBound size succ') [.explore entry] {} =
      drain size succ (taskBound size succ) [.explore entry] {} := by
    calc
      drain size succ' (taskBound size succ') [.explore entry] {}
          = drain size succ' (taskBound size succ' + taskBound size succ) [.explore entry] {} :=
        (drain_add (work_start size succ' entry).le _).symm
      _ = drain size succ (taskBound size succ + taskBound size succ') [.explore entry] {} := by
        rw [Nat.add_comm]
        exact drain_congr (fun _ _ => Reachable.next) h _ Within.start
      _ = drain size succ (taskBound size succ) [.explore entry] {} :=
        drain_add (work_start size succ entry).le _
  rw [postOrder, hdrain, postOrder]

end Walk

/-- The programs have the same code, and the maps of their frames are equal
wherever they have been placed. -/
structure Program.Alike (p p' : Program) : Prop where
  code : p'.code = p.code
  map : p'.frameMap.map = p.frameMap.map

namespace Graph

variable {g g' : Graph} {id : Label}

/-- Control can come to the block from the entry. -/
def Reachable (g : Graph) (id : Label) : Prop := Walk.Reachable g.size g.successors g.entry id

theorem mem_postOrder_iff : id ∈ g.postOrder ↔ g.Reachable id := Walk.mem_postOrder_iff

/-- The graphs have the same shape and share the blocks that the first can
reach. Their other blocks may be anything. -/
structure SameReachable (g g' : Graph) : Prop where
  size : g'.size = g.size
  entry : g'.entry = g.entry
  blocks : ∀ id, g.Reachable id → g'.block? id = g.block? id

namespace SameReachable

theorem successors_eq (h : g.SameReachable g') (hid : g.Reachable id) :
    g'.successors id = g.successors id := by
  have hblock := h.blocks id hid
  simp only [block?] at hblock
  simp only [successors, hblock]

theorem postOrder_eq (h : g.SameReachable g') : g'.postOrder = g.postOrder := by
  rw [postOrder, h.size, h.entry]
  exact Walk.postOrder_congr fun _ => h.successors_eq

theorem walk_eq (h : g.SameReachable g') : g'.walk = g.walk := by
  rw [walk, h.postOrder_eq]
  apply List.filterMap_congr
  intro id hid
  rw [h.blocks id (mem_postOrder_iff.mp hid)]

theorem uses_eq (h : g.SameReachable g') : g'.uses = g.uses := by
  rw [uses, h.walk_eq, uses]

theorem defs_eq (h : g.SameReachable g') : g'.defs = g.defs := by
  rw [defs, h.walk_eq, defs]

theorem predecessors_eq (h : g.SameReachable g') : g'.predecessors = g.predecessors := by
  rw [predecessors, h.postOrder_eq]
  apply List.foldl_ext
  intro table id hid
  simp only [addEdges, h.successors_eq (mem_postOrder_iff.mp hid)]

theorem check_eq (h : g.SameReachable g') (live : Bool) : g'.check live = g.check live := by
  simp only [check, marks, reads, h.walk_eq, h.uses_eq, h.predecessors_eq]

theorem lower_eq (h : g.SameReachable g') : g'.lower = g.lower := by
  have hentry : g'.block? g.entry = g.block? g.entry :=
    h.blocks _ (mem_postOrder_iff.mp g.entry_mem_postOrder)
  simp only [lower, entryPhi?, lowerBlocks, pick_reversePostOrder, h.walk_eq, h.predecessors_eq,
    h.size, h.entry, hentry]

/-- A change of the reachable blocks that keeps their successors can be made in
both graphs. -/
theorem mapReachable (h : g.SameReachable g') {f : Block → Block}
    (hf : ∀ b, (f b).term.successors = b.term.successors) :
    (g.mapReachable f).SameReachable (g'.mapReachable f) where
  size := by simp [h.size]
  entry := h.entry
  blocks id hid := by
    have hid : g.Reachable id := by
      rwa [← mem_postOrder_iff, postOrder_mapReachable g f hf, mem_postOrder_iff] at hid
    rw [block?_mapReachable, block?_mapReachable, h.postOrder_eq, h.blocks id hid]

theorem sweepRound (h : g.SameReachable g') :
    g.sweepRound.1.SameReachable g'.sweepRound.1 ∧ g'.sweepRound.2 = g.sweepRound.2 := by
  have hdead : g'.deadRegs = g.deadRegs := by simp only [deadRegs, h.defs_eq, h.uses_eq]
  have hretired := h.mapReachable (Block.successors_retire g.deadRegs)
  simp only [Graph.sweepRound, hdead, h.walk_eq, hretired.walk_eq, and_true]
  exact hretired.mapReachable fun _ => rfl

theorem sweepRounds (h : g.SameReachable g') (n : Nat) :
    (Graph.sweepRounds n g).1.SameReachable (Graph.sweepRounds n g').1 ∧
      (Graph.sweepRounds n g').2 = (Graph.sweepRounds n g).2 := by
  induction n generalizing g g' with
  | zero => exact ⟨h, rfl⟩
  | succ n ih =>
      obtain ⟨hround, hcounts⟩ := h.sweepRound
      simp only [Graph.sweepRounds, hcounts]
      split
      · exact ⟨hround, rfl⟩
      · obtain ⟨hrest, hrounds⟩ := ih hround
        exact ⟨hrest, by rw [hrounds]⟩

theorem sweep (h : g.SameReachable g') :
    g.sweep.1.SameReachable g'.sweep.1 ∧ g'.sweep.2 = g.sweep.2 := by
  have hcount : g'.liveDefCount = g.liveDefCount := by rw [liveDefCount, h.defs_eq, liveDefCount]
  rw [Graph.sweep, Graph.sweep, hcount]
  exact h.sweepRounds _

theorem assemble (h : g.SameReachable g') (heap heap' : Heap) :
    Related Eq (fun r r' => r.1.Alike r'.1) (g.assemble heap) (g'.assemble heap') := by
  rw [Graph.assemble, Graph.assemble, h.lower_eq]
  cases g.lower with
  | error e => exact .error rfl
  | ok c => exact .ok ⟨rfl, rfl⟩

end SameReachable

theorem reachable_sweep_iff : g.sweep.1.Reachable id ↔ g.Reachable id := by
  obtain ⟨dead, hthin⟩ := g.exists_thinned_sweep
  rw [← mem_postOrder_iff, hthin.postOrder_eq, mem_postOrder_iff]

/-- Two ways to a join, one of them over a product that nothing reads, beside a
block that nothing leads to. -/
def joinBeside (island : Block) : Graph where
  blocks := #[
    ⟨0, [], [.arg (.scalar 0) 0, .const (.pointer 1) 8], .branch (.scalar 0) 1 2⟩,
    ⟨1, [], [.binary (.scalar 2) .mul (.scalar 0) (.scalar 0)], .jump 2⟩,
    ⟨2, [⟨.scalar 3, [(0, .pointer 1), (1, .scalar 0)]⟩], [], .ret [.scalar 3]⟩,
    island]
  entry := 0
  nextReg := 4
  entry_lt := by simp

end Graph

/-- Two graphs that agree on the reachable blocks of the first have the same
walk and the same predecessors, pass or fail every check alike, and are
assembled into programs with the same code and frame map or rejected for the
same reason, each in a heap of its own. Sweeping them takes the same rounds and
leaves the same reachable blocks. -/
theorem unreachable_blocks_have_no_influence {g g' : Graph} (h : g.SameReachable g') :
    g'.postOrder = g.postOrder ∧ g'.predecessors = g.predecessors ∧
      (∀ live, g'.check live = g.check live) ∧
      (∀ heap heap', Related Eq (fun r r' => r.1.Alike r'.1) (g.assemble heap)
        (g'.assemble heap')) ∧
      g'.sweep.2 = g.sweep.2 ∧
      ∀ id, g.Reachable id → g'.sweep.1.block? id = g.sweep.1.block? id := by
  obtain ⟨hswept, hrounds⟩ := h.sweep
  refine ⟨h.postOrder_eq, h.predecessors_eq, h.check_eq, h.assemble, hrounds, ?_⟩
  intro id hid
  exact hswept.blocks id (Graph.reachable_sweep_iff.mpr hid)

/-- The second island leads into the join and carries its name, defines what the
graph defines and reads what it does not. -/
theorem unreachable_blocks_have_no_influence_on_join :
    let quiet := Graph.joinBeside ⟨3, [], [], .ret []⟩
    let intruder := Graph.joinBeside
      ⟨2, [⟨.scalar 0, [(7, .scalar 9)]⟩], [.emit (.scalar 2) 3, .nop], .branch (.scalar 2) 2 9⟩
    quiet.SameReachable intruder ∧ quiet ≠ intruder ∧ intruder.check false = quiet.check false ∧
      intruder.sweep.2 = quiet.sweep.2 ∧ quiet.sweep.2 = [⟨1, 1⟩, ⟨0, 0⟩] := by
  intro quiet intruder
  have hsame : quiet.SameReachable intruder := by
    refine ⟨rfl, rfl, fun id hid => ?_⟩
    have hall : ∀ id ∈ quiet.postOrder, intruder.block? id = quiet.block? id := by decide +kernel
    exact hall id (Graph.mem_postOrder_iff.mpr hid)
  have halike := unreachable_blocks_have_no_influence hsame
  exact ⟨hsame, by decide +kernel, halike.2.2.1 false, halike.2.2.2.2.1, by decide +kernel⟩

end WireFlow
