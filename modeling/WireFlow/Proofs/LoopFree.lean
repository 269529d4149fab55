import Mathlib.Logic.Relation
import WireFlow.Proofs.Failures
import WireFlow.Proofs.WalkOrder

/-!
# Loop-free routines come to an end

Neither backend counts its steps, so what bounds a run has to come from the
graph. In a graph without loops every edge leads to a block that the walk has
finished earlier, and every exit of the code leads along an edge. So the position
in the walk falls with each transition: no block is entered twice, and a run is
over when it has been in every block that was assembled.
-/

namespace WireFlow

open Sequencing
open Wire (Buffer)
open Code (Exit)

namespace Graph

variable {g : Graph} {u v : Label}

/-- Control can go from a reachable block to the other. -/
def Edge (g : Graph) (u v : Label) : Prop := g.Reachable u ∧ v ∈ g.successors u

/-- No reachable block leads back to itself. -/
def LoopFree (g : Graph) : Prop := ∀ id, ¬Relation.TransGen g.Edge id id

theorem reflTransGen_edge (hu : g.Reachable u)
    (h : Walk.Reachable g.size g.successors u v) :
    g.Reachable v ∧ Relation.ReflTransGen g.Edge u v := by
  induction h with
  | entry _ => exact ⟨hu, .refl⟩
  | next _ hw hlt ih => exact ⟨ih.1.next hw hlt, ih.2.tail ⟨ih.1, hw⟩⟩

/-- Without loops, the walk has finished the end of an edge before its start. -/
theorem LoopFree.idxOf_lt (h : g.LoopFree) (hu : g.Reachable u) (hv : v ∈ g.successors u)
    (hlt : v < g.size) : g.postOrder.idxOf v < g.postOrder.idxOf u := by
  rcases Walk.before_or_reachable (mem_postOrder_iff.mpr hu) hv hlt with hsub | hback
  · have hrow := (pairwise_idxOf_lt g.nodup_postOrder).sublist hsub
    exact (List.pairwise_cons.mp hrow).1 u (List.mem_singleton.mpr rfl)
  · -- an edge that lies on a cycle is a loop
    have hpath := (reflTransGen_edge (hu.next hv hlt) hback).2
    exact absurd (Relation.TransGen.head' ⟨hu, hv⟩ hpath) (h u)

theorem idxOf_lt_of_transGen
    (hrank : ∀ u ∈ g.postOrder, ∀ v ∈ g.successors u, v < g.size →
      g.postOrder.idxOf v < g.postOrder.idxOf u)
    (h : Relation.TransGen g.Edge u v) (hv : g.Reachable v) :
    g.postOrder.idxOf v < g.postOrder.idxOf u := by
  have hedge {u v : Label} (h : g.Edge u v) (hv : g.Reachable v) :
      g.postOrder.idxOf v < g.postOrder.idxOf u :=
    hrank u (mem_postOrder_iff.mpr h.1) v h.2 (Walk.lt_of_mem_postOrder (mem_postOrder_iff.mpr hv))
  induction h with
  | single h => exact hedge h hv
  | tail _ h ih => exact (hedge h hv).trans (ih h.1)

/-- The walk itself tells whether there are loops. -/
theorem loopFree_iff :
    g.LoopFree ↔ ∀ u ∈ g.postOrder, ∀ v ∈ g.successors u, v < g.size →
      g.postOrder.idxOf v < g.postOrder.idxOf u := by
  constructor
  · intro h u hu v hv hlt
    exact h.idxOf_lt (mem_postOrder_iff.mp hu) hv hlt
  · intro hrank id hloop
    obtain ⟨next, hedge, -⟩ := Relation.TransGen.head'_iff.mp hloop
    exact absurd (idxOf_lt_of_transGen hrank hloop hedge.1) (Nat.lt_irrefl _)

instance : DecidablePred LoopFree := fun _ => decidable_of_iff _ loopFree_iff.symm

end Graph

/-- The run has returned or failed. -/
def Run.Ended : Run → Prop
  | standing _ _ _ => False
  | returned _ _ => True
  | failed _ _ => True
  | crashed _ => False

/-- A backend as a loop without a bound: it visits one block after the other
until a visit ends the run. The list has the blocks it enters, in order. -/
inductive Course {σ : Type} (visit : σ → Except Run σ) (block : σ → Label) :
    σ → List Label → Run → Prop
  | last {s : σ} {r : Run} (h : visit s = .error r) : Course visit block s [block s] r
  | next {s t : σ} {ids : List Label} {r : Run} (h : visit s = .ok t)
      (rest : Course visit block t ids r) : Course visit block s (block s :: ids) r

namespace Course

variable {σ : Type} {visit : σ → Except Run σ} {block : σ → Label} {s : σ} {ids : List Label}
  {r : Run}

/-- What every visit keeps holds of every block that is entered. -/
theorem forall_mem {P : Label → Prop} (hstep : ∀ s t, visit s = .ok t → P (block t))
    (h : Course visit block s ids r) (hs : P (block s)) : ∀ id ∈ ids, P id := by
  induction h with
  | last _ => simpa using hs
  | next hvisit _ ih => exact List.forall_mem_cons.mpr ⟨hs, ih (hstep _ _ hvisit)⟩

/-- If visits lead downwards, the blocks are entered in falling order. -/
theorem pairwise_rank (rank : Label → Nat)
    (hstep : ∀ s t, visit s = .ok t → rank (block t) < rank (block s))
    (h : Course visit block s ids r) :
    (∀ id ∈ ids, rank id ≤ rank (block s)) ∧ ids.Pairwise fun u v => rank v < rank u := by
  induction h with
  | last _ => simp
  | next hvisit _ ih =>
      have hfall := hstep _ _ hvisit
      have hbelow := fun id hid => (ih.1 id hid).trans_lt hfall
      refine ⟨List.forall_mem_cons.mpr ⟨le_rfl, fun id hid => (hbelow id hid).le⟩, ?_⟩
      exact List.pairwise_cons.mpr ⟨hbelow, ih.2⟩

/-- If visits lead downwards, they come to an end. -/
theorem exists_of_rank (rank : Label → Nat)
    (hstep : ∀ s t, visit s = .ok t → rank (block t) < rank (block s)) (s : σ) :
    ∃ ids r, Course visit block s ids r := by
  induction hn : rank (block s) using Nat.strongRecOn generalizing s with
  | ind n ih =>
      cases hvisit : visit s with
      | error r => exact ⟨_, r, .last hvisit⟩
      | ok t =>
          obtain ⟨ids, r, hrest⟩ := ih _ (hn ▸ hstep s t hvisit) t rfl
          exact ⟨_, r, .next hvisit hrest⟩

/-- A run with a bound ends as the loop does, once the bound is not in the way. -/
theorem run_eq {run : Nat → σ → Run}
    (hok : ∀ n s t, visit s = .ok t → run (n + 1) s = run n t)
    (hend : ∀ n s r, visit s = .error r → run (n + 1) s = r)
    (h : Course visit block s ids r) {n : Nat} (hn : ids.length ≤ n) : run n s = r := by
  induction h generalizing n with
  | last hvisit =>
      cases n with
      | zero => cases hn
      | succ n => exact hend n _ _ hvisit
  | next hvisit _ ih =>
      cases n with
      | zero => cases hn
      | succ n =>
          rw [hok n _ _ hvisit]
          exact ih (Nat.le_of_succ_le_succ hn)

end Course

namespace Code

variable {c : Code}

theorem Exit.mem_successors_of_target {x : Exit} {f : Frame} {next : Label}
    (h : x.target f = .ok (some next)) : next ∈ x.successors := by
  cases x with
  | ret xs => cases h
  | jump target =>
      cases h
      exact List.mem_cons_self ..
  | branch cond target otherwise =>
      obtain ⟨v, -, h⟩ := bind_eq_ok_iff.mp h
      cases h
      split <;> simp [successors]
  | switch value targets default =>
      obtain ⟨v, -, h⟩ := bind_eq_ok_iff.mp h
      cases h
      cases ht : targets[v.toNat]? with
      | none => simp [successors]
      | some target => simp [successors, List.mem_of_getElem? ht]

/-- Control can go from one block of the code to another. -/
def Leads (c : Code) (u v : Label) : Prop := ∃ b, c.block? u = some b ∧ v ∈ b.exit.successors

theorem mem_blockList {id : Label} {b : Block} (h : c.block? id = some b) : b ∈ c.blockList := by
  unfold block? at h
  cases hrow : c.blocks[id]? with
  | none => simp [hrow] at h
  | some cell =>
      simp only [hrow] at h
      subst h
      have hmem := Array.mem_toList_iff.mpr (Array.mem_of_getElem? hrow)
      exact List.mem_filterMap.mpr ⟨some b, hmem, rfl⟩

/-- Blocks of the code, none of them twice, and therefore not more than there are. -/
structure Itinerary (c : Code) (ids : List Label) : Prop where
  assembled : ∀ id ∈ ids, ∃ b, c.block? id = some b
  once : ids.Nodup
  length_le : ids.length ≤ c.blockList.length

theorem Sound.itinerary (hc : c.Sound) {ids : List Label}
    (hassembled : ∀ id ∈ ids, ∃ b, c.block? id = some b) (honce : ids.Nodup) :
    c.Itinerary ids := by
  have hsub : ids ⊆ c.blockList.map Block.id := by
    intro id hid
    obtain ⟨b, hb⟩ := hassembled id hid
    exact List.mem_map.mpr ⟨b, mem_blockList hb, hc.ids id b hb⟩
  have hlength := (List.subperm_of_subset honce hsub).length_le
  exact ⟨hassembled, honce, by simpa using hlength⟩

end Code

theorem liftM_eq_ok_iff {α : Type} {x : Except Fault α} {a : α} :
    (liftM x : Except Run α) = .ok a ↔ x = .ok a := by
  cases x with
  | error fault =>
      constructor
      · intro h
        cases h
      · intro h
        cases h
  | ok b => simp

theorem Machine.mem_successors_of_leave {m : Machine} {x : Exit} {next : Label}
    (h : m.leave x = .ok next) : next ∈ x.successors := by
  obtain ⟨target, htarget, h⟩ := bind_eq_ok_iff.mp h
  rw [liftM_eq_ok_iff] at htarget
  cases target with
  | none =>
      obtain ⟨values, -, h⟩ := bind_eq_ok_iff.mp h
      cases h
  | some target =>
      cases h
      exact Exit.mem_successors_of_target htarget

/-- The run does not stand in a block. -/
def Run.Halted (r : Run) : Prop := ∀ block frame out, r ≠ .standing block frame out

theorem Run.Safe.ended {r : Run} (hsafe : r.Safe) (hhalted : r.Halted) : r.Ended := by
  cases r with
  | standing block frame out => exact hhalted block frame out rfl
  | returned values out => trivial
  | failed error out => trivial
  | crashed fault => exact hsafe fault rfl

theorem halted_liftM {α : Type} (x : Except Fault α) :
    Ensures Run.Halted (fun _ => True) (liftM x : Except Run α) := by
  cases x with
  | ok a => trivial
  | error fault =>
      intro block frame out h
      cases h

namespace Interpreter

variable {c : Code} {args : List UInt64} {s t : State} {ids : List Label} {r : Run}

theorem halted_step (m : Machine) (op : Code.Op) :
    Ensures Run.Halted (fun _ => True) (step args m op) := by
  cases op with
  | const dst v => exact halted_liftM _
  | arg dst i =>
      have hload : Ensures Run.Halted (fun _ => True) (m.loadArg args i) := by
        unfold Machine.loadArg
        split
        · trivial
        · simp [Run.Halted]
      exact hload.bind fun _ _ => halted_liftM _
  | binary dst op x y =>
      exact (halted_liftM _).bind fun _ _ => (halted_liftM _).bind fun _ _ => halted_liftM _
  | emit src width => exact (halted_liftM _).bind fun _ _ => halted_liftM _
  | call f xs dsts => exact (halted_liftM _).bind fun _ _ => halted_liftM _

theorem halted_enter (b : Code.Block) (pred : Option Label) (m : Machine) :
    Ensures Run.Halted (fun _ => True) (enter b pred m) := by
  cases pred with
  | none => trivial
  | some pred =>
      have hvalues : Ensures Run.Halted (fun _ => True) (b.phis.mapM (phiValue b.id pred m)) := by
        apply Ensures.mapM
        intro φ _
        unfold phiValue
        split
        · exact halted_liftM _
        · simp [Run.Halted]
      exact hvalues.bind fun _ _ => halted_liftM _

theorem halted_leave (m : Machine) (x : Exit) :
    Ensures Run.Halted (fun _ => True) (m.leave x) := by
  apply (halted_liftM _).bind
  intro target _
  cases target with
  | some next => trivial
  | none => exact (halted_liftM _).bind fun _ _ => by simp [Run.Halted]

/-- A visit that leads nowhere has ended the run. -/
theorem halted_visit (c : Code) (args : List UInt64) (s : State) :
    Ensures Run.Halted (fun _ => True) (visit c args s) := by
  have hfetch : Ensures Run.Halted (fun _ => True) (fetch c s.block) := by
    unfold fetch
    split
    · trivial
    · simp [Run.Halted]
  apply hfetch.bind
  intro b _
  apply (halted_enter b s.pred s.machine).bind
  intro m _
  apply Ensures.bind (A := fun _ => True)
  · exact Ensures.foldlM trivial fun m _ op _ => halted_step m op
  · intro m' _
    exact (halted_leave m' b.exit).bind fun _ _ => trivial

theorem leads_of_visit (h : visit c args s = .ok t) : c.Leads s.block t.block := by
  obtain ⟨b, hb, h⟩ := bind_eq_ok_iff.mp h
  obtain ⟨m, -, h⟩ := bind_eq_ok_iff.mp h
  obtain ⟨m', -, h⟩ := bind_eq_ok_iff.mp h
  obtain ⟨next, hnext, h⟩ := bind_eq_ok_iff.mp h
  cases h
  refine ⟨b, ?_, Machine.mem_successors_of_leave hnext⟩
  unfold fetch at hb
  split at hb
  · cases hb
    assumption
  · cases hb

theorem run_of_course (h : Course (visit c args) State.block s ids r) {n : Nat}
    (hn : ids.length ≤ n) : run c args n s = r :=
  h.run_eq (fun n s t hvisit => by rw [run, hvisit]) (fun n s r hvisit => by rw [run, hvisit]) hn

theorem ended_of_course (hc : c.Sound) (hs : Inside c s)
    (h : Course (visit c args) State.block s ids r) : r.Ended := by
  induction h with
  | @last s r hvisit =>
      have hsafe : Ensures Run.Safe (Inside c) (visit c args s) := ensures_visit hc hs
      have hhalted := halted_visit c args s
      rw [hvisit] at hsafe hhalted
      exact Run.Safe.ended hsafe hhalted
  | @next s t ids r hvisit _ ih =>
      have hinside : Ensures Run.Safe (Inside c) (visit c args s) := ensures_visit hc hs
      rw [hvisit] at hinside
      exact ih hinside

end Interpreter

namespace Staged

variable {c : Code} {args : List UInt64} {s t : State} {ids : List Label} {r : Run}

theorem leads_of_visit (h : visit (ofCode c) args s = .ok t) : c.Leads s.block t.block := by
  obtain ⟨x, hx, h⟩ := bind_eq_ok_iff.mp h
  obtain ⟨b, hb, rfl⟩ := exists_of_fetch_ofCode hx
  obtain ⟨m, -, h⟩ := bind_eq_ok_iff.mp h
  obtain ⟨next, hnext, h⟩ := bind_eq_ok_iff.mp h
  obtain ⟨m', -, h⟩ := bind_eq_ok_iff.mp h
  cases h
  exact ⟨b, hb, Machine.mem_successors_of_leave hnext⟩

theorem run_of_course {routine : Routine} (h : Course (visit routine args) State.block s ids r)
    {n : Nat} (hn : ids.length ≤ n) : run routine args n s = r :=
  h.run_eq (fun n s t hvisit => by rw [run, hvisit]) (fun n s r hvisit => by rw [run, hvisit]) hn

end Staged

/-- Exits of the code lead along edges of the graph. -/
theorem Graph.idxOf_lt_of_leads {g : Graph} {c : Code} (hfree : g.LoopFree) (hc : g.lower = .ok c)
    {u v : Label} (h : c.Leads u v) : g.postOrder.idxOf v < g.postOrder.idxOf u := by
  obtain ⟨b', hb', hv⟩ := h
  obtain ⟨b, hw, hb⟩ := (loweredAs_of_lower hc).block u b' hb'
  rw [hb.exit.successors_eq] at hv
  obtain ⟨hu, hblock⟩ := mem_walk.mp hw
  have hlt := ((lowerable_of_lower hc).blocks u b hw).inside v hv
  exact hfree.idxOf_lt (mem_postOrder_iff.mp hu) (successors_of_block? hblock ▸ hv) hlt

/-- A backend that follows the exits of loop-free code comes to an end, and
enters every block once at most on the way. -/
theorem Graph.LoopFree.exists_course {g : Graph} {c : Code} (hfree : g.LoopFree)
    (hc : g.lower = .ok c) {σ : Type} (visit : σ → Except Run σ) (block : σ → Label)
    (hleads : ∀ s t, visit s = .ok t → c.Leads (block s) (block t)) {s : σ}
    (hs : ∃ b, c.block? (block s) = some b) :
    ∃ ids r, Course visit block s ids r ∧ c.Itinerary ids := by
  have hsound := Graph.sound_of_lower hc
  have hrank (s t : σ) (h : visit s = .ok t) :
      g.postOrder.idxOf (block t) < g.postOrder.idxOf (block s) :=
    Graph.idxOf_lt_of_leads hfree hc (hleads s t h)
  obtain ⟨ids, r, hcourse⟩ := Course.exists_of_rank g.postOrder.idxOf hrank s
  refine ⟨ids, r, hcourse, hsound.itinerary (hcourse.forall_mem ?_ hs) ?_⟩
  · intro s t h
    obtain ⟨b, hb, ht⟩ := hleads s t h
    exact hsound.targets _ b hb _ ht
  · apply (hcourse.pairwise_rank g.postOrder.idxOf hrank).2.imp
    rintro u _ hlt rfl
    exact Nat.lt_irrefl _ hlt

/-- Loop-free programs end. Whatever it is given, a call of the interpreted
encoder enters blocks of the program, none of them twice and so not more than
were assembled, and then returns or fails; so does a call of the staged encoder,
with the same end. -/
theorem loop_free_programs_end {g : Graph} {h h' : Heap} {p : Program}
    (hp : g.assemble h = .ok (p, h')) (hfree : g.LoopFree) (args : List UInt64) (out : Buffer) :
    ∃ r : Run, r.Ended ∧
      (∃ ids, Course (Interpreter.visit p.code args) Interpreter.State.block
          (Interpreter.start p.code out) ids r ∧ p.code.Itinerary ids ∧
        ∀ n, ids.length ≤ n → p.interpreted.call n args out = r) ∧
      ∃ ids, Course (Staged.visit (Staged.ofCode p.code) args) Staged.State.block
          (Staged.start (Staged.ofCode p.code) out) ids r ∧ p.code.Itinerary ids ∧
        ∀ n, ids.length ≤ n → p.staged.call n args out = r := by
  have hlower := Graph.lower_of_assemble hp
  have hsound := Graph.sound_of_assemble hp
  have hinside := Interpreter.inside_start hsound out
  obtain ⟨ids, r, hcourse, hids⟩ := hfree.exists_course hlower
    (Interpreter.visit p.code args) Interpreter.State.block
    (fun _ _ => Interpreter.leads_of_visit) hinside.block
  obtain ⟨ids', r', hcourse', hids'⟩ := hfree.exists_course hlower
    (Staged.visit (Staged.ofCode p.code) args) Staged.State.block
    (fun _ _ => Staged.leads_of_visit) (s := Staged.start (Staged.ofCode p.code) out) hinside.block
  have hrun := fun n => Interpreter.run_of_course (n := n) hcourse
  have hrun' := fun n => Staged.run_of_course (n := n) hcourse'
  -- both bounds are met together, and there the backends agree
  have hsame : r' = r := by
    calc
      r' = p.staged.call (ids.length + ids'.length) args out := (hrun' _ (by omega)).symm
      _ = p.interpreted.call (ids.length + ids'.length) args out := by
        rw [Program.staged_call_eq hsound]
      _ = r := hrun _ (by omega)
  subst hsame
  exact ⟨r', Interpreter.ended_of_course hsound hinside hcourse,
    ⟨ids, hcourse, hids, hrun⟩, ids', hcourse', hids', hrun'⟩

/-- The block that nothing leads to goes round in circles, and that is no loop of
the routine. -/
theorem loop_free_programs_end_join :
    let g := Graph.joinBeside ⟨3, [], [], .jump 3⟩
    g.LoopFree ∧ ∃ p h', g.assemble {} = .ok (p, h') ∧ p.code.blockList.length = 3 ∧
      ∃ r : Run, r.Ended ∧ ∀ n, 3 ≤ n →
        p.interpreted.call n [0] #[] = r ∧ p.staged.call n [0] #[] = r := by
  intro g
  have hfree : g.LoopFree := by decide +kernel
  obtain ⟨p, h', hp⟩ := Graph.exists_assemble_of_isOk (g := g) (by decide +kernel) {}
  have hcount : (g.lower.map fun c => c.blockList.length) = .ok 3 := by decide +kernel
  rw [Graph.lower_of_assemble hp] at hcount
  have hcount : p.code.blockList.length = 3 := Except.ok.inj hcount
  obtain ⟨r, hended, ⟨ids, -, hids, hrun⟩, ids', -, hids', hrun'⟩ :=
    loop_free_programs_end hp hfree [0] #[]
  refine ⟨hfree, p, h', hp, hcount, r, hended, fun n hn => ⟨hrun n ?_, hrun' n ?_⟩⟩
  · exact (hids.length_le.trans_eq hcount).trans hn
  · exact (hids'.length_le.trans_eq hcount).trans hn

end WireFlow
