import WireFlow.Proofs.Backends

/-!
# Where runs fail

A run fails for one of two reasons: it loads an argument that was not passed, or
it takes an edge for which a phi of the target has no entry. Staged code settles
the phis of an edge where it leaves a block, so the block in which a staged run
stands last is the one it fails in.
-/

namespace WireFlow

open Sequencing
open Wire (Buffer)
open Code (Op)

/-- How a run that has entered block `b` with machine `m` fails there, and the
output it leaves behind: what the operations done before have written. -/
inductive Code.FailsIn (c : Code) (args : List UInt64) (b : Code.Block) (m : Machine) :
    RunError → Buffer → Prop
  | argument {done rest : List Op} {dst : Dest} {i : Nat} {m' : Machine}
      (split : b.ops = done ++ .arg dst i :: rest)
      (reached : Interpreter.steps args done m = .ok m') (missing : args.length ≤ i) :
      FailsIn c args b m (.missingArgument i args.length) m'.out
  | edge {m' : Machine} {next : Label} {target : Code.Block} {φ : Code.Phi}
      (reached : Interpreter.steps args b.ops m = .ok m') (leaves : m'.leave b.exit = .ok next)
      (taken : next ∈ b.exit.successors) (there : c.block? next = some target)
      (mem : φ ∈ target.phis) (uncovered : φ.incomingFrom? b.id = none) :
      FailsIn c args b m (.phiMismatch target.id b.id) m'.out

variable {c : Code} {args : List UInt64} {m : Machine} {e : RunError} {o : Buffer}

/-- Faults crash a run; they do not make it fail. -/
theorem liftM_ne_failed {α : Type} (x : Except Fault α) :
    (liftM x : Except Run α) ≠ .error (.failed e o) := by
  cases x with
  | ok a => simp
  | error fault =>
      intro h
      cases h

theorem bind_ne_failed {α β : Type} {x : Except Run α} {f : α → Except Run β}
    (hx : x ≠ .error (.failed e o)) (hf : ∀ a, f a ≠ .error (.failed e o)) :
    (x >>= f) ≠ .error (.failed e o) := by
  intro h
  rcases bind_eq_error_iff.mp h with h | ⟨a, -, h⟩
  · exact hx h
  · exact hf a h

theorem Machine.leave_ne_failed (x : Code.Exit) : m.leave x ≠ .error (.failed e o) := by
  apply bind_ne_failed (liftM_ne_failed _)
  intro next
  cases next with
  | some next => simp
  | none =>
      apply bind_ne_failed (liftM_ne_failed _)
      intro vs
      simp

namespace Interpreter

/-- The one operation that can fail is the load of a missing argument. -/
theorem step_eq_failed {op : Op} (h : step args m op = .error (.failed e o)) :
    ∃ dst i, op = .arg dst i ∧ args.length ≤ i ∧ e = .missingArgument i args.length ∧
      o = m.out := by
  cases op with
  | arg dst i =>
      cases hi : args[i]? with
      | some v =>
          simp only [step, Machine.loadArg, hi, ok_bind] at h
          exact absurd h (liftM_ne_failed _)
      | none =>
          simp only [step, Machine.loadArg, hi, error_bind] at h
          cases h
          exact ⟨dst, i, rfl, List.getElem?_eq_none_iff.mp hi, rfl, rfl⟩
  | const dst v => exact absurd h (liftM_ne_failed _)
  | binary dst op x y =>
      apply absurd h
      apply bind_ne_failed (liftM_ne_failed _)
      intro v
      apply bind_ne_failed (liftM_ne_failed _)
      intro w
      exact liftM_ne_failed _
  | emit x width => exact absurd h (bind_ne_failed (liftM_ne_failed _) fun v => liftM_ne_failed _)
  | call f xs ds => exact absurd h (bind_ne_failed (liftM_ne_failed _) fun vs => liftM_ne_failed _)

theorem steps_eq_failed {ops : List Op} (h : steps args ops m = .error (.failed e o)) :
    ∃ done dst i rest m', ops = done ++ .arg dst i :: rest ∧ steps args done m = .ok m' ∧
      args.length ≤ i ∧ e = .missingArgument i args.length ∧ o = m'.out := by
  induction ops generalizing m with
  | nil => cases h
  | cons op ops ih =>
      rcases bind_eq_error_iff.mp h with h | ⟨m₁, hop, h⟩
      · obtain ⟨dst, i, rfl, hfail⟩ := step_eq_failed h
        exact ⟨[], dst, i, ops, m, rfl, rfl, hfail⟩
      · obtain ⟨done, dst, i, rest, m', rfl, hdone, hfail⟩ := ih h
        exact ⟨op :: done, dst, i, rest, m', rfl, bind_eq_ok_iff.mpr ⟨m₁, hop, hdone⟩, hfail⟩

end Interpreter

namespace Staged

theorem fetch_eq_error {r : Routine} {id : Label} {x : Run} (h : fetch r id = .error x) :
    x = .crashed (.stagedHole id) := by
  unfold fetch at h
  split at h
  · cases h
  · cases h
    rfl

theorem exists_of_fetch_ofCode {id : Label} {x : Block} (h : fetch (ofCode c) id = .ok x) :
    ∃ b, c.block? id = some b ∧ x = block c b := by
  cases hb : c.block? id with
  | some b =>
      rw [fetch_ofCode hb] at h
      cases h
      exact ⟨b, rfl, rfl⟩
  | none =>
      unfold Code.block? at hb
      cases hrow : c.blocks[id]? with
      | none => simp [fetch, ofCode, hrow] at h
      | some cell =>
          simp only [hrow] at hb
          subst hb
          simp [fetch, ofCode, hrow] at h

theorem exists_of_moves_eq_error {pred : Label} {target : Code.Block}
    (h : moves pred target = .error e) :
    ∃ φ ∈ target.phis, φ.incomingFrom? pred = none ∧ e = .phiMismatch target.id pred := by
  obtain ⟨φ, hφ, hmove⟩ := exists_of_mapM_eq_error h
  unfold move at hmove
  cases hx : φ.incomingFrom? pred with
  | some x => simp [hx] at hmove
  | none =>
      rw [hx] at hmove
      cases hmove
      exact ⟨φ, hφ, hx, rfl⟩

/-- An edge fails to be crossed for want of an entry in a phi of its target. -/
theorem cross_eq_failed {b : Code.Block} {next : Label}
    (h : cross (block c b) next m = .error (.failed e o)) :
    ∃ target φ, next ∈ b.exit.successors ∧ c.block? next = some target ∧ φ ∈ target.phis ∧
      φ.incomingFrom? b.id = none ∧ e = .phiMismatch target.id b.id ∧ o = m.out := by
  unfold cross at h
  cases hedge : (block c b).edges.lookup next with
  | none => simp [hedge] at h
  | some edge =>
      rw [hedge] at h
      cases edge with
      | ok ms => exact absurd h (liftM_ne_failed _)
      | error e' =>
          cases h
          obtain ⟨before, after, hedges, -⟩ := List.lookup_eq_some_iff.mp hedge
          have hmem : (next, Except.error e) ∈ edges c b := by
            change _ ∈ (block c b).edges
            rw [hedges]
            exact List.mem_append_right _ (List.mem_cons_self ..)
          obtain ⟨id, hid, htarget⟩ := List.mem_filterMap.mp hmem
          obtain ⟨target, ht, hpair⟩ := Option.map_eq_some_iff.mp htarget
          obtain ⟨rfl, hmoves⟩ := Prod.mk.inj hpair
          obtain ⟨φ, hφ, hnone, he⟩ := exists_of_moves_eq_error hmoves
          exact ⟨target, φ, hid, ht, hφ, hnone, he, rfl⟩

theorem visit_eq_failed {s : State} (h : visit (ofCode c) args s = .error (.failed e o)) :
    ∃ b, c.block? s.block = some b ∧ c.FailsIn args b s.machine e o := by
  rcases bind_eq_error_iff.mp h with h | ⟨x, hx, h⟩
  · cases fetch_eq_error h
  · obtain ⟨b, hb, rfl⟩ := exists_of_fetch_ofCode hx
    refine ⟨b, hb, ?_⟩
    have hactions : (block c b).actions = b.ops.map action := rfl
    rw [hactions, perform_eq_steps] at h
    rcases bind_eq_error_iff.mp h with h | ⟨m, hm, h⟩
    · obtain ⟨done, dst, i, rest, m', hops, hdone, hi, rfl, rfl⟩ := Interpreter.steps_eq_failed h
      exact .argument hops hdone hi
    · rcases bind_eq_error_iff.mp h with h | ⟨next, hnext, h⟩
      · exact absurd h (Machine.leave_ne_failed _)
      · rcases bind_eq_error_iff.mp h with h | ⟨m', -, h⟩
        · obtain ⟨target, φ, hn, ht, hφ, hnone, rfl, rfl⟩ := cross_eq_failed h
          exact .edge hm hnext hn ht hφ hnone
        · cases h

/-- A failed run stood somewhere, and failed in its next visit. -/
theorem exists_of_run_eq_failed {r : Routine} {n : Nat} {s : State}
    (h : run r args n s = .failed e o) :
    ∃ k t, k < n ∧ run r args k s = .standing t.block t.machine.frame t.machine.out ∧
      visit r args t = .error (.failed e o) := by
  induction n generalizing s with
  | zero => cases h
  | succ n ih =>
      unfold run at h
      cases hv : visit r args s with
      | error r' =>
          rw [hv] at h
          subst h
          exact ⟨0, s, Nat.succ_pos n, rfl, hv⟩
      | ok s' =>
          rw [hv] at h
          obtain ⟨k, t, hk, hrun, ht⟩ := ih h
          refine ⟨k + 1, t, Nat.succ_lt_succ hk, ?_, ht⟩
          rw [run, hv]
          exact hrun

end Staged

/-- A failed run of sound code stood in some block before, and that block failed
it. -/
theorem Code.Sound.exists_failsIn (hc : c.Sound) {n : Nat} {out : Buffer}
    (h : c.interpret n args out = .failed e o) :
    ∃ k id frame written b, k < n ∧ c.interpret k args out = .standing id frame written ∧
      c.block? id = some b ∧ c.FailsIn args b ⟨frame, written⟩ e o := by
  rw [← hc.staged_eq_interpret] at h
  obtain ⟨k, t, hk, hrun, hvisit⟩ := Staged.exists_of_run_eq_failed h
  obtain ⟨b, hb, hfails⟩ := Staged.visit_eq_failed hvisit
  refine ⟨k, t.block, t.machine.frame, t.machine.out, b, hk, ?_, hb, hfails⟩
  rw [← hc.staged_eq_interpret, hrun]

end WireFlow
