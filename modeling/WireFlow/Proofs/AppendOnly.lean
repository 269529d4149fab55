import WireFlow.Proofs.Failures
import WireFlow.Proofs.Growth

/-!
# Runs append to their output and do not look at it

Put bytes in front of the output a run starts from: the run goes the same way,
and the same bytes are in front of the output it ends with. That output only
grows is a consequence: a run from some output is the run from no output with the
former put in front.
-/

namespace WireFlow

open Sequencing
open Wire (Buffer)
open Code (Op)

/-- The run with `b` in front of its output. -/
def Run.prepend (b : Buffer) : Run → Run
  | standing block frame out => standing block frame (b ++ out)
  | returned values out => returned values (b ++ out)
  | failed error out => failed error (b ++ out)
  | crashed fault => crashed fault

/-- What a run has written. -/
def Run.out : Run → Buffer
  | standing _ _ out => out
  | returned _ out => out
  | failed _ out => out
  | crashed _ => #[]

theorem Run.Safe.out_prepend {b : Buffer} {r : Run} (h : (r.prepend b).Safe) :
    (r.prepend b).out = b ++ r.out := by
  cases r with
  | crashed fault => exact absurd rfl (h fault)
  | _ => rfl

namespace Machine

/-- The machine with `b` in front of its output. -/
def prepend (b : Buffer) (m : Machine) : Machine := ⟨m.frame, b ++ m.out⟩

variable (b : Buffer) (m : Machine)

theorem write_prepend (d : Dest) (v : UInt64) :
    (m.prepend b).write d v = (m.write d v).map (prepend b) := by
  simp only [write, prepend]
  cases m.frame.write d v with
  | error fault => rfl
  | ok frame => rfl

theorem writeAll_prepend (ds : List Dest) (vs : List UInt64) :
    (m.prepend b).writeAll ds vs = (m.writeAll ds vs).map (prepend b) := by
  simp only [writeAll, prepend]
  cases m.frame.writeAll ds vs with
  | error fault => rfl
  | ok frame => rfl

theorem emit_prepend (width : Nat) (v : UInt64) :
    (m.prepend b).emit width v = (m.emit width v).map (prepend b) := by
  by_cases hw : width ≤ 8
  · have hassoc : b ++ m.out ++ Wire.lowBytes width v = b ++ (m.out ++ Wire.lowBytes width v) :=
      Array.toList_inj.mp (by simp)
    simp [emit, hw, prepend, Except.map, hassoc]
  · simp [emit, hw, Except.map]

end Machine

theorem Interpreter.call_prepend (b : Buffer) (m : Machine) (f : Callee) (given : List UInt64)
    (ds : List Dest) :
    call (m.prepend b) f given ds = (call m f given ds).map (Machine.prepend b) := by
  simp only [call, Machine.prepend, Callee.through_eq_direct, Callee.direct_append]
  cases f.direct m.out given (List.replicate ds.length 0) with
  | error fault => rfl
  | ok r => exact Machine.writeAll_prepend b ⟨m.frame, r.1⟩ ds r.2

/-- The second computation is the first with `b` in front of all output. Results
carry their output along as `f` says. -/
abbrev Shifted {α : Type} (b : Buffer) (f : α → α) (x x' : Except Run α) : Prop :=
  Related (fun r r' => r' = r.prepend b) (fun a a' => a' = f a) x x'

variable {b : Buffer} {m : Machine} {c : Code} {args : List UInt64}

theorem shifted_liftM {α : Type} {f : α → α} {x x' : Except Fault α} (h : x' = x.map f) :
    Shifted b f (liftM x) (liftM x') := by
  subst h
  cases x with
  | error fault => exact .error rfl
  | ok a => exact .ok rfl

/-- What does not touch the output is the same. -/
theorem shifted_liftM_self {α : Type} (x : Except Fault α) :
    Shifted b id (liftM x) (liftM x) := by
  apply shifted_liftM
  cases x with
  | error fault => rfl
  | ok a => rfl

theorem Machine.shifted_loadArg (i : Nat) :
    Shifted b id (m.loadArg args i) ((m.prepend b).loadArg args i) := by
  unfold loadArg
  cases args[i]? with
  | some v => exact .ok rfl
  | none => exact .error rfl

theorem Machine.shifted_leave (x : Code.Exit) :
    Shifted b id (m.leave x) ((m.prepend b).leave x) := by
  apply (shifted_liftM_self (x.target m.frame)).bind
  rintro _ next rfl
  cases next with
  | some next => exact .ok rfl
  | none =>
      apply (shifted_liftM_self (x.values m.frame)).bind
      rintro _ vs rfl
      exact .error rfl

namespace Interpreter

theorem shifted_step (op : Op) :
    Shifted b (Machine.prepend b) (step args m op) (step args (m.prepend b) op) := by
  cases op with
  | const d v => exact shifted_liftM (m.write_prepend b d v)
  | arg d i =>
      apply (Machine.shifted_loadArg i).bind
      rintro _ v rfl
      exact shifted_liftM (m.write_prepend b d v)
  | binary d op x y =>
      apply (shifted_liftM_self (m.read x)).bind
      rintro _ v rfl
      apply (shifted_liftM_self (m.read y)).bind
      rintro _ w rfl
      exact shifted_liftM (m.write_prepend b d _)
  | emit x width =>
      apply (shifted_liftM_self (m.read x)).bind
      rintro _ v rfl
      exact shifted_liftM (m.emit_prepend b width v)
  | call f xs ds =>
      apply (shifted_liftM_self (m.readAll xs)).bind
      rintro _ vs rfl
      exact shifted_liftM (call_prepend b m f vs ds)

theorem shifted_steps (ops : List Op) :
    Shifted b (Machine.prepend b) (steps args ops m) (steps args ops (m.prepend b)) := by
  apply Related.foldlM (R := Eq) (List.forall₂_refl ops)
  · rintro m' _ op _ rfl rfl
    exact shifted_step op
  · rfl

end Interpreter

namespace Staged

/-- The state with `b` in front of its output. -/
def State.prepend (b : Buffer) (s : State) : State := ⟨s.block, s.machine.prepend b⟩

theorem shifted_cross (x : Block) (next : Label) :
    Shifted b (Machine.prepend b) (cross x next m) (cross x next (m.prepend b)) := by
  unfold cross
  cases x.edges.lookup next with
  | none => exact .ok rfl
  | some edge =>
      cases edge with
      | error e => exact .error rfl
      | ok ms =>
          apply shifted_liftM
          have hread : (m.prepend b).readAll (ms.map Prod.snd) = m.readAll (ms.map Prod.snd) := rfl
          simp only [shift, hread]
          cases m.readAll (ms.map Prod.snd) with
          | error fault => rfl
          | ok vs => exact m.writeAll_prepend b _ vs

theorem shifted_visit (s : State) :
    Shifted b (State.prepend b) (visit (ofCode c) args s)
      (visit (ofCode c) args (s.prepend b)) := by
  simp only [visit, State.prepend]
  cases hx : fetch (ofCode c) s.block with
  | error r =>
      cases fetch_eq_error hx
      exact .error rfl
  | ok x =>
      obtain ⟨blk, -, rfl⟩ := exists_of_fetch_ofCode hx
      have hactions : (block c blk).actions = blk.ops.map action := rfl
      simp only [ok_bind, hactions, perform_eq_steps]
      apply (Interpreter.shifted_steps blk.ops).bind
      rintro m' _ rfl
      apply (Machine.shifted_leave blk.exit).bind
      rintro _ next rfl
      apply (shifted_cross (block c blk) next).bind
      rintro m'' _ rfl
      exact .ok rfl

/-- Bytes in front of the output stay in front of it. -/
theorem run_prepend (b : Buffer) (n : Nat) (s : State) :
    run (ofCode c) args n (s.prepend b) = (run (ofCode c) args n s).prepend b := by
  induction n generalizing s with
  | zero => rfl
  | succ n ih =>
      have h : Shifted b (State.prepend b) (visit (ofCode c) args s) _ := shifted_visit s
      unfold run
      generalize visit (ofCode c) args s = x at h ⊢
      generalize visit (ofCode c) args (s.prepend b) = x' at h ⊢
      cases h with
      | error h => exact h
      | ok h =>
          subst h
          exact ih _

theorem prefix_run {n : Nat} {s : State} (h : (run (ofCode c) args n s).Safe) :
    s.machine.out.toList <+: (run (ofCode c) args n s).out.toList := by
  obtain ⟨block, frame, out⟩ := s
  -- the run from no output, with the output put in front
  have hrun : run (ofCode c) args n ⟨block, frame, out ++ #[]⟩ =
      (run (ofCode c) args n ⟨block, frame, #[]⟩).prepend out :=
    run_prepend out n ⟨block, frame, #[]⟩
  rw [Array.append_empty] at hrun
  rw [hrun] at h ⊢
  rw [h.out_prepend, Array.toList_append]
  exact List.prefix_append ..

/-- A longer run keeps what a shorter one has written. -/
theorem prefix_run_of_le {k n : Nat} (hk : k ≤ n) {s : State}
    (h : (run (ofCode c) args n s).Safe) :
    (run (ofCode c) args k s).out.toList <+: (run (ofCode c) args n s).out.toList := by
  induction k generalizing n s with
  | zero => exact prefix_run h
  | succ k ih =>
      obtain ⟨n, rfl⟩ := Nat.exists_eq_add_of_lt hk
      unfold run at h ⊢
      cases hv : visit (ofCode c) args s with
      | error r => exact List.prefix_refl _
      | ok s' =>
          rw [hv] at h
          exact ih (by omega) h

end Staged

/-- Calls of the encoders of an assembled program append to their output and do
not look at it: a call from output `b` is the call from no output with `b` in
front. The output only grows, and a call that fails leaves what all operations
before the failure have written. -/
theorem runs_only_append {g : Graph} {h h' : Heap} {p : Program}
    (hp : g.assemble h = .ok (p, h')) {e : Encoder} (he : e = p.interpreted ∨ e = p.staged)
    (n : Nat) (args : List UInt64) (b : Buffer) :
    (e.call n args b).Safe ∧ e.call n args b = (e.call n args #[]).prepend b ∧
      (∀ k ≤ n, (e.call k args b).out.toList <+: (e.call n args b).out.toList) ∧
      ∀ error out, e.call n args b = .failed error out →
        ∃ k id frame written block, k < n ∧ e.call k args b = .standing id frame written ∧
          p.code.block? id = some block ∧ p.code.FailsIn args block ⟨frame, written⟩ error out := by
  have hsound := Graph.sound_of_assemble hp
  have hcall : e.call = p.staged.call := by
    rcases he with rfl | rfl
    · exact (Program.staged_call_eq hsound).symm
    · rfl
  have hsafe : (p.staged.call n args b).Safe := by
    rw [Program.staged_call_eq hsound]
    exact hsound.safe_interpret n args b
  rw [hcall]
  refine ⟨hsafe, ?_, fun k hk => Staged.prefix_run_of_le hk hsafe, ?_⟩
  · have hstart : Staged.start (Staged.ofCode p.code) b =
        (Staged.start (Staged.ofCode p.code) #[]).prepend b := by
      simp [Staged.start, Machine.start, Staged.State.prepend, Machine.prepend]
    calc
      p.staged.call n args b
          = Staged.run (Staged.ofCode p.code) args n
              ((Staged.start (Staged.ofCode p.code) #[]).prepend b) := by rw [← hstart]; rfl
      _ = (p.staged.call n args #[]).prepend b := Staged.run_prepend b n _
  · intro error out hfail
    rw [Program.staged_call_eq hsound] at hfail ⊢
    exact hsound.exists_failsIn hfail

/-- The countdown writes after whatever is there. -/
theorem runs_only_append_countdown :
    ∃ p h', Graph.countdown.assemble {} = .ok (p, h') ∧
      ∀ n args b, p.staged.call n args b = (p.staged.call n args #[]).prepend b := by
  obtain ⟨p, h', hp⟩ := Graph.exists_assemble_countdown {}
  exact ⟨p, h', hp, fun n args b => (runs_only_append hp (Or.inr rfl) n args b).2.1⟩

end WireFlow
