import WireFlow.Encoder
import WireFlow.Proofs.CrashFree

/-!
# The two backends agree

Interpreted and staged runs differ in when they look at the phis of a block:
the interpreter on entering it, staged code on leaving the block before. A
staged run is therefore compared with an interpreted one that has just entered
the same block. The reads of a sound block cannot fail, so it does not matter
that staged code settles all missing entries before it reads anything.
-/

namespace WireFlow

open Sequencing
open Wire (Buffer)
open Code (Op Exit)

namespace Staged

variable {c : Code} {args : List UInt64}

theorem call_eq (m : Machine) (f : Callee) (given : List UInt64) (dsts : List Dest) :
    call m f given dsts = Interpreter.call m f given dsts := by
  simp only [call, Interpreter.call, Callee.through_eq_direct, pure_eq_ok]
  cases f.direct m.out given (List.replicate dsts.length 0) with
  | error e => rfl
  | ok r => rfl

/-- An action does what its operation does. -/
theorem action_eq_step (op : Op) (args : List UInt64) (m : Machine) :
    action op args m = Interpreter.step args m op := by
  cases op with
  | const dst v =>
      cases dst with
      | none => rfl
      | some i => rfl
  | call f xs dsts => simp only [action, Interpreter.step, call_eq]
  | _ => rfl

theorem perform_eq_steps (ops : List Op) (m : Machine) :
    perform args (ops.map action) m = Interpreter.steps args ops m := by
  simp only [perform, Interpreter.steps, List.foldlM_map, action_eq_step]

theorem liftM_bind {α β : Type} (x : Except Fault α) (f : α → Except Fault β) :
    (liftM (x >>= f) : Except Run β) = liftM x >>= fun a => liftM (f a) := by
  cases x <;> rfl

/-- Reading the phis one after the other gives what reading all moves gives,
as long as no read faults. -/
theorem mapM_phiValue_eq {block pred : Label} {m : Machine} {phis : List Code.Phi}
    (h : ∀ φ ∈ phis, ∀ x, φ.incomingFrom? pred = some x → ∃ v, m.read x = .ok v) :
    phis.mapM (Interpreter.phiValue block pred m) =
      match phis.mapM (move block pred) with
      | .error e => .error (.failed e m.out)
      | .ok ms => liftM (m.readAll (ms.map Prod.snd)) := by
  induction phis with
  | nil => rfl
  | cons φ rest ih =>
      have ih := ih fun ψ hψ => h ψ (List.mem_cons_of_mem _ hψ)
      simp only [List.mapM_cons, ih]
      cases hx : φ.incomingFrom? pred with
      | none => simp [Interpreter.phiValue, move, hx]
      | some x =>
          obtain ⟨v, hv⟩ := h φ (List.mem_cons_self ..) x hx
          have hread : x.read m.frame = .ok v := hv
          simp only [Interpreter.phiValue, move, hx, hv, liftM_ok, ok_bind]
          cases rest.mapM (move block pred) with
          | error e => rfl
          | ok ms =>
              simp only [ok_bind, pure_eq_ok, List.map_cons, Machine.readAll, Operand.readAll,
                List.mapM_cons, hread, liftM_bind, liftM_ok]

theorem moves_fst {pred : Label} {target : Code.Block} {ms : Moves}
    (h : moves pred target = .ok ms) : ms.map Prod.fst = target.phis.map Code.Phi.dst := by
  have hall := mapM_eq_ok_iff.mp h
  clear h
  generalize target.phis = phis at hall ⊢
  induction hall with
  | nil => rfl
  | @cons φ mv _ _ hφ _ ih =>
      have hdst : mv.1 = φ.dst := by
        unfold move at hφ
        split at hφ
        · cases hφ
          rfl
        · cases hφ
      simp [hdst, ih]

/-- However often a successor is repeated, its edge is the one to its block. -/
theorem lookup_edges {b target : Code.Block} {next : Label} (hn : next ∈ b.exit.successors)
    (ht : c.block? next = some target) :
    (edges c b).lookup next = some (moves b.id target) := by
  unfold edges
  generalize b.exit.successors = succs at hn ⊢
  induction succs with
  | nil => cases hn
  | cons id rest ih =>
      by_cases hid : next = id
      · subst hid
        simp [ht]
      · have hrest : next ∈ rest := (List.mem_cons.mp hn).resolve_left hid
        have hne : (next == id) = false := beq_eq_false_iff_ne.mpr hid
        cases hb : c.block? id with
        | none => simpa [hb] using ih hrest
        | some b' => simpa [hb, List.lookup_cons, hne] using ih hrest

/-- Crossing an edge resolves the phis of its target. -/
theorem cross_eq_resolve {n : Nat} {m : Machine} {b target : Code.Block} {next : Label}
    (hn : next ∈ b.exit.successors) (ht : c.block? next = some target) (hs : target.Sound n)
    (hm : Interpreter.HasFrame n m) :
    cross (block c b) next m = Interpreter.resolve target b.id m := by
  have hreads : ∀ φ ∈ target.phis, ∀ x, φ.incomingFrom? b.id = some x →
      ∃ v, m.read x = .ok v := by
    intro φ hφ x hx
    apply Operand.exists_read
    rintro i rfl
    exact hm ▸ hs.slot_lt_of_incomingFrom? hφ hx
  simp only [cross, block, lookup_edges hn ht, Interpreter.resolve, mapM_phiValue_eq hreads]
  cases hmoves : moves b.id target with
  | error e =>
      have he : target.phis.mapM (move target.id b.id) = .error e := hmoves
      simp [he]
  | ok ms =>
      have hok : target.phis.mapM (move target.id b.id) = .ok ms := hmoves
      simp only [hok, shift, liftM_bind, moves_fst hmoves]

theorem fetch_ofCode {b : Code.Block} {id : Label} (h : c.block? id = some b) :
    fetch (ofCode c) id = .ok (block c b) := by
  unfold Code.block? at h
  cases hrow : c.blocks[id]? with
  | none => simp [hrow] at h
  | some cell =>
      simp only [hrow] at h
      subst h
      simp [fetch, ofCode, hrow]

/-- A staged run from the start of a block is an interpreted run that has just
entered the block. -/
theorem run_ofCode_eq (hc : c.Sound) {s : Interpreter.State} {b : Code.Block} {m : Machine}
    (hb : c.block? s.block = some b) (he : Interpreter.enter b s.pred s.machine = .ok m)
    (hm : Interpreter.HasFrame c.frameSize m) (n : Nat) :
    run (ofCode c) args n ⟨s.block, m⟩ = Interpreter.run c args n s := by
  induction n generalizing s b m with
  | zero => simp [run, Interpreter.run, Interpreter.stand, Interpreter.fetch, hb, he]
  | succ n ih =>
      have hsound := hc.blocks _ b hb
      simp only [run, visit, fetch_ofCode hb, Interpreter.run, Interpreter.visit,
        Interpreter.fetch_eq_ok hb, he, ok_bind]
      have hblock : (block c b).actions = b.ops.map action ∧ (block c b).exit = b.exit :=
        ⟨rfl, rfl⟩
      rw [hblock.1, hblock.2, perform_eq_steps]
      have hsteps : Ensures Run.Safe (Interpreter.HasFrame c.frameSize)
          (Interpreter.steps args b.ops m) := Interpreter.ensures_steps hsound hm
      cases hx : Interpreter.steps args b.ops m with
      | error r => rfl
      | ok m' =>
          rw [hx] at hsteps
          simp only [ok_bind]
          have hleave := Interpreter.ensures_leave hsound hsteps
          cases hl : m'.leave b.exit with
          | error r => rfl
          | ok next =>
              rw [hl] at hleave
              obtain ⟨target, ht⟩ := hc.targets _ b hb next hleave
              have htarget := hc.blocks _ target ht
              simp only [ok_bind, cross_eq_resolve hleave ht htarget hsteps, hc.ids _ b hb]
              have hresolve : Ensures Run.Safe (Interpreter.HasFrame c.frameSize)
                  (Interpreter.resolve target s.block m') :=
                Interpreter.ensures_resolve htarget hsteps
              cases hr : Interpreter.resolve target s.block m' with
              | error r =>
                  -- the interpreted run meets the same failure when it enters the target
                  simp only [error_bind]
                  symm
                  exact Interpreter.run_eq_of_enter_error (s := ⟨some s.block, next, m'⟩) ht hr n
              | ok m'' =>
                  rw [hr] at hresolve
                  simp only [ok_bind, pure_eq_ok]
                  exact ih (s := ⟨some s.block, next, m'⟩) ht hr hresolve

end Staged

/-- Sound code runs staged as it runs interpreted. -/
theorem Code.Sound.staged_eq_interpret {c : Code} (hc : c.Sound) (n : Nat) (args : List UInt64)
    (out : Buffer) :
    Staged.run (Staged.ofCode c) args n (Staged.start (Staged.ofCode c) out) =
      c.interpret n args out := by
  obtain ⟨b, hb, -⟩ := hc.entry
  have hframe := (Interpreter.inside_start hc out).frame
  exact Staged.run_ofCode_eq hc (s := Interpreter.start c out) hb rfl hframe n

theorem Graph.sound_of_assemble {g : Graph} {h h' : Heap} {p : Program}
    (hp : g.assemble h = .ok (p, h')) : p.code.Sound :=
  sound_of_lower (lower_of_assemble hp)

theorem Program.staged_call_eq {p : Program} (hp : p.code.Sound) :
    p.staged.call = p.interpreted.call := by
  funext n args out
  exact hp.staged_eq_interpret n args out

/-- Two runs in the same place: in the same block with the same frame, returned
with the same words or failed with the same error, and with the same output. -/
inductive Run.LockStep : Run → Run → Prop
  | standing (block : Label) (frame : Frame) (out : Buffer) :
      LockStep (.standing block frame out) (.standing block frame out)
  | returned (values : List UInt64) (out : Buffer) :
      LockStep (.returned values out) (.returned values out)
  | failed (error : RunError) (out : Buffer) : LockStep (.failed error out) (.failed error out)

theorem Run.Safe.lockStep_self {r : Run} (h : r.Safe) : LockStep r r := by
  cases r with
  | standing block frame out => exact .standing block frame out
  | returned values out => exact .returned values out
  | failed error out => exact .failed error out
  | crashed fault => exact absurd rfl (h fault)

/-- A call of the encoder goes on for ever. -/
def Encoder.Diverges (e : Encoder) (args : List UInt64) (out : Buffer) : Prop :=
  ∀ n, ∃ block frame buffer, e.call n args out = .standing block frame buffer

/-- Interpreted and staged encoders of an assembled program are in lock step
after every number of transitions. So it makes no difference to a call whether
the staging linker is installed, and both calls go on for ever or neither. -/
theorem backends_in_lock_step {g : Graph} {h h' : Heap} {p : Program}
    (hp : g.assemble h = .ok (p, h')) :
    (∀ n args out, (p.interpreted.call n args out).LockStep (p.staged.call n args out)) ∧
      (∃ slot, LinkerSlot.install {} Program.staged = .ok slot ∧ slot.link p = p.staged ∧
        (slot.link p).call = (({} : LinkerSlot).link p).call) ∧
      ∀ args out, p.interpreted.Diverges args out ↔ p.staged.Diverges args out := by
  have hsound := Graph.sound_of_assemble hp
  have hcall := Program.staged_call_eq hsound
  refine ⟨?_, ⟨⟨some Program.staged⟩, rfl, rfl, hcall⟩, ?_⟩
  · intro n args out
    rw [hcall]
    exact (hsound.safe_interpret n args out).lockStep_self
  · intro args out
    simp only [Encoder.Diverges, hcall]

/-- A loop with phis, a call and a switch is in lock step. -/
theorem backends_in_lock_step_countdown :
    ∃ p h', Graph.countdown.assemble {} = .ok (p, h') ∧
      ∀ n args out, (p.interpreted.call n args out).LockStep (p.staged.call n args out) := by
  obtain ⟨p, h', hp⟩ := Graph.exists_assemble_countdown {}
  exact ⟨p, h', hp, (backends_in_lock_step hp).1⟩

/-- Assembled programs hold sound code, and neither backend crashes on them. -/
theorem assembled_never_crash {g : Graph} {h h' : Heap} {p : Program}
    (hp : g.assemble h = .ok (p, h')) :
    p.code.Sound ∧ ∀ n args out,
      (p.interpreted.call n args out).Safe ∧ (p.staged.call n args out).Safe := by
  have hsound := Graph.sound_of_assemble hp
  refine ⟨hsound, fun n args out => ?_⟩
  rw [Program.staged_call_eq hsound]
  exact ⟨hsound.safe_interpret n args out, hsound.safe_interpret n args out⟩

/-- The countdown crashes neither with arguments nor without. -/
theorem assembled_never_crash_countdown :
    ∃ p h', Graph.countdown.assemble {} = .ok (p, h') ∧ p.code.Sound ∧
      ∀ n args out, (p.staged.call n args out).Safe := by
  obtain ⟨p, h', hp⟩ := Graph.exists_assemble_countdown {}
  have hsafe := assembled_never_crash hp
  exact ⟨p, h', hp, hsafe.1, fun n args out => (hsafe.2 n args out).2⟩

end WireFlow
