import WireFlow.Proofs.ThinnedRuns

/-!
# Sweeping keeps what programs do

A swept graph can be assembled if the graph could, and its program does what the
graph's program does: same blocks, same output, same words in the registers that
have kept a slot. Slots are handed out anew, so words are compared register by
register. Where the program fails at a node that has been swept away, the swept
one goes on.
-/

namespace WireFlow

open Wire (Buffer)
open Meaning (Reached Ended)

/-- The registers that the second code has slots for have slots in the first,
and the frames give them the same words. -/
def Code.SameWords (c c' : Code) (f f' : Frame) : Prop :=
  ∀ r i', c'.slot? r = some i' → ∃ i v, c.slot? r = some i ∧ f[i]? = some v ∧ f'[i']? = some v

namespace Run

/-- The run has not crashed, and its output starts with the given one. -/
def Wrote (out : Buffer) : Run → Prop
  | standing _ _ o => out.toList <+: o.toList
  | returned _ o => out.toList <+: o.toList
  | failed _ o => out.toList <+: o.toList
  | crashed _ => False

/-- The second run is where the first is, or goes on where the first has failed
at a node for a register without a slot. -/
inductive FollowedBy (g : Graph) (c c' : Code) : Run → Run → Prop
  | standing (block : Label) {f f' : Frame} (out : Buffer) (h : c.SameWords c' f f') :
      FollowedBy g c c' (.standing block f out) (.standing block f' out)
  | returned (values : List UInt64) (out : Buffer) :
      FollowedBy g c c' (.returned values out) (.returned values out)
  | failed (error : RunError) (out : Buffer) :
      FollowedBy g c c' (.failed error out) (.failed error out)
  | passed {error : RunError} {out : Buffer} {run : Run} {r : Reg} (hr : g.Raises r error)
      (hslot : c'.slot? r = none) (hrun : run.Wrote out) :
      FollowedBy g c c' (.failed error out) run

namespace FollowedBy

variable {g : Graph} {c c' : Code} {run : Run}

theorem of_standing {block : Label} {f : Frame} {out : Buffer}
    (h : FollowedBy g c c' (.standing block f out) run) :
    ∃ f', run = .standing block f' out ∧ c.SameWords c' f f' := by
  cases h with
  | standing _ _ hwords => exact ⟨_, rfl, hwords⟩

theorem of_returned {values : List UInt64} {out : Buffer}
    (h : FollowedBy g c c' (.returned values out) run) : run = .returned values out := by
  cases h
  rfl

theorem of_failed {error : RunError} {out : Buffer}
    (h : FollowedBy g c c' (.failed error out) run) :
    run = .failed error out ∨
      (∃ r, g.Raises r error ∧ c'.slot? r = none) ∧ run.Wrote out := by
  cases h with
  | failed => exact Or.inl rfl
  | passed hr hslot hrun => exact Or.inr ⟨⟨_, hr, hslot⟩, hrun⟩

/-- Nothing fails that has not failed before. -/
theorem of_failed_right {error : RunError} {out : Buffer}
    (h : FollowedBy g c c' run (.failed error out)) :
    ∃ error' out', run = .failed error' out' ∧ out'.toList <+: out.toList := by
  cases h with
  | failed => exact ⟨error, out, rfl, List.prefix_refl _⟩
  | passed _ _ hrun => exact ⟨_, _, rfl, hrun⟩

end FollowedBy

end Run

theorem Meaning.Reached.wrote_of_onFrame {layout : List Reg} {x : Reached} {run : Run}
    {out : Buffer} (h : x.onFrame layout = some run) (hout : out.toList <+: x.out.toList) :
    run.Wrote out := by
  cases x with
  | standing block s =>
      cases h
      exact hout
  | ended e =>
      obtain ⟨ending, o⟩ := e
      cases ending with
      | returned values =>
          cases h
          exact hout
      | failed error =>
          cases h
          exact hout
      | stuck => cases h

namespace Graph

variable {dead : List Reg} {g g' : Graph} {c c' : Code}

theorem Thinned.sameWords (h : g.Thinned dead g') (hc : g.LoweredAs c) (hc' : g'.LoweredAs c')
    {s s' : Meaning.Store} (hs : s.Agree dead s') :
    c.SameWords c' (.ofEnv c.layout s.env) (.ofEnv c'.layout s'.env) := by
  intro r i' hi'
  obtain ⟨hdef, hz⟩ := hc'.mem_layout.mp (Lower.mem_of_idxOf? hi')
  obtain ⟨hdef, hlive⟩ := (h.mem_defs_iff hz).mp hdef
  obtain ⟨i, hi⟩ := Lower.exists_idxOf?_of_mem (hc.mem_layout.mpr ⟨hdef, hz⟩)
  refine ⟨i, s.env r, hi, Frame.getElem?_ofEnv_of_idxOf? hi, ?_⟩
  rw [Frame.getElem?_ofEnv_of_idxOf? hi', hs.env r hlive]

theorem Thinned.slot?_of_gone (h : g.Thinned dead g') (hc' : g'.LoweredAs c') {r : Reg}
    (hr : r.Gone dead) : c'.slot? r = none := by
  by_contra hslot
  obtain ⟨i, hi⟩ := Option.ne_none_iff_exists'.mp hslot
  obtain ⟨hdef, hz⟩ := hc'.mem_layout.mp (Lower.mem_of_idxOf? hi)
  exact ((h.mem_defs_iff hz).mp hdef).2 (hr.resolve_left hz)

/-- The code of a thinned graph follows the code of the graph. -/
theorem Thinned.followedBy_interpret (h : g.Thinned dead g') (hc : g.lower = .ok c)
    (hc' : g'.lower = .ok c') (n : Nat) (args : List UInt64) (out : Buffer) :
    (c.interpret n args out).FollowedBy g c c' (c'.interpret n args out) := by
  have hrun := Meaning.followedBy_run args (lowerable_of_lower hc) h
    (Meaning.beside_start h out) n
  have hleft := onFrame_run_of_lower hc n args out
  have hright := onFrame_run_of_lower hc' n args out
  generalize Meaning.run g args n (Meaning.start g out) = x at hrun hleft
  generalize Meaning.run g' args n (Meaning.start g' out) = x' at hrun hright
  cases hrun with
  | standing block hs =>
      rw [← Option.some.inj hleft, ← Option.some.inj hright, hs.out]
      exact .standing block _ (h.sameWords (loweredAs_of_lower hc) (loweredAs_of_lower hc') hs)
  | same e =>
      obtain ⟨ending, o⟩ := e
      cases ending with
      | returned values =>
          rw [← Option.some.inj hleft, ← Option.some.inj hright]
          exact .returned values o
      | failed error =>
          rw [← Option.some.inj hleft, ← Option.some.inj hright]
          exact .failed error o
      | stuck => cases hleft
  | @passed e _ he hgrown =>
      obtain ⟨ending, o⟩ := e
      obtain ⟨error, r, hending, hgone, hraises⟩ := he
      cases hending
      rw [← Option.some.inj hleft]
      exact .passed hraises (h.slot?_of_gone (loweredAs_of_lower hc') hgone)
        (Reached.wrote_of_onFrame hright hgrown)

end Graph

namespace Interpreter

/-- A run that has ended stays as it is. -/
theorem run_add_of_ended {c : Code} {args : List UInt64} {n : Nat} {s : State}
    (h : ∀ block f o, run c args n s ≠ .standing block f o) (k : Nat) :
    run c args (n + k) s = run c args n s := by
  induction n generalizing s with
  | zero =>
      cases hb : c.block? s.block with
      | none => cases k <;> simp [run, stand, visit, fetch, hb]
      | some b =>
          cases he : enter b s.pred s.machine with
          | error r => rw [run_eq_of_enter_error hb he, run_eq_of_enter_error hb he]
          | ok m =>
              exact absurd (by simp [run, stand, fetch_eq_ok hb, he]) (h s.block m.frame m.out)
  | succ n ih =>
      rw [Nat.succ_add]
      simp only [run] at h ⊢
      cases hvisit : visit c args s with
      | error r => rfl
      | ok t =>
          rw [hvisit] at h
          exact ih h

end Interpreter

/-- What the runs of two pieces of code, started with the same arguments and
output, have in common if the second has been swept out of the first. -/
structure RunsKept (g : Graph) (c c' : Code) (args : List UInt64) (out : Buffer) : Prop where
  /-- The second run is in the same block, with the same output and words. -/
  standing : ∀ n block f o, c.interpret n args out = .standing block f o →
    ∃ f', c'.interpret n args out = .standing block f' o ∧ c.SameWords c' f f'
  returned : ∀ n values o, c.interpret n args out = .returned values o →
    c'.interpret n args out = .returned values o
  diverges : (∀ n, ∃ block f o, c.interpret n args out = .standing block f o) →
    ∀ n, ∃ block f o, c'.interpret n args out = .standing block f o
  /-- The second run fails alike, or the failing node is for a register that
  has no slot any more, and the second run goes on writing. -/
  failed : ∀ n error o, c.interpret n args out = .failed error o →
    c'.interpret n args out = .failed error o ∨
      (∃ r, g.Raises r error ∧ c'.slot? r = none) ∧
        ∀ m, n ≤ m → (c'.interpret m args out).Wrote o
  /-- The second run fails only if the first has failed. -/
  failed_before : ∀ n error o, c'.interpret n args out = .failed error o →
    ∃ error' o', c.interpret n args out = .failed error' o' ∧ o'.toList <+: o.toList

/-- Code that is followed at every step is kept as a whole. -/
theorem runsKept_of_followedBy {g : Graph} {c c' : Code} {args : List UInt64} {out : Buffer}
    (h : ∀ n, (c.interpret n args out).FollowedBy g c c' (c'.interpret n args out)) :
    RunsKept g c c' args out where
  standing n block f o hn := (hn ▸ h n : Run.FollowedBy ..).of_standing
  returned n values o hn := (hn ▸ h n : Run.FollowedBy ..).of_returned
  diverges hdiv n := by
    obtain ⟨block, f, o, hn⟩ := hdiv n
    obtain ⟨f', hn', -⟩ := (hn ▸ h n : Run.FollowedBy ..).of_standing
    exact ⟨block, f', o, hn'⟩
  failed n error o hn := by
    rcases (hn ▸ h n : Run.FollowedBy ..).of_failed with hsame | ⟨hgone, -⟩
    · exact Or.inl hsame
    · refine Or.inr ⟨hgone, fun m hm => ?_⟩
      obtain ⟨k, rfl⟩ := Nat.exists_eq_add_of_le hm
      -- the failure stays, so the runs can be compared again at the later step
      have hend : c.interpret (n + k) args out = .failed error o := by
        rw [← hn]
        exact Interpreter.run_add_of_ended (fun block f o' hs => by cases hn.symm.trans hs) k
      rcases (hend ▸ h (n + k) : Run.FollowedBy ..).of_failed with hsame | ⟨-, hwrote⟩
      · rw [hsame]
        exact List.prefix_refl _
      · exact hwrote
  failed_before n error o hn := (hn ▸ h n : Run.FollowedBy ..).of_failed_right

/-- A swept graph can be assembled if the graph can, and the runs of its program
are the runs of the graph's program: in the same block with the same output and
words until one ends, with the same words returned, and without end if the other
has none. Where the graph's program fails, the swept one fails alike or goes on,
and it fails nowhere else. -/
theorem sweep_keeps_runs {g : Graph} {h h₁ : Heap} {p : Program}
    (hp : g.assemble h = .ok (p, h₁)) (h₂ : Heap) :
    ∃ q h₃, g.sweep.1.assemble h₂ = .ok (q, h₃) ∧
      ∀ args out, RunsKept g p.code q.code args out := by
  have hc := Graph.lower_of_assemble hp
  obtain ⟨dead, hthin⟩ := g.exists_thinned_sweep
  obtain ⟨c', hc'⟩ :=
    Graph.exists_lower_of_lowerable (hthin.lowerable (Graph.lowerable_of_lower hc))
  obtain ⟨q, h₃, hq, rfl⟩ := Graph.exists_assemble_of_lower hc' h₂
  refine ⟨q, h₃, hq, fun args out => runsKept_of_followedBy fun n => ?_⟩
  exact hthin.followedBy_interpret hc hc' n args out

/-- The argument that nothing reads is missing: the program fails, the swept one
returns. -/
theorem sweep_keeps_runs_countdown :
    ∃ p h₁ q h₃, Graph.countdown.assemble {} = .ok (p, h₁) ∧
      Graph.countdown.sweep.1.assemble h₁ = .ok (q, h₃) ∧
      p.code.interpret 6 [3] #[] = .failed (.missingArgument 1 1) #[2, 2, 1, 1] ∧
      q.code.interpret 6 [3] #[] = .returned [1] #[2, 2, 1, 1] ∧
      ∀ args out, RunsKept Graph.countdown p.code q.code args out := by
  obtain ⟨p, h₁, hp⟩ := Graph.exists_assemble_countdown {}
  obtain ⟨q, h₃, hq, hkept⟩ := sweep_keeps_runs hp h₁
  have hfails : (Graph.countdown.lower.map fun c => c.interpret 6 [3] #[]) =
      .ok (.failed (.missingArgument 1 1) #[2, 2, 1, 1]) := by decide +kernel
  have hreturns : (Graph.countdown.sweep.1.lower.map fun c => c.interpret 6 [3] #[]) =
      .ok (.returned [1] #[2, 2, 1, 1]) := by decide +kernel
  rw [Graph.lower_of_assemble hp] at hfails
  rw [Graph.lower_of_assemble hq] at hreturns
  exact ⟨p, h₁, q, h₃, hp, hq, Except.ok.inj hfails, Except.ok.inj hreturns, hkept⟩

end WireFlow
