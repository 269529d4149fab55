import WireFlow.Proofs.Growth
import WireFlow.Proofs.MeaningKept
import WireFlow.Proofs.Thinning

/-!
# Runs of thinned graphs

A graph and a thinned copy of it run side by side, with stores that agree on
every register that is not dead: no node that is left reads a dead register, and
a node that has been left out writes nothing else. The one thing such a node can
do besides is fail. Then the graph's run is over, and the copy goes on from the
same output.
-/

namespace WireFlow

open Sequencing
open Wire (Buffer)

theorem Phi.mem_uses_of_incomingFrom? {φ : Phi} {pred : Label} {r : Reg}
    (h : φ.incomingFrom? pred = some r) : r ∈ φ.uses := by
  obtain ⟨e, he, rfl⟩ := Option.map_eq_some_iff.mp h
  exact List.mem_map_of_mem (List.mem_of_find?_eq_some he)

namespace Meaning

variable {dead : List Reg} {args : List UInt64}

/-- The environments give every register that is not dead the same word. -/
def Env.Agree (dead : List Reg) (ρ ρ' : Env) : Prop := ∀ r, r ∉ dead → ρ' r = ρ r

namespace Env.Agree

variable {ρ ρ' : Env} {r : Reg}

theorem read (h : Agree dead ρ ρ') (hr : r ∉ dead) : ρ'.read r = ρ.read r := by
  simp only [Env.read, h r hr]

theorem write (h : Agree dead ρ ρ') (r : Reg) (v : UInt64) :
    Agree dead (ρ.write r v) (ρ'.write (r.retired dead) v) := by
  intro s hs
  by_cases hd : r ∈ dead
  · have hne : s ≠ r := fun hsr => hs (hsr ▸ hd)
    rw [Reg.retired_eq_zero_iff.mpr (Or.inr hd), Env.write_zero, Env.write_of_ne ρ hne]
    exact h s hs
  · rw [Reg.retired_of_not_mem hd]
    unfold Env.write
    split <;> simp [h s hs]

theorem write_gone (h : Agree dead ρ ρ') (hr : r.Gone dead) (v : UInt64) :
    Agree dead (ρ.write r v) ρ' := by
  have hw := h.write r v
  rwa [Reg.retired_eq_zero_iff.mpr hr, Env.write_zero] at hw

theorem writeAll (h : Agree dead ρ ρ') (rs : List Reg) (vs : List UInt64) :
    Agree dead (ρ.writeAll rs vs) (ρ'.writeAll (rs.map (Reg.retired dead)) vs) := by
  induction rs generalizing ρ ρ' vs with
  | nil => exact h
  | cons r rs ih =>
      cases vs with
      | nil => exact h
      | cons v vs => exact ih (h.write r v) vs

end Env.Agree

/-- The stores agree on what is not dead, and have the same output. -/
structure Store.Agree (dead : List Reg) (s s' : Store) : Prop where
  env : s.env.Agree dead s'.env
  out : s'.out = s.out

/-- An instruction whose dead definitions have been retired does the same. -/
theorem related_step_retired (args : List UInt64) {s s' : Store} (hs : s.Agree dead s') {i : Instr}
    (hi : ∀ r ∈ i.uses, r ∉ dead) :
    Related Eq (Store.Agree dead) (step args s i)
      (step args s' (i.mapDefs (Reg.retired dead))) := by
  cases i with
  | const r v => exact .ok ⟨hs.env.write r v, hs.out⟩
  | arg r k =>
      simp only [step, Instr.mapDefs]
      cases loadWord args k with
      | error e => exact .error rfl
      | ok v => exact .ok ⟨hs.env.write r v, hs.out⟩
  | binary r op x y =>
      have hx := hs.env.read (hi x (by simp [Instr.uses]))
      have hy := hs.env.read (hi y (by simp [Instr.uses]))
      simp only [step, Instr.mapDefs, hx, hy]
      exact .ok ⟨hs.env.write r _, hs.out⟩
  | emit x width =>
      have hx := hs.env.read (hi x (by simp [Instr.uses]))
      simp only [step, Instr.mapDefs, hx, hs.out]
      exact .ok ⟨hs.env, rfl⟩
  | call h xs rs =>
      have hxs : xs.map s'.env.read = xs.map s.env.read :=
        List.map_congr_left fun r hr => hs.env.read (hi r hr)
      have hzeros :
          (rs.map (Reg.retired dead)).map (fun _ => (0 : UInt64)) = rs.map fun _ => 0 := by
        rw [List.map_map]
        rfl
      simp only [step, Instr.mapDefs, call, hxs, hzeros, hs.out]
      cases Callee.ofHandle? h with
      | none => exact .error rfl
      | some f =>
          dsimp only
          cases f.direct s.out (xs.map s.env.read) (rs.map fun _ => 0) with
          | error fault => exact .error rfl
          | ok r => exact .ok ⟨hs.env.writeAll rs r.2, rfl⟩
  | nop => exact .error rfl
  | foreign f effect => exact .error rfl

/-- An idle instruction changes nothing that is not dead, unless it loads an
argument that is missing. -/
theorem step_of_idle (args : List UInt64) {s s' : Store} (hs : s.Agree dead s') {i : Instr}
    (hidle : i.Idle dead) (hfits : i.Fits) :
    (∃ t, step args s i = .ok t ∧ t.Agree dead s') ∨
      ∃ r k, i = .arg r k ∧ r.Gone dead ∧
        step args s i = .error (.failed (.missingArgument k args.length)) := by
  have hdst : ∀ r, i.defs = [r] → r.Gone dead := fun r hr => hidle.gone r (by simp [hr])
  cases i with
  | const r v => exact Or.inl ⟨_, rfl, hs.env.write_gone (hdst r rfl) v, hs.out⟩
  | arg r k =>
      cases hk : args[k]? with
      | none => exact Or.inr ⟨r, k, rfl, hdst r rfl, by simp [step, loadWord, hk]⟩
      | some v =>
          refine Or.inl ⟨{ s with env := s.env.write r v }, by simp [step, loadWord, hk], ?_⟩
          exact ⟨hs.env.write_gone (hdst r rfl) v, hs.out⟩
  | binary r op x y => exact Or.inl ⟨_, rfl, hs.env.write_gone (hdst r rfl) _, hs.out⟩
  | emit x width => cases hidle.effect
  | call h xs rs => cases hidle.effect
  | nop => exact hfits.elim
  | foreign f effect => exact hfits.elim

/-- The word a phi takes on the edge from `pred`, zero if it has no entry. -/
def taken (pred : Label) (ρ : Env) (φ : Phi) : UInt64 :=
  ρ.read ((φ.incomingFrom? pred).getD .zero)

/-- Phis are resolved if each has an entry; no other failure is possible. -/
theorem resolve_eq_ite (id pred : Label) (phis : List Phi) (ρ : Env) :
    resolve id pred phis ρ =
      if ∀ φ ∈ phis, (φ.incomingFrom? pred).isSome then
        .ok (ρ.writeAll (phis.map Phi.dst) (phis.map (taken pred ρ)))
      else .error (.failed (.phiMismatch id pred)) := by
  have hvalues : phis.mapM (phiValue id pred ρ) =
      if ∀ φ ∈ phis, (φ.incomingFrom? pred).isSome then .ok (phis.map (taken pred ρ))
      else .error (.failed (.phiMismatch id pred)) := by
    induction phis with
    | nil => rfl
    | cons φ phis ih =>
        rw [List.mapM_cons, ih]
        cases hφ : φ.incomingFrom? pred with
        | none => simp [phiValue, hφ]
        | some r =>
            simp only [phiValue, hφ, ok_bind, List.forall_mem_cons, Option.isSome_some, true_and]
            split <;> simp [taken, hφ]
  rw [resolve, hvalues]
  split <;> rfl

theorem taken_retired {ρ ρ' : Env} (hρ : ρ.Agree dead ρ') {φ : Phi} (hφ : ∀ r ∈ φ.uses, r ∉ dead)
    (pred : Label) : taken pred ρ' (φ.mapDefs (Reg.retired dead)) = taken pred ρ φ := by
  have hfrom : (φ.mapDefs (Reg.retired dead)).incomingFrom? pred = φ.incomingFrom? pred := rfl
  unfold taken
  rw [hfrom]
  cases hr : φ.incomingFrom? pred with
  | none => rfl
  | some r => exact hρ.read (hφ r (Phi.mem_uses_of_incomingFrom? hr))

/-- Thinned phis write the same words to what is not dead. -/
theorem Env.Agree.writeAll_phis {phis phis' : List Phi} {ρ ρ' β β' : Env} {pred : Label}
    (hthin : Thin (Phi.mapDefs (Reg.retired dead)) (Phi.Idle dead) phis phis')
    (hreads : ∀ φ ∈ phis', ∀ r ∈ φ.uses, r ∉ dead) (hρ : ρ.Agree dead ρ') (hβ : β.Agree dead β') :
    (β.writeAll (phis.map Phi.dst) (phis.map (taken pred ρ))).Agree dead
      (β'.writeAll (phis'.map Phi.dst) (phis'.map (taken pred ρ'))) := by
  induction hthin generalizing β β' with
  | nil => exact hβ
  | keep φ _ ih =>
      have huses : ∀ r ∈ φ.uses, r ∉ dead :=
        hreads (φ.mapDefs (Reg.retired dead)) (List.mem_cons_self ..)
      have hword := taken_retired hρ huses pred
      rw [List.map_cons, List.map_cons, List.map_cons, List.map_cons, hword]
      exact ih (fun ψ hψ => hreads ψ (List.mem_cons_of_mem _ hψ)) (hβ.write φ.dst _)
  | drop hidle _ ih => exact ih hreads (hβ.write_gone hidle _)

/-- A thinned computation beside the original: they give related results, or
end alike, or the original has ended in a way that is lost, and the thinned one
has the same output and perhaps more. -/
inductive Follows {α α' : Type} (L : Ended → Prop) (A : α → α' → Prop) (out : α' → Buffer) :
    Except Ended α → Except Ended α' → Prop
  | ok {a : α} {a' : α'} (h : A a a') : Follows L A out (.ok a) (.ok a')
  | same (e : Ended) : Follows L A out (.error e) (.error e)
  | passed {e : Ended} {x : Except Ended α'} (he : L e)
      (hx : Ensures (Ended.Grown e.out) (fun a => e.out.toList <+: (out a).toList) x) :
      Follows L A out (.error e) x

theorem Follows.bind {α α' β β' : Type} {L : Ended → Prop} {A : α → α' → Prop} {B : β → β' → Prop}
    {out : α' → Buffer} {out' : β' → Buffer} {x : Except Ended α} {x' : Except Ended α'}
    {f : α → Except Ended β} {f' : α' → Except Ended β'} (hx : Follows L A out x x')
    (hf : ∀ a a', A a a' → Follows L B out' (f a) (f' a'))
    (hgrow : ∀ (o : Buffer) a', o.toList <+: (out a').toList →
      Ensures (Ended.Grown o) (fun b => o.toList <+: (out' b).toList) (f' a')) :
    Follows L B out' (x >>= f) (x' >>= f') := by
  cases hx with
  | ok h => exact hf _ _ h
  | same e => exact .same e
  | passed he hx => exact .passed he (hx.bind (hgrow _))

end Meaning

/-- A node that defines the register can fail with the error. -/
def Graph.Raises (g : Graph) (r : Reg) : RunError → Prop
  | .missingArgument k _ => ∃ id b, (id, b) ∈ g.walk ∧ .arg r k ∈ b.instrs
  | .phiMismatch id pred =>
      ∃ b φ, (id, b) ∈ g.walk ∧ φ ∈ b.phis ∧ φ.dst = r ∧ φ.incomingFrom? pred = none

namespace Meaning

variable {dead : List Reg} {args : List UInt64} {g g' : Graph}

/-- The run has failed at a node that defines nothing that is left. -/
def Ended.Lost (g : Graph) (dead : List Reg) (e : Ended) : Prop :=
  ∃ error r, e.ending = .failed error ∧ r.Gone dead ∧ g.Raises r error

/-- Thinned instructions follow the instructions. -/
theorem follows_steps {L : Ended → Prop} {is is' : List Instr}
    (hthin : Thin (Instr.mapDefs (Reg.retired dead)) (Instr.Idle dead) is is')
    (hfits : ∀ i ∈ is, i.Fits) (hreads : ∀ i ∈ is', ∀ r ∈ i.uses, r ∉ dead)
    (hlost : ∀ r k out, .arg r k ∈ is → r.Gone dead →
      L ⟨.failed (.missingArgument k args.length), out⟩)
    {s s' : Store} (hs : s.Agree dead s') :
    Follows L (Store.Agree dead) Store.out (steps args is s) (steps args is' s') := by
  induction hthin generalizing s s' with
  | nil => exact .ok hs
  | @keep i is is' _ ih =>
      have huses : ∀ r ∈ i.uses, r ∉ dead := by
        simpa using hreads (i.mapDefs (Reg.retired dead)) (List.mem_cons_self ..)
      have hstep := related_step_retired args hs huses
      unfold steps
      rw [List.foldlM_cons, List.foldlM_cons, hs.out]
      generalize step args s i = x at hstep ⊢
      generalize step args s' _ = x' at hstep ⊢
      cases hstep with
      | ok ht =>
          exact ih (fun j hj => hfits j (List.mem_cons_of_mem _ hj))
            (fun j hj => hreads j (List.mem_cons_of_mem _ hj))
            (fun r k out hr => hlost r k out (List.mem_cons_of_mem _ hr)) ht
      | error he =>
          cases he
          exact .same _
  | @drop i is is' hidle _ ih =>
      rcases step_of_idle args hs hidle (hfits _ (List.mem_cons_self ..)) with
        ⟨t, ht, hagree⟩ | ⟨r, k, rfl, hgone, hfail⟩
      · have hsteps : steps args (i :: is) s = steps args is t := by
          simp [steps, ht]
        rw [hsteps]
        exact ih (fun j hj => hfits j (List.mem_cons_of_mem _ hj)) hreads
          (fun r k out hr => hlost r k out (List.mem_cons_of_mem _ hr)) hagree
      · -- the graph's run ends here, and the other one does the rest of its instructions
        have hsteps : steps args (.arg r k :: is) s =
            .error ⟨.failed (.missingArgument k args.length), s.out⟩ := by
          simp [steps, hfail]
        rw [hsteps]
        refine .passed (hlost r k _ (List.mem_cons_self ..) hgone) (grown_steps args is' ?_)
        rw [Store.Grown, hs.out]

theorem leave_eq_of_agree {t : Terminator} {ρ ρ' : Env} (hρ : ρ.Agree dead ρ')
    (ht : ∀ r ∈ t.uses, r ∉ dead) : leave t ρ' = leave t ρ := by
  have hread : ∀ r ∈ t.uses, ρ'.read r = ρ.read r := fun r hr => hρ.read (ht r hr)
  cases t with
  | ret values =>
      have hvalues : values.map ρ'.read = values.map ρ.read := List.map_congr_left hread
      simp only [leave, hvalues]
  | jump target => rfl
  | branch cond target otherwise => simp only [leave, hread cond (by simp [Terminator.uses])]
  | switch value targets default => simp only [leave, hread value (by simp [Terminator.uses])]
  | foreign f succs => rfl

/-- Both runs are about to enter the same block from the same block, and their
stores agree. -/
structure Beside (g : Graph) (dead : List Reg) (s s' : State) : Prop where
  pred : s'.pred = s.pred
  block : s'.block = s.block
  store : s.store.Agree dead s'.store
  reachable : s.block ∈ g.postOrder

theorem beside_start (h : g.Thinned dead g') (out : Buffer) :
    Beside g dead (start g out) (start g' out) where
  pred := rfl
  block := h.entry
  store := ⟨fun _ _ => rfl, rfl⟩
  reachable := g.entry_mem_postOrder

/-- Entering a thinned block follows entering the block. -/
theorem follows_enter {s s' : State} {b b' : Block} (hs : Beside g dead s s')
    (hb : g.block? s.block = some b) (hb' : g'.block? s.block = some b')
    (hthin : b.Thinned dead b') (hunread : ∀ r ∈ b'.uses, r ∉ dead) :
    Follows (Ended.Lost g dead) (fun p p' => p.1 = b ∧ p'.1 = b' ∧ p.2.Agree dead p'.2)
      (fun p => p.2.out) (enter g s) (enter g' s') := by
  have hreads : ∀ φ ∈ b'.phis, ∀ r ∈ φ.uses, r ∉ dead := fun φ hφ r hr =>
    hunread r (Block.mem_uses_of_phi hφ hr)
  unfold enter
  simp only [hs.block, hb, hb', hs.pred, hs.store.out]
  cases s.pred with
  | none => exact .ok ⟨rfl, rfl, hs.store⟩
  | some pred =>
      simp only [resolve_eq_ite]
      by_cases hall : ∀ φ ∈ b.phis, (φ.incomingFrom? pred).isSome
      · have hall' : ∀ φ ∈ b'.phis, (φ.incomingFrom? pred).isSome := by
          intro φ' hφ'
          obtain ⟨φ, hφ, rfl⟩ := hthin.phis.exists_of_mem hφ'
          exact hall φ hφ
        rw [if_pos hall, if_pos hall']
        exact .ok ⟨rfl, rfl, hs.store.env.writeAll_phis hthin.phis hreads hs.store.env, rfl⟩
      · rw [if_neg hall]
        by_cases hall' : ∀ φ ∈ b'.phis, (φ.incomingFrom? pred).isSome
        · -- every phi that is left has an entry, so the one without has been left out
          rw [if_pos hall']
          obtain ⟨φ, hφ, hnone⟩ : ∃ φ ∈ b.phis, ¬(φ.incomingFrom? pred).isSome := by
            simpa using hall
          have hidle : φ.Idle dead := (hthin.phis.mem_or_idle hφ).resolve_left fun hmem =>
            hnone (hall' (φ.mapDefs (Reg.retired dead)) hmem)
          refine .passed ⟨_, φ.dst, rfl, hidle, b, φ, ?_, hφ, rfl, by simpa using hnone⟩ ?_
          · exact Graph.mem_walk.mpr ⟨hs.reachable, hb⟩
          · exact List.prefix_refl _
        · rw [if_neg hall']
          exact .same _

/-- Passing through a thinned block follows passing through the block. -/
theorem follows_pass (args : List UInt64) (hg : g.Lowerable) {id : Label} {b b' : Block}
    (hwalk : (id, b) ∈ g.walk) (hthin : b.Thinned dead b') (hunread : ∀ r ∈ b'.uses, r ∉ dead)
    {s s' : Store} (hs : s.Agree dead s') :
    Follows (Ended.Lost g dead) (Beside g dead) (fun t => t.store.out) (pass args id b s)
      (pass args id b' s') := by
  obtain ⟨hid, hb⟩ := Graph.mem_walk.mp hwalk
  have hfits := hg.blocks id b hwalk
  have hterm : b'.term = b.term := hthin.term.trans (hfits.known.mapDefs_eq _)
  have hreads : ∀ i ∈ b'.instrs, ∀ r ∈ i.uses, r ∉ dead := fun i hi r hr =>
    hunread r (Block.mem_uses_of_instr hi hr)
  apply (follows_steps hthin.instrs hfits.instrs hreads ?_ hs).bind
  · intro t t' ht
    have hleave : leave b'.term t'.env = leave b.term t.env := by
      rw [hterm]
      exact leave_eq_of_agree ht.env fun r hr => hunread r (Block.mem_uses_of_term (hterm ▸ hr))
    rw [hleave, ht.out]
    cases hnext : leave b.term t.env with
    | error e => exact .same _
    | ok next =>
        have hsucc := mem_successors_of_leave hnext
        have hin := Graph.mem_postOrder_of_successor hid hb hsucc (hfits.inside _ hsucc)
        exact .ok ⟨rfl, rfl, ht, hin⟩
  · intro o t' ht'
    cases leave b'.term t'.env with
    | error e => exact ht'
    | ok next => exact ht'
  · intro r k out hk hgone
    exact ⟨_, r, rfl, hgone, id, b, hwalk, hk⟩

/-- A reachable block and its thinned form, which reads nothing dead. -/
theorem Beside.exists_thinned (h : g.Thinned dead g') {s s' : State} (hs : Beside g dead s s') :
    ∃ b b', (s.block, b) ∈ g.walk ∧ g'.block? s.block = some b' ∧ b.Thinned dead b' ∧
      ∀ r ∈ b'.uses, r ∉ dead := by
  obtain ⟨b, hb⟩ := Graph.exists_block?_of_mem_postOrder hs.reachable
  have hwalk := Graph.mem_walk.mpr ⟨hs.reachable, hb⟩
  obtain ⟨b', hwalk', hthin⟩ := h.exists_thinned hwalk
  refine ⟨b, b', hwalk, (Graph.mem_walk.mp hwalk').2, hthin, fun r hr => ?_⟩
  exact h.unread r (List.mem_flatMap.mpr ⟨_, hwalk', hr⟩)

/-- A visit of a thinned graph follows the visit of the graph. -/
theorem follows_visit (args : List UInt64) (hg : g.Lowerable) (h : g.Thinned dead g')
    {s s' : State} (hs : Beside g dead s s') :
    Follows (Ended.Lost g dead) (Beside g dead) (fun t => t.store.out) (visit g args s)
      (visit g' args s') := by
  obtain ⟨b, b', hwalk, hb', hthin, hunread⟩ := hs.exists_thinned h
  rw [visit_eq_bind, visit_eq_bind, hs.block]
  apply (follows_enter hs (Graph.mem_walk.mp hwalk).2 hb' hthin hunread).bind
  · rintro p p' ⟨hfst, hfst', ht⟩
    rw [hfst, hfst']
    exact follows_pass args hg hwalk hthin hunread ht
  · intro o p hp
    exact grown_pass args s.block p.1 hp

/-- Where the run of a thinned graph is when the run of the graph has come
somewhere. -/
inductive Reached.FollowedBy (g : Graph) (dead : List Reg) : Reached → Reached → Prop
  | standing (block : Label) {s s' : Store} (h : s.Agree dead s') :
      FollowedBy g dead (.standing block s) (.standing block s')
  | same (e : Ended) : FollowedBy g dead (.ended e) (.ended e)
  | passed {e : Ended} {r : Reached} (he : e.Lost g dead) (hr : e.out.toList <+: r.out.toList) :
      FollowedBy g dead (.ended e) r

/-- Runs of any length of a thinned graph follow the runs of the graph. -/
theorem followedBy_run (args : List UInt64) (hg : g.Lowerable) (h : g.Thinned dead g')
    {s s' : State} (hs : Beside g dead s s') (n : Nat) :
    (run g args n s).FollowedBy g dead (run g' args n s') := by
  induction n generalizing s s' with
  | zero =>
      obtain ⟨b, b', hwalk, hb', hthin, hunread⟩ := hs.exists_thinned h
      have henter := follows_enter hs (Graph.mem_walk.mp hwalk).2 hb' hthin hunread
      unfold run
      rw [hs.block]
      generalize enter g s = x at henter ⊢
      generalize enter g' s' = x' at henter ⊢
      cases henter with
      | ok hp => exact .standing _ hp.2.2
      | same e => exact .same e
      | passed he hx =>
          refine .passed he ?_
          cases x' with
          | ok p => exact hx
          | error e' => exact hx
  | succ n ih =>
      have hvisit := follows_visit args hg h hs
      unfold run
      generalize visit g args s = x at hvisit ⊢
      generalize visit g' args s' = x' at hvisit ⊢
      cases hvisit with
      | ok ht => exact ih ht
      | same e => exact .same e
      | passed he hx =>
          refine .passed he ?_
          cases x' with
          | ok t => exact grown_run hx n
          | error e' => exact hx

end Meaning

end WireFlow
