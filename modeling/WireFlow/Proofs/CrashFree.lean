import WireFlow.Proofs.SoundCode

/-!
# Sound code does not crash

The invariant of an interpreted run is that control is in a block of the code
and the frame has the size the code asks for. Every operation of a sound block
keeps the size, and every exit leads to a block that is there.
-/

namespace WireFlow

open Sequencing
open Wire (Buffer)
open Code (Op Exit)

@[simp] theorem liftM_ok {α : Type} (a : α) :
    (liftM (Except.ok a : Except Fault α) : Except Run α) = .ok a := rfl

/-- The run has not crashed. -/
def Run.Safe (r : Run) : Prop := ∀ fault, r ≠ .crashed fault

theorem ensures_liftM {α : Type} {A : α → Prop} {x : Except Fault α} {a : α} (hx : x = .ok a)
    (ha : A a) : Ensures Run.Safe A (liftM x : Except Run α) := by
  rw [hx]
  exact ha

/-- What a phi of a sound block takes on an edge lies in the frame. -/
theorem Code.Block.Sound.slot_lt_of_incomingFrom? {n i : Nat} {b : Code.Block} {φ : Code.Phi}
    {pred : Label} (hb : b.Sound n) (hφ : φ ∈ b.phis)
    (hx : φ.incomingFrom? pred = some (.slot i)) : i < n := by
  obtain ⟨e, he, hx⟩ := Option.map_eq_some_iff.mp hx
  apply hb.operands i
  apply List.mem_append_left
  apply List.mem_append_left
  exact List.mem_flatMap.mpr
    ⟨φ, hφ, List.mem_map.mpr ⟨e, List.mem_of_find?_eq_some he, hx⟩⟩

namespace Operand

theorem exists_read {f : Frame} {x : Operand} (h : ∀ i, x = .slot i → i < f.size) :
    ∃ v, x.read f = .ok v := by
  cases x with
  | zero => exact ⟨0, rfl⟩
  | slot i =>
      have hi := h i rfl
      exact ⟨f[i], by simp [read, hi]⟩

theorem exists_readAll {f : Frame} {xs : List Operand} (h : ∀ i, .slot i ∈ xs → i < f.size) :
    ∃ vs, readAll f xs = .ok vs ∧ vs.length = xs.length := by
  have hall : ∀ x ∈ xs, ∃ v, read f x = .ok v := by
    intro x hx
    apply exists_read
    rintro i rfl
    exact h i hx
  obtain ⟨vs, hvs⟩ := exists_mapM_eq_ok_iff.mpr hall
  exact ⟨vs, hvs, (mapM_eq_ok_iff.mp hvs).length_eq.symm⟩

end Operand

namespace Frame

theorem exists_write {f : Frame} {d : Dest} (h : ∀ i, d = some i → i < f.size) (v : UInt64) :
    ∃ f', f.write d v = .ok f' ∧ f'.size = f.size := by
  cases d with
  | none => exact ⟨f, rfl, rfl⟩
  | some i => exact ⟨f.setIfInBounds i v, by simp [write, h i rfl], by simp⟩

theorem exists_writeAll {f : Frame} {ds : List Dest} (h : ∀ i, some i ∈ ds → i < f.size)
    (vs : List UInt64) : ∃ f', f.writeAll ds vs = .ok f' ∧ f'.size = f.size := by
  induction ds generalizing f vs with
  | nil => exact ⟨f, rfl, rfl⟩
  | cons d ds ih =>
      cases vs with
      | nil => exact ⟨f, rfl, rfl⟩
      | cons v vs =>
          obtain ⟨g, hg, hsize⟩ := exists_write (d := d) (fun i hi => h i (by simp [hi])) v
          obtain ⟨f', hf', hsize'⟩ := ih
            (fun i hi => hsize ▸ h i (List.mem_cons_of_mem _ hi)) vs
          refine ⟨f', ?_, hsize'.trans hsize⟩
          simp only [writeAll, List.zip_cons_cons, List.foldlM_cons, hg, ok_bind]
          exact hf'

end Frame

namespace Callee

/-- The two entries of a callee do the same. -/
theorem through_eq_direct (f : Callee) (out : Buffer) (args results : List UInt64) :
    f.through ⟨out, args, results⟩ = do
      let r ← f.direct out args results
      return ⟨r.1, args, r.2⟩ := by
  cases f with
  | encode =>
      simp only [through, direct, CallContext.arg]
      cases wordAt args 0 with
      | error e => rfl
      | ok v =>
          cases results with
          | nil => rfl
          | cons r rest => rfl

theorem exists_direct {f : Callee} {args : List UInt64} (h : args.length = f.argCount)
    (out : Buffer) (results : List UInt64) : ∃ r, f.direct out args results = .ok r := by
  cases f with
  | encode =>
      match args, h with
      | [v], _ =>
          cases results with
          | nil => exact ⟨_, rfl⟩
          | cons r rest => exact ⟨_, rfl⟩

end Callee

namespace Interpreter

variable {c : Code} {n : Nat} {args : List UInt64} {m : Machine}

/-- The frame has `n` words. -/
def HasFrame (n : Nat) (m : Machine) : Prop := m.frame.size = n

theorem ensures_read {x : Operand} (hm : HasFrame n m) (h : ∀ i, x = .slot i → i < n) :
    Ensures Run.Safe (fun _ => True) (liftM (m.read x) : Except Run UInt64) := by
  obtain ⟨v, hv⟩ := Operand.exists_read (f := m.frame) fun i hi => hm ▸ h i hi
  exact ensures_liftM hv trivial

theorem ensures_write {d : Dest} (hm : HasFrame n m) (h : ∀ i, d = some i → i < n) (v : UInt64) :
    Ensures Run.Safe (HasFrame n) (liftM (m.write d v) : Except Run Machine) := by
  obtain ⟨f', hf', hsize⟩ := Frame.exists_write (f := m.frame) (fun i hi => hm ▸ h i hi) v
  have hw : m.write d v = .ok ⟨f', m.out⟩ := by simp [Machine.write, hf']
  exact ensures_liftM hw (hsize.trans hm)

theorem ensures_writeAll {ds : List Dest} (hm : HasFrame n m) (h : ∀ i, some i ∈ ds → i < n)
    (vs : List UInt64) :
    Ensures Run.Safe (HasFrame n) (liftM (m.writeAll ds vs) : Except Run Machine) := by
  obtain ⟨f', hf', hsize⟩ := Frame.exists_writeAll (f := m.frame) (fun i hi => hm ▸ h i hi) vs
  have hw : m.writeAll ds vs = .ok ⟨f', m.out⟩ := by simp [Machine.writeAll, hf']
  exact ensures_liftM hw (hsize.trans hm)

theorem ensures_loadArg (i : Nat) :
    Ensures Run.Safe (fun _ => True) (m.loadArg args i) := by
  unfold Machine.loadArg
  split
  · trivial
  · intro fault
    simp

theorem ensures_call {f : Callee} {given : List UInt64} {ds : List Dest} (hm : HasFrame n m)
    (hargs : given.length = f.argCount) (hds : ∀ i, some i ∈ ds → i < n) :
    Ensures Run.Safe (HasFrame n) (liftM (call m f given ds) : Except Run Machine) := by
  obtain ⟨r, hr⟩ := Callee.exists_direct hargs m.out (List.replicate ds.length 0)
  have hcall : call m f given ds = Machine.writeAll ⟨m.frame, r.1⟩ ds r.2 := by
    simp [call, Callee.through_eq_direct, hr]
  rw [hcall]
  exact ensures_writeAll (m := ⟨m.frame, r.1⟩) hm hds _

/-- An operation of a sound block keeps the size of the frame. -/
theorem ensures_step {b : Code.Block} {op : Op} (hb : b.Sound n) (hop : op ∈ b.ops)
    (hm : HasFrame n m) : Ensures Run.Safe (HasFrame n) (step args m op) := by
  have hin : ∀ i, .slot i ∈ op.operands → i < n := fun i hi =>
    hb.operands i (List.mem_append_left _
      (List.mem_append_right _ (List.mem_flatMap.mpr ⟨op, hop, hi⟩)))
  have hout : ∀ i, some i ∈ op.dests → i < n := fun i hi =>
    hb.dests i (List.mem_append_right _ (List.mem_flatMap.mpr ⟨op, hop, hi⟩))
  cases op with
  | const d v => exact ensures_write hm (fun i hi => hout i (by simp [Op.dests, hi])) v
  | arg d k =>
      apply (ensures_loadArg k).bind
      intro v _
      exact ensures_write hm (fun i hi => hout i (by simp [Op.dests, hi])) v
  | binary d op x y =>
      apply (ensures_read hm fun i hi => hin i (by simp [Op.operands, hi])).bind
      intro v _
      apply (ensures_read hm fun i hi => hin i (by simp [Op.operands, hi])).bind
      intro w _
      exact ensures_write hm (fun i hi => hout i (by simp [Op.dests, hi])) _
  | emit x w =>
      apply (ensures_read hm fun i hi => hin i (by simp [Op.operands, hi])).bind
      intro v _
      have hw : w ≤ 8 := Lower.le_of_mem_widths (hb.widths x w hop)
      have he : m.emit w v = .ok ⟨m.frame, m.out ++ Wire.lowBytes w v⟩ := by
        simp [Machine.emit, hw]
      exact ensures_liftM he hm
  | call f xs ds =>
      obtain ⟨vs, hvs, hlen⟩ := Operand.exists_readAll (f := m.frame) fun i hi => hm ▸ hin i hi
      have hargs := (hb.calls f xs ds hop).1
      have hread : m.readAll xs = .ok vs := hvs
      simp only [step, hread, liftM_ok, ok_bind]
      exact ensures_call hm (hlen.trans hargs) hout

theorem ensures_steps {b : Code.Block} (hb : b.Sound n) (hm : HasFrame n m) :
    Ensures Run.Safe (HasFrame n) (steps args b.ops m) :=
  Ensures.foldlM hm fun _ hm' _ hop => ensures_step hb hop hm'

theorem ensures_resolve {b : Code.Block} {pred : Label} (hb : b.Sound n) (hm : HasFrame n m) :
    Ensures Run.Safe (HasFrame n) (resolve b pred m) := by
  have hvalues : Ensures Run.Safe (fun _ => True) (b.phis.mapM (phiValue b.id pred m)) := by
    apply Ensures.mapM
    intro φ hφ
    unfold phiValue
    split
    · rename_i x hx
      apply ensures_read hm
      rintro i rfl
      exact hb.slot_lt_of_incomingFrom? hφ hx
    · intro fault
      simp
  apply hvalues.bind
  intro vs _
  exact ensures_writeAll hm (fun i hi => hb.dests i (List.mem_append_left _ hi)) vs

theorem ensures_enter {b : Code.Block} {pred : Option Label} (hb : b.Sound n) (hm : HasFrame n m) :
    Ensures Run.Safe (HasFrame n) (enter b pred m) := by
  cases pred with
  | none => exact hm
  | some pred => exact ensures_resolve hb hm

/-- The exit of a sound block leads to one of its successors, or ends the run
by a return. -/
theorem ensures_leave {b : Code.Block} (hb : b.Sound n) (hm : HasFrame n m) :
    Ensures Run.Safe (· ∈ b.exit.successors) (m.leave b.exit) := by
  have hin : ∀ i, .slot i ∈ b.exit.operands → i < m.frame.size := fun i hi =>
    hm ▸ hb.operands i (List.mem_append_right _ hi)
  cases hx : b.exit with
  | ret xs =>
      rw [hx] at hin
      obtain ⟨vs, hread, -⟩ := Operand.exists_readAll hin
      have hvs : (Exit.ret xs).values m.frame = .ok vs := hread
      simp [Machine.leave, Exit.target, hvs, Run.Safe]
  | jump target => simp [Machine.leave, Exit.target, Exit.successors]
  | branch x target otherwise =>
      rw [hx] at hin
      obtain ⟨v, hv⟩ := Operand.exists_read (x := x) fun i hi => hin i (by simp [Exit.operands, hi])
      simp only [Machine.leave, Exit.target, hv, ok_bind, pure_eq_ok, liftM_ok, Ensures.ok_iff,
        Exit.successors]
      split <;> simp
  | switch x targets default =>
      rw [hx] at hin
      obtain ⟨v, hv⟩ := Operand.exists_read (x := x) fun i hi => hin i (by simp [Exit.operands, hi])
      simp only [Machine.leave, Exit.target, hv, ok_bind, pure_eq_ok, liftM_ok, Ensures.ok_iff,
        Exit.successors]
      cases ht : targets[v.toNat]? with
      | none => simp
      | some target => simp [List.mem_of_getElem? ht]

theorem fetch_eq_ok {b : Code.Block} {id : Label} (h : c.block? id = some b) :
    fetch c id = .ok b := by
  simp [fetch, h]

/-- Control is in a block of the code, with a frame of the right size. -/
structure Inside (c : Code) (s : State) : Prop where
  block : ∃ b, c.block? s.block = some b
  frame : HasFrame c.frameSize s.machine

theorem inside_start (hc : c.Sound) (out : Buffer) : Inside c (start c out) := by
  obtain ⟨b, hb, -⟩ := hc.entry
  exact ⟨⟨b, hb⟩, by simp [start, Machine.start, Frame.blank, HasFrame]⟩

theorem ensures_visit {s : State} (hc : c.Sound) (hs : Inside c s) :
    Ensures Run.Safe (Inside c) (visit c args s) := by
  obtain ⟨b, hb⟩ := hs.block
  have hsound := hc.blocks _ b hb
  simp only [visit, fetch_eq_ok hb, ok_bind]
  apply (ensures_enter hsound hs.frame).bind
  intro m hm
  apply (ensures_steps hsound hm).bind
  intro m' hm'
  apply (ensures_leave hsound hm').bind
  intro next hn
  exact ⟨hc.targets _ b hb next hn, hm'⟩

theorem ensures_stand {s : State} (hc : c.Sound) (hs : Inside c s) :
    Ensures Run.Safe Run.Safe (stand c s) := by
  obtain ⟨b, hb⟩ := hs.block
  simp only [stand, fetch_eq_ok hb, ok_bind]
  apply (ensures_enter (hc.blocks _ b hb) hs.frame).bind
  intro m _ fault
  simp

/-- When a block cannot be entered, the run ends there. -/
theorem run_eq_of_enter_error {s : State} {b : Code.Block} {r : Run}
    (hb : c.block? s.block = some b) (he : enter b s.pred s.machine = .error r) (n : Nat) :
    run c args n s = r := by
  cases n with
  | zero => simp [run, stand, fetch_eq_ok hb, he]
  | succ n => simp [run, visit, fetch_eq_ok hb, he]

/-- A run of sound code from inside the code does not crash. -/
theorem safe_run {s : State} (hc : c.Sound) (hs : Inside c s) (n : Nat) :
    (run c args n s).Safe := by
  induction n generalizing s with
  | zero =>
      have h := ensures_stand hc hs
      unfold run
      cases hx : stand c s with
      | ok r => exact (hx ▸ h : Ensures Run.Safe Run.Safe (.ok r))
      | error r => exact (hx ▸ h : Ensures Run.Safe Run.Safe (.error r))
  | succ n ih =>
      have h : Ensures Run.Safe (Inside c) (visit c args s) := ensures_visit hc hs
      unfold run
      cases hx : visit c args s with
      | ok s' => exact ih (hx ▸ h : Ensures Run.Safe (Inside c) (.ok s'))
      | error r => exact (hx ▸ h : Ensures Run.Safe (Inside c) (.error r))

end Interpreter

/-- Sound code can be interpreted for ever without a crash. -/
theorem Code.Sound.safe_interpret {c : Code} (hc : c.Sound) (n : Nat) (args : List UInt64)
    (out : Buffer) : (c.interpret n args out).Safe :=
  Interpreter.safe_run hc (Interpreter.inside_start hc out) n

end WireFlow
