import WireFlow.Graph.Meaning
import WireFlow.Proofs.CrashFree

/-!
# Lowering keeps the meaning of a graph

A store of registers is laid out as a frame by putting the word of every
register at its slot. Running a graph on registers and interpreting its code on
the frame then commute: reads see the same words, and a write to a register is
a write to its slot, because no two registers share one. Nothing is asked about
the order in which registers are defined and read.
-/

namespace WireFlow

open Sequencing
open Wire (Buffer)
open Code (Op Exit)
open Meaning (Env Store Ending Ended Reached)

/-- The frame that holds the word of every register at its slot. -/
def Frame.ofEnv (layout : List Reg) (ρ : Env) : Frame := (layout.map ρ).toArray

/-- The machine in which a store is laid out. -/
def Machine.ofStore (layout : List Reg) (s : Store) : Machine := ⟨.ofEnv layout s.env, s.out⟩

/-- No register has two slots, and the sentinel has none. -/
structure Layout.Proper (layout : List Reg) : Prop where
  nodup : layout.Nodup
  zero : .zero ∉ layout

theorem Graph.LoweredAs.proper {g : Graph} {c : Code} (h : g.LoweredAs c) :
    Layout.Proper c.layout :=
  ⟨h.nodup, fun hz => (h.mem_layout.mp hz).2 rfl⟩

namespace Frame

variable {layout : List Reg} {ρ : Env}

theorem ofEnv_blank (layout : List Reg) : ofEnv layout .blank = blank layout.length := by
  apply Array.ext'
  simp only [ofEnv, blank, Array.toList_replicate]
  exact List.map_const' ..

/-- The slot of a register holds its word. -/
theorem getElem?_ofEnv_of_idxOf? {r : Reg} {i : Nat} (hi : layout.idxOf? r = some i) :
    (ofEnv layout ρ)[i]? = some (ρ r) := by
  obtain ⟨hlt, hr, -⟩ := List.idxOf?_eq_some_iff.mp hi
  simp [ofEnv, List.getElem?_eq_getElem hlt, hr]

/-- Registers outside the layout do not show in the frame. -/
theorem ofEnv_congr {ρ' : Env} (h : ∀ r ∈ layout, ρ r = ρ' r) :
    ofEnv layout ρ = ofEnv layout ρ' := by
  unfold ofEnv
  rw [List.map_congr_left h]

theorem ofEnv_write_of_mem {r : Reg} {i : Nat} (hl : layout.Nodup) (hz : r ≠ .zero)
    (hi : layout.idxOf? r = some i) (v : UInt64) :
    (ofEnv layout ρ).setIfInBounds i v = ofEnv layout (ρ.write r v) := by
  obtain ⟨hlt, hr, -⟩ := List.idxOf?_eq_some_iff.mp hi
  subst hr
  apply Array.ext'
  apply List.ext_getElem
  · simp [ofEnv]
  · intro j hj hj'
    have hlen : j < layout.length := by simpa [ofEnv] using hj'
    -- the register has no second slot that the write would miss
    have hinj : layout[j] = layout[i] ↔ j = i := hl.getElem_inj_iff
    simp only [ofEnv, List.setIfInBounds_toArray, List.getElem_set, List.getElem_map, Env.write, hz,
      if_false, hinj]
    by_cases hji : j = i
    · simp [hji]
    · simp [hji, Ne.symm hji]

/-- Writing a register is writing its slot. -/
theorem write_ofEnv (hl : Layout.Proper layout) (r : Reg) (v : UInt64) :
    (ofEnv layout ρ).write (Lower.dest layout r) v = .ok (ofEnv layout (ρ.write r v)) := by
  unfold Lower.dest
  cases hi : layout.idxOf? r with
  | none =>
      have hr : r ∉ layout := by simpa using hi
      simp only [write, Except.ok.injEq]
      apply ofEnv_congr
      intro s hs
      have hne : s ≠ r := fun h => hr (h ▸ hs)
      exact (Env.write_of_ne ρ hne v).symm
  | some i =>
      have hlt : i < layout.length := Lower.lt_of_idxOf? hi
      have hz : r ≠ .zero := by
        rintro rfl
        exact hl.zero (Lower.mem_of_idxOf? hi)
      have hsize : i < (ofEnv layout ρ).size := by simpa [ofEnv] using hlt
      simp only [write, hsize, if_true, ofEnv_write_of_mem hl.nodup hz hi]

theorem writeAll_ofEnv (hl : Layout.Proper layout) (rs : List Reg) (vs : List UInt64) :
    (ofEnv layout ρ).writeAll (rs.map (Lower.dest layout)) vs =
      .ok (ofEnv layout (ρ.writeAll rs vs)) := by
  induction rs generalizing ρ vs with
  | nil => rfl
  | cons r rs ih =>
      cases vs with
      | nil => rfl
      | cons v vs =>
          have htail := ih (ρ := ρ.write r v) vs
          simp only [writeAll, Env.writeAll] at htail
          simp only [writeAll, Env.writeAll, List.map_cons, List.zip_cons_cons, List.foldlM_cons,
            List.foldl_cons, write_ofEnv hl, ok_bind, htail]

end Frame

namespace Lower

variable {layout : List Reg} {ρ : Env}

/-- A lowered read gives the word of the register. -/
theorem ReadAs.read_ofEnv {r : Reg} {x : Operand} (h : ReadAs layout r x) :
    x.read (.ofEnv layout ρ) = .ok (ρ.read r) := by
  cases h with
  | zero => rfl
  | slot hr hi =>
      simp [Operand.read, Frame.getElem?_ofEnv_of_idxOf? hi, Env.read, hr]

theorem readAll_ofEnv {rs : List Reg} {xs : List Operand}
    (h : List.Forall₂ (ReadAs layout) rs xs) :
    Operand.readAll (.ofEnv layout ρ) xs = .ok (rs.map ρ.read) := by
  unfold Operand.readAll
  induction h with
  | nil => rfl
  | cons hr _ ih => simp [hr.read_ofEnv, ih]

/-- A lowered phi has an entry for the same blocks, for the same registers. -/
theorem PhiAs.incomingFrom? {φ : Phi} {φ' : Code.Phi} (h : PhiAs layout φ φ') (pred : Label) :
    (φ.incomingFrom? pred = none ∧ φ'.incomingFrom? pred = none) ∨
      ∃ r x, φ.incomingFrom? pred = some r ∧ φ'.incomingFrom? pred = some x ∧
        ReadAs layout r x := by
  obtain ⟨dst, es⟩ := φ
  obtain ⟨dst', es'⟩ := φ'
  have hes := h.incoming
  simp only [Phi.incomingFrom?, Code.Phi.incomingFrom?] at hes ⊢
  clear h
  induction hes with
  | nil => simp
  | @cons e e' _ _ he _ ih =>
      obtain ⟨hid, hr⟩ := he
      by_cases hp : e.1 = pred
      · right
        exact ⟨e.2, e'.2, by simp [hp], by simp [hid, hp], hr⟩
      · have hne : (e.1 == pred) = false := beq_eq_false_iff_ne.mpr hp
        simpa [List.find?_cons, hid, hne] using ih

theorem map_dst_phis {phis : List Phi} {phis' : List Code.Phi}
    (h : List.Forall₂ (PhiAs layout) phis phis') :
    phis'.map Code.Phi.dst = (phis.map Phi.dst).map (dest layout) := by
  induction h with
  | nil => rfl
  | cons hφ _ ih => simp [hφ.dst, ih]

end Lower

namespace Meaning

/-- The run that shows how a run on registers has ended; a stuck one has none. -/
def Ended.run? : Ended → Option Run
  | ⟨.returned values, out⟩ => some (.returned values out)
  | ⟨.failed error, out⟩ => some (.failed error out)
  | ⟨.stuck, _⟩ => none

/-- What a run on registers looks like when its store is laid out. -/
def Reached.onFrame (layout : List Reg) : Reached → Option Run
  | .standing block s => some (.standing block (.ofEnv layout s.env) s.out)
  | .ended e => e.run?

/-- The run shows how the run on registers has ended. -/
def Shows (e : Ended) (r : Run) : Prop := e.run? = some r

/-- The run shows the ending, with the given output. -/
def ShowsWith (out : Buffer) (e : Ending) (r : Run) : Prop := Shows ⟨e, out⟩ r

/-- The machine holds the store laid out. -/
def LaidOut (layout : List Reg) (s : Store) (m : Machine) : Prop := m = .ofStore layout s

theorem related_shows {α α' : Type} {A : α → α' → Prop} {out : Buffer} {x : Except Ending α}
    {x' : Except Run α'} (h : Related (ShowsWith out) A x x') :
    Related Shows A (x.mapError fun e => ⟨e, out⟩) x' :=
  h.mapError_left fun _ _ he => he

variable {layout : List Reg} {args : List UInt64}

theorem related_loadWord (s : Store) (k : Nat) :
    Related (ShowsWith s.out) Eq (loadWord args k)
      ((Machine.ofStore layout s).loadArg args k) := by
  unfold loadWord Machine.loadArg
  cases args[k]? with
  | none => exact .error rfl
  | some v => exact .ok rfl

theorem write_ofStore (hl : Layout.Proper layout) (s : Store) (r : Reg) (v : UInt64) :
    (Machine.ofStore layout s).write (Lower.dest layout r) v =
      .ok (.ofStore layout { s with env := s.env.write r v }) := by
  simp [Machine.ofStore, Machine.write, Frame.write_ofEnv hl]

/-- Lowered calls do what calls do. -/
theorem related_call (hl : Layout.Proper layout) (s : Store) {h : Nat} {f : Callee}
    {rs results : List Reg} {xs : List Operand} (hf : Callee.ofHandle? h = some f)
    (hargs : rs.length = f.argCount) (hxs : List.Forall₂ (Lower.ReadAs layout) rs xs) :
    Related (ShowsWith s.out) (LaidOut layout) (call s h rs results)
      (Interpreter.step args (.ofStore layout s)
        (.call f xs (results.map (Lower.dest layout)))) := by
  have hlen : (rs.map s.env.read).length = f.argCount := by simpa using hargs
  have hzeros : results.map (fun _ => (0 : UInt64)) =
      List.replicate (results.map (Lower.dest layout)).length 0 := by simp [List.map_const']
  obtain ⟨⟨out, words⟩, hr⟩ := Callee.exists_direct hlen s.out (results.map fun _ => 0)
  have hsrc : call s h rs results = .ok ⟨s.env.writeAll results words, out⟩ := by
    simp only [call, hf, hr]
  have hread : (Machine.ofStore layout s).readAll xs = .ok (rs.map s.env.read) :=
    Lower.readAll_ofEnv hxs
  rw [hzeros] at hr
  have hcall : Interpreter.call (.ofStore layout s) f (rs.map s.env.read)
      (results.map (Lower.dest layout)) =
        .ok (.ofStore layout ⟨s.env.writeAll results words, out⟩) := by
    simp only [Interpreter.call, Machine.ofStore, Callee.through_eq_direct, hr, ok_bind, pure_eq_ok,
      Machine.writeAll, Frame.writeAll_ofEnv hl]
  rw [hsrc]
  simp only [Interpreter.step, hread, liftM_ok, ok_bind, hcall]
  exact .ok rfl

/-- A lowered instruction does what the instruction does. -/
theorem related_step (hl : Layout.Proper layout) {i : Instr} {op : Op}
    (h : Lower.InstrAs layout i op) (s : Store) :
    Related (ShowsWith s.out) (LaidOut layout) (step args s i)
      (Interpreter.step args (.ofStore layout s) op) := by
  cases h with
  | const r v =>
      simp only [step, Interpreter.step, write_ofStore hl, liftM_ok]
      exact .ok rfl
  | arg r k =>
      apply (related_loadWord s k).bind
      rintro v _ rfl
      simp only [write_ofStore hl, liftM_ok]
      exact .ok rfl
  | @binary r op x y _ _ hx hy =>
      simp only [step, Interpreter.step, Machine.read, Machine.ofStore, hx.read_ofEnv,
        hy.read_ofEnv, liftM_ok, ok_bind]
      have hw := write_ofStore hl s r (op.eval (s.env.read x) (s.env.read y))
      simp only [Machine.ofStore] at hw
      simp only [hw, liftM_ok]
      exact .ok rfl
  | @emit v v' w hw hv =>
      have hle : w ≤ 8 := Lower.le_of_mem_widths hw
      simp only [step, Interpreter.step, Machine.read, Machine.ofStore, hv.read_ofEnv, liftM_ok,
        ok_bind, Machine.emit, hle, if_true]
      exact .ok rfl
  | call hf hargs _ hxs => exact related_call hl s hf hargs hxs

theorem related_steps (hl : Layout.Proper layout) {is : List Instr} {ops : List Op}
    (h : List.Forall₂ (Lower.InstrAs layout) is ops) (s : Store) :
    Related Shows (LaidOut layout) (steps args is s)
      (Interpreter.steps args ops (.ofStore layout s)) := by
  apply Related.foldlM (A := LaidOut layout) h _ rfl
  rintro s _ i op rfl hi
  exact related_shows (related_step hl hi s)

theorem related_phiValue {φ : Phi} {φ' : Code.Phi} (h : Lower.PhiAs layout φ φ')
    (block pred : Label) (s : Store) :
    Related (ShowsWith s.out) Eq (phiValue block pred s.env φ)
      (Interpreter.phiValue block pred (.ofStore layout s) φ') := by
  unfold phiValue Interpreter.phiValue
  rcases h.incomingFrom? pred with ⟨hr, hx⟩ | ⟨r, x, hr, hx, hread⟩
  · rw [hr, hx]
    exact .error rfl
  · simp only [hr, hx, Machine.read, Machine.ofStore, hread.read_ofEnv, liftM_ok]
    exact .ok rfl

/-- Lowered phis take their words together, as phis do. -/
theorem related_resolve (hl : Layout.Proper layout) {id : Label} {b : Block} {b' : Code.Block}
    (h : Lower.BlockAs layout id b b') (pred : Label) (s : Store) :
    Related (ShowsWith s.out) (fun ρ m => m = .ofStore layout { s with env := ρ })
      (resolve id pred b.phis s.env) (Interpreter.resolve b' pred (.ofStore layout s)) := by
  have hdst := Lower.map_dst_phis h.phis
  unfold resolve Interpreter.resolve
  rw [h.id]
  apply (Related.mapM h.phis fun φ φ' hφ => related_phiValue hφ id pred s).bind
  intro vs vs' hvs
  obtain rfl : vs = vs' := List.forall₂_eq_eq_eq ▸ hvs
  simp only [hdst, Machine.writeAll, Machine.ofStore, Frame.writeAll_ofEnv hl, ok_bind,
    pure_eq_ok, liftM_ok]
  exact .ok rfl

theorem mem_successors_of_leave {t : Terminator} {ρ : Env} {next : Label}
    (h : leave t ρ = .ok next) : next ∈ t.successors := by
  cases t with
  | ret values => cases h
  | jump target =>
      cases h
      exact List.mem_cons_self ..
  | branch cond target otherwise =>
      cases h
      split <;> simp [Terminator.successors]
  | switch value targets default =>
      cases h
      cases ht : targets[(ρ.read value).toNat]? with
      | none => simp [Terminator.successors]
      | some target => simp [Terminator.successors, List.mem_of_getElem? ht]
  | foreign f succs => cases h

/-- A lowered exit leads where the terminator does, and that is a successor. -/
theorem related_leave {t : Terminator} {x : Exit} (h : Lower.ExitAs layout t x) (s : Store) :
    Related (ShowsWith s.out) (fun next next' => next' = next ∧ next ∈ t.successors)
      (leave t s.env) ((Machine.ofStore layout s).leave x) := by
  cases h with
  | ret hvs =>
      have hread := Lower.readAll_ofEnv (ρ := s.env) hvs
      simp only [leave, Machine.leave, Exit.target, Exit.values, Machine.ofStore, hread, liftM_ok,
        ok_bind]
      exact .error rfl
  | jump target => exact .ok ⟨rfl, List.mem_cons_self ..⟩
  | branch target otherwise hc =>
      simp only [Machine.leave, Exit.target, Machine.ofStore, hc.read_ofEnv, ok_bind, pure_eq_ok,
        liftM_ok]
      exact .ok ⟨rfl, mem_successors_of_leave rfl⟩
  | switch targets default hv =>
      simp only [Machine.leave, Exit.target, Machine.ofStore, hv.read_ofEnv, ok_bind, pure_eq_ok,
        liftM_ok]
      exact .ok ⟨rfl, mem_successors_of_leave rfl⟩

variable {g : Graph} {c : Code}

/-- The interpreter is where the run on registers is, with its store laid out;
the block is one that has been lowered. -/
structure Matches (g : Graph) (c : Code) (s : State) (s' : Interpreter.State) : Prop where
  eq : s' = ⟨s.pred, s.block, .ofStore c.layout s.store⟩
  reachable : s.block ∈ g.postOrder

theorem matches_start (h : g.LoweredAs c) (out : Buffer) :
    Matches g c (start g out) (Interpreter.start c out) where
  eq := by
    simp [start, Interpreter.start, Machine.start, Machine.ofStore, Code.frameSize, h.entry,
      Frame.ofEnv_blank]
  reachable := g.entry_mem_postOrder

end Meaning

namespace Graph.LoweredAs

/-- A reachable block and its lowered form. -/
theorem exists_blockAs {g : Graph} {c : Code} (h : g.LoweredAs c) {id : Label}
    (hid : id ∈ g.postOrder) :
    ∃ b b', g.block? id = some b ∧ c.block? id = some b' ∧ Lower.BlockAs c.layout id b b' := by
  obtain ⟨b', hb'⟩ := h.covered id hid
  obtain ⟨b, hmem, hb⟩ := h.block id b' hb'
  exact ⟨b, b', (mem_walk.mp hmem).2, hb', hb⟩

end Graph.LoweredAs

namespace Meaning

variable {args : List UInt64} {g : Graph} {c : Code} {s : State} {s' : Interpreter.State}

/-- Entering a block on registers and on slots goes the same way. -/
theorem related_enter (h : g.LoweredAs c) (hs : Matches g c s s') {b : Block} {b' : Code.Block}
    (hb : g.block? s.block = some b) (hlow : Lower.BlockAs c.layout s.block b b') :
    Related Shows (fun p m => p.1 = b ∧ LaidOut c.layout p.2 m)
      (enter g s) (Interpreter.enter b' s'.pred s'.machine) := by
  obtain rfl := hs.eq
  unfold enter
  simp only [hb]
  cases s.pred with
  | none => exact .ok ⟨rfl, rfl⟩
  | some pred =>
      rw [← bind_pure (Interpreter.enter b' (some pred) _)]
      apply (related_shows (related_resolve h.proper hlow pred s.store)).bind
      rintro ρ _ rfl
      exact .ok ⟨rfl, rfl⟩

/-- One visit on registers and on slots goes the same way, and stays among the
lowered blocks. -/
theorem related_visit (args : List UInt64) (hg : g.Lowerable) (h : g.LoweredAs c)
    (hs : Matches g c s s') :
    Related Shows (Matches g c) (visit g args s)
      (Interpreter.visit c args s') := by
  obtain ⟨b, b', hb, hb', hlow⟩ := h.exists_blockAs hs.reachable
  have henter := related_enter h hs hb hlow
  obtain rfl := hs.eq
  simp only [visit, Interpreter.visit, Interpreter.fetch_eq_ok hb', ok_bind]
  apply henter.bind
  rintro ⟨_, t⟩ _ ⟨hfst, rfl⟩
  dsimp only at hfst ⊢
  subst hfst
  apply (related_steps h.proper hlow.ops t).bind
  rintro t' _ rfl
  apply (related_shows (related_leave hlow.exit t')).bind
  rintro next _ ⟨rfl, hnext⟩
  have hlt := (hg.blocks _ _ (Graph.mem_walk.mpr ⟨hs.reachable, hb⟩)).inside _ hnext
  exact .ok ⟨rfl, Graph.mem_postOrder_of_successor hs.reachable hb hnext hlt⟩

/-- Runs of any length on registers and on slots go the same way. -/
theorem onFrame_run (hg : g.Lowerable) (h : g.LoweredAs c) (hs : Matches g c s s') (n : Nat) :
    (run g args n s).onFrame c.layout = some (Interpreter.run c args n s') := by
  induction n generalizing s s' with
  | zero =>
      obtain ⟨b, b', hb, hb', hlow⟩ := h.exists_blockAs hs.reachable
      have henter := related_enter h hs hb hlow
      obtain rfl := hs.eq
      simp only [run, Interpreter.run, Interpreter.stand, Interpreter.fetch_eq_ok hb', ok_bind]
      generalize enter g s = x at henter ⊢
      generalize Interpreter.enter b' _ _ = x' at henter ⊢
      cases henter with
      | ok he =>
          obtain ⟨-, rfl⟩ := he
          rfl
      | error he => exact he
  | succ n ih =>
      have hvisit := related_visit args hg h hs
      unfold run Interpreter.run
      generalize visit g args s = x at hvisit ⊢
      generalize Interpreter.visit c args s' = x' at hvisit ⊢
      cases hvisit with
      | ok hm => exact ih hm
      | error he => exact he

end Meaning

/-- Lowered code does on the frame what the graph does on registers. -/
theorem Graph.onFrame_run_of_lower {g : Graph} {c : Code} (hc : g.lower = .ok c) (n : Nat)
    (args : List UInt64) (out : Buffer) :
    (Meaning.run g args n (Meaning.start g out)).onFrame c.layout = some (c.interpret n args out) :=
  Meaning.onFrame_run (lowerable_of_lower hc) (loweredAs_of_lower hc)
    (Meaning.matches_start (loweredAs_of_lower hc) out) n

/-- Interpreting an assembled program is running its graph on registers: after
every number of transitions both are in the same block, with the word of every
register at its slot, or both have returned or failed alike, and both have the
same output. In particular the graph never gets stuck. -/
theorem assembled_runs_as_graph {g : Graph} {h h' : Heap} {p : Program}
    (hp : g.assemble h = .ok (p, h')) (n : Nat) (args : List UInt64) (out : Buffer) :
    (Meaning.run g args n (Meaning.start g out)).onFrame p.code.layout =
      some (p.code.interpret n args out) :=
  Graph.onFrame_run_of_lower (Graph.lower_of_assemble hp) n args out

/-- The countdown runs as its graph, also where an argument is missing. -/
theorem assembled_runs_as_graph_countdown :
    ∃ p h', Graph.countdown.assemble {} = .ok (p, h') ∧ ∀ n args out,
      (Meaning.run Graph.countdown args n (Meaning.start Graph.countdown out)).onFrame
        p.code.layout = some (p.code.interpret n args out) := by
  obtain ⟨p, h', hp⟩ := Graph.exists_assemble_countdown {}
  exact ⟨p, h', hp, assembled_runs_as_graph hp⟩

end WireFlow
