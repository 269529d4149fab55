import WireFlow.Proofs.Backends
import WireFlow.Proofs.MeaningKept

/-!
# Phis are assigned at once

The phis of a block are one assignment. All of them take their words from the
frame as it was before the edge, so they may read one another, and an edge that
some phi has no entry for changes nothing. No two phis of an assembled block
have the same slot, so it does not matter in which order the words are put down.

A failure drops the frame it was met with. To say what has become of the frame,
both ways of taking an edge are written as work on a frame in place, and this
work is shown to be the one that runs.
-/

namespace WireFlow

open Sequencing
open Wire (Buffer)

/-- Work on a frame in place: what has been written stays written, also when the
work fails later on. -/
abbrev InPlace := EStateM Run Frame

namespace InPlace

variable {α β : Type} {f : Frame} {out : Buffer} {pred : Label} {b : Code.Block}

/-- Look at the frame. -/
def look (k : Frame → Except Run α) : InPlace α := fun f =>
  match k f with
  | .ok a => .ok a f
  | .error r => .error r f

def read (x : Operand) : InPlace UInt64 := look fun f => x.read f

def write (d : Dest) (v : UInt64) : InPlace Unit := fun f =>
  match f.write d v with
  | .ok f' => .ok () f'
  | .error e => .error (.crashed e) f

/-- Write words one after the other. -/
def store : List (Dest × UInt64) → InPlace Unit
  | [] => pure ()
  | e :: rest => do
      write e.1 e.2
      store rest

/-- The word a phi of `block` takes on the edge from `pred`. -/
def phiValue (block pred : Label) (out : Buffer) (φ : Code.Phi) : InPlace UInt64 :=
  match φ.incomingFrom? pred with
  | some x => read x
  | none => throw (.failed (.phiMismatch block pred) out)

/-- Resolve the phis of a block as the interpreter does. -/
def resolve (b : Code.Block) (pred : Label) (out : Buffer) : InPlace Unit := do
  let values ← b.phis.mapM (phiValue b.id pred out)
  store ((b.phis.map Code.Phi.dst).zip values)

/-- Take the edge from `pred` to a block as staged code does. -/
def carry (pred : Label) (b : Code.Block) (out : Buffer) : InPlace Unit := do
  match Staged.moves pred b with
  | .error e => throw (.failed e out)
  | .ok ms =>
      let values ← (ms.map Prod.snd).mapM read
      store ((ms.map Prod.fst).zip values)

/-- What is left when the work is over: a failure drops the frame. -/
def settle (out : Buffer) : EStateM.Result Run Frame Unit → Except Run Machine
  | .ok _ f => .ok ⟨f, out⟩
  | .error r _ => .error r

theorem mapM_liftM (k : β → Except Fault α) (xs : List β) :
    xs.mapM (fun x => (liftM (k x) : Except Run α)) = liftM (xs.mapM k) := by
  induction xs with
  | nil => rfl
  | cons x rest ih =>
      simp only [List.mapM_cons, ih, Staged.liftM_bind]
      rfl

theorem bind_apply (x : InPlace α) (k : α → InPlace β) (f : Frame) :
    (x >>= k) f = match x f with
      | .ok a f' => k a f'
      | .error r f' => .error r f' := by
  simp only [bind, EStateM.bind]
  cases x f with
  | ok a f' => rfl
  | error r f' => rfl

/-- To look at several things in turn is one look. -/
theorem mapM_look (k : β → Frame → Except Run α) (xs : List β) :
    xs.mapM (fun x => look (k x)) = look fun f => xs.mapM (k · f) := by
  induction xs with
  | nil => rfl
  | cons x rest ih =>
      funext f
      rw [List.mapM_cons, ih]
      simp only [List.mapM_cons, bind_apply, look]
      cases k x f with
      | error r => rfl
      | ok a =>
          cases hrest : rest.mapM (k · f) with
          | error r => simp [hrest]
          | ok as =>
              simp only [hrest, ok_bind]
              rfl

theorem phiValue_eq_look (block pred : Label) (out : Buffer) :
    phiValue block pred out = fun φ =>
      look fun f => Interpreter.phiValue block pred ⟨f, out⟩ φ := by
  funext φ
  unfold phiValue Interpreter.phiValue
  cases φ.incomingFrom? pred with
  | none => rfl
  | some x => rfl

theorem resolve_apply (b : Code.Block) (pred : Label) (out : Buffer) (f : Frame) :
    resolve b pred out f =
      match b.phis.mapM (Interpreter.phiValue b.id pred ⟨f, out⟩) with
      | .error r => .error r f
      | .ok vs => store ((b.phis.map Code.Phi.dst).zip vs) f := by
  rw [resolve, phiValue_eq_look, mapM_look, bind_apply, look]
  cases b.phis.mapM (Interpreter.phiValue b.id pred ⟨f, out⟩) with
  | error r => rfl
  | ok vs => rfl

theorem carry_apply (pred : Label) (b : Code.Block) (out : Buffer) (f : Frame) :
    carry pred b out f =
      match Staged.moves pred b with
      | .error e => .error (.failed e out) f
      | .ok ms =>
          match Operand.readAll f (ms.map Prod.snd) with
          | .error e => .error (.crashed e) f
          | .ok vs => store ((b.phis.map Code.Phi.dst).zip vs) f := by
  unfold carry
  cases hmoves : Staged.moves pred b with
  | error e => rfl
  | ok ms =>
      have hread : (ms.map Prod.snd).mapM read =
          look fun f => (ms.map Prod.snd).mapM fun x => liftM (x.read f) :=
        mapM_look _ _
      simp only [hread, bind_apply, look, mapM_liftM, Staged.moves_fst hmoves, Operand.readAll]
      cases (ms.map Prod.snd).mapM (Operand.read f) with
      | error e => rfl
      | ok vs => rfl

theorem settle_store (ds : List Dest) (vs : List UInt64) (out : Buffer) (f : Frame) :
    settle out (store (ds.zip vs) f) = liftM (Machine.writeAll ⟨f, out⟩ ds vs) := by
  simp only [Machine.writeAll, Frame.writeAll]
  generalize ds.zip vs = es
  induction es generalizing f with
  | nil => rfl
  | cons e rest ih =>
      simp only [store, List.foldlM_cons, bind_apply, write]
      cases f.write e.1 e.2 with
      | error e => rfl
      | ok f' => exact ih f'

/-- The interpreter resolves phis in place. -/
theorem settle_resolve (b : Code.Block) (pred : Label) (out : Buffer) (f : Frame) :
    settle out (resolve b pred out f) = Interpreter.resolve b pred ⟨f, out⟩ := by
  rw [resolve_apply, Interpreter.resolve]
  cases b.phis.mapM (Interpreter.phiValue b.id pred ⟨f, out⟩) with
  | error r => rfl
  | ok vs => exact settle_store _ _ _ _

/-- Staged code takes its edges in place. -/
theorem settle_carry {c : Code} {a b : Code.Block} {id : Label} (hb : c.block? id = some b)
    (hid : id ∈ a.exit.successors) (out : Buffer) (f : Frame) :
    settle out (carry a.id b out f) = Staged.cross (Staged.block c a) id ⟨f, out⟩ := by
  simp only [carry_apply, Staged.cross, Staged.block, Staged.lookup_edges hid hb]
  cases hmoves : Staged.moves a.id b with
  | error e => rfl
  | ok ms =>
      simp only [Staged.shift, Machine.readAll, Staged.moves_fst hmoves]
      cases Operand.readAll f (ms.map Prod.snd) with
      | error e => rfl
      | ok vs => exact settle_store _ _ _ _

/-- Where no read can fault, both ways of taking an edge are one. -/
theorem carry_eq_resolve (h : ∀ φ ∈ b.phis, ∀ x, φ.incomingFrom? pred = some x →
    ∃ v, x.read f = .ok v) : carry pred b out f = resolve b pred out f := by
  have hmoves : b.phis.mapM (Staged.move b.id pred) = Staged.moves pred b := rfl
  rw [carry_apply, resolve_apply, Staged.mapM_phiValue_eq h, hmoves]
  cases Staged.moves pred b with
  | error e => rfl
  | ok ms =>
      simp only [Machine.readAll]
      cases Operand.readAll f (ms.map Prod.snd) with
      | error e => rfl
      | ok vs => rfl

end InPlace

/-- The phi takes `x` on the edge from `pred`: its first entry for `pred` is `x`. -/
def Code.Phi.Takes (φ : Code.Phi) (pred : Label) (x : Operand) : Prop :=
  ∃ before after, φ.incoming = before ++ (pred, x) :: after ∧ ∀ e ∈ before, e.1 ≠ pred

theorem Code.Phi.incomingFrom?_eq_some_iff {φ : Code.Phi} {pred : Label} {x : Operand} :
    φ.incomingFrom? pred = some x ↔ φ.Takes pred x := by
  simp only [incomingFrom?, Option.map_eq_some_iff, List.find?_eq_some_iff_append]
  constructor
  · rintro ⟨⟨p, y⟩, ⟨hp, before, after, hin, hbefore⟩, rfl⟩
    obtain rfl : p = pred := eq_of_beq hp
    exact ⟨before, after, hin, by simpa using hbefore⟩
  · rintro ⟨before, after, hin, hbefore⟩
    exact ⟨(pred, x), ⟨beq_self_eq_true _, before, after, hin, by simpa using hbefore⟩, rfl⟩

theorem Code.Phi.incomingFrom?_isSome_iff {φ : Code.Phi} {pred : Label} :
    (φ.incomingFrom? pred).isSome ↔ pred ∈ φ.incoming.map Prod.fst := by
  simp [incomingFrom?]

/-- The frame after the edge from `pred`, for all phis of the block at once: the
slot of a phi holds the word its operand had before, and no other slot changes. -/
structure Code.Block.Assigns (b : Code.Block) (pred : Label) (f f' : Frame) : Prop where
  size : f'.size = f.size
  taken : ∀ φ ∈ b.phis, ∀ i, φ.dst = some i →
    ∃ x v, φ.Takes pred x ∧ x.read f = .ok v ∧ f'[i]? = some v
  kept : ∀ i, (∀ φ ∈ b.phis, φ.dst ≠ some i) → f'[i]? = f[i]?

namespace Code.Block

variable {b : Code.Block} {pred : Label} {out : Buffer} {f f' f'' : Frame} {phis : List Code.Phi}

/-- An assignment has one outcome. -/
theorem Assigns.unique (h : b.Assigns pred f f') (h' : b.Assigns pred f f'') : f' = f'' := by
  apply Array.ext_getElem?
  intro i
  by_cases hi : ∃ φ ∈ b.phis, φ.dst = some i
  · obtain ⟨φ, hφ, hdst⟩ := hi
    obtain ⟨x, v, hx, hv, hi'⟩ := h.taken φ hφ i hdst
    obtain ⟨y, w, hy, hw, hi''⟩ := h'.taken φ hφ i hdst
    rw [← Phi.incomingFrom?_eq_some_iff] at hx hy
    obtain rfl : x = y := Option.some.inj (hx.symm.trans hy)
    obtain rfl : v = w := Except.ok.inj (hv.symm.trans hw)
    rw [hi', hi'']
  · have hother : ∀ φ ∈ b.phis, φ.dst ≠ some i := fun φ hφ hdst => hi ⟨φ, hφ, hdst⟩
    rw [h.kept i hother, h'.kept i hother]

/-- How the edge from `pred` to the block goes: a phi without an entry for `pred`
stops it and nothing is changed, or all phis have one and are assigned. -/
inductive Edge (b : Code.Block) (pred : Label) (out : Buffer) (f : Frame) :
    EStateM.Result Run Frame Unit → Prop
  | missing {φ : Code.Phi} (mem : φ ∈ b.phis) (h : pred ∉ φ.incoming.map Prod.fst) :
      Edge b pred out f (.error (.failed (.phiMismatch b.id pred) out) f)
  | assigned {f' : Frame} (h : ∀ φ ∈ b.phis, pred ∈ φ.incoming.map Prod.fst)
      (hf : b.Assigns pred f f') : Edge b pred out f (.ok () f')

theorem Edge.unique {r r' : EStateM.Result Run Frame Unit} (h : b.Edge pred out f r)
    (h' : b.Edge pred out f r') : r = r' := by
  cases h with
  | missing hφ hno =>
      cases h' with
      | missing _ _ => rfl
      | assigned hall _ => exact absurd (hall _ hφ) hno
  | assigned hall hf =>
      cases h' with
      | missing hφ hno => exact absurd (hall _ hφ) hno
      | assigned _ hf' => rw [hf.unique hf']

/-- Nothing that is said of an edge depends on the order of the phis. -/
theorem Edge.perm {r : EStateM.Result Run Frame Unit} (hphis : phis.Perm b.phis)
    (h : Edge { b with phis := phis } pred out f r) : b.Edge pred out f r := by
  have hmem (φ : Code.Phi) : φ ∈ phis ↔ φ ∈ b.phis := hphis.mem_iff
  cases h with
  | missing hφ hno => exact .missing ((hmem _).mp hφ) hno
  | assigned hall hf =>
      refine .assigned (fun φ hφ => hall φ ((hmem φ).mpr hφ)) ⟨hf.size, ?_, ?_⟩
      · intro φ hφ
        exact hf.taken φ ((hmem φ).mpr hφ)
      · intro i hi
        exact hf.kept i fun φ hφ => hi φ ((hmem φ).mp hφ)

/-- The phis fit a frame of `n` words, and no two of them share a slot. -/
structure Assignable (n : Nat) (phis : List Code.Phi) : Prop where
  reads : ∀ φ ∈ phis, ∀ pred i, φ.incomingFrom? pred = some (.slot i) → i < n
  writes : ∀ φ ∈ phis, ∀ i, φ.dst = some i → i < n
  apart : (phis.filterMap Phi.dst).Nodup

theorem Assignable.perm {n : Nat} {phis' : List Code.Phi} (h : Assignable n phis)
    (hphis : phis'.Perm phis) : Assignable n phis' where
  reads φ hφ := h.reads φ (hphis.mem_iff.mp hφ)
  writes φ hφ := h.writes φ (hphis.mem_iff.mp hφ)
  apart := (hphis.filterMap Phi.dst).nodup_iff.mpr h.apart

end Code.Block

namespace InPlace

variable {f : Frame} {out : Buffer} {pred : Label} {b : Code.Block}

/-- A write inside the frame changes its own slot only. -/
theorem write_apply {d : Dest} (v : UInt64) (h : ∀ i, d = some i → i < f.size) :
    ∃ f', write d v f = .ok () f' ∧ f'.size = f.size ∧
      (∀ i, d = some i → f'[i]? = some v) ∧ ∀ i, d ≠ some i → f'[i]? = f[i]? := by
  cases d with
  | none => exact ⟨f, rfl, rfl, by simp, fun i _ => rfl⟩
  | some j =>
      have hj := h j rfl
      refine ⟨f.setIfInBounds j v, by simp [write, Frame.write, hj], by simp, ?_, ?_⟩
      · rintro i ⟨⟩
        simp [hj]
      · intro i hi
        exact Array.getElem?_setIfInBounds_ne fun hji => hi (congrArg some hji)

/-- Words stored in distinct slots can all be found afterwards. -/
theorem store_apply {es : List (Dest × UInt64)} (hin : ∀ i, some i ∈ es.map Prod.fst → i < f.size)
    (hapart : (es.filterMap Prod.fst).Nodup) :
    ∃ f', store es f = .ok () f' ∧ f'.size = f.size ∧
      (∀ i v, (some i, v) ∈ es → f'[i]? = some v) ∧
      ∀ i, some i ∉ es.map Prod.fst → f'[i]? = f[i]? := by
  induction es generalizing f with
  | nil => exact ⟨f, rfl, rfl, by simp, fun i _ => rfl⟩
  | cons e rest ih =>
      have hfresh : ∀ i, e.1 = some i → some i ∉ rest.map Prod.fst := by
        intro i hi hmem
        rw [List.filterMap_cons_some hi] at hapart
        exact (List.nodup_cons.mp hapart).1 (by simpa using hmem)
      obtain ⟨f₁, hwrite, hsize₁, hset, hother⟩ :=
        write_apply (f := f) (d := e.1) e.2 fun i hi => hin i (by simp [hi])
      obtain ⟨f', hstore, hsize, hfound, hkept⟩ := ih (f := f₁)
        (fun i hi => hsize₁ ▸ hin i (List.mem_cons_of_mem _ hi))
        (hapart.sublist ((List.sublist_cons_self e rest).filterMap Prod.fst))
      refine ⟨f', ?_, hsize.trans hsize₁, ?_, ?_⟩
      · simp only [store, bind_apply, hwrite, hstore]
      · intro i v hmem
        rcases List.mem_cons.mp hmem with rfl | hmem
        · rw [hkept i (hfresh i rfl)]
          exact hset i rfl
        · exact hfound i v hmem
      · intro i hi
        rw [List.map_cons, List.mem_cons, not_or] at hi
        rw [hkept i hi.2, hother i (Ne.symm hi.1)]

theorem phiValue_eq_ok_iff {block : Label} {φ : Code.Phi} {v : UInt64} :
    Interpreter.phiValue block pred ⟨f, out⟩ φ = .ok v ↔
      ∃ x, φ.Takes pred x ∧ x.read f = .ok v := by
  simp only [← Code.Phi.incomingFrom?_eq_some_iff]
  unfold Interpreter.phiValue
  cases φ.incomingFrom? pred with
  | none => simp
  | some x =>
      simp only [Machine.read, Option.some.injEq, exists_eq_left']
      cases x.read f with
      | error e =>
          constructor
          · intro h
            cases h
          · intro h
            cases h
      | ok w => simp

/-- Every phi finds its word among the words taken. -/
theorem exists_mem_zip {k : Code.Phi → Except Run UInt64} {phis : List Code.Phi} {vs : List UInt64}
    (h : phis.mapM k = .ok vs) {φ : Code.Phi} (hφ : φ ∈ phis) :
    ∃ v, k φ = .ok v ∧ (φ.dst, v) ∈ (phis.map Code.Phi.dst).zip vs := by
  have hall := mapM_eq_ok_iff.mp h
  clear h
  induction hall with
  | nil => cases hφ
  | @cons ψ v _ _ hv _ ih =>
      rcases List.mem_cons.mp hφ with rfl | hφ
      · exact ⟨v, hv, by simp⟩
      · obtain ⟨w, hw, hmem⟩ := ih hφ
        exact ⟨w, hw, by simp [hmem]⟩

open Code.Block (Assignable Edge)

variable {n : Nat}

/-- The words taken, once they are stored, are assigned. -/
theorem exists_assigns_store {vs : List UInt64} (hb : Assignable n b.phis) (hf : n ≤ f.size)
    (hvs : b.phis.mapM (Interpreter.phiValue b.id pred ⟨f, out⟩) = .ok vs) :
    ∃ f', store ((b.phis.map Code.Phi.dst).zip vs) f = .ok () f' ∧ b.Assigns pred f f' := by
  have hdsts : ((b.phis.map Code.Phi.dst).zip vs).map Prod.fst = b.phis.map Code.Phi.dst := by
    apply List.map_fst_zip
    simp [(mapM_eq_ok_iff.mp hvs).length_eq]
  have hin : ∀ i, some i ∈ ((b.phis.map Code.Phi.dst).zip vs).map Prod.fst → i < f.size := by
    intro i hi
    rw [hdsts] at hi
    obtain ⟨φ, hφ, hdst⟩ := List.mem_map.mp hi
    exact Nat.lt_of_lt_of_le (hb.writes φ hφ i hdst) hf
  have hapart : (((b.phis.map Code.Phi.dst).zip vs).filterMap Prod.fst).Nodup := by
    rw [← Function.id_comp Prod.fst, ← List.filterMap_map, hdsts, List.filterMap_map,
      Function.id_comp]
    exact hb.apart
  obtain ⟨f', hstore, hsize, hfound, hkept⟩ := store_apply hin hapart
  refine ⟨f', hstore, hsize, ?_, ?_⟩
  · intro φ hφ i hi
    obtain ⟨v, hv, hmem⟩ := exists_mem_zip hvs hφ
    obtain ⟨x, hx, hread⟩ := phiValue_eq_ok_iff.mp hv
    exact ⟨x, v, hx, hread, hfound i v (hi ▸ hmem)⟩
  · intro i hi
    apply hkept i
    rw [hdsts]
    simpa using hi

theorem exists_read_of_assignable (hb : Assignable n b.phis) (hf : n ≤ f.size) (pred : Label) :
    ∀ φ ∈ b.phis, ∀ x, φ.incomingFrom? pred = some x → ∃ v, x.read f = .ok v := by
  intro φ hφ x hx
  apply Operand.exists_read
  rintro i rfl
  exact Nat.lt_of_lt_of_le (hb.reads φ hφ pred i hx) hf

/-- Resolving the phis takes the edge. -/
theorem edge_resolve (hb : Assignable n b.phis) (hf : n ≤ f.size) (pred : Label) (out : Buffer) :
    b.Edge pred out f (resolve b pred out f) := by
  rw [resolve_apply]
  cases hvs : b.phis.mapM (Interpreter.phiValue b.id pred ⟨f, out⟩) with
  | error r =>
      -- a read cannot fail, so the failure is that of a phi without an entry
      obtain ⟨φ, hφ, hr⟩ := exists_of_mapM_eq_error hvs
      cases hx : φ.incomingFrom? pred with
      | some x =>
          obtain ⟨v, hv⟩ := exists_read_of_assignable hb hf pred φ hφ x hx
          have hok : Interpreter.phiValue b.id pred ⟨f, out⟩ φ = .ok v :=
            phiValue_eq_ok_iff.mpr ⟨x, Code.Phi.incomingFrom?_eq_some_iff.mp hx, hv⟩
          cases hr.symm.trans hok
      | none =>
          simp only [Interpreter.phiValue, hx, Except.error.injEq] at hr
          subst hr
          apply Edge.missing hφ
          simp [← Code.Phi.incomingFrom?_isSome_iff, hx]
  | ok vs =>
      obtain ⟨f', hstore, hassigns⟩ := exists_assigns_store hb hf hvs
      simp only [hstore]
      refine .assigned ?_ hassigns
      intro φ hφ
      obtain ⟨v, hv, -⟩ := exists_mem_zip hvs hφ
      obtain ⟨x, hx, -⟩ := phiValue_eq_ok_iff.mp hv
      simp [← Code.Phi.incomingFrom?_isSome_iff, Code.Phi.incomingFrom?_eq_some_iff.mpr hx]

end InPlace

/-- Registers that are listed once have slots that are listed once. -/
theorem Lower.nodup_filterMap_dest {layout rs : List Reg} (hl : Layout.Proper layout)
    (hrs : (Layout.named rs).Nodup) : (rs.filterMap (dest layout)).Nodup := by
  apply List.pairwise_filterMap.mpr
  apply (List.pairwise_filter.mp hrs).imp
  intro r r' hne i hi j hj hij
  subst hij
  obtain ⟨hlt, hr, -⟩ := List.idxOf?_eq_some_iff.mp hi
  obtain ⟨_, hr', -⟩ := List.idxOf?_eq_some_iff.mp hj
  have hsame : r = r' := hr.symm.trans hr'
  subst hsame
  have hz : r ≠ .zero := fun hz => hl.zero (hz ▸ mem_of_idxOf? hi)
  exact hne (by simpa using hz) (by simpa using hz) rfl

namespace Graph.LoweredAs

variable {g : Graph} {c : Code} {id : Label}

theorem nodup_named_phis {b : Block} (h : g.LoweredAs c) (hb : (id, b) ∈ g.walk) :
    (Layout.named (b.phis.map Phi.dst)).Nodup := by
  have hphis : List.Sublist (b.phis.map Phi.dst) b.defs :=
    (List.sublist_append_left _ _).trans (List.sublist_append_left _ _)
  have hblock : List.Sublist b.defs (g.walk.reverse.flatMap fun e => e.2.defs) := by
    rw [List.flatMap_def]
    exact List.sublist_flatten_of_mem (List.mem_map.mpr ⟨(id, b), List.mem_reverse.mpr hb, rfl⟩)
  exact (h.layout ▸ h.nodup).sublist ((hphis.trans hblock).filter _)

/-- Phis of an assembled block have slots of their own: a slot stands for one
register, and a register is defined once. -/
theorem assignable {b' : Code.Block} (h : g.LoweredAs c) (hb : c.block? id = some b') :
    Code.Block.Assignable c.frameSize b'.phis := by
  obtain ⟨b, hwalk, hlow⟩ := h.block id b' hb
  have hsound : b'.Sound c.frameSize := hlow.sound
  refine ⟨?_, ?_, ?_⟩
  · intro φ hφ pred i hx
    exact hsound.slot_lt_of_incomingFrom? hφ hx
  · intro φ hφ i hi
    exact hsound.dests i (List.mem_append_left _ (List.mem_map.mpr ⟨φ, hφ, hi⟩))
  · have hslots : b'.phis.filterMap Code.Phi.dst =
        (b.phis.map Phi.dst).filterMap (Lower.dest c.layout) := by
      rw [← Function.id_comp Code.Phi.dst, ← List.filterMap_map, Lower.map_dst_phis hlow.phis,
        List.filterMap_map, Function.id_comp]
    rw [hslots]
    exact Lower.nodup_filterMap_dest h.proper (h.nodup_named_phis hwalk)

end Graph.LoweredAs

/-- All phis of an assembled block are assigned at once, whichever block control
comes from and whatever the frame holds. The interpreter and staged code take
the edge in the same way, and so they would with the phis in any other order. -/
theorem phis_assigned_at_once {g : Graph} {h h' : Heap} {p : Program}
    (hp : g.assemble h = .ok (p, h')) {id : Label} {b : Code.Block} (hb : p.code.block? id = some b)
    (pred : Label) {f : Frame} (hf : p.code.frameSize ≤ f.size) (out : Buffer) :
    ∃ r, b.Edge pred out f r ∧
      ∀ phis b', phis.Perm b.phis → b' = { b with phis := phis } →
        InPlace.resolve b' pred out f = r ∧ InPlace.carry pred b' out f = r ∧
          Interpreter.resolve b' pred ⟨f, out⟩ = InPlace.settle out r ∧
          ∀ c a, c.block? id = some b' → a.id = pred → id ∈ a.exit.successors →
            Staged.cross (Staged.block c a) id ⟨f, out⟩ = InPlace.settle out r := by
  have hfit := (Graph.loweredAs_of_lower (Graph.lower_of_assemble hp)).assignable hb
  have hedge := InPlace.edge_resolve hfit hf pred out
  refine ⟨_, hedge, ?_⟩
  rintro phis b' hphis rfl
  generalize hb' : ({ b with phis := phis } : Code.Block) = b'
  have hfit' : Code.Block.Assignable p.code.frameSize b'.phis := by
    rw [← hb']
    exact hfit.perm hphis
  have hsame : InPlace.resolve b' pred out f = InPlace.resolve b pred out f := by
    have hedge' := InPlace.edge_resolve hfit' hf pred out
    rw [← hb'] at hedge' ⊢
    exact (hedge'.perm hphis).unique hedge
  have hcarry : InPlace.carry pred b' out f = InPlace.resolve b' pred out f :=
    InPlace.carry_eq_resolve (InPlace.exists_read_of_assignable hfit' hf pred)
  refine ⟨hsame, hcarry.trans hsame, ?_, ?_⟩
  · rw [← hsame, InPlace.settle_resolve]
  · rintro c a hc rfl hnext
    rw [← InPlace.settle_carry hc hnext, hcarry, hsame]

/-- A loop that swaps two words at every turn. A phi of the loop lists the loop
twice, and one throws its word away. -/
def Graph.swapLoop : Graph where
  blocks := #[
    ⟨0, [], [.arg (.scalar 0) 0, .arg (.scalar 1) 1, .arg (.scalar 2) 2], .jump 1⟩,
    ⟨1, [⟨.scalar 3, [(0, .scalar 0), (1, .scalar 4), (1, .scalar 2)]⟩,
      ⟨.scalar 4, [(1, .scalar 3), (0, .scalar 1)]⟩,
      ⟨.zero, [(0, .scalar 2), (1, .scalar 3)]⟩], [], .branch (.scalar 2) 1 2⟩,
    ⟨2, [], [], .ret [.scalar 3, .scalar 4]⟩]
  entry := 0
  nextReg := 5
  entry_lt := by decide

/-- The two words are swapped, with the phis in either order. -/
theorem phis_assigned_at_once_swapLoop :
    ∃ p h' b, Graph.swapLoop.assemble {} = .ok (p, h') ∧ p.code.block? 1 = some b ∧
      b.Edge 1 #[] #[7, 8, 9, 1, 2] (.ok () #[7, 8, 9, 2, 1]) ∧
      InPlace.carry 1 { b with phis := b.phis.reverse } #[] #[7, 8, 9, 1, 2] =
        .ok () #[7, 8, 9, 2, 1] ∧
      b.Edge 2 #[] #[7, 8, 9, 1, 2] (.error (.failed (.phiMismatch 1 2) #[]) #[7, 8, 9, 1, 2]) := by
  obtain ⟨p, h', hp⟩ := Graph.exists_assemble_of_isOk (g := .swapLoop) (by decide +kernel) {}
  have hvalues : (Graph.swapLoop.assemble {}).toOption.map
      (fun x => (x.1.code.frameSize, x.1.code.block? 1)) = some (5, some ⟨1,
        [⟨some 3, [(0, .slot 0), (1, .slot 4), (1, .slot 2)]⟩,
          ⟨some 4, [(1, .slot 3), (0, .slot 1)]⟩, ⟨none, [(0, .slot 2), (1, .slot 3)]⟩],
        [], .branch (.slot 2) 1 2⟩) := by
    decide +kernel
  rw [hp] at hvalues
  obtain ⟨hsize, hb⟩ := Prod.mk.inj (Option.some.inj hvalues)
  have hf : p.code.frameSize ≤ (#[7, 8, 9, 1, 2] : Frame).size := Nat.le_of_eq hsize
  obtain ⟨r, hloop, hswap⟩ := phis_assigned_at_once hp hb 1 hf #[]
  obtain ⟨r', hstray, hstop⟩ := phis_assigned_at_once hp hb 2 hf #[]
  obtain rfl := (hswap _ _ (.refl _) rfl).1
  obtain rfl := (hstop _ _ (.refl _) rfl).1
  exact ⟨p, h', _, hp, hb, hloop, (hswap _ _ (List.reverse_perm _) rfl).2.1, hstray⟩

end WireFlow
