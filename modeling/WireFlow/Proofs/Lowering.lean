import WireFlow.Proofs.Layout

/-!
# Lowering nodes and blocks

Every lowering function is described twice: by a relation between a node and
its lowered form, and by the condition under which a lowered form exists. Later
arguments go by cases on the relations and need not open the functions again.
-/

namespace WireFlow

open Sequencing
open Code (Op Exit)

namespace Instr

/-- What the instruction set asks of an instruction, its registers apart. -/
def Fits : Instr → Prop
  | const _ _ => True
  | arg _ _ => True
  | binary _ _ _ _ => True
  | emit _ w => w ∈ Lower.widths
  | call h args results =>
      ∃ f, Callee.ofHandle? h = some f ∧ args.length = f.argCount ∧ results.length ≤ f.resultCount
  | nop => False
  | foreign _ _ => False

instance : DecidablePred Fits
  | const _ _ => isTrue trivial
  | arg _ _ => isTrue trivial
  | binary _ _ _ _ => isTrue trivial
  | emit _ _ => inferInstanceAs (Decidable (_ ∈ _))
  | call _ _ _ => inferInstanceAs (Decidable (∃ _, _ ∧ _))
  | nop => isFalse id
  | foreign _ _ => isFalse id

theorem Fits.supported {i : Instr} (h : i.Fits) : Layout.supported i = true := by
  cases i with
  | nop => exact h.elim
  | foreign f e => exact h.elim
  | _ => rfl

end Instr

namespace Terminator

/-- The terminator belongs to the instruction set. -/
def Known : Terminator → Prop
  | foreign _ _ => False
  | _ => True

instance : DecidablePred Known
  | ret _ => isTrue trivial
  | jump _ => isTrue trivial
  | branch _ _ _ => isTrue trivial
  | switch _ _ _ => isTrue trivial
  | foreign _ _ => isFalse id

theorem Known.defs_eq_nil {t : Terminator} (h : t.Known) : t.defs = [] := by
  cases t with
  | foreign f succs => exact h.elim
  | _ => rfl

end Terminator

namespace Lower

variable {layout : List Reg} {size : Nat} {preds : List Label} {id : Label}

theorem lt_of_idxOf? {r : Reg} {i : Nat} (h : layout.idxOf? r = some i) : i < layout.length :=
  (List.idxOf?_eq_some_iff.mp h).1

theorem mem_of_idxOf? {r : Reg} {i : Nat} (h : layout.idxOf? r = some i) : r ∈ layout :=
  List.isSome_idxOf?.mp (by simp [h])

theorem exists_idxOf?_of_mem {r : Reg} (h : r ∈ layout) : ∃ i, layout.idxOf? r = some i :=
  Option.isSome_iff_exists.mp (List.isSome_idxOf?.mpr h)

/-- Reading the register becomes reading the operand. -/
inductive ReadAs (layout : List Reg) : Reg → Operand → Prop
  | zero : ReadAs layout .zero .zero
  | slot {r : Reg} {i : Nat} (hr : r ≠ .zero) (hi : layout.idxOf? r = some i) :
      ReadAs layout r (.slot i)

theorem operand_eq_ok_iff {r : Reg} {x : Operand} :
    operand layout id r = .ok x ↔ ReadAs layout r x := by
  unfold operand
  by_cases hr : r = .zero
  · subst hr
    simp only [if_true, Except.ok.injEq]
    constructor
    · rintro rfl
      exact .zero
    · intro h
      cases h with
      | zero => rfl
      | slot hr _ => exact absurd rfl hr
  · simp only [hr, if_false]
    constructor
    · intro h
      cases hi : layout.idxOf? r with
      | none => simp [hi] at h
      | some i =>
          simp only [hi, Except.ok.injEq] at h
          exact h ▸ .slot hr hi
    · intro h
      cases h with
      | zero => exact absurd rfl hr
      | slot _ hi => simp [hi]

theorem exists_readAs_iff {r : Reg} : (∃ x, ReadAs layout r x) ↔ r = .zero ∨ r ∈ layout := by
  constructor
  · rintro ⟨x, h⟩
    cases h with
    | zero => exact Or.inl rfl
    | slot _ hi => exact Or.inr (mem_of_idxOf? hi)
  · rintro (rfl | hr)
    · exact ⟨_, .zero⟩
    · by_cases hz : r = .zero
      · subst hz
        exact ⟨_, .zero⟩
      · obtain ⟨i, hi⟩ := exists_idxOf?_of_mem hr
        exact ⟨_, .slot hz hi⟩

theorem operands_eq_ok_iff (id : Label) {rs : List Reg} {xs : List Operand} :
    operands layout id rs = .ok xs ↔ List.Forall₂ (ReadAs layout) rs xs := by
  simp only [operands, mapM_eq_ok_iff, operand_eq_ok_iff]

theorem exists_readAs_all_iff {rs : List Reg} :
    (∃ xs, List.Forall₂ (ReadAs layout) rs xs) ↔ ∀ r ∈ rs, r = .zero ∨ r ∈ layout := by
  simp only [← operands_eq_ok_iff 0, operands, exists_mapM_eq_ok_iff, operand_eq_ok_iff,
    exists_readAs_iff]

theorem le_of_mem_widths {w : Nat} (h : w ∈ widths) : w ≤ 8 := by
  simp only [widths, List.mem_cons, List.not_mem_nil, or_false] at h
  omega

/-- The instruction becomes the operation. -/
inductive InstrAs (layout : List Reg) : Instr → Op → Prop
  | const (r : Reg) (v : UInt64) : InstrAs layout (.const r v) (.const (dest layout r) v)
  | arg (r : Reg) (k : Nat) : InstrAs layout (.arg r k) (.arg (dest layout r) k)
  | binary (r : Reg) (op : BinOp) {x y : Reg} {x' y' : Operand} (hx : ReadAs layout x x')
      (hy : ReadAs layout y y') :
      InstrAs layout (.binary r op x y) (.binary (dest layout r) op x' y')
  | emit {v : Reg} {v' : Operand} {w : Nat} (hw : w ∈ widths) (hv : ReadAs layout v v') :
      InstrAs layout (.emit v w) (.emit v' w)
  | call {h : Nat} {f : Callee} {args results : List Reg} {xs : List Operand}
      (hf : Callee.ofHandle? h = some f) (hargs : args.length = f.argCount)
      (hresults : results.length ≤ f.resultCount)
      (hxs : List.Forall₂ (ReadAs layout) args xs) :
      InstrAs layout (.call h args results) (.call f xs (results.map (dest layout)))

theorem call_eq_ok_iff {h : Nat} {args results : List Reg} {op : Op} :
    call layout id h args results = .ok op ↔ InstrAs layout (.call h args results) op := by
  unfold call
  constructor
  · intro hc
    cases hf : Callee.ofHandle? h with
    | none => simp [hf] at hc
    | some f =>
        simp only [hf] at hc
        split at hc
        · cases hc
        · split at hc
          · cases hc
          · obtain ⟨xs, hxs, hop⟩ := bind_eq_ok_iff.mp hc
            cases hop
            exact .call hf (by omega) (by omega) ((operands_eq_ok_iff id).mp hxs)
  · intro hc
    cases hc with
    | call hf hargs hresults hxs =>
        simp only [hf, hargs, ne_eq, not_true_eq_false, if_false, Nat.not_lt.mpr hresults,
          (operands_eq_ok_iff id).mpr hxs, ok_bind, pure_eq_ok]

theorem instr_eq_ok_iff {i : Instr} {op : Op} :
    instr layout id i = .ok op ↔ InstrAs layout i op := by
  cases i with
  | const r v =>
      simp only [instr, Except.ok.injEq]
      constructor
      · rintro rfl
        exact .const r v
      · rintro ⟨⟩
        rfl
  | arg r k =>
      simp only [instr, Except.ok.injEq]
      constructor
      · rintro rfl
        exact .arg r k
      · rintro ⟨⟩
        rfl
  | binary r op x y =>
      simp only [instr, bind_eq_ok_iff, operand_eq_ok_iff, pure_eq_ok, Except.ok.injEq]
      constructor
      · rintro ⟨x', hx, y', hy, rfl⟩
        exact .binary r op hx hy
      · rintro (_ | _ | ⟨_, _, hx, hy⟩)
        exact ⟨_, hx, _, hy, rfl⟩
  | emit v w =>
      by_cases hw : w ∈ widths
      · simp only [instr, hw, if_true, bind_eq_ok_iff, operand_eq_ok_iff, pure_eq_ok,
          Except.ok.injEq]
        constructor
        · rintro ⟨v', hv, rfl⟩
          exact .emit hw hv
        · intro h
          cases h with
          | emit _ hv => exact ⟨_, hv, rfl⟩
      · simp only [instr, hw, if_false, reduceCtorEq, false_iff]
        intro h
        cases h with
        | emit hw' _ => exact hw hw'
  | call h args results => exact call_eq_ok_iff
  | nop =>
      simp only [instr, reduceCtorEq, false_iff]
      rintro ⟨⟩
  | foreign f e =>
      simp only [instr, reduceCtorEq, false_iff]
      rintro ⟨⟩

/-- An instruction can be lowered if it fits and reads what has a slot. -/
theorem exists_instrAs_iff {i : Instr} :
    (∃ op, InstrAs layout i op) ↔ i.Fits ∧ ∀ r ∈ i.uses, r = .zero ∨ r ∈ layout := by
  constructor
  · rintro ⟨op, h⟩
    cases h with
    | const r v => exact ⟨trivial, by simp [Instr.uses]⟩
    | arg r k => exact ⟨trivial, by simp [Instr.uses]⟩
    | binary r op hx hy =>
        refine ⟨trivial, ?_⟩
        simp only [Instr.uses, List.forall_mem_cons, List.not_mem_nil, false_imp_iff,
          implies_true, and_true]
        exact ⟨exists_readAs_iff.mp ⟨_, hx⟩, exists_readAs_iff.mp ⟨_, hy⟩⟩
    | emit hw hv =>
        refine ⟨hw, ?_⟩
        simpa [Instr.uses] using exists_readAs_iff.mp ⟨_, hv⟩
    | call hf hargs hresults hxs =>
        exact ⟨⟨_, hf, hargs, hresults⟩, exists_readAs_all_iff.mp ⟨_, hxs⟩⟩
  · rintro ⟨hfit, huses⟩
    cases i with
    | const r v => exact ⟨_, .const r v⟩
    | arg r k => exact ⟨_, .arg r k⟩
    | binary r op x y =>
        obtain ⟨x', hx⟩ := exists_readAs_iff.mpr (huses x (by simp [Instr.uses]))
        obtain ⟨y', hy⟩ := exists_readAs_iff.mpr (huses y (by simp [Instr.uses]))
        exact ⟨_, .binary r op hx hy⟩
    | emit v w =>
        obtain ⟨v', hv⟩ := exists_readAs_iff.mpr (huses v (by simp [Instr.uses]))
        exact ⟨_, .emit hfit hv⟩
    | call h args results =>
        obtain ⟨f, hf, hargs, hresults⟩ := hfit
        obtain ⟨xs, hxs⟩ := exists_readAs_all_iff.mpr huses
        exact ⟨_, .call hf hargs hresults hxs⟩
    | nop => exact hfit.elim
    | foreign f e => exact hfit.elim

/-- The phi becomes the lowered phi, entry by entry. -/
structure PhiAs (layout : List Reg) (φ : Phi) (φ' : Code.Phi) : Prop where
  dst : φ'.dst = dest layout φ.dst
  incoming : List.Forall₂ (fun e e' => e'.1 = e.1 ∧ ReadAs layout e.2 e'.2) φ.incoming φ'.incoming

theorem incoming_eq_ok_iff {dst : Reg} {e : Label × Reg} {e' : Label × Operand} :
    incoming layout size preds id dst e = .ok e' ↔
      (e.1 < size ∧ e.1 ∈ preds) ∧ e'.1 = e.1 ∧ ReadAs layout e.2 e'.2 := by
  unfold incoming
  by_cases hs : size ≤ e.1
  · simp only [hs, if_true, reduceCtorEq, false_iff]
    rintro ⟨⟨hlt, _⟩, _⟩
    exact Nat.not_lt.mpr hs hlt
  · by_cases hp : e.1 ∈ preds
    · simp only [hs, if_false, hp, not_true_eq_false, bind_eq_ok_iff, operand_eq_ok_iff,
        pure_eq_ok, Except.ok.injEq, Nat.lt_of_not_le hs, true_and]
      constructor
      · rintro ⟨x, hx, rfl⟩
        exact ⟨rfl, hx⟩
      · rintro ⟨he, hx⟩
        exact ⟨e'.2, hx, Prod.ext he.symm rfl⟩
    · simp [hs, hp]

theorem phi_eq_ok_iff {φ : Phi} {φ' : Code.Phi} :
    phi layout size preds id φ = .ok φ' ↔
      (∀ e ∈ φ.incoming, e.1 < size ∧ e.1 ∈ preds) ∧ PhiAs layout φ φ' := by
  simp only [phi, bind_eq_ok_iff, mapM_eq_ok_iff, incoming_eq_ok_iff, List.forall₂_and_left,
    pure_eq_ok, Except.ok.injEq]
  constructor
  · rintro ⟨es, ⟨hin, hes⟩, rfl⟩
    exact ⟨hin, rfl, hes⟩
  · rintro ⟨hin, hdst, hes⟩
    refine ⟨φ'.incoming, ⟨hin, hes⟩, ?_⟩
    rw [← hdst]

theorem exists_phi_eq_ok_iff {φ : Phi} :
    (∃ φ', phi layout size preds id φ = .ok φ') ↔
      (∀ e ∈ φ.incoming, e.1 < size ∧ e.1 ∈ preds) ∧ ∀ r ∈ φ.uses, r = .zero ∨ r ∈ layout := by
  have hloop : (∃ φ', phi layout size preds id φ = .ok φ') ↔
      ∃ es, φ.incoming.mapM (incoming layout size preds id φ.dst) = .ok es := by
    simp only [phi, bind_eq_ok_iff, pure_eq_ok, Except.ok.injEq]
    constructor
    · rintro ⟨_, es, hes, _⟩
      exact ⟨es, hes⟩
    · rintro ⟨es, hes⟩
      exact ⟨_, es, hes, rfl⟩
  have hentry (e : Label × Reg) :
      (∃ e', incoming layout size preds id φ.dst e = .ok e') ↔
        (e.1 < size ∧ e.1 ∈ preds) ∧ (e.2 = .zero ∨ e.2 ∈ layout) := by
    simp only [incoming_eq_ok_iff, ← exists_readAs_iff]
    constructor
    · rintro ⟨e', hin, _, hx⟩
      exact ⟨hin, _, hx⟩
    · rintro ⟨hin, x, hx⟩
      exact ⟨(e.1, x), hin, rfl, hx⟩
  rw [hloop, exists_mapM_eq_ok_iff]
  simp only [hentry, Phi.uses, List.forall_mem_map]
  constructor
  · intro h
    exact ⟨fun e he => (h e he).1, fun e he => (h e he).2⟩
  · rintro ⟨hin, huses⟩ e he
    exact ⟨hin e he, huses e he⟩

/-- The terminator becomes the exit. -/
inductive ExitAs (layout : List Reg) : Terminator → Exit → Prop
  | ret {values : List Reg} {xs : List Operand} (h : List.Forall₂ (ReadAs layout) values xs) :
      ExitAs layout (.ret values) (.ret xs)
  | jump (target : Label) : ExitAs layout (.jump target) (.jump target)
  | branch {cond : Reg} {x : Operand} (target otherwise : Label) (h : ReadAs layout cond x) :
      ExitAs layout (.branch cond target otherwise) (.branch x target otherwise)
  | switch {value : Reg} {x : Operand} (targets : List Label) (default : Label)
      (h : ReadAs layout value x) :
      ExitAs layout (.switch value targets default) (.switch x targets default)

theorem ExitAs.successors_eq {t : Terminator} {x : Exit} (h : ExitAs layout t x) :
    x.successors = t.successors := by
  cases h <;> rfl

theorem terminator_eq_ok_iff {t : Terminator} {x : Exit} :
    terminator layout id t = .ok x ↔ ExitAs layout t x := by
  cases t with
  | ret values =>
      simp only [terminator, bind_eq_ok_iff, operands_eq_ok_iff, pure_eq_ok, Except.ok.injEq]
      constructor
      · rintro ⟨xs, hxs, rfl⟩
        exact .ret hxs
      · rintro ⟨hxs⟩
        exact ⟨_, hxs, rfl⟩
  | jump target =>
      simp only [terminator, Except.ok.injEq]
      constructor
      · rintro rfl
        exact .jump target
      · rintro ⟨⟩
        rfl
  | branch cond target otherwise =>
      simp only [terminator, bind_eq_ok_iff, operand_eq_ok_iff, pure_eq_ok, Except.ok.injEq]
      constructor
      · rintro ⟨x, hx, rfl⟩
        exact .branch target otherwise hx
      · intro h
        cases h with
        | branch _ _ hx => exact ⟨_, hx, rfl⟩
  | switch value targets default =>
      simp only [terminator, bind_eq_ok_iff, operand_eq_ok_iff, pure_eq_ok, Except.ok.injEq]
      constructor
      · rintro ⟨x, hx, rfl⟩
        exact .switch targets default hx
      · intro h
        cases h with
        | switch _ _ hx => exact ⟨_, hx, rfl⟩
  | foreign f succs =>
      simp only [terminator, reduceCtorEq, false_iff]
      rintro ⟨⟩

theorem exit_eq_ok_iff {t : Terminator} {x : Exit} :
    exit layout size id t = .ok x ↔ (∀ next ∈ t.successors, next < size) ∧ ExitAs layout t x := by
  unfold exit
  cases hfind : t.successors.find? (size ≤ ·) with
  | some target =>
      have hbad : size ≤ target := by simpa using List.find?_some hfind
      simp only [reduceCtorEq, false_iff, not_and]
      intro hin
      exact absurd (hin target (List.mem_of_find?_eq_some hfind)) (Nat.not_lt.mpr hbad)
  | none =>
      have hin : ∀ next ∈ t.successors, next < size := by
        simpa [List.find?_eq_none] using hfind
      simp only [terminator_eq_ok_iff]
      exact ⟨fun h => ⟨hin, h⟩, fun h => h.2⟩

theorem exists_exitAs_iff {t : Terminator} :
    (∃ x, ExitAs layout t x) ↔ t.Known ∧ ∀ r ∈ t.uses, r = .zero ∨ r ∈ layout := by
  constructor
  · rintro ⟨x, h⟩
    cases h with
    | ret h => exact ⟨trivial, exists_readAs_all_iff.mp ⟨_, h⟩⟩
    | jump target => exact ⟨trivial, by simp [Terminator.uses]⟩
    | branch _ _ h =>
        refine ⟨trivial, ?_⟩
        simpa [Terminator.uses] using exists_readAs_iff.mp ⟨_, h⟩
    | switch _ _ h =>
        refine ⟨trivial, ?_⟩
        simpa [Terminator.uses] using exists_readAs_iff.mp ⟨_, h⟩
  · rintro ⟨hknown, huses⟩
    cases t with
    | ret values =>
        obtain ⟨xs, hxs⟩ := exists_readAs_all_iff.mpr huses
        exact ⟨_, .ret hxs⟩
    | jump target => exact ⟨_, .jump target⟩
    | branch cond target otherwise =>
        obtain ⟨x, hx⟩ := exists_readAs_iff.mpr (huses cond (by simp [Terminator.uses]))
        exact ⟨_, .branch target otherwise hx⟩
    | switch value targets default =>
        obtain ⟨x, hx⟩ := exists_readAs_iff.mpr (huses value (by simp [Terminator.uses]))
        exact ⟨_, .switch targets default hx⟩
    | foreign f succs => exact hknown.elim

/-- The block becomes the lowered block of the same name. -/
structure BlockAs (layout : List Reg) (id : Label) (b : Block) (b' : Code.Block) : Prop where
  id : b'.id = id
  phis : List.Forall₂ (PhiAs layout) b.phis b'.phis
  ops : List.Forall₂ (InstrAs layout) b.instrs b'.ops
  exit : ExitAs layout b.term b'.exit

/-- What lowering asks of a block with the given predecessors, the registers
it reads apart. -/
structure BlockFits (size : Nat) (preds : List Label) (b : Block) : Prop where
  incoming : ∀ φ ∈ b.phis, ∀ e ∈ φ.incoming, e.1 < size ∧ e.1 ∈ preds
  instrs : ∀ i ∈ b.instrs, i.Fits
  known : b.term.Known
  inside : ∀ next ∈ b.term.successors, next < size

theorem block_eq_ok_iff {predsOf : Label → List Label} {b : Block} {b' : Code.Block} :
    block layout size predsOf (id, b) = .ok b' ↔
      ((∀ φ ∈ b.phis, ∀ e ∈ φ.incoming, e.1 < size ∧ e.1 ∈ predsOf id) ∧
        ∀ next ∈ b.term.successors, next < size) ∧ BlockAs layout id b b' := by
  simp only [block, bind_eq_ok_iff, mapM_eq_ok_iff, phi_eq_ok_iff, List.forall₂_and_left,
    instr_eq_ok_iff, exit_eq_ok_iff, pure_eq_ok, Except.ok.injEq]
  constructor
  · rintro ⟨phis, ⟨hin, hphis⟩, ops, hops, x, ⟨hnext, hx⟩, rfl⟩
    exact ⟨⟨hin, hnext⟩, rfl, hphis, hops, hx⟩
  · rintro ⟨⟨hin, hnext⟩, hid, hphis, hops, hx⟩
    refine ⟨_, ⟨hin, hphis⟩, _, hops, _, ⟨hnext, hx⟩, ?_⟩
    rw [← hid]

theorem exists_block_eq_ok_iff {predsOf : Label → List Label} {b : Block} :
    (∃ b', block layout size predsOf (id, b) = .ok b') ↔
      BlockFits size (predsOf id) b ∧ ∀ r ∈ b.uses, r = .zero ∨ r ∈ layout := by
  have hparts : (∃ b', block layout size predsOf (id, b) = .ok b') ↔
      (∀ φ ∈ b.phis, ∃ φ', phi layout size (predsOf id) id φ = .ok φ') ∧
        (∀ i ∈ b.instrs, ∃ op, instr layout id i = .ok op) ∧
        ∃ x, exit layout size id b.term = .ok x := by
    simp only [← exists_mapM_eq_ok_iff, block, bind_eq_ok_iff, pure_eq_ok, Except.ok.injEq]
    constructor
    · rintro ⟨_, phis, hphis, ops, hops, x, hx, _⟩
      exact ⟨⟨phis, hphis⟩, ⟨ops, hops⟩, ⟨x, hx⟩⟩
    · rintro ⟨⟨phis, hphis⟩, ⟨ops, hops⟩, ⟨x, hx⟩⟩
      exact ⟨_, phis, hphis, ops, hops, x, hx, rfl⟩
  simp only [hparts, exists_phi_eq_ok_iff, instr_eq_ok_iff, exists_instrAs_iff, exit_eq_ok_iff,
    exists_and_left, exists_exitAs_iff, Block.uses, List.forall_mem_append, List.forall_mem_flatMap]
  constructor
  · rintro ⟨hphis, hinstrs, hnext, hknown, hterm⟩
    exact ⟨⟨fun φ hφ => (hphis φ hφ).1, fun i hi => (hinstrs i hi).1, hknown, hnext⟩,
      ⟨fun φ hφ => (hphis φ hφ).2, fun i hi => (hinstrs i hi).2⟩, hterm⟩
  · rintro ⟨⟨hin, hfits, hknown, hnext⟩, ⟨hphis, hinstrs⟩, hterm⟩
    exact ⟨fun φ hφ => ⟨hin φ hφ, hphis φ hφ⟩, fun i hi => ⟨hfits i hi, hinstrs i hi⟩, hnext,
      hknown, hterm⟩

/-- A row with lowered blocks put into it shows the last block of each name. -/
theorem getElem?_foldl_set (lowered : List Code.Block) (row : Array (Option Code.Block))
    (id : Label) :
    (lowered.foldl (fun row b => row.setIfInBounds b.id (some b)) row)[id]? =
      row[id]?.map fun old => (lowered.reverse.find? fun b => b.id == id).or old := by
  induction lowered generalizing row with
  | nil => simp
  | cons b rest ih =>
      rw [List.foldl_cons, ih, List.reverse_cons, List.find?_append, Array.getElem?_setIfInBounds]
      by_cases hid : b.id = id
      · subst hid
        cases hr : row[b.id]? with
        | none =>
            have hlen : ¬b.id < row.size := by simpa using hr
            simp [hlen]
        | some old =>
            have hlen : b.id < row.size := (Array.getElem?_eq_some_iff.mp hr).1
            simp [hlen]
      · simp [hid]

theorem block?_arrange {lowered : List Code.Block} {entry : Label} {argCount : Nat}
    (h : id < size) :
    Code.block? ⟨arrange size lowered, entry, layout, argCount⟩ id =
      lowered.reverse.find? fun b => b.id == id := by
  have hrow : (Array.replicate size (none : Option Code.Block))[id]? = some none := by simp [h]
  simp only [Code.block?, arrange, getElem?_foldl_set, hrow, Option.map_some, Option.or_none]

theorem block?_arrange_of_le {lowered : List Code.Block} {entry : Label} {argCount : Nat}
    (h : size ≤ id) : Code.block? ⟨arrange size lowered, entry, layout, argCount⟩ id = none := by
  have hrow : (Array.replicate size (none : Option Code.Block))[id]? = none := by simp [h]
  simp only [Code.block?, arrange, getElem?_foldl_set, hrow, Option.map_none]

/-- Whatever is found at a label has been put there. -/
theorem mem_of_block?_arrange {lowered : List Code.Block} {entry : Label} {argCount : Nat}
    {b : Code.Block} (h : Code.block? ⟨arrange size lowered, entry, layout, argCount⟩ id = some b) :
    b ∈ lowered ∧ b.id = id := by
  by_cases hlt : id < size
  · rw [block?_arrange hlt] at h
    exact ⟨List.mem_reverse.mp (List.mem_of_find?_eq_some h), by simpa using List.find?_some h⟩
  · rw [block?_arrange_of_le (Nat.le_of_not_lt hlt)] at h
    cases h

end Lower

end WireFlow
