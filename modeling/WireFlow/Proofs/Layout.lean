import Mathlib.Data.List.Nodup
import WireFlow.Code.Lower
import WireFlow.Proofs.Sequencing

/-!
# The layout of a frame

Handing out slots succeeds exactly when all instructions belong to the
instruction set and no register is defined twice. The layout is then the row
of defined registers, the sentinel left out.
-/

namespace WireFlow

open Sequencing

namespace Layout

/-- The registers of a row that need a slot. -/
def named (rs : List Reg) : List Reg := rs.filter (· ≠ .zero)

@[simp] theorem mem_named {r : Reg} {rs : List Reg} : r ∈ named rs ↔ r ∈ rs ∧ r ≠ .zero := by
  simp [named]

@[simp] theorem named_nil : named [] = [] := rfl

theorem named_append (rs ss : List Reg) : named (rs ++ ss) = named rs ++ named ss :=
  List.filter_append ..

/-- A loop whose steps append registers, and fail on a repeated one, appends
the registers of all its items. -/
theorem foldlM_eq_ok_iff {α : Type} {f : List Reg → α → Except Rejection (List Reg)}
    {P : α → Prop} {D : α → List Reg}
    (hf : ∀ layout x out, layout.Nodup →
      (f layout x = .ok out ↔ P x ∧ out = layout ++ named (D x) ∧ out.Nodup))
    (xs : List α) {layout out : List Reg} (hl : layout.Nodup) :
    xs.foldlM f layout = .ok out ↔
      (∀ x ∈ xs, P x) ∧ out = layout ++ named (xs.flatMap D) ∧ out.Nodup := by
  induction xs generalizing layout with
  | nil =>
      simp only [List.foldlM_nil, pure_eq_ok, Except.ok.injEq, List.not_mem_nil, false_imp_iff,
        implies_true, List.flatMap_nil, named_nil, List.append_nil, true_and]
      constructor
      · rintro rfl
        exact ⟨rfl, hl⟩
      · rintro ⟨rfl, _⟩
        rfl
  | cons x xs ih =>
      simp only [List.foldlM_cons, bind_eq_ok_iff, List.forall_mem_cons, List.flatMap_cons,
        named_append, ← List.append_assoc]
      constructor
      · rintro ⟨mid, hx, hxs⟩
        obtain ⟨hp, rfl, hmid⟩ := (hf _ _ _ hl).mp hx
        obtain ⟨hps, hout, hnodup⟩ := (ih hmid).mp hxs
        exact ⟨⟨hp, hps⟩, hout, hnodup⟩
      · rintro ⟨⟨hp, hps⟩, rfl, hnodup⟩
        have hmid := hnodup.of_append_left
        exact ⟨_, (hf _ _ _ hl).mpr ⟨hp, rfl, hmid⟩, (ih hmid).mpr ⟨hps, rfl, hnodup⟩⟩

theorem define_eq_ok_iff (layout : List Reg) (r : Reg) (out : List Reg) (hl : layout.Nodup) :
    define layout r = .ok out ↔ True ∧ out = layout ++ named [r] ∧ out.Nodup := by
  unfold define
  by_cases hz : r = .zero
  · simp only [hz, if_true, Except.ok.injEq, named, ne_eq, not_true_eq_false, decide_false,
      List.filter_cons_of_neg, Bool.false_eq_true, not_false_eq_true, List.filter_nil,
      List.append_nil, true_and]
    constructor
    · rintro rfl
      exact ⟨rfl, hl⟩
    · rintro ⟨rfl, _⟩
      rfl
  · have hnamed : named [r] = [r] := by simp [named, hz]
    by_cases hr : r ∈ layout
    · simp only [hz, if_false, hr, if_true, hnamed, reduceCtorEq, false_iff, true_and, not_and]
      rintro rfl hnodup
      exact List.disjoint_of_nodup_append hnodup hr (List.mem_singleton.mpr rfl)
    · simp only [hz, if_false, hr, hnamed, Except.ok.injEq, true_and]
      constructor
      · rintro rfl
        exact ⟨rfl, List.nodup_append'.mpr ⟨hl, List.nodup_singleton r, by simpa using hr⟩⟩
      · rintro ⟨rfl, _⟩
        rfl

theorem defineAll_eq_ok_iff {layout rs out : List Reg} (hl : layout.Nodup) :
    defineAll layout rs = .ok out ↔ out = layout ++ named rs ∧ out.Nodup := by
  rw [defineAll, foldlM_eq_ok_iff (P := fun _ => True) (D := fun r => [r]) define_eq_ok_iff rs hl]
  simp

theorem addInstr_eq_ok_iff (id : Label) (layout : List Reg) (i : Instr) (out : List Reg)
    (hl : layout.Nodup) :
    addInstr id layout i = .ok out ↔
      supported i = true ∧ out = layout ++ named i.defs ∧ out.Nodup := by
  unfold addInstr
  by_cases hs : supported i = true
  · simp [hs, defineAll_eq_ok_iff hl]
  · simp [hs]

theorem addBlock_eq_ok_iff (layout : List Reg) (b : Label × Block) (out : List Reg)
    (hl : layout.Nodup) :
    addBlock layout b = .ok out ↔
      (∀ i ∈ b.2.instrs, supported i = true) ∧
        out = layout ++ named (b.2.phis.map Phi.dst ++ b.2.instrs.flatMap Instr.defs) ∧
        out.Nodup := by
  have hinstrs {mid : List Reg} (hmid : mid.Nodup) :
      b.2.instrs.foldlM (addInstr b.1) mid = .ok out ↔ _ :=
    foldlM_eq_ok_iff (P := fun i => supported i = true) (D := Instr.defs)
      (addInstr_eq_ok_iff b.1) b.2.instrs hmid
  simp only [addBlock, bind_eq_ok_iff, defineAll_eq_ok_iff hl, named_append]
  constructor
  · rintro ⟨mid, ⟨rfl, hmid⟩, h⟩
    obtain ⟨hs, rfl, hout⟩ := (hinstrs hmid).mp h
    exact ⟨hs, List.append_assoc .., hout⟩
  · rintro ⟨hs, hout, hnodup⟩
    rw [← List.append_assoc] at hout
    have hmid := (hout ▸ hnodup).of_append_left
    exact ⟨_, ⟨rfl, hmid⟩, (hinstrs hmid).mpr ⟨hs, hout, hnodup⟩⟩

/-- When slots can be handed out, and which. -/
theorem ofBlocks_eq_ok_iff {bs : List (Label × Block)} {out : List Reg} :
    ofBlocks bs = .ok out ↔
      (∀ b ∈ bs, ∀ i ∈ b.2.instrs, supported i = true) ∧
        out = named (bs.flatMap fun b =>
          b.2.phis.map Phi.dst ++ b.2.instrs.flatMap Instr.defs) ∧
        out.Nodup := by
  rw [ofBlocks, foldlM_eq_ok_iff (P := fun b => ∀ i ∈ b.2.instrs, supported i = true)
    (D := fun b => b.2.phis.map Phi.dst ++ b.2.instrs.flatMap Instr.defs) addBlock_eq_ok_iff bs
    List.nodup_nil]
  simp

end Layout

end WireFlow
