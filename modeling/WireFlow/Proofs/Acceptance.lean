import Mathlib.Data.List.Perm.Basic
import WireFlow.Program
import WireFlow.Proofs.Lowering
import WireFlow.Proofs.Walk

/-!
# Which graphs are accepted

A graph can be lowered exactly when it is `Lowerable`, a condition on its
reachable blocks alone. The code then holds the lowered form of every reachable
block under the block's own name, and nothing else.
-/

namespace WireFlow

open Sequencing

namespace Graph

/-- What lowering asks of a graph. -/
structure Lowerable (g : Graph) : Prop where
  entry : ∀ b, g.block? g.entry = some b → b.phis = []
  blocks : ∀ id b, (id, b) ∈ g.walk → Lower.BlockFits g.size (g.predecessors.getD id []) b
  single : (Layout.named g.defs).Nodup
  defined : ∀ r ∈ g.uses, r = .zero ∨ r ∈ g.defs

/-- How code comes from a graph. -/
structure LoweredAs (g : Graph) (c : Code) : Prop where
  entry : c.entry = g.entry
  layout : c.layout = Layout.named (g.walk.reverse.flatMap fun e => e.2.defs)
  nodup : c.layout.Nodup
  block : ∀ id b', c.block? id = some b' → ∃ b, (id, b) ∈ g.walk ∧ Lower.BlockAs c.layout id b b'
  covered : ∀ id ∈ g.postOrder, ∃ b', c.block? id = some b'

theorem LoweredAs.mem_layout {g : Graph} {c : Code} (h : g.LoweredAs c) {r : Reg} :
    r ∈ c.layout ↔ r ∈ g.defs ∧ r ≠ .zero := by
  simp [h.layout, defs]

variable {g : Graph}

theorem pick_reversePostOrder (g : Graph) : g.pick g.reversePostOrder = g.walk.reverse := by
  simp [pick, reversePostOrder, walk, List.filterMap_reverse]

theorem entryPhi?_eq_none_iff :
    g.entryPhi? = none ↔ ∀ b, g.block? g.entry = some b → b.phis = [] := by
  unfold entryPhi?
  cases g.block? g.entry with
  | none => simp
  | some b => simp

/-- Terminators of the instruction set define nothing, so that the layout sees
every definition. -/
theorem flatMap_defs_of_known {bs : List (Label × Block)} (h : ∀ e ∈ bs, e.2.term.Known) :
    (bs.flatMap fun e => e.2.phis.map Phi.dst ++ e.2.instrs.flatMap Instr.defs) =
      bs.flatMap fun e => e.2.defs := by
  apply List.flatMap_congr
  intro e he
  simp [Block.defs, (h e he).defs_eq_nil]

theorem named_defs_perm (g : Graph) :
    (Layout.named (g.walk.reverse.flatMap fun e => e.2.defs)).Perm (Layout.named g.defs) :=
  ((List.reverse_perm g.walk).flatMap_right _).filter _

theorem lowerBlocks_eq_ok_iff {c : Code} :
    g.lowerBlocks = .ok c ↔
      ∃ layout lowered, Layout.ofBlocks g.walk.reverse = .ok layout ∧
        g.walk.reverse.mapM (Lower.block layout g.size fun id => g.predecessors.getD id []) =
          .ok lowered ∧
        c = ⟨Lower.arrange g.size lowered, g.entry, layout, Lower.argCount lowered⟩ := by
  simp only [lowerBlocks, pick_reversePostOrder, bind_eq_ok_iff, pure_eq_ok, Except.ok.injEq]
  constructor
  · rintro ⟨layout, hl, lowered, hb, rfl⟩
    exact ⟨layout, lowered, hl, hb, rfl⟩
  · rintro ⟨layout, lowered, hl, hb, rfl⟩
    exact ⟨layout, hl, lowered, hb, rfl⟩

theorem lower_eq_ok_iff {c : Code} :
    g.lower = .ok c ↔
      (∀ b, g.block? g.entry = some b → b.phis = []) ∧ g.lowerBlocks = .ok c := by
  rw [← entryPhi?_eq_none_iff]
  unfold lower
  cases g.entryPhi? with
  | none => simp
  | some first => simp

/-- The code of a graph that has been lowered. -/
theorem loweredAs_of_lower {c : Code} (h : g.lower = .ok c) : g.LoweredAs c := by
  obtain ⟨-, hb⟩ := lower_eq_ok_iff.mp h
  obtain ⟨layout, lowered, hl, hm, rfl⟩ := lowerBlocks_eq_ok_iff.mp hb
  obtain ⟨-, hlayout, hnodup⟩ := Layout.ofBlocks_eq_ok_iff.mp hl
  have hmem (b' : Code.Block) : b' ∈ lowered ↔ ∃ id b, (id, b) ∈ g.walk ∧
      Lower.block layout g.size (fun id => g.predecessors.getD id []) (id, b) = .ok b' := by
    simp [mem_of_mapM_eq_ok hm]
  have hall : ∀ e ∈ g.walk, ∃ b' ∈ lowered,
      Lower.block layout g.size (fun id => g.predecessors.getD id []) e = .ok b' := by
    intro e he
    obtain ⟨b', hb'⟩ := exists_mapM_eq_ok_iff.mp ⟨_, hm⟩ e (List.mem_reverse.mpr he)
    exact ⟨b', (hmem b').mpr ⟨e.1, e.2, he, hb'⟩, hb'⟩
  refine ⟨rfl, ?_, hnodup, ?_, ?_⟩
  · rw [hlayout, flatMap_defs_of_known]
    intro e he
    obtain ⟨b', -, hb'⟩ := hall e (List.mem_reverse.mp he)
    exact (Lower.exists_block_eq_ok_iff.mp ⟨b', hb'⟩).1.known
  · intro id b' hb'
    -- whatever is found at a label was lowered from the block of that label
    obtain ⟨hb', hid⟩ := Lower.mem_of_block?_arrange hb'
    obtain ⟨i, b, hwalk, hlow⟩ := (hmem b').mp hb'
    have has := (Lower.block_eq_ok_iff.mp hlow).2
    have hi : i = id := has.id.symm.trans hid
    subst hi
    exact ⟨b, hwalk, has⟩
  · intro id hid
    obtain ⟨b, hb⟩ := exists_block?_of_mem_postOrder hid
    obtain ⟨b', hb', hlow⟩ := hall (id, b) (mem_walk.mpr ⟨hid, hb⟩)
    have has := (Lower.block_eq_ok_iff.mp hlow).2
    rw [Lower.block?_arrange (lt_of_block? hb)]
    apply Option.isSome_iff_exists.mp
    rw [List.find?_isSome]
    exact ⟨b', List.mem_reverse.mpr hb', by simp [has.id]⟩

theorem lowerable_of_lower {c : Code} (h : g.lower = .ok c) : g.Lowerable := by
  have has := loweredAs_of_lower h
  obtain ⟨hentry, hb⟩ := lower_eq_ok_iff.mp h
  obtain ⟨layout, lowered, -, hm, rfl⟩ := lowerBlocks_eq_ok_iff.mp hb
  have hblock : ∀ e ∈ g.walk, Lower.BlockFits g.size (g.predecessors.getD e.1 []) e.2 ∧
      ∀ r ∈ e.2.uses, r = .zero ∨ r ∈ layout := by
    intro e he
    exact Lower.exists_block_eq_ok_iff.mp
      (exists_mapM_eq_ok_iff.mp ⟨_, hm⟩ e (List.mem_reverse.mpr he))
  refine ⟨hentry, fun id b hw => (hblock (id, b) hw).1, ?_, ?_⟩
  · have hnodup := has.nodup
    rw [has.layout] at hnodup
    exact (named_defs_perm g).nodup_iff.mp hnodup
  · intro r hr
    obtain ⟨e, he, hre⟩ := List.mem_flatMap.mp hr
    rcases (hblock e he).2 r hre with hz | hl
    · exact Or.inl hz
    · exact Or.inr (has.mem_layout.mp hl).1

theorem exists_lower_of_lowerable (h : g.Lowerable) : ∃ c, g.lower = .ok c := by
  have hfits : ∀ e ∈ g.walk, Lower.BlockFits g.size (g.predecessors.getD e.1 []) e.2 :=
    fun e he => h.blocks e.1 e.2 he
  have hlayout : Layout.ofBlocks g.walk.reverse =
      .ok (Layout.named (g.walk.reverse.flatMap fun e => e.2.defs)) := by
    rw [Layout.ofBlocks_eq_ok_iff, flatMap_defs_of_known]
    · refine ⟨?_, rfl, (named_defs_perm g).nodup_iff.mpr h.single⟩
      intro e he i hi
      exact ((hfits e (List.mem_reverse.mp he)).instrs i hi).supported
    · intro e he
      exact (hfits e (List.mem_reverse.mp he)).known
  have hreads : ∀ e ∈ g.walk, ∀ r ∈ e.2.uses,
      r = .zero ∨ r ∈ Layout.named (g.walk.reverse.flatMap fun e => e.2.defs) := by
    intro e he r hr
    by_cases hz : r = .zero
    · exact Or.inl hz
    · have hd := (h.defined r (List.mem_flatMap.mpr ⟨e, he, hr⟩)).resolve_left hz
      exact Or.inr ((named_defs_perm g).mem_iff.mpr (Layout.mem_named.mpr ⟨hd, hz⟩))
  obtain ⟨lowered, hm⟩ : ∃ lowered, g.walk.reverse.mapM (Lower.block _ g.size
      fun id => g.predecessors.getD id []) = .ok lowered := by
    apply exists_mapM_eq_ok_iff.mpr
    intro e he
    have hw := List.mem_reverse.mp he
    exact Lower.exists_block_eq_ok_iff.mpr ⟨hfits e hw, hreads e hw⟩
  exact ⟨_, lower_eq_ok_iff.mpr
    ⟨h.entry, lowerBlocks_eq_ok_iff.mpr ⟨_, lowered, hlayout, hm, rfl⟩⟩⟩

/-- Lowering accepts exactly the lowerable graphs. -/
theorem exists_lower_iff : (∃ c, g.lower = .ok c) ↔ g.Lowerable :=
  ⟨fun ⟨_, h⟩ => lowerable_of_lower h, exists_lower_of_lowerable⟩

theorem lower_of_assemble {h h' : Heap} {p : Program} (hp : g.assemble h = .ok (p, h')) :
    g.lower = .ok p.code := by
  obtain ⟨c, hc, hrest⟩ := bind_eq_ok_iff.mp hp
  cases hrest
  exact hc

/-- Placing and pinning the map of a frame cannot fail. -/
theorem exists_assemble_of_lower {c : Code} (hc : g.lower = .ok c) (h : Heap) :
    ∃ p h', g.assemble h = .ok (p, h') ∧ p.code = c := by
  let placed := h.place (Layout.bitmap c.layout)
  refine ⟨⟨c, placed.1⟩, placed.2.pin placed.1, ?_, rfl⟩
  rw [assemble, hc]
  rfl

theorem exists_assemble_of_isOk (hok : g.lower.isOk = true) (h : Heap) :
    ∃ p h', g.assemble h = .ok (p, h') := by
  cases hc : g.lower with
  | error e =>
      rw [hc] at hok
      cases hok
  | ok c =>
      obtain ⟨p, h', hp, -⟩ := exists_assemble_of_lower hc h
      exact ⟨p, h', hp⟩

/-- A loop on one block that counts its argument down and writes every number
on the way. Two targets of its switch are the same, and the last block holds a
phi and an argument that nothing reads. -/
def countdown : Graph where
  blocks := #[
    ⟨0, [], [.arg (.scalar 0) 0, .const (.scalar 1) 1], .jump 1⟩,
    ⟨1, [⟨.scalar 2, [(0, .scalar 0), (1, .scalar 3)]⟩],
      [.binary (.scalar 3) .sub (.scalar 2) (.scalar 1), .emit (.scalar 3) 1,
        .call 0 [.scalar 3] [.scalar 4]],
      .switch (.scalar 3) [2, 2] 1⟩,
    ⟨2, [⟨.scalar 5, [(1, .scalar 2)]⟩], [.arg (.scalar 6) 1], .ret [.scalar 3]⟩]
  entry := 0
  nextReg := 7
  entry_lt := by decide

theorem exists_assemble_countdown (h : Heap) : ∃ p h', countdown.assemble h = .ok (p, h') :=
  exists_assemble_of_isOk (by decide) h

end Graph

end WireFlow
