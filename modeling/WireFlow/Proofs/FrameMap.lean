import Mathlib.Data.Set.Function
import Std.Data.HashMap.Lemmas
import WireFlow.Proofs.Accounts
import WireFlow.Proofs.PackedBits
import WireFlow.Proofs.SingleAssignment

/-!
# The frame and its map

Assembly hands out slots in order of definition, so the row of slots is the row
of definition sites along the reverse post-order, those of the sentinel left
out. In an accepted graph no register has two sites. Registers and slots
therefore correspond one to one, and the order of slots is that of sites. The
map of the frame is packed from the same row, so what it says about a word it
says about the register that the word holds. A hash table that is filled while
slots are handed out answers as the row does.
-/

namespace WireFlow

open Sequencing

theorem pairwise_zipIdx {α : Type} (xs : List α) : xs.zipIdx.Pairwise fun x y => x.2 < y.2 := by
  apply List.pairwise_map.mp
  rw [List.zipIdx_map_snd]
  exact List.pairwise_lt_range'

theorem idxOf?_concat {layout : List Reg} {r : Reg} (hr : r ∉ layout) (s : Reg) :
    (layout ++ [r]).idxOf? s = if r = s then some layout.length else layout.idxOf? s := by
  rw [List.idxOf?, List.findIdx?_append, List.findIdx?_singleton]
  by_cases hrs : r = s
  · have hnone : layout.findIdx? (· == s) = none := List.idxOf?_eq_none_iff.mpr (hrs ▸ hr)
    simp [hnone, hrs]
  · simp [hrs]

namespace Graph

variable {g : Graph} {c : Code} {r r' : Reg} {s t : Site}

/-- Definition at the first site comes before definition at the second: in a
block that is earlier in the reverse post-order, or at an earlier place. -/
def Precedes (g : Graph) (s t : Site) : Prop :=
  g.reversePostOrder.idxOf s.block < g.reversePostOrder.idxOf t.block ∨
    s.block = t.block ∧ (s.node < t.node ∨ s.node = t.node ∧ s.slot < t.slot)

theorem Precedes.asymm (h : g.Precedes s t) : ¬g.Precedes t s := by
  unfold Precedes at *
  rcases h with h | ⟨hblock, h⟩
  · rintro (h' | ⟨hblock', -⟩)
    · omega
    · rw [hblock'] at h
      omega
  · rw [hblock]
    omega

theorem pairwise_sites (e : Label × Block) :
    (Block.sites e).Pairwise fun a b => g.Precedes a.1 b.1 := by
  apply List.pairwise_flatMap.mpr
  constructor
  · intro n _
    apply List.pairwise_map.mpr
    apply (pairwise_zipIdx n.1.defs).imp
    intro d d' hd
    exact Or.inr ⟨rfl, Or.inr ⟨rfl, hd⟩⟩
  · apply (pairwise_zipIdx e.2.nodes).imp
    intro n n' hn a ha b hb
    obtain ⟨d, -, rfl⟩ := List.mem_map.mp ha
    obtain ⟨d', -, rfl⟩ := List.mem_map.mp hb
    exact Or.inr ⟨rfl, Or.inl hn⟩

/-- The definitions that need a slot, in the order in which they are met. -/
def slotted (g : Graph) : List (Site × Reg) :=
  (g.walk.reverse.flatMap Block.sites).filter fun d => d.2 ≠ .zero

theorem mem_slotted : (s, r) ∈ g.slotted ↔ g.DefinedAt r s ∧ r ≠ .zero := by
  have hrow : (s, r) ∈ g.walk.reverse.flatMap Block.sites ↔ (s, r) ∈ g.sites :=
    ((List.reverse_perm g.walk).flatMap_right _).mem_iff
  simp [slotted, List.mem_filter, hrow, mem_sites]

theorem map_snd_slotted (g : Graph) :
    g.slotted.map Prod.snd = Layout.named (g.walk.reverse.flatMap fun e => e.2.defs) := by
  have hregs : (g.walk.reverse.flatMap fun e => e.2.defs) =
      (g.walk.reverse.flatMap Block.sites).map Prod.snd := by
    rw [List.map_flatMap]
    simp only [Block.map_snd_sites]
  rw [hregs, Layout.named, List.filter_map]
  rfl

theorem pairwise_slotted (g : Graph) : g.slotted.Pairwise fun a b => g.Precedes a.1 b.1 := by
  apply List.Pairwise.filter
  apply List.pairwise_flatMap.mpr
  refine ⟨fun e _ => pairwise_sites e, ?_⟩
  have horder : g.walk.reverse.map Prod.fst = g.reversePostOrder := by
    rw [List.map_reverse, map_fst_walk, reversePostOrder]
  have hnodup : g.reversePostOrder.Nodup := List.nodup_reverse.mpr g.nodup_postOrder
  have hblocks : g.walk.reverse.Pairwise fun e e' =>
      g.reversePostOrder.idxOf e.1 < g.reversePostOrder.idxOf e'.1 := by
    have hrow := pairwise_idxOf_lt hnodup
    refine (List.pairwise_map (f := Prod.fst) (R := fun id id' =>
      g.reversePostOrder.idxOf id < g.reversePostOrder.idxOf id')).mp ?_
    rwa [horder]
  apply hblocks.imp
  intro e e' he a ha b hb
  have hblock {e : Label × Block} {d : Site × Reg} (hd : d ∈ Block.sites e) : d.1.block = e.1 := by
    obtain ⟨n, -, hd⟩ := List.mem_flatMap.mp hd
    obtain ⟨_, -, rfl⟩ := List.mem_map.mp hd
    rfl
  left
  rwa [hblock ha, hblock hb]

namespace LoweredAs

theorem slot?_eq_some_iff (h : g.LoweredAs c) {i : Nat} :
    c.slot? r = some i ↔ c.layout[i]? = some r := by
  rw [Code.slot?, List.idxOf?_eq_some_iff, List.getElem?_eq_some_iff]
  constructor
  · rintro ⟨hi, hr, -⟩
    exact ⟨hi, hr⟩
  · rintro ⟨hi, rfl⟩
    refine ⟨hi, rfl, fun j hj heq => ?_⟩
    have := (h.nodup.getElem_inj_iff).mp heq
    omega

theorem slot?_isSome_iff (h : g.LoweredAs c) :
    (c.slot? r).isSome = true ↔ r ≠ .zero ∧ ∃ s, g.DefinedAt r s := by
  rw [Code.slot?, List.isSome_idxOf?, h.mem_layout, mem_defs_iff_site, and_comm]

/-- The site of the register that a slot holds. -/
theorem slotted_getElem? (h : g.LoweredAs c) {i : Nat} (hs : g.DefinedAt r s)
    (hi : c.slot? r = some i) : g.slotted[i]? = some (s, r) := by
  have hrow : (g.slotted.map Prod.snd)[i]? = some r := by
    rw [map_snd_slotted, ← h.layout]
    exact h.slot?_eq_some_iff.mp hi
  rw [List.getElem?_map] at hrow
  obtain ⟨⟨t, _⟩, ht, rfl⟩ := Option.map_eq_some_iff.mp hrow
  obtain ⟨htdef, hz⟩ := mem_slotted.mp (List.mem_of_getElem? ht)
  have hnodup : (Layout.named g.defs).Nodup := (named_defs_perm g).nodup_iff.mp (h.layout ▸ h.nodup)
  rw [ht, nodup_named_defs_iff.mp hnodup _ _ _ hz hs htdef]

/-- Slots are in the order of definitions. -/
theorem slot_lt_iff (h : g.LoweredAs c) {i j : Nat} (hs : g.DefinedAt r s) (ht : g.DefinedAt r' t)
    (hi : c.slot? r = some i) (hj : c.slot? r' = some j) : i < j ↔ g.Precedes s t := by
  have hsi := h.slotted_getElem? hs hi
  have htj := h.slotted_getElem? ht hj
  have hlt {i j : Nat} {a b : Site × Reg} (ha : g.slotted[i]? = some a)
      (hb : g.slotted[j]? = some b) (hij : i < j) : g.Precedes a.1 b.1 := by
    obtain ⟨hi, rfl⟩ := List.getElem?_eq_some_iff.mp ha
    obtain ⟨hj, rfl⟩ := List.getElem?_eq_some_iff.mp hb
    exact List.pairwise_iff_getElem.mp g.pairwise_slotted i j hi hj hij
  refine ⟨hlt hsi htj, fun hst => ?_⟩
  rcases Nat.lt_trichotomy i j with hij | hij | hij
  · exact hij
  · subst hij
    have hsame : s = t := congrArg Prod.fst (Option.some.inj (hsi.symm.trans htj))
    subst hsame
    exact absurd hst hst.asymm
  · exact absurd (hlt htj hsi hij) hst.asymm

end LoweredAs

end Graph

deriving instance Hashable for Reg

/-- Slots as they are handed out: a table to look them up in, and the row. -/
structure SlotTable where
  slots : Std.HashMap Reg Nat := {}
  row : List Reg := []

namespace SlotTable

/-- Give a register the next slot and enter it. -/
def define (t : SlotTable) (r : Reg) : Except Rejection SlotTable :=
  if r = .zero then .ok t
  else if r ∈ t.slots then .error (.duplicateDefinition r)
  else .ok ⟨t.slots.insert r t.row.length, t.row ++ [r]⟩

def defineAll (t : SlotTable) (rs : List Reg) : Except Rejection SlotTable := rs.foldlM define t

def addInstr (id : Label) (t : SlotTable) (i : Instr) : Except Rejection SlotTable :=
  if Layout.supported i then t.defineAll i.defs else .error (.unsupportedNode id i.text)

def addBlock (t : SlotTable) (b : Label × Block) : Except Rejection SlotTable := do
  b.2.instrs.foldlM (addInstr b.1) (← t.defineAll (b.2.phis.map Phi.dst))

/-- The table for the frame of the given blocks. -/
def ofBlocks (bs : List (Label × Block)) : Except Rejection SlotTable := bs.foldlM addBlock {}

/-- The table is that of a row of registers. -/
structure Tabulates (t : SlotTable) (layout : List Reg) : Prop where
  row : t.row = layout
  size : t.slots.size = layout.length
  slots : ∀ r, t.slots[r]? = layout.idxOf? r

variable {t : SlotTable} {layout : List Reg}

theorem Tabulates.mem_slots (h : t.Tabulates layout) (r : Reg) : r ∈ t.slots ↔ r ∈ layout := by
  rw [← Std.HashMap.isSome_getElem?_iff_mem, h.slots, List.isSome_idxOf?]

/-- The table and the row stay in step while slots are handed out. -/
theorem related_define (h : t.Tabulates layout) (r : Reg) :
    Related (· = ·) Tabulates (t.define r) (Layout.define layout r) := by
  unfold define Layout.define
  by_cases hz : r = .zero
  · simp only [hz, if_true]
    exact .ok h
  · by_cases hr : r ∈ layout
    · simp only [hz, if_false, h.mem_slots, hr, if_true]
      exact .error rfl
    · simp only [hz, if_false, h.mem_slots, hr]
      refine .ok ⟨congrArg (· ++ [r]) h.row, ?_, fun s => ?_⟩
      · rw [Std.HashMap.size_insert, if_neg (mt (h.mem_slots r).mp hr), h.size, List.length_append]
        rfl
      · rw [Std.HashMap.getElem?_insert, h.slots, h.row, idxOf?_concat hr]
        simp only [beq_iff_eq]

theorem related_defineAll (h : t.Tabulates layout) (rs : List Reg) :
    Related (· = ·) Tabulates (t.defineAll rs) (Layout.defineAll layout rs) := by
  apply Related.foldlM (List.forall₂_same.mpr fun _ _ => rfl) _ h
  rintro t layout r _ ht rfl
  exact related_define ht r

theorem related_addBlock (h : t.Tabulates layout) (b : Label × Block) :
    Related (· = ·) Tabulates (t.addBlock b) (Layout.addBlock layout b) := by
  apply (related_defineAll h _).bind
  intro t layout ht
  apply Related.foldlM (List.forall₂_same.mpr fun _ _ => rfl) _ ht
  rintro t layout i _ ht rfl
  unfold addInstr Layout.addInstr
  split
  · exact related_defineAll ht _
  · exact .error rfl

/-- Handing out slots with a table gives the row, and a table of it. -/
theorem exists_ofBlocks {bs : List (Label × Block)} (h : Layout.ofBlocks bs = .ok layout) :
    ∃ t, ofBlocks bs = .ok t ∧ t.Tabulates layout := by
  have hempty : Tabulates {} [] := ⟨rfl, rfl, fun r => by simp⟩
  have hrelated : Related (· = ·) Tabulates (ofBlocks bs) (Layout.ofBlocks bs) := by
    apply Related.foldlM (List.forall₂_same.mpr fun _ _ => rfl) _ hempty
    rintro t layout b _ ht rfl
    exact related_addBlock ht b
  rw [h] at hrelated
  generalize ofBlocks bs = x at hrelated
  cases hrelated with
  | ok ht => exact ⟨_, rfl, ht⟩

end SlotTable

/-- How the frame of a program, the map of the frame and the graph agree. -/
structure Program.FrameOf (p : Program) (g : Graph) : Prop where
  /-- Slots are for the registers that reachable blocks define, the sentinel apart. -/
  slots : Set.BijOn p.code.slot? {r | r ≠ .zero ∧ ∃ s, g.DefinedAt r s}
    {x | ∃ i < p.code.frameSize, x = some i}
  slotless : ∀ r, ¬(r ≠ .zero ∧ ∃ s, g.DefinedAt r s) → p.code.slot? r = none
  order : ∀ r r' s t i j, g.DefinedAt r s → g.DefinedAt r' t → p.code.slot? r = some i →
    p.code.slot? r' = some j → (i < j ↔ g.Precedes s t)
  table : ∃ t, SlotTable.ofBlocks (g.pick g.reversePostOrder) = .ok t ∧
    t.slots.size = p.code.frameSize ∧ ∀ r, t.slots[r]? = p.code.slot? r
  count : p.frameMap.map.count = 1
  length : p.frameMap.map.length = p.code.frameSize
  bits : ∀ r i, p.code.slot? r = some i → p.frameMap.map.isPointer i = .ok r.isPointer
  /-- The pointer words are the slots of pointer registers, in increasing order. -/
  words : p.frameMap.map.pointerWords.Pairwise (· < ·) ∧
    ∀ i, i ∈ p.frameMap.map.pointerWords ↔ ∃ r, r.kind = .pointer ∧ p.code.slot? r = some i

namespace Graph

variable {g : Graph} {c : Code}

theorem LoweredAs.bijOn_slot? (h : g.LoweredAs c) :
    Set.BijOn c.slot? {r | r ≠ .zero ∧ ∃ s, g.DefinedAt r s}
      {x | ∃ i < c.frameSize, x = some i} := by
  refine ⟨?_, ?_, ?_⟩
  · intro r hr
    obtain ⟨i, hi⟩ := Option.isSome_iff_exists.mp (h.slot?_isSome_iff.mpr hr)
    exact ⟨i, Lower.lt_of_idxOf? hi, hi⟩
  · intro r hr r' _ heq
    obtain ⟨i, hi⟩ := Option.isSome_iff_exists.mp (h.slot?_isSome_iff.mpr hr)
    have hat := h.slot?_eq_some_iff.mp hi
    rw [h.slot?_eq_some_iff.mp (heq ▸ hi)] at hat
    exact (Option.some.inj hat).symm
  · rintro x ⟨i, hi, rfl⟩
    have hslot : c.slot? c.layout[i] = some i :=
      h.slot?_eq_some_iff.mpr (List.getElem?_eq_getElem hi)
    exact ⟨_, h.slot?_isSome_iff.mp (by simp [hslot]), hslot⟩

theorem exists_table_of_lower (hc : g.lower = .ok c) :
    ∃ t, SlotTable.ofBlocks (g.pick g.reversePostOrder) = .ok t ∧
      t.slots.size = c.frameSize ∧ ∀ r, t.slots[r]? = c.slot? r := by
  obtain ⟨layout, lowered, hlayout, -, rfl⟩ := lowerBlocks_eq_ok_iff.mp (lower_eq_ok_iff.mp hc).2
  rw [pick_reversePostOrder]
  obtain ⟨t, ht, htab⟩ := SlotTable.exists_ofBlocks hlayout
  exact ⟨t, ht, htab.size, htab.slots⟩

theorem frameMap_of_assemble {h h' : Heap} {p : Program} (hp : g.assemble h = .ok (p, h')) :
    p.frameMap.map = .ofBitmap (Layout.bitmap p.code.layout) := by
  obtain ⟨c, -, hrest⟩ := bind_eq_ok_iff.mp hp
  cases hrest
  rfl

/-- The map of a frame is placed where nothing is pinned yet, and pinned there. -/
theorem lookup_of_assemble {h h' : Heap} {p : Program} (hap : h.Apart)
    (hp : g.assemble h = .ok (p, h')) : h'.pins.lookup p.mapAddress = some p.frameMap := by
  obtain ⟨c, -, hrest⟩ := bind_eq_ok_iff.mp hp
  cases hrest
  exact Pins.lookup_pin_self hap.lookup_next

end Graph

/-- The bits of a frame's map, slot by slot. -/
theorem Layout.toList_bitmap (layout : List Reg) :
    (bitmap layout).toList = layout.map Reg.isPointer :=
  Bitmap.toList_ofList _

/-- Slots, definitions and the map of the frame agree in an assembled program:
slots are one to one with the registers that reachable blocks define, in order
of definition; the map has one bit for every slot, set where the register is a
pointer; and the address that stands for the map resolves to it, on a heap that
hands out places which are free. -/
theorem assembled_frame_agrees {g : Graph} {h h' : Heap} {p : Program}
    (hp : g.assemble h = .ok (p, h')) :
    p.FrameOf g ∧
      (h.Apart → h'.Apart ∧ h'.pins.lookup p.mapAddress = some p.frameMap) := by
  have hlower := Graph.lower_of_assemble hp
  have has := Graph.loweredAs_of_lower hlower
  have hmap := Graph.frameMap_of_assemble hp
  have hbits := Layout.toList_bitmap p.code.layout
  refine ⟨⟨has.bijOn_slot?, ?_, ?_, Graph.exists_table_of_lower hlower, ?_, ?_, ?_, ?_, ?_⟩,
    fun hap => ⟨(Graph.pinned_of_assemble hap hp).1, Graph.lookup_of_assemble hap hp⟩⟩
  · intro r hr
    rwa [← has.slot?_isSome_iff, Option.not_isSome_iff_eq_none] at hr
  · intro r r' s t i j hs ht hi hj
    exact has.slot_lt_iff hs ht hi hj
  · rw [hmap]
    rfl
  · have hlength : (Layout.bitmap p.code.layout).length = p.code.layout.length := by
      simpa using congrArg List.length hbits
    rw [hmap]
    exact hlength
  · intro r i hi
    rw [hmap]
    apply PointerMap.isPointer_ofBitmap
    rw [hbits, List.getElem?_map, has.slot?_eq_some_iff.mp hi]
    rfl
  · exact PointerMap.pairwise_pointerWords _
  · intro i
    rw [hmap, PointerMap.mem_pointerWords_ofBitmap, hbits, List.getElem?_map,
      Option.map_eq_some_iff]
    constructor
    · rintro ⟨r, hr, hkind⟩
      exact ⟨r, by simpa [Reg.isPointer] using hkind, has.slot?_eq_some_iff.mpr hr⟩
    · rintro ⟨r, hkind, hi⟩
      exact ⟨r, has.slot?_eq_some_iff.mp hi, by simp [Reg.isPointer, hkind]⟩

/-- Two branches that meet in a phi of pointers. One of them throws a word away,
and a block that nothing leads to defines a pointer. -/
def Graph.pointerJoin : Graph where
  blocks := #[
    ⟨0, [], [.arg (.pointer 0) 0, .const (.scalar 1) 7], .branch (.scalar 1) 2 1⟩,
    ⟨1, [], [.const .zero 5, .call 0 [.scalar 1] [.scalar 2]], .jump 3⟩,
    ⟨2, [], [.arg (.pointer 3) 1], .jump 3⟩,
    ⟨3, [⟨.pointer 4, [(1, .pointer 0), (2, .pointer 3)]⟩], [], .ret [.pointer 4, .scalar 2]⟩,
    ⟨4, [], [.arg (.pointer 5) 2], .jump 3⟩]
  entry := 0
  nextReg := 6
  entry_lt := by decide

/-- The word that is thrown away and the pointer out of reach get no slot. -/
theorem assembled_frame_agrees_pointerJoin :
    ∃ p h', Graph.pointerJoin.assemble {} = .ok (p, h') ∧ p.FrameOf Graph.pointerJoin ∧
      h'.pins.lookup p.mapAddress = some p.frameMap ∧
      p.code.layout = [.pointer 0, .scalar 1, .pointer 3, .scalar 2, .pointer 4] ∧
      p.frameMap.map.pointerWords = [0, 2, 4] := by
  obtain ⟨p, h', hp⟩ := Graph.exists_assemble_of_isOk (g := .pointerJoin) (by decide +kernel) {}
  have hvalues : (Graph.pointerJoin.assemble {}).toOption.map
      (fun x => (x.1.code.layout, x.1.frameMap.map.pointerWords)) =
        some ([.pointer 0, .scalar 1, .pointer 3, .scalar 2, .pointer 4], [0, 2, 4]) := by
    decide +kernel
  rw [hp] at hvalues
  obtain ⟨hlayout, hwords⟩ := Prod.mk.inj (Option.some.inj hvalues)
  have hframe := assembled_frame_agrees hp
  exact ⟨p, h', hp, hframe.1, (hframe.2 Heap.apart_empty).2, hlayout, hwords⟩

end WireFlow
