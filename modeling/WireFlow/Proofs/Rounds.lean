import WireFlow.Proofs.Thinning

/-!
# Where the rounds of a sweep end

A round leaves every definition that is read, and retires the others, so the
number of definitions left goes down by what it retires and the rounds come to
an end before their bound. A round that retires nothing can still drop nodes
that have defined the sentinel all along. Only the first round can find such
nodes, since every round drops all of them. So the swept graph reads whatever it
defines, unless the first round was also the last and what it dropped were the
last reads of some register.
-/

namespace WireFlow

namespace Block

theorem mapDefs_id (b : Block) : b.mapDefs id = b := by
  have hphis : Phi.mapDefs id = id := rfl
  have hinstrs : Instr.mapDefs id = id := funext Instr.mapDefs_id
  simp [mapDefs, hphis, hinstrs, Terminator.mapDefs_id]

theorem compact_compact (b : Block) : b.compact.compact = b.compact := by
  simp [compact, List.filter_filter]

theorem named_defs_of_dropped {i : Instr} (h : keepsInstr i = false) :
    Layout.named i.defs = [] := by
  simp only [keepsInstr, Bool.or_eq_false_iff, List.any_eq_false] at h
  rw [Layout.named, List.filter_eq_nil_iff]
  exact h.2

/-- Compacting drops definitions of the sentinel only. -/
theorem named_defs_compact (b : Block) : Layout.named b.compact.defs = Layout.named b.defs := by
  have hphis : Layout.named ((b.phis.filter keepsPhi).map Phi.dst) =
      Layout.named (b.phis.map Phi.dst) := by
    simp only [Layout.named, List.filter_map, List.filter_filter]
    congr 1
    apply List.filter_congr
    intro φ _
    simp [keepsPhi]
  have hinstrs (is : List Instr) : Layout.named ((is.filter keepsInstr).flatMap Instr.defs) =
      Layout.named (is.flatMap Instr.defs) := by
    induction is with
    | nil => rfl
    | cons i rest ih =>
        rw [List.filter_cons, List.flatMap_cons, Layout.named_append, ← ih]
        cases hk : keepsInstr i with
        | true => simp [Layout.named_append]
        | false => simp [named_defs_of_dropped hk]
  simp only [defs, compact, Layout.named_append, hphis, hinstrs]

end Block

namespace Graph

variable {g : Graph}

/-- The graph without the nodes that define the sentinel only. -/
def compacted (g : Graph) : Graph := g.mapReachable Block.compact

theorem ext_block? {g' : Graph} (hentry : g.entry = g'.entry) (hnext : g.nextReg = g'.nextReg)
    (hblocks : ∀ id, g.block? id = g'.block? id) : g = g' := by
  obtain ⟨blocks, entry, nextReg, _⟩ := g
  obtain ⟨blocks', entry', nextReg', _⟩ := g'
  simp only [mk.injEq]
  exact ⟨Array.ext_getElem? hblocks, hentry, hnext⟩

theorem mapReachable_eq_self_iff {f : Block → Block} :
    g.mapReachable f = g ↔ ∀ e ∈ g.walk, f e.2 = e.2 := by
  constructor
  · rintro h ⟨id, b⟩ he
    obtain ⟨hid, hb⟩ := mem_walk.mp he
    have hblock := block?_mapReachable g f id
    rw [h, hb] at hblock
    simpa [hid] using hblock.symm
  · intro h
    refine ext_block? rfl rfl fun id => ?_
    rw [block?_mapReachable]
    cases hb : g.block? id with
    | none => rfl
    | some b =>
        by_cases hid : id ∈ g.postOrder
        · simp [hid, h (id, b) (mem_walk.mpr ⟨hid, hb⟩)]
        · simp [hid]

theorem compacted_compacted (g : Graph) : g.compacted.compacted = g.compacted := by
  have hpost : g.compacted.postOrder = g.postOrder := postOrder_mapReachable g _ fun _ => rfl
  refine ext_block? rfl rfl fun id => ?_
  rw [compacted, block?_mapReachable, hpost, compacted, block?_mapReachable]
  by_cases hid : id ∈ g.postOrder
  · simp only [hid, if_true, Option.map_map, Function.comp_def, Block.compact_compact]
  · simp [hid]

theorem named_defs_compacted (g : Graph) : Layout.named g.compacted.defs = Layout.named g.defs := by
  simp only [compacted, defs, walk_mapReachable _ Block.compact fun _ => rfl, List.flatMap_map]
  induction g.walk with
  | nil => rfl
  | cons e rest ih =>
      simp only [List.flatMap_cons, Layout.named_append, ih, Block.named_defs_compact]

theorem mem_defs_compacted {r : Reg} (hz : r ≠ .zero) : r ∈ g.compacted.defs ↔ r ∈ g.defs := by
  have h : r ∈ Layout.named g.compacted.defs ↔ r ∈ Layout.named g.defs := by
    rw [named_defs_compacted]
  simpa [hz] using h

theorem mem_deadRegs {r : Reg} : r ∈ g.deadRegs ↔ r ∈ g.defs ∧ r ∉ g.uses := by
  simp [deadRegs]

theorem allRead_iff : g.AllRead ↔ ∀ r ∈ g.deadRegs, r = .zero := by
  simp only [AllRead, mem_deadRegs]
  constructor
  · rintro h r ⟨hd, hu⟩
    exact (h r hd).resolve_right hu
  · intro h r hd
    by_cases hu : r ∈ g.uses
    · exact Or.inr hu
    · exact Or.inl (h r ⟨hd, hu⟩)

theorem sumOf_countP (p : Reg → Bool) (es : List (Label × Block)) :
    sumOf (fun e => e.2.defs.countP p) es = (es.flatMap fun e => e.2.defs).countP p := by
  induction es with
  | nil => rfl
  | cons e rest ih => rw [sumOf_cons, ih, List.flatMap_cons, List.countP_append]

theorem retired_sweepRound (g : Graph) :
    g.sweepRound.2.retired = g.defs.countP fun r => r ≠ .zero ∧ r ∈ g.deadRegs :=
  sumOf_countP _ _

/-- A round retires nothing exactly when all is read. -/
theorem retired_sweepRound_eq_zero_iff : g.sweepRound.2.retired = 0 ↔ g.AllRead := by
  rw [retired_sweepRound, List.countP_eq_zero, allRead_iff]
  simp only [decide_eq_true_eq, not_and]
  constructor
  · intro h r hr
    by_contra hz
    exact h r (mem_deadRegs.mp hr).1 hz hr
  · intro h r _ hz hr
    exact hz (h r hr)

theorem named_defs_sweepRound (g : Graph) :
    Layout.named g.sweepRound.1.defs = Layout.named (g.defs.map (Reg.retired g.deadRegs)) := by
  have hretire := Block.successors_retire g.deadRegs
  have hdefs : (g.mapReachable (Block.retire g.deadRegs)).defs =
      g.defs.map (Reg.retired g.deadRegs) := by
    simp only [defs, walk_mapReachable _ _ hretire, List.flatMap_map, Block.retire,
      Block.defs_mapDefs, List.map_flatMap]
    rfl
  rw [← hdefs]
  exact named_defs_compacted _

/-- A definition is left, retired, or has been of the sentinel before. -/
theorem countP_map_retired (dead rs : List Reg) :
    (rs.map (Reg.retired dead)).countP (· ≠ .zero) + rs.countP (fun r => r ≠ .zero ∧ r ∈ dead) =
      rs.countP (· ≠ .zero) := by
  induction rs with
  | nil => rfl
  | cons r rest ih =>
      have hhead : (if r.retired dead ≠ .zero then 1 else 0) +
          (if r ≠ .zero ∧ r ∈ dead then 1 else 0) = if r ≠ .zero then 1 else 0 := by
        by_cases hd : r ∈ dead <;> simp [Reg.retired, hd]
      simp only [List.map_cons, List.countP_cons, decide_eq_true_eq]
      omega

/-- A round uses up the definitions it retires. -/
theorem liveDefCount_sweepRound (g : Graph) :
    g.sweepRound.1.liveDefCount + g.sweepRound.2.retired = g.liveDefCount := by
  have hcount (rs : List Reg) : rs.countP (· ≠ .zero) = (Layout.named rs).length :=
    List.countP_eq_length_filter
  calc
    g.sweepRound.1.liveDefCount + g.sweepRound.2.retired =
        (g.defs.map (Reg.retired g.deadRegs)).countP (· ≠ .zero) +
          g.defs.countP (fun r => r ≠ .zero ∧ r ∈ g.deadRegs) := by
      rw [liveDefCount, hcount, named_defs_sweepRound, ← hcount, retired_sweepRound]
    _ = g.liveDefCount := countP_map_retired _ _

/-- Where all is read there is nothing to retire. -/
theorem mapReachable_retire_of_allRead (h : g.AllRead) :
    g.mapReachable (Block.retire g.deadRegs) = g := by
  have hid : Reg.retired g.deadRegs = id := by
    funext r
    by_cases hr : r ∈ g.deadRegs
    · rw [Reg.retired, if_pos hr, id, allRead_iff.mp h r hr]
    · exact Reg.retired_of_not_mem hr
  apply mapReachable_eq_self_iff.mpr
  rintro ⟨id, b⟩ -
  exact (congrArg (Block.mapDefs · b) hid).trans b.mapDefs_id

/-- A round on a graph in which all is read does no more than compact it. -/
theorem sweepRound_of_allRead (h : g.AllRead) : g.sweepRound.1 = g.compacted := by
  simp only [sweepRound, mapReachable_retire_of_allRead h, compacted]

theorem compacted_sweepRound (g : Graph) : g.sweepRound.1.compacted = g.sweepRound.1 :=
  compacted_compacted _

theorem sweepRounds_of_allRead (h : g.AllRead) (n : Nat) :
    (sweepRounds (n + 1) g).1 = g.compacted := by
  have hzero := retired_sweepRound_eq_zero_iff.mpr h
  simp only [sweepRounds, hzero, if_true, sweepRound_of_allRead h]

/-- A sweep that has something to retire, or nothing to drop, leaves no
definition unread. -/
theorem allRead_sweepRounds {n : Nat} (hn : g.liveDefCount < n)
    (h : ¬g.AllRead ∨ g.compacted = g) : (sweepRounds n g).1.AllRead := by
  induction n generalizing g with
  | zero => omega
  | succ n ih =>
      by_cases hread : g.AllRead
      · rw [sweepRounds_of_allRead hread, h.resolve_left (not_not_intro hread)]
        exact hread
      · have hretired : g.sweepRound.2.retired ≠ 0 := mt retired_sweepRound_eq_zero_iff.mp hread
        have hcount := g.liveDefCount_sweepRound
        simp only [sweepRounds, hretired, if_false]
        exact ih (by omega) (Or.inr g.compacted_sweepRound)

/-- Everything that a swept graph defines is read, unless everything was read
before, and dropping the nodes that define the sentinel only was enough to
change that. -/
theorem allRead_sweep_iff (g : Graph) :
    g.sweep.1.AllRead ↔ (g.AllRead → g.compacted.AllRead) := by
  by_cases hread : g.AllRead
  · rw [sweep, sweepRounds_of_allRead hread]
    simp [hread]
  · have hswept : g.sweep.1.AllRead := allRead_sweepRounds (by omega) (Or.inl hread)
    simp [hread, hswept]

end Graph

end WireFlow
