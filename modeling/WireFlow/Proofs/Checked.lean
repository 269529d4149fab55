import WireFlow.Proofs.Acceptance
import WireFlow.Proofs.Numbering

/-!
# Graphs in order

The checker scans a graph for definitions and phi entries first and looks at
what is read afterwards. It accepts exactly the graphs that are in order, a
condition on definitions, entries and reads in which no order of scanning is
left. Lowering asks for the same, in another order and mixed with questions of
its own: that every node belongs to the instruction set and fits it.

The two do not look for the predecessors of a block in the same way. The checker
goes by the name that the block carries, lowering by the block's place. So they
agree about graphs that are numbered, that is, whose blocks carry their places,
and about other graphs only once these have been numbered.
-/

namespace WireFlow

namespace Graph

/-- Every register is defined at one place at most, phis list predecessors
only, and what is read is defined. The predecessors of a block are looked up
under the name it goes by. -/
structure InOrder (g : Graph) (name : Label → Block → Label) : Prop where
  single : (Layout.named g.defs).Nodup
  incoming : ∀ id b, (id, b) ∈ g.walk →
    ∀ φ ∈ b.phis, ∀ e ∈ φ.incoming, e.1 ∈ g.predecessors.getD (name id b) []
  defined : ∀ r ∈ g.uses, r = .zero ∨ r ∈ g.defs

/-- The names of the graph's own blocks are all that matters. -/
theorem InOrder.congr {g : Graph} {name name' : Label → Block → Label} (h : g.InOrder name)
    (hname : ∀ id b, g.block? id = some b → name id b = name' id b) : g.InOrder name' where
  single := h.single
  incoming id b hb := by
    rw [← hname id b (mem_walk.mp hb).2]
    exact h.incoming id b hb
  defined := h.defined

theorem Numbered.inOrder_iff {g : Graph} (h : g.Numbered) :
    g.InOrder byLabel ↔ g.InOrder byPlace :=
  ⟨fun hg => hg.congr h, fun hg => hg.congr fun id b hb => (h id b hb).symm⟩

/-- Numbering a graph leaves its places as they are. -/
theorem inOrder_byPlace_numbered_iff {g : Graph} :
    g.numbered.InOrder byPlace ↔ g.InOrder byPlace := by
  have hincoming : (∀ id b, (id, b) ∈ g.numbered.walk →
      ∀ φ ∈ b.phis, ∀ e ∈ φ.incoming, e.1 ∈ g.numbered.predecessors.getD (byPlace id b) []) ↔
      ∀ id b, (id, b) ∈ g.walk →
        ∀ φ ∈ b.phis, ∀ e ∈ φ.incoming, e.1 ∈ g.predecessors.getD (byPlace id b) [] := by
    simp only [walk_numbered, predecessors_numbered, ← Prod.forall', List.forall_mem_map]
  constructor
  · rintro ⟨hsingle, hin, hdefined⟩
    rw [defs_numbered] at hsingle
    rw [uses_numbered, defs_numbered] at hdefined
    exact ⟨hsingle, hincoming.mp hin, hdefined⟩
  · rintro ⟨hsingle, hin, hdefined⟩
    rw [← defs_numbered] at hsingle
    rw [← uses_numbered, ← defs_numbered] at hdefined
    exact ⟨hsingle, hincoming.mpr hin, hdefined⟩

/-- Every register that is defined is read. -/
def AllRead (g : Graph) : Prop := ∀ r ∈ g.defs, r = .zero ∨ r ∈ g.uses

namespace Mark

/-- The registers a mark defines. -/
def regs : Mark → List Reg
  | define r => [r]
  | incoming _ _ _ => []

/-- An entry is allowed for predecessors only. -/
def Allowed (isPred : Label → Label → Bool) : Mark → Prop
  | define _ => True
  | incoming id _ pred => isPred id pred = true

end Mark

variable {isPred : Label → Label → Bool} {defined out : List Reg}

theorem scan_cons_eq_ok_iff (m : Mark) (rest : List Mark) (hnodup : defined.Nodup) :
    scan isPred (m :: rest) defined = .ok out ↔
      m.Allowed isPred ∧ (Layout.named m.regs ++ defined).Nodup ∧
        scan isPred rest (Layout.named m.regs ++ defined) = .ok out := by
  cases m with
  | incoming id r pred =>
      have hnone : Layout.named (Mark.incoming id r pred).regs = [] := rfl
      by_cases hp : isPred id pred = true <;> simp [scan, Mark.Allowed, hp, hnone, hnodup]
  | define r =>
      by_cases hz : r = .zero
      · subst hz
        have hnone : Layout.named (Mark.define .zero).regs = [] := rfl
        simp [scan, Mark.Allowed, hnone, hnodup]
      · have hone : Layout.named (Mark.define r).regs = [r] := by simp [Layout.named, Mark.regs, hz]
        by_cases hr : r ∈ defined <;> simp [scan, Mark.Allowed, hz, hone, hr, hnodup]

/-- When a scan goes through, and what it has collected then, latest first. -/
theorem scan_eq_ok_iff (ms : List Mark) (hnodup : defined.Nodup) :
    scan isPred ms defined = .ok out ↔
      (∀ m ∈ ms, m.Allowed isPred) ∧
        out = Layout.named (ms.reverse.flatMap Mark.regs) ++ defined ∧ out.Nodup := by
  induction ms generalizing defined with
  | nil =>
      simp only [scan, Except.ok.injEq, List.not_mem_nil, false_imp_iff, implies_true,
        List.reverse_nil, List.flatMap_nil, Layout.named_nil, List.nil_append, true_and]
      constructor
      · rintro rfl
        exact ⟨rfl, hnodup⟩
      · rintro ⟨rfl, _⟩
        rfl
  | cons m rest ih =>
      rw [scan_cons_eq_ok_iff m rest hnodup, List.forall_mem_cons, List.reverse_cons,
        List.flatMap_append, List.flatMap_singleton, Layout.named_append, List.append_assoc]
      constructor
      · rintro ⟨hm, hmid, hrest⟩
        obtain ⟨hall, hout⟩ := (ih hmid).mp hrest
        exact ⟨⟨hm, hall⟩, hout⟩
      · rintro ⟨⟨hm, hall⟩, rfl, hout⟩
        have hmid := hout.of_append_right
        exact ⟨hm, hmid, (ih hmid).mpr ⟨hall, rfl, hout⟩⟩

/-- The scan meets the definitions of a block in their order. -/
theorem flatMap_regs_blockMarks (b : Block) : (blockMarks b).flatMap Mark.regs = b.defs := by
  have hphi (φ : Phi) : (phiMarks b.label φ).flatMap Mark.regs = [φ.dst] := by
    simp [phiMarks, Mark.regs, List.flatMap_map]
  have hdefine (rs : List Reg) : (rs.map Mark.define).flatMap Mark.regs = rs := by
    simp [List.flatMap_map, Mark.regs]
  rw [blockMarks, List.flatMap_append, List.flatMap_append, hdefine, hdefine, List.flatMap_assoc,
    Block.defs, List.map_eq_flatMap]
  simp only [hphi]

theorem named_marks_perm (g : Graph) :
    (Layout.named (g.marks.reverse.flatMap Mark.regs)).Perm (Layout.named g.defs) := by
  have hregs : g.marks.flatMap Mark.regs = g.defs := by
    simp only [marks, List.flatMap_assoc, flatMap_regs_blockMarks, defs]
  rw [← hregs]
  exact ((List.reverse_perm g.marks).flatMap_right _).filter _

/-- The entries that the scan meets are those of the reachable phis. -/
theorem marks_allowed_iff (g : Graph) :
    (∀ m ∈ g.marks, m.Allowed isPred) ↔
      ∀ id b, (id, b) ∈ g.walk → ∀ φ ∈ b.phis, ∀ e ∈ φ.incoming,
        isPred b.label e.1 = true := by
  simp only [marks, blockMarks, phiMarks, List.forall_mem_flatMap, List.forall_mem_append,
    List.forall_mem_cons, List.forall_mem_map, Mark.Allowed, implies_true, and_true, true_and,
    Prod.forall]

end Graph

namespace Reg

theorem least?_eq_none_iff {rs : List Reg} : least? rs = none ↔ rs = [] := by
  cases rs with
  | nil => simp [least?]
  | cons r rest =>
      simp only [least?, reduceCtorEq, iff_false]
      cases least? rest with
      | none => simp
      | some s => simp

theorem mem_of_least? {rs : List Reg} {r : Reg} (h : least? rs = some r) : r ∈ rs := by
  induction rs generalizing r with
  | nil => cases h
  | cons s rest ih =>
      simp only [least?] at h
      cases hl : least? rest with
      | none =>
          rw [hl] at h
          cases h
          exact List.mem_cons_self ..
      | some t =>
          simp only [hl, Option.some.injEq] at h
          by_cases hle : s.le t = true
          · rw [if_pos hle] at h
            exact h ▸ List.mem_cons_self ..
          · rw [if_neg hle] at h
            exact List.mem_cons_of_mem _ (ih (hl.trans (congrArg some h)))

end Reg

namespace Graph

variable {g : Graph} {defined : List Reg}

theorem scan_marks_eq_ok_iff :
    scan (hasPredecessor g.predecessors) g.marks [] = .ok defined ↔
      (∀ id b, (id, b) ∈ g.walk →
        ∀ φ ∈ b.phis, ∀ e ∈ φ.incoming, e.1 ∈ g.predecessors.getD b.label []) ∧
        defined = Layout.named (g.marks.reverse.flatMap Mark.regs) ∧ defined.Nodup := by
  rw [scan_eq_ok_iff g.marks List.nodup_nil]
  simp only [marks_allowed_iff, hasPredecessor, List.contains_iff_mem, List.append_nil]

theorem InOrder.scan_marks (h : g.InOrder byLabel) :
    scan (hasPredecessor g.predecessors) g.marks [] =
      .ok (Layout.named (g.marks.reverse.flatMap Mark.regs)) :=
  scan_marks_eq_ok_iff.mpr ⟨h.incoming, rfl, (named_marks_perm g).nodup_iff.mpr h.single⟩

theorem find?_reads_eq_none_iff :
    (g.reads.find? fun e => e.2 ≠ .zero ∧ e.2 ∉ defined) = none ↔
      ∀ r ∈ g.uses, r = .zero ∨ r ∈ defined := by
  have hsnd : g.reads.map Prod.snd = g.uses := by
    simp [reads, uses, List.map_flatMap, Function.comp_def]
  rw [List.find?_eq_none, ← hsnd, List.forall_mem_map]
  apply forall₂_congr
  intro e _
  simp only [ne_eq, decide_not, Bool.decide_and, Bool.and_eq_true, Bool.not_eq_true',
    decide_eq_false_iff_not]
  tauto

/-- The part of a check that looks at what is read and at what is not. -/
theorem check_eq_ok_iff_of_scan {live : Bool}
    (hs : scan (hasPredecessor g.predecessors) g.marks [] = .ok defined) :
    g.check live = .ok () ↔
      (∀ r ∈ g.uses, r = .zero ∨ r ∈ defined) ∧ (live = true → ∀ r ∈ defined, r ∈ g.uses) := by
  have hunread : Reg.least? (defined.filter (· ∉ g.uses)) = none ↔ ∀ r ∈ defined, r ∈ g.uses := by
    rw [Reg.least?_eq_none_iff, List.filter_eq_nil_iff]
    simp
  unfold check
  rw [hs]
  dsimp only
  cases hfind : g.reads.find? fun e => e.2 ≠ .zero ∧ e.2 ∉ defined with
  | some e =>
      have hnot := mt find?_reads_eq_none_iff.mpr (by rw [hfind]; simp)
      simp [hnot]
  | none =>
      rw [and_iff_right (find?_reads_eq_none_iff.mp hfind), ← hunread]
      cases live with
      | false => simp
      | true =>
          cases Reg.least? (defined.filter (· ∉ g.uses)) with
          | none => simp
          | some r => simp

/-- The checker accepts exactly the graphs in order, and those in which all is
read if it is asked to see to that. -/
theorem check_eq_ok_iff {live : Bool} :
    g.check live = .ok () ↔ g.InOrder byLabel ∧ (live = true → g.AllRead) := by
  have hperm := named_marks_perm g
  constructor
  · intro hcheck
    obtain ⟨defined, hs⟩ : ∃ defined,
        scan (hasPredecessor g.predecessors) g.marks [] = .ok defined := by
      cases hs : scan (hasPredecessor g.predecessors) g.marks [] with
      | ok defined => exact ⟨defined, rfl⟩
      | error e => simp [check, hs] at hcheck
    obtain ⟨hreads, hlive⟩ := (check_eq_ok_iff_of_scan hs).mp hcheck
    obtain ⟨hin, rfl, hnodup⟩ := scan_marks_eq_ok_iff.mp hs
    simp only [hperm.mem_iff, Layout.mem_named] at hreads hlive
    refine ⟨⟨hperm.nodup_iff.mp hnodup, hin, ?_⟩, ?_⟩
    · intro r hr
      exact (hreads r hr).imp_right And.left
    · intro hl r hr
      by_cases hz : r = .zero
      · exact Or.inl hz
      · exact Or.inr (hlive hl r ⟨hr, hz⟩)
  · rintro ⟨horder, hlive⟩
    rw [check_eq_ok_iff_of_scan horder.scan_marks]
    simp only [hperm.mem_iff, Layout.mem_named]
    constructor
    · intro r hr
      by_cases hz : r = .zero
      · exact Or.inl hz
      · exact Or.inr ⟨(horder.defined r hr).resolve_left hz, hz⟩
    · rintro hl r ⟨hd, hz⟩
      exact (hlive hl r hd).resolve_left hz

/-- A graph in order can only be refused for a register that nothing reads. -/
theorem exists_unused_of_not_allRead (horder : g.InOrder byLabel) (hread : ¬g.AllRead) :
    ∃ r, g.check true = .error (.unusedDefinition r) ∧ r ∈ g.defs ∧ r ≠ .zero ∧ r ∉ g.uses := by
  have hfalse : g.check false = .ok () := check_eq_ok_iff.mpr ⟨horder, by simp⟩
  have hreads := ((check_eq_ok_iff_of_scan horder.scan_marks).mp hfalse).1
  have hfind := find?_reads_eq_none_iff.mpr hreads
  have hcheck : g.check true ≠ .ok () := fun h => hread ((check_eq_ok_iff.mp h).2 rfl)
  unfold check at hcheck ⊢
  simp only [horder.scan_marks, hfind, if_true] at hcheck ⊢
  generalize hunread : (Layout.named _).filter _ = unread at hcheck ⊢
  cases hl : Reg.least? unread with
  | none =>
      rw [hl] at hcheck
      exact absurd rfl hcheck
  | some r =>
      obtain ⟨hmem, hu⟩ := List.mem_filter.mp (hunread ▸ Reg.mem_of_least? hl)
      obtain ⟨hd, hz⟩ := Layout.mem_named.mp ((named_marks_perm g).mem_iff.mp hmem)
      exact ⟨r, rfl, hd, hz, by simpa using hu⟩

/-- Every reachable node belongs to the instruction set and fits it: emits have
one of the four widths, calls name a registered callee and agree with it about
arguments and results, terminators lead to blocks of the graph. The entry, which
control reaches from nowhere, starts without phis. -/
structure Encodable (g : Graph) : Prop where
  entry : ∀ b, g.block? g.entry = some b → b.phis = []
  instrs : ∀ id b, (id, b) ∈ g.walk → ∀ i ∈ b.instrs, i.Fits
  known : ∀ id b, (id, b) ∈ g.walk → b.term.Known
  inside : ∀ id b, (id, b) ∈ g.walk → ∀ next ∈ b.term.successors, next < g.size

instance : Decidable g.Encodable :=
  decidable_of_iff
    ((∀ b ∈ g.block? g.entry, b.phis = []) ∧ (∀ e ∈ g.walk, ∀ i ∈ e.2.instrs, i.Fits) ∧
      (∀ e ∈ g.walk, e.2.term.Known) ∧ ∀ e ∈ g.walk, ∀ next ∈ e.2.term.successors, next < g.size)
    ⟨fun ⟨hentry, hinstrs, hknown, hinside⟩ => ⟨hentry, fun _ _ => hinstrs _, fun _ _ => hknown _,
      fun _ _ => hinside _⟩, fun h => ⟨h.entry, fun _ => h.instrs _ _, fun _ => h.known _ _,
      fun _ => h.inside _ _⟩⟩

/-- What lowering asks for is order, and nodes that fit. -/
theorem lowerable_iff : g.Lowerable ↔ g.InOrder byPlace ∧ g.Encodable := by
  constructor
  · intro h
    refine ⟨⟨h.single, ?_, h.defined⟩, ⟨h.entry, ?_, ?_, ?_⟩⟩
    · intro id b hw φ hφ e he
      exact ((h.blocks id b hw).incoming φ hφ e he).2
    · exact fun id b hw => (h.blocks id b hw).instrs
    · exact fun id b hw => (h.blocks id b hw).known
    · exact fun id b hw => (h.blocks id b hw).inside
  · rintro ⟨horder, hfits⟩
    refine ⟨hfits.entry, fun id b hw => ⟨?_, ?_, ?_, ?_⟩, horder.single, horder.defined⟩
    · intro φ hφ e he
      -- a predecessor is reachable, so it needs no check of its own to be in the graph
      have hpred := horder.incoming id b hw φ hφ e he
      exact ⟨lt_of_mem_predecessors hpred, hpred⟩
    · exact hfits.instrs id b hw
    · exact hfits.known id b hw
    · exact hfits.inside id b hw

theorem exists_assemble_iff (h : Heap) :
    (∃ p h', g.assemble h = .ok (p, h')) ↔ ∃ c, g.lower = .ok c := by
  constructor
  · rintro ⟨p, h', hp⟩
    exact ⟨p.code, lower_of_assemble hp⟩
  · rintro ⟨c, hc⟩
    obtain ⟨p, h', hp, -⟩ := exists_assemble_of_lower hc h
    exact ⟨p, h', hp⟩

theorem exists_assemble_iff_inOrder (g : Graph) (h : Heap) :
    (∃ p h', g.assemble h = .ok (p, h')) ↔ g.InOrder byPlace ∧ g.Encodable := by
  rw [exists_assemble_iff, exists_lower_iff, lowerable_iff]

theorem Numbered.exists_assemble_iff_check (hg : g.Numbered) (h : Heap) :
    (∃ p h', g.assemble h = .ok (p, h')) ↔ g.check false = .ok () ∧ g.Encodable := by
  rw [exists_assemble_iff_inOrder, ← hg.inOrder_iff, check_eq_ok_iff]
  simp only [Bool.false_eq_true, false_imp_iff, and_true]

/-- One block leads to another, which takes what the first defines and carries
the given name. -/
def straight (last : Label) : Graph where
  blocks := #[
    ⟨0, [], [.const (.scalar 0) 1], .jump 1⟩,
    ⟨last, [⟨.scalar 1, [(0, .scalar 0)]⟩], [], .ret [.scalar 1]⟩]
  entry := 0
  nextReg := 2
  entry_lt := by simp

/-- Two ways lead to the last block, which carries the given name. It asks for
what comes from the first block at once, although nothing does. -/
def forked (last : Label) : Graph where
  blocks := #[
    ⟨0, [], [.const (.scalar 0) 1], .branch (.scalar 0) 1 2⟩,
    ⟨1, [], [], .jump 3⟩,
    ⟨2, [], [], .jump 3⟩,
    ⟨last, [⟨.scalar 1, [(0, .scalar 0)]⟩], [], .ret [.scalar 1]⟩]
  entry := 0
  nextReg := 2
  entry_lt := by simp

theorem numbered_straight : (straight 1).Numbered := (straight 1).numbered_numbered

end Graph

/-- The checker and the assembler agree: a graph that is numbered can be
assembled exactly when it passes the check and every reachable node is one that
can be encoded. For any other graph the same holds of the check of the graph
once numbered. -/
theorem assembled_iff_checked (g : Graph) (h : Heap) :
    (g.Numbered →
      ((∃ p h', g.assemble h = .ok (p, h')) ↔ g.check false = .ok () ∧ g.Encodable)) ∧
      ((∃ p h', g.assemble h = .ok (p, h')) ↔
        g.numbered.check false = .ok () ∧ g.Encodable) := by
  refine ⟨fun hnumbered => hnumbered.exists_assemble_iff_check h, ?_⟩
  rw [g.exists_assemble_iff_inOrder, Graph.check_eq_ok_iff, g.numbered_numbered.inOrder_iff,
    Graph.inOrder_byPlace_numbered_iff]
  simp only [Bool.false_eq_true, false_imp_iff, and_true]

/-- A numbered graph that both accept. -/
theorem assembled_iff_checked_straight :
    (Graph.straight 1).Numbered ∧ (Graph.straight 1).check false = .ok () ∧
      (Graph.straight 1).Encodable := by
  have hnumbered := Graph.numbered_straight
  have hassembled := Graph.exists_assemble_of_isOk (g := .straight 1) (by decide +kernel) {}
  exact ⟨hnumbered, ((assembled_iff_checked _ {}).1 hnumbered).mp hassembled⟩

/-- Once a name has been changed they can disagree, and in both ways. The checker
does not find the edge to the second block of the one graph, and finds one to the
last block of the other that is not there. The assembler is not misled. -/
theorem relabelled_graphs_divide_checker_and_assembler :
    ((Graph.straight 1).setLabel 1 5 = .ok (Graph.straight 5) ∧ (Graph.straight 5).Encodable ∧
      (Graph.straight 5).check false = .error (.strayIncoming 5 (.scalar 1) 0) ∧
      ∃ p h', (Graph.straight 5).assemble {} = .ok (p, h')) ∧
    (Graph.forked 3).setLabel 3 1 = .ok (Graph.forked 1) ∧ (Graph.forked 1).Encodable ∧
      (Graph.forked 1).check false = .ok () ∧
      (Graph.forked 1).assemble {} = .error (.strayIncoming 3 (.scalar 1) 0) := by
  refine ⟨⟨rfl, ?_, ?_, Graph.exists_assemble_of_isOk ?_ {}⟩, rfl, ?_, ?_, ?_⟩
  all_goals decide +kernel

end WireFlow
