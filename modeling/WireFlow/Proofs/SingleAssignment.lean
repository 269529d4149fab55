import WireFlow.Proofs.Nodes
import WireFlow.Proofs.WalkOrder

/-!
# Single assignment

A definition has a site: a reachable block, a node of it and a place among the
node's definitions. A graph has single assignment form if no register other than
the sentinel is defined at two sites, every register that is read is defined
somewhere, and phis name blocks that control can come from. The checker accepts
exactly these graphs, although it scans the blocks in the order of the walk and
stops at the first fault. What it reports is a fault that the graph has.

All this is so for blocks that go by the names they carry, and hence for numbered
graphs also by place. A block with the name of another misleads the checker.
-/

namespace WireFlow

/-- A place for a definition: in a block, at a node, among its definitions. -/
structure Site where
  block : Label
  node : Nat
  slot : Nat
deriving DecidableEq

/-- Rows made from items with different keys have nothing in common. -/
theorem nodup_flatMap_of_key {α β κ : Type} (key : α → κ) (keyOf : β → κ) {xs : List α}
    {row : α → List β} (hkeys : (xs.map key).Nodup) (hrows : ∀ x ∈ xs, (row x).Nodup)
    (hkey : ∀ x ∈ xs, ∀ y ∈ row x, keyOf y = key x) : (xs.flatMap row).Nodup := by
  rw [List.nodup_flatMap]
  refine ⟨hrows, ?_⟩
  have hdiffer : xs.Pairwise fun x x' => key x ≠ key x' := List.pairwise_map.mp hkeys
  refine hdiffer.imp_of_mem fun hx hx' hne y hy hy' => ?_
  exact hne ((hkey _ hx y hy).symm.trans (hkey _ hx' y hy'))

theorem nodup_map_snd_zipIdx {α : Type} (xs : List α) : (xs.zipIdx.map Prod.snd).Nodup := by
  rw [List.zipIdx_map_snd]
  exact List.nodup_range'

/-- The definitions of a node with their sites. -/
def Node.sites (id : Label) (e : Node × Nat) : List (Site × Reg) :=
  e.1.defs.zipIdx.map fun d => (⟨id, e.2, d.2⟩, d.1)

theorem Node.nodup_sites (id : Label) (e : Node × Nat) : (Node.sites id e).Nodup := by
  have hslots : (Node.sites id e).map (fun s => s.1.slot) = e.1.defs.zipIdx.map Prod.snd := by
    simp [Node.sites, Function.comp_def]
  exact List.Nodup.of_map (fun s => s.1.slot) (hslots ▸ nodup_map_snd_zipIdx _)

/-- The definitions of a block with their sites. -/
def Block.sites (e : Label × Block) : List (Site × Reg) :=
  e.2.nodes.zipIdx.flatMap (Node.sites e.1)

theorem Block.nodup_sites (e : Label × Block) : (Block.sites e).Nodup := by
  apply nodup_flatMap_of_key Prod.snd (fun s => s.1.node) (nodup_map_snd_zipIdx e.2.nodes)
  · exact fun n _ => Node.nodup_sites e.1 n
  · intro n _ s hs
    obtain ⟨d, -, rfl⟩ := List.mem_map.mp hs
    rfl

theorem Block.map_snd_sites (e : Label × Block) : (Block.sites e).map Prod.snd = e.2.defs := by
  have hnode (n : Node × Nat) : (Node.sites e.1 n).map Prod.snd = n.1.defs := by
    simp only [Node.sites, List.map_map, Function.comp_def]
    exact List.zipIdx_map_fst 0 _
  rw [sites, List.map_flatMap]
  simp only [hnode]
  rw [← flatMap_defs_nodes, ← List.flatMap_map (f := Prod.fst), List.zipIdx_map_fst]

namespace Graph

variable {g : Graph} {r : Reg} {p : Site} {id : Label}

/-- The register is defined at the site. -/
def DefinedAt (g : Graph) (r : Reg) (p : Site) : Prop :=
  g.Reachable p.block ∧ ∃ b n, g.block? p.block = some b ∧ b.nodes[p.node]? = some n ∧
    n.defs[p.slot]? = some r

/-- A node of the block reads the register. -/
def ReadIn (g : Graph) (r : Reg) (id : Label) : Prop :=
  g.Reachable id ∧ ∃ b, g.block? id = some b ∧ r ∈ b.uses

/-- The register is defined and nothing reads it. -/
structure Unread (g : Graph) (r : Reg) : Prop where
  ne_zero : r ≠ .zero
  defined : ∃ p, g.DefinedAt r p
  unread : ∀ id, ¬g.ReadIn r id

/-- Single assignment form, if blocks go by the given names. -/
structure SingleAssignment (g : Graph) (name : Label → Block → Label) : Prop where
  single : ∀ r p q, r ≠ .zero → g.DefinedAt r p → g.DefinedAt r q → p = q
  defined : ∀ r id, r ≠ .zero → g.ReadIn r id → ∃ p, g.DefinedAt r p
  incoming : ∀ id b, g.Reachable id → g.block? id = some b → ∀ φ ∈ b.phis, ∀ e ∈ φ.incoming,
    g.Reachable e.1 ∧ name id b ∈ g.successors e.1

/-- The label is the name of a reachable block. -/
def Named (g : Graph) (name : Label → Block → Label) (label : Label) (b : Block) : Prop :=
  ∃ id, g.Reachable id ∧ g.block? id = some b ∧ name id b = label

/-- The definitions of the reachable blocks with their sites. -/
def sites (g : Graph) : List (Site × Reg) := g.walk.flatMap Block.sites

theorem mem_sites : (p, r) ∈ g.sites ↔ g.DefinedAt r p := by
  simp only [sites, Block.sites, Node.sites, List.mem_flatMap, List.mem_map, Prod.exists,
    mem_walk_iff, List.mk_mem_zipIdx_iff_getElem?, Prod.mk.injEq, DefinedAt]
  constructor
  · rintro ⟨id, b, ⟨hid, hb⟩, n, i, hn, s, j, hs, rfl, rfl⟩
    exact ⟨hid, b, n, hb, hn, hs⟩
  · rintro ⟨hid, b, n, hb, hn, hs⟩
    exact ⟨p.block, b, ⟨hid, hb⟩, n, p.node, hn, r, p.slot, hs, rfl, rfl⟩

/-- The walk names its blocks as the post-order does. -/
theorem map_fst_walk (g : Graph) : g.walk.map Prod.fst = g.postOrder := by
  rw [walk, pick, List.map_filterMap]
  have hsome : ∀ id ∈ g.postOrder,
      ((g.block? id).map fun b => (id, b)).map Prod.fst = some id := by
    intro id hid
    obtain ⟨b, hb⟩ := exists_block?_of_mem_postOrder hid
    simp [hb]
  rw [List.filterMap_congr hsome, List.filterMap_some]

/-- No site is listed twice, since no block is met twice. -/
theorem nodup_sites (g : Graph) : g.sites.Nodup := by
  apply nodup_flatMap_of_key Prod.fst (fun s => s.1.block)
  · rw [map_fst_walk]
    exact g.nodup_postOrder
  · exact fun e _ => Block.nodup_sites e
  · intro e _ s hs
    obtain ⟨n, -, hs⟩ := List.mem_flatMap.mp hs
    obtain ⟨d, -, rfl⟩ := List.mem_map.mp hs
    rfl

theorem map_snd_sites (g : Graph) : g.sites.map Prod.snd = g.defs := by
  rw [sites, List.map_flatMap]
  simp only [Block.map_snd_sites, defs]

theorem mem_defs_iff_site : r ∈ g.defs ↔ ∃ p, g.DefinedAt r p := by
  simp [← map_snd_sites, mem_sites]

theorem mem_uses_iff_readIn : r ∈ g.uses ↔ ∃ id, g.ReadIn r id := by
  simp only [uses, List.mem_flatMap, Prod.exists, mem_walk_iff, ReadIn]
  constructor
  · rintro ⟨id, b, ⟨hid, hb⟩, hr⟩
    exact ⟨id, hid, b, hb, hr⟩
  · rintro ⟨id, hid, b, hb, hr⟩
    exact ⟨id, b, ⟨hid, hb⟩, hr⟩

theorem mem_reads_iff {label : Label} :
    (label, r) ∈ g.reads ↔ ∃ b, g.Named byLabel label b ∧ r ∈ b.uses := by
  simp only [reads, List.mem_flatMap, List.mem_map, Prod.exists, Prod.mk.injEq, mem_walk_iff]
  constructor
  · rintro ⟨id, b, ⟨hid, hb⟩, s, hs, hlabel, rfl⟩
    exact ⟨b, ⟨id, hid, hb, hlabel⟩, hs⟩
  · rintro ⟨b, ⟨id, hid, hb, hlabel⟩, hr⟩
    exact ⟨id, b, ⟨hid, hb⟩, r, hr, hlabel, rfl⟩

theorem mem_predecessors_iff {pred : Label} :
    pred ∈ g.predecessors.getD id [] ↔ g.Reachable pred ∧ id ∈ g.successors pred := by
  rw [mem_predecessors, mem_postOrder_iff]

theorem nodup_named_defs_iff :
    (Layout.named g.defs).Nodup ↔
      ∀ r p q, r ≠ .zero → g.DefinedAt r p → g.DefinedAt r q → p = q := by
  have hnamed : Layout.named g.defs = (g.sites.filter fun s => s.2 ≠ .zero).map Prod.snd := by
    rw [← map_snd_sites, Layout.named, List.filter_map]
    rfl
  rw [hnamed, List.nodup_map_iff_inj_on (g.nodup_sites.filter _)]
  constructor
  · intro h r p q hz hp hq
    have hmem {p : Site} (hp : g.DefinedAt r p) :
        (p, r) ∈ g.sites.filter fun s => s.2 ≠ .zero :=
      List.mem_filter.mpr ⟨mem_sites.mpr hp, by simpa using hz⟩
    exact congrArg Prod.fst (h _ (hmem hp) _ (hmem hq) rfl)
  · rintro h ⟨p, r⟩ hp ⟨q, _⟩ hq rfl
    obtain ⟨hp, hz⟩ := List.mem_filter.mp hp
    have hq := (List.mem_filter.mp hq).1
    rw [h r p q (by simpa using hz) (mem_sites.mp hp) (mem_sites.mp hq)]

/-- A register that is listed twice has two sites. -/
theorem exists_two_sites (h : 2 ≤ g.defs.count r) :
    ∃ p q, p ≠ q ∧ g.DefinedAt r p ∧ g.DefinedAt r q := by
  rw [← List.replicate_sublist_iff, ← map_snd_sites, List.sublist_map_iff] at h
  obtain ⟨ss, hss, hregs⟩ := h
  have hnodup := hss.nodup g.nodup_sites
  have hlength : ss.length = 2 := by simpa using congrArg List.length hregs.symm
  obtain ⟨⟨p, _⟩, ⟨q, _⟩, rfl⟩ := List.length_eq_two.mp hlength
  simp only [List.replicate, List.map_cons, List.map_nil, List.cons.injEq, and_true] at hregs
  obtain ⟨rfl, rfl⟩ := hregs
  refine ⟨p, q, ?_, ?_, ?_⟩
  · rintro rfl
    simp at hnodup
  · exact mem_sites.mp (hss.subset (by simp))
  · exact mem_sites.mp (hss.subset (by simp))

theorem inOrder_iff {name : Label → Block → Label} :
    g.InOrder name ↔ g.SingleAssignment name := by
  constructor
  · intro h
    refine ⟨nodup_named_defs_iff.mp h.single, ?_, ?_⟩
    · intro r id hz hr
      exact mem_defs_iff_site.mp ((h.defined r (mem_uses_iff_readIn.mpr ⟨id, hr⟩)).resolve_left hz)
    · intro id b hid hb φ hφ e he
      exact mem_predecessors_iff.mp (h.incoming id b (mem_walk_iff.mpr ⟨hid, hb⟩) φ hφ e he)
  · intro h
    refine ⟨nodup_named_defs_iff.mpr h.single, ?_, ?_⟩
    · intro id b hb φ hφ e he
      obtain ⟨hid, hb⟩ := mem_walk_iff.mp hb
      exact mem_predecessors_iff.mpr (h.incoming id b hid hb φ hφ e he)
    · intro r hr
      by_cases hz : r = .zero
      · exact Or.inl hz
      · obtain ⟨id, hr⟩ := mem_uses_iff_readIn.mp hr
        exact Or.inr (mem_defs_iff_site.mpr (h.defined r id hz hr))

theorem unread_iff : g.Unread r ↔ (r ∈ g.defs ∧ r ≠ .zero) ∧ r ∉ g.uses := by
  rw [mem_defs_iff_site, mem_uses_iff_readIn, not_exists]
  constructor
  · rintro ⟨hz, hdef, hunread⟩
    exact ⟨⟨hdef, hz⟩, hunread⟩
  · rintro ⟨⟨hdef, hz⟩, hunread⟩
    exact ⟨hz, hdef, hunread⟩

theorem allRead_iff_unread : g.AllRead ↔ ∀ r, ¬g.Unread r := by
  simp only [AllRead, unread_iff]
  constructor
  · rintro h r ⟨⟨hdef, hz⟩, hunread⟩
    exact hunread ((h r hdef).resolve_left hz)
  · intro h r hdef
    by_cases hz : r = .zero
    · exact Or.inl hz
    · exact Or.inr (not_not.mp fun hunread => h r ⟨⟨hdef, hz⟩, hunread⟩)

/-- What a scan stops for: a register that it has met before, or a stray entry. -/
inductive ScanFault (isPred : Label → Label → Bool) (defined : List Reg) (ms : List Mark) :
    Rejection → Prop
  | twice {r : Reg} (hz : r ≠ .zero) (hcount : 2 ≤ (defined ++ ms.flatMap Mark.regs).count r) :
      ScanFault isPred defined ms (.duplicateDefinition r)
  | stray {id : Label} {r : Reg} {pred : Label} (hmem : .incoming id r pred ∈ ms)
      (hpred : isPred id pred = false) : ScanFault isPred defined ms (.strayIncoming id r pred)

variable {isPred : Label → Label → Bool} {ms : List Mark} {defined : List Reg} {e : Rejection}

/-- A fault that is found after a mark has been passed. -/
theorem ScanFault.cons {m : Mark} (h : ScanFault isPred (Layout.named m.regs ++ defined) ms e) :
    ScanFault isPred defined (m :: ms) e := by
  cases h with
  | @twice r hz hcount =>
      have hnamed : (Layout.named m.regs).count r ≤ m.regs.count r :=
        List.filter_sublist.count_le r
      refine .twice hz ?_
      simp only [List.flatMap_cons, List.count_append] at hcount ⊢
      omega
  | stray hmem hpred => exact .stray (List.mem_cons_of_mem _ hmem) hpred

theorem scanFault_of_scan (h : scan isPred ms defined = .error e) :
    ScanFault isPred defined ms e := by
  induction ms generalizing defined with
  | nil => cases h
  | cons m rest ih =>
      cases m with
      | define r =>
          simp only [scan] at h
          by_cases hz : r = .zero
          · have hnone : Layout.named (Mark.define r).regs = [] := by
              simp [Layout.named, Mark.regs, hz]
            rw [if_pos hz] at h
            exact .cons (by rw [hnone]; exact ih h)
          · have hone : Layout.named (Mark.define r).regs = [r] := by
              simp [Layout.named, Mark.regs, hz]
            rw [if_neg hz] at h
            by_cases hr : r ∈ defined
            · rw [if_pos hr] at h
              cases h
              refine .twice hz ?_
              have hbefore := List.one_le_count_iff.mpr hr
              simp only [List.flatMap_cons, Mark.regs, List.count_append, List.count_singleton_self]
              omega
            · rw [if_neg hr] at h
              exact .cons (by rw [hone]; exact ih h)
      | incoming id r pred =>
          simp only [scan] at h
          by_cases hpred : isPred id pred = true
          · rw [if_pos hpred] at h
            exact .cons (ih h)
          · rw [if_neg hpred] at h
            cases h
            exact .stray (List.mem_cons_self ..) (by simpa using hpred)

theorem flatMap_regs_marks (g : Graph) : g.marks.flatMap Mark.regs = g.defs := by
  simp only [marks, List.flatMap_assoc, flatMap_regs_blockMarks, defs]

theorem exists_phi_of_incoming_mem_marks {label pred : Label}
    (h : .incoming label r pred ∈ g.marks) :
    ∃ b φ, g.Named byLabel label b ∧ φ ∈ b.phis ∧ φ.dst = r ∧ pred ∈ φ.incoming.map Prod.fst := by
  obtain ⟨⟨id, b⟩, he, h⟩ := List.mem_flatMap.mp h
  simp only [blockMarks, phiMarks, List.mem_append, List.mem_flatMap, List.mem_cons, List.mem_map,
    reduceCtorEq, false_or, and_false, exists_false, or_false, Mark.incoming.injEq] at h
  obtain ⟨φ, hφ, e, he', hlabel, rfl, rfl⟩ := h
  obtain ⟨hid, hb⟩ := mem_walk_iff.mp he
  exact ⟨b, φ, ⟨id, hid, hb, hlabel⟩, hφ, rfl, List.mem_map_of_mem he'⟩

end Graph

namespace Reg

variable {r s t : Reg}

theorem le_iff : r.le s = true ↔
    r.kind.rank < s.kind.rank ∨ r.kind.rank = s.kind.rank ∧ r.index ≤ s.index := by
  simp [le]

theorem le_refl (r : Reg) : r.le r = true := le_iff.mpr (Or.inr ⟨rfl, Nat.le_refl _⟩)

theorem le_trans (h : r.le s = true) (h' : s.le t = true) : r.le t = true := by
  rw [le_iff] at h h' ⊢
  omega

theorem le_of_not_le (h : ¬r.le s = true) : s.le r = true := by
  rw [le_iff] at h ⊢
  omega

theorem least?_le {rs : List Reg} (h : least? rs = some r) : ∀ s ∈ rs, r.le s = true := by
  induction rs generalizing r with
  | nil => cases h
  | cons x rest ih =>
      rw [List.forall_mem_cons]
      simp only [least?] at h
      cases hl : least? rest with
      | none =>
          rw [hl] at h
          cases h
          rw [least?_eq_none_iff.mp hl]
          exact ⟨le_refl _, by simp⟩
      | some y =>
          simp only [hl, Option.some.injEq] at h
          by_cases hle : x.le y = true
          · rw [if_pos hle] at h
            subst h
            exact ⟨x.le_refl, fun s hs => le_trans hle (ih hl s hs)⟩
          · rw [if_neg hle] at h
            subst h
            exact ⟨le_of_not_le hle, ih hl⟩

end Reg

/-- What an error of the checker says about the graph, if blocks go by the given
names. Other errors it has no reason to give. -/
def Rejection.TrueOf (g : Graph) (name : Label → Block → Label) (live : Bool) : Rejection → Prop
  | duplicateDefinition r => r ≠ .zero ∧ ∃ p q, p ≠ q ∧ g.DefinedAt r p ∧ g.DefinedAt r q
  | strayIncoming label r pred =>
      (∃ b φ, g.Named name label b ∧ φ ∈ b.phis ∧ φ.dst = r ∧
        pred ∈ φ.incoming.map Prod.fst) ∧ ¬(g.Reachable pred ∧ label ∈ g.successors pred)
  | undefinedRegister label r =>
      r ≠ .zero ∧ (∃ b, g.Named name label b ∧ r ∈ b.uses) ∧ ∀ p, ¬g.DefinedAt r p
  | unusedDefinition r => live = true ∧ g.Unread r ∧ ∀ s, g.Unread s → r.le s = true
  | _ => False

namespace Graph

variable {g : Graph} {live : Bool} {defined : List Reg} {e : Rejection}

theorem trueOf_of_scan (h : scan (hasPredecessor g.predecessors) g.marks [] = .error e) :
    e.TrueOf g byLabel live := by
  cases scanFault_of_scan h with
  | twice hz hcount =>
      rw [List.nil_append, flatMap_regs_marks] at hcount
      exact ⟨hz, exists_two_sites hcount⟩
  | stray hmem hpred =>
      refine ⟨exists_phi_of_incoming_mem_marks hmem, fun hedge => ?_⟩
      have hlisted := mem_predecessors_iff.mpr hedge
      simp [hasPredecessor, hlisted] at hpred

theorem mem_of_scan (h : scan (hasPredecessor g.predecessors) g.marks [] = .ok defined) {r : Reg} :
    r ∈ defined ↔ r ∈ g.defs ∧ r ≠ .zero := by
  obtain ⟨-, rfl, -⟩ := scan_marks_eq_ok_iff.mp h
  rw [(named_marks_perm g).mem_iff, Layout.mem_named]

/-- What the checker reports is a fault of the graph. -/
theorem trueOf_of_check (h : g.check live = .error e) : e.TrueOf g byLabel live := by
  unfold check at h
  cases hscan : scan (hasPredecessor g.predecessors) g.marks [] with
  | error e' =>
      rw [hscan] at h
      cases h
      exact trueOf_of_scan hscan
  | ok defined =>
      rw [hscan] at h
      dsimp only at h
      cases hfind : g.reads.find? fun e => e.2 ≠ .zero ∧ e.2 ∉ defined with
      | some read =>
          obtain ⟨id, r⟩ := read
          rw [hfind] at h
          cases h
          have hbad := List.find?_some hfind
          simp only [mem_of_scan hscan, decide_eq_true_eq] at hbad
          obtain ⟨hz, hundefined⟩ := hbad
          refine ⟨hz, mem_reads_iff.mp (List.mem_of_find?_eq_some hfind), fun p hp => ?_⟩
          exact hundefined ⟨mem_defs_iff_site.mpr ⟨p, hp⟩, hz⟩
      | none =>
          rw [hfind] at h
          cases live with
          | false => cases h
          | true =>
              have hunread (r : Reg) : r ∈ defined.filter (· ∉ g.uses) ↔ g.Unread r := by
                rw [List.mem_filter, decide_eq_true_iff, mem_of_scan hscan, unread_iff]
              cases hleast : Reg.least? (defined.filter (· ∉ g.uses)) with
              | none =>
                  rw [if_pos rfl, hleast] at h
                  cases h
              | some r =>
                  rw [if_pos rfl, hleast] at h
                  cases h
                  refine ⟨rfl, (hunread r).mp (Reg.mem_of_least? hleast), fun s hs => ?_⟩
                  exact Reg.least?_le hleast s ((hunread s).mpr hs)

/-- What a check of the graph comes to, if blocks go by the given names. -/
structure CheckedBy (g : Graph) (name : Label → Block → Label) (live : Bool) : Prop where
  accepts : g.check live = .ok () ↔
    g.SingleAssignment name ∧ (live = true → ∀ r, ¬g.Unread r)
  truthful : ∀ e, g.check live = .error e → e.TrueOf g name live

theorem checkedBy_byLabel (g : Graph) (live : Bool) : g.CheckedBy byLabel live where
  accepts := by rw [check_eq_ok_iff, inOrder_iff, allRead_iff_unread]
  truthful _ := trueOf_of_check

theorem Numbered.named_iff (h : g.Numbered) {label : Label} {b : Block} :
    g.Named byLabel label b ↔ g.Named byPlace label b := by
  refine exists_congr fun id => and_congr_right fun _ => and_congr_right fun hb => ?_
  rw [byLabel, h id b hb]

theorem Numbered.trueOf_iff (h : g.Numbered) :
    e.TrueOf g byLabel live ↔ e.TrueOf g byPlace live := by
  cases e with
  | strayIncoming => simp only [Rejection.TrueOf, h.named_iff]
  | undefinedRegister => simp only [Rejection.TrueOf, h.named_iff]
  | _ => rfl

theorem CheckedBy.byPlace (h : g.CheckedBy byLabel live) (hnumbered : g.Numbered) :
    g.CheckedBy byPlace live where
  accepts := by rw [h.accepts, ← inOrder_iff, ← inOrder_iff, hnumbered.inOrder_iff]
  truthful e he := hnumbered.trueOf_iff.mp (h.truthful e he)

end Graph

/-- The checker accepts exactly the graphs in single assignment form, and those
of them without unread definitions if it is asked to look for these. Otherwise
it names a fault that the graph has: a register with two sites, an entry of a
phi for a block that control does not come from, a read of a register without a
site, or the least of the registers that are not read. In all this a block goes
by the name it carries, which is its place if the graph is numbered. -/
theorem check_accepts_single_assignment (g : Graph) (live : Bool) :
    g.CheckedBy Graph.byLabel live ∧ (g.Numbered → g.CheckedBy Graph.byPlace live) :=
  ⟨g.checkedBy_byLabel live, (g.checkedBy_byLabel live).byPlace⟩

/-- A numbered graph that is accepted, and one that is refused for a block that
goes by its place. -/
theorem check_accepts_single_assignment_straight :
    (Graph.straight 1).Numbered ∧ (Graph.straight 1).SingleAssignment Graph.byPlace ∧
      (Graph.forked 3).Numbered ∧
      (Rejection.strayIncoming 3 (.scalar 1) 0).TrueOf (Graph.forked 3) Graph.byPlace false := by
  have hstraight := Graph.numbered_straight
  have hforked : (Graph.forked 3).Numbered := (Graph.forked 3).numbered_numbered
  have haccepts := ((check_accepts_single_assignment _ false).2 hstraight).accepts
  have hrefuses := ((check_accepts_single_assignment _ false).2 hforked).truthful
  exact ⟨hstraight, (haccepts.mp (by decide +kernel)).1, hforked,
    hrefuses _ (by decide +kernel)⟩

/-- By place the checker can be wrong about a graph with a changed name. It refuses
a graph in single assignment form, for a block that does not exist, and accepts
a phi with an entry for a block that does not lead there. -/
theorem check_is_misled_by_labels :
    ((Graph.straight 1).setLabel 1 5 = .ok (Graph.straight 5) ∧
      (Graph.straight 5).SingleAssignment Graph.byPlace ∧ (Graph.straight 5).block? 5 = none ∧
      (Graph.straight 5).check false = .error (.strayIncoming 5 (.scalar 1) 0)) ∧
    (Graph.forked 3).setLabel 3 1 = .ok (Graph.forked 1) ∧
      (Graph.forked 1).check false = .ok () ∧
      ¬(Graph.forked 1).SingleAssignment Graph.byPlace := by
  refine ⟨⟨rfl, ?_, rfl, by decide +kernel⟩, rfl, by decide +kernel, fun h => ?_⟩
  · obtain ⟨p, h', hp⟩ := Graph.exists_assemble_of_isOk (g := .straight 5) (by decide +kernel) {}
    have hlowerable := Graph.lowerable_of_lower (Graph.lower_of_assemble hp)
    exact Graph.inOrder_iff.mp (Graph.lowerable_iff.mp hlowerable).1
  · have hreach : (Graph.forked 1).Reachable 3 := Graph.mem_postOrder_iff.mp (by decide +kernel)
    have hincoming := h.incoming 3 _ hreach rfl _ (List.mem_singleton_self _) _
      (List.mem_singleton_self _)
    exact absurd hincoming.2 (by decide)

end WireFlow
