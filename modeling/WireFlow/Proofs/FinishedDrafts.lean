import WireFlow.Proofs.Drafts
import WireFlow.Proofs.SweepFrame

/-!
# Finished drafts

Finishing a draft closes its blocks one by one. It succeeds exactly if nothing is
missing in the log of the draft, and the graph then holds what the log says. The
supply of registers goes over to the graph, so registers stay different however
the graph is changed afterwards. Blocks are named by their places, and stay so as
long as no edit gives one another name. A register that is defined by the request that
made it, or by a single phi, is defined at one place in the log; the walk through
the graph meets every block at most once, so the checker meets no definition twice.
-/

namespace WireFlow

namespace Graph

open Sequencing

/-- What can be done to a graph later on. -/
inductive Change where
  | reg (kind : RegKind)
  /-- Change a block in any way. -/
  | edit (id : Label) (f : Block → Block)
  | rename (old new : Reg) (inDefs inUses : Bool)
  | sweep

/-- Make a change; also the registers made in it. -/
def change (g : Graph) : Change → Except Fault (List Reg × Graph)
  | .reg kind => do
      let made ← g.freshReg kind
      return ([made.1], made.2)
  | .edit id f => do return ([], ← g.modifyBlock id f)
  | .rename old new inDefs inUses => .ok ([], (g.rename old new inDefs inUses).1)
  | .sweep => .ok ([], g.sweep.1)

/-- Make changes in order; also the registers made in them, earliest first. -/
def changeAll (g : Graph) : List Change → Except Fault (List Reg × Graph)
  | [] => .ok ([], g)
  | c :: rest => do
      let first ← g.change c
      let later ← first.2.changeAll rest
      return (first.1 ++ later.1, later.2)

variable {g : Graph} {out : List Reg × Graph}

/-- The registers are the next ones that the graph can make. -/
def Supplies (g : Graph) (out : List Reg × Graph) : Prop :=
  ∃ n, out.1.map Reg.index = List.range' g.nextReg n ∧ out.2.nextReg = g.nextReg + n

theorem supplies_of_nextReg_eq {g' : Graph} (h : g'.nextReg = g.nextReg) : g.Supplies ([], g') :=
  ⟨0, rfl, h⟩

theorem supplies_change {c : Change} (h : g.change c = .ok out) : g.Supplies out := by
  cases c with
  | reg kind =>
      obtain ⟨made, hmade, h⟩ := bind_eq_ok_iff.mp h
      cases h
      obtain ⟨r, hr, hmade⟩ := bind_eq_ok_iff.mp hmade
      cases hmade
      exact ⟨1, congrArg (fun i => [i]) (Reg.index_ofKind hr), rfl⟩
  | edit id f =>
      obtain ⟨g', hg', h⟩ := bind_eq_ok_iff.mp h
      cases h
      unfold modifyBlock at hg'
      split at hg'
      · cases hg'
        exact supplies_of_nextReg_eq rfl
      · cases hg'
  | rename old new inDefs inUses =>
      cases h
      exact supplies_of_nextReg_eq rfl
  | sweep =>
      cases h
      obtain ⟨dead, -, hsweep⟩ := g.exists_purge_sweep_unread
      exact supplies_of_nextReg_eq (hsweep ▸ rfl)

theorem supplies_changeAll {changes : List Change} (h : g.changeAll changes = .ok out) :
    g.Supplies out := by
  induction changes generalizing g out with
  | nil =>
      cases h
      exact supplies_of_nextReg_eq rfl
  | cons c rest ih =>
      obtain ⟨first, hfirst, h⟩ := bind_eq_ok_iff.mp h
      obtain ⟨later, hlater, h⟩ := bind_eq_ok_iff.mp h
      cases h
      obtain ⟨m, hm, hnext⟩ := supplies_change hfirst
      obtain ⟨n, hn, hend⟩ := ih hlater
      refine ⟨m + n, ?_, by rw [hend, hnext, Nat.add_assoc]⟩
      rw [List.map_append, hm, hn, hnext, List.range'_append_1]

/-- Only an edit can give a block another name. -/
def Change.KeepsNames : Change → Prop
  | .edit _ f => ∀ b, (f b).label = b.label
  | _ => True

theorem Numbered.change (hg : g.Numbered) {c : Change} (hc : c.KeepsNames)
    (h : g.change c = .ok out) : out.2.Numbered := by
  cases c with
  | reg kind =>
      obtain ⟨made, hmade, h⟩ := bind_eq_ok_iff.mp h
      cases h
      obtain ⟨r, hr, hmade⟩ := bind_eq_ok_iff.mp hmade
      cases hmade
      exact hg
  | edit id f =>
      obtain ⟨g', hg', h⟩ := bind_eq_ok_iff.mp h
      cases h
      exact hg.modifyBlock hc hg'
  | rename old new inDefs inUses =>
      cases h
      exact hg.mapReachable fun b => by cases inDefs <;> cases inUses <;> rfl
  | sweep =>
      cases h
      obtain ⟨dead, -, hsweep⟩ := g.exists_purge_sweep_unread
      rw [hsweep]
      exact hg.mapReachable fun _ => rfl

theorem Numbered.changeAll (hg : g.Numbered) {changes : List Change}
    (hkeep : ∀ c ∈ changes, c.KeepsNames) (h : g.changeAll changes = .ok out) :
    out.2.Numbered := by
  induction changes generalizing g out with
  | nil =>
      cases h
      exact hg
  | cons c rest ih =>
      obtain ⟨first, hfirst, h⟩ := bind_eq_ok_iff.mp h
      obtain ⟨later, hlater, h⟩ := bind_eq_ok_iff.mp h
      cases h
      obtain ⟨hc, hrest⟩ := List.forall_mem_cons.mp hkeep
      show later.2.Numbered
      exact ih (hg.change hc hfirst) hrest hlater

end Graph

/-- What a node defines, unless it is a terminator. -/
def Node.bodyDefs : Node → List Reg
  | phi φ => [φ.dst]
  | instr i => i.defs
  | term _ => []

/-- Phis first and then instructions is another order of the same definitions. -/
theorem Node.bodyDefs_perm (ns : List Node) :
    ((ns.filterMap phi?).map Phi.dst ++ (ns.filterMap instr?).flatMap Instr.defs).Perm
      (ns.flatMap bodyDefs) := by
  induction ns with
  | nil => exact .refl _
  | cons n ns ih =>
      cases n with
      | phi φ => exact ih.cons φ.dst
      | instr i =>
          simp only [List.filterMap_cons, Node.phi?, Node.instr?, List.flatMap_cons, Node.bodyDefs]
          refine .trans ?_ (ih.append_left i.defs)
          simp only [← List.append_assoc]
          exact List.perm_append_comm.append_right _
      | term t => exact ih

namespace Draft

open Sequencing

variable {d : Draft} {g : Graph} {id : Label}

/-- No name of a block is out of range. -/
theorem find?_names_eq_none_iff (count : Nat) (t : Terminator) (φs : List Phi) :
    (t.successors ++ φs.flatMap fun φ => φ.incoming.map Prod.fst).find? (count ≤ ·) = none ↔
      (∀ s ∈ t.successors, s < count) ∧ ∀ φ ∈ φs, ∀ e ∈ φ.incoming, e.1 < count := by
  simp only [List.find?_eq_none, List.mem_append, List.mem_flatMap, List.mem_map,
    decide_eq_true_eq, Nat.not_le, or_imp, forall_and, forall_exists_index, and_imp]
  refine and_congr_right fun _ => ⟨fun h φ hφ e he => h e.1 φ hφ e he rfl, ?_⟩
  rintro h _ φ hφ e he rfl
  exact h φ hφ e he

theorem closeBlock_eq_ok_iff {count : Nat} {b : DraftBlock} {c : Block} :
    closeBlock count id b = .ok c ↔
      (∃ t, b.term = some t ∧ c = ⟨id, b.phis, b.instrs, t⟩ ∧ ∀ s ∈ t.successors, s < count) ∧
        ∀ φ ∈ b.phis, ∀ e ∈ φ.incoming, e.1 < count := by
  unfold closeBlock
  cases b.term with
  | none => simp
  | some t =>
      have hnames := find?_names_eq_none_iff count t b.phis
      simp only [Option.some.injEq, exists_eq_left', and_assoc, ← hnames]
      split
      · next hfind => simp [hfind]
      · next hfind => simp [hfind, eq_comm]

theorem parts_of_finish (h : d.finish = .ok g) :
    g.entry = 0 ∧ g.nextReg = d.nextReg ∧
      List.Forall₂ (fun e c => closeBlock d.blocks.size e.2 e.1 = .ok c) d.blocks.toList.zipIdx
        g.blocks.toList := by
  obtain ⟨blocks, hblocks, h⟩ := bind_eq_ok_iff.mp h
  split at h
  · cases h
    exact ⟨rfl, rfl, mapM_eq_ok_iff.mp hblocks⟩
  · cases h

theorem size_of_finish (h : d.finish = .ok g) : g.size = d.blocks.size := by
  have hlength := (parts_of_finish h).2.2.length_eq
  simpa [Graph.size, eq_comm] using hlength

theorem block?_of_finish (h : d.finish = .ok g) {b : DraftBlock} (hb : d.blocks[id]? = some b) :
    ∃ c, g.block? id = some c ∧ closeBlock d.blocks.size id b = .ok c := by
  have hzip : d.blocks.toList.zipIdx[id]? = some (b, id) := by
    simp [List.getElem?_zipIdx, hb]
  obtain ⟨c, hc, hclose⟩ := forall₂_getElem? (parts_of_finish h).2.2.flip hzip
  exact ⟨c, by simpa [Graph.block?] using hc, hclose⟩

/-- Every block of a finished draft carries its place. -/
theorem numbered_of_finish (h : d.finish = .ok g) : g.Numbered := by
  intro id c hc
  have hid : id < d.blocks.size := size_of_finish h ▸ Graph.lt_of_block? hc
  obtain ⟨c', hc', hclose⟩ := block?_of_finish h (Array.getElem?_eq_getElem hid)
  obtain ⟨⟨t, -, rfl, -⟩, -⟩ := closeBlock_eq_ok_iff.mp hclose
  cases hc.symm.trans hc'
  rfl

/-- The checker and the assembler agree about finished drafts, also after changes
that keep the names of blocks. -/
theorem exists_assemble_iff_check_of_changeAll (h : d.finish = .ok g)
    {changes : List Graph.Change} (hkeep : ∀ c ∈ changes, c.KeepsNames) {out : List Reg × Graph}
    (hout : g.changeAll changes = .ok out) (heap : Heap) :
    (∃ p heap', out.2.assemble heap = .ok (p, heap')) ↔
      out.2.check false = .ok () ∧ out.2.Encodable :=
  ((numbered_of_finish h).changeAll hkeep hout).exists_assemble_iff_check heap

theorem exists_finish_iff :
    (∃ g, d.finish = .ok g) ↔ 0 < d.blocks.size ∧
      ∀ id b, d.blocks[id]? = some b → ∃ c, closeBlock d.blocks.size id b = .ok c := by
  constructor
  · rintro ⟨g, h⟩
    refine ⟨size_of_finish h ▸ Nat.zero_lt_of_lt g.entry_lt, fun id b hb => ?_⟩
    obtain ⟨c, -, hc⟩ := block?_of_finish h hb
    exact ⟨c, hc⟩
  · rintro ⟨hsize, hall⟩
    have hclose : ∀ e ∈ d.blocks.toList.zipIdx, ∃ c, closeBlock d.blocks.size e.2 e.1 = .ok c := by
      rintro ⟨b, id⟩ he
      rw [List.mk_mem_zipIdx_iff_getElem?] at he
      exact hall id b (by simpa using he)
    obtain ⟨blocks, hblocks⟩ := exists_mapM_eq_ok_iff.mpr hclose
    have hlength := (mapM_eq_ok_iff.mp hblocks).length_eq
    rw [List.length_zipIdx, Array.length_toList] at hlength
    exact ⟨_, by rw [finish, hblocks, ok_bind, dif_pos (hlength ▸ hsize)]; rfl⟩

end Draft

/-- The request adds an instruction as it is. -/
def Draft.Request.isRaw : Request → Bool
  | .instr _ _ => true
  | _ => false

namespace Draft.Entry

/-- The register made by asking for one, and for nothing else. -/
def direct (e : Entry) : List Reg :=
  match e.request with
  | .reg _ => e.reply.regs
  | _ => []

/-- What the instructions of an entry define. -/
def instrDefs (e : Entry) : List Reg :=
  ((e.nodes.map Prod.snd).filterMap Node.instr?).flatMap Instr.defs

/-- An instruction that was not added as it is defines registers made for it. -/
theorem direct_append_sublist (e : Entry) (h : e.request.isRaw = false) :
    (e.direct ++ e.instrDefs).Sublist e.reply.regs := by
  obtain ⟨request, reply⟩ := e
  cases request with
  | instr id i => cases h
  | _ =>
      simp [direct, instrDefs, nodes, List.filterMap_cons, Node.instr?, Instr.defs,
        List.flatMap_map, Function.comp_def]

end Draft.Entry

namespace Draft.Log

variable {l : Log} {g : Graph} {id : Label}

/-- Nothing is missing: there is a block, every block was given a terminator, and
edges and entries of phis lead to blocks that were opened. -/
structure Closed (l : Log) : Prop where
  opened : l.labels ≠ []
  ended : ∀ id ∈ l.labels, ∃ t, l.term? id = some t ∧ ∀ s ∈ t.successors, s ∈ l.labels
  incoming : ∀ id ∈ l.labels, ∀ φ ∈ l.phis id, ∀ e ∈ φ.incoming, e.1 ∈ l.labels

namespace Kept

theorem mem_labels (h : l.Kept) : id ∈ l.labels ↔ id < l.draft.blocks.size := by
  rw [h.labels, List.mem_range]

/-- A block can be closed if it was ended and names blocks that were opened. -/
theorem closeBlock_eq_ok_iff (h : l.Kept) {c : Block} :
    closeBlock l.draft.blocks.size id (.ofNodes (itemsIn id l.nodes)) = .ok c ↔
      (∃ t, l.term? id = some t ∧ c = ⟨id, l.phis id, l.instrs id, t⟩ ∧
        ∀ s ∈ t.successors, s ∈ l.labels) ∧
      ∀ φ ∈ l.phis id, ∀ e ∈ φ.incoming, e.1 ∈ l.labels := by
  simp only [h.mem_labels]
  exact Draft.closeBlock_eq_ok_iff

theorem exists_finish_iff (h : l.Kept) : (∃ g, l.draft.finish = .ok g) ↔ l.Closed := by
  rw [Draft.exists_finish_iff]
  constructor
  · rintro ⟨hsize, hall⟩
    refine ⟨List.ne_nil_of_mem (h.mem_labels.mpr hsize), fun id hid => ?_, fun id hid => ?_⟩
    · obtain ⟨c, hc⟩ := hall id _ (h.blocks id (h.mem_labels.mp hid))
      obtain ⟨⟨t, ht, -, hsuccs⟩, -⟩ := h.closeBlock_eq_ok_iff.mp hc
      exact ⟨t, ht, hsuccs⟩
    · obtain ⟨c, hc⟩ := hall id _ (h.blocks id (h.mem_labels.mp hid))
      exact (h.closeBlock_eq_ok_iff.mp hc).2
  · intro hclosed
    refine ⟨?_, fun id b hb => ?_⟩
    · obtain ⟨id, hid⟩ := List.exists_mem_of_ne_nil _ hclosed.opened
      exact Nat.zero_lt_of_lt (h.mem_labels.mp hid)
    · have hid : id < l.draft.blocks.size := (Array.getElem?_eq_some_iff.mp hb).1
      have hlabel := h.mem_labels.mpr hid
      cases (h.blocks id hid).symm.trans hb
      obtain ⟨t, ht, hsuccs⟩ := hclosed.ended id hlabel
      exact ⟨_, h.closeBlock_eq_ok_iff.mpr ⟨⟨t, ht, rfl, hsuccs⟩, hclosed.incoming id hlabel⟩⟩

/-- A finished graph has the blocks that were asked for. -/
theorem block?_of_finish (h : l.Kept) (hfinish : l.draft.finish = .ok g) (hid : id ∈ l.labels) :
    ∃ t, l.term? id = some t ∧ g.block? id = some ⟨id, l.phis id, l.instrs id, t⟩ := by
  obtain ⟨c, hc, hclose⟩ := Draft.block?_of_finish hfinish (h.blocks id (h.mem_labels.mp hid))
  obtain ⟨⟨t, ht, rfl, -⟩, -⟩ := h.closeBlock_eq_ok_iff.mp hclose
  exact ⟨t, ht, hc⟩

theorem labels_of_finish (h : l.Kept) (hfinish : l.draft.finish = .ok g) :
    l.labels = List.range g.size := by
  rw [h.labels, Draft.size_of_finish hfinish]

end Kept

/-- The registers made by asking for a register. -/
def direct (l : Log) : List Reg := l.entries.flatMap Entry.direct

/-- All phis, whatever their block. -/
def allPhis (l : Log) : List Phi := (l.nodes.map Prod.snd).filterMap Node.phi?

/-- Registers are defined in the ways meant for it: no instruction was added as it
is, no block ends in a foreign terminator, and the phis define registers made
for them, one each. -/
structure Plain (l : Log) : Prop where
  helpers : ∀ e ∈ l.entries, e.request.isRaw = false
  known : ∀ id ∈ l.labels, ∀ t ∈ l.term? id, t.Known
  direct : ∀ φ ∈ l.allPhis, φ.dst ∈ l.direct
  single : (l.allPhis.map Phi.dst).Nodup

namespace Kept

theorem nodup_regs (h : l.Kept) : (l.regs.map Reg.index).Nodup := h.regs ▸ List.nodup_range

/-- The registers that phis may define are not defined by instructions. -/
theorem nodup_direct_append (h : l.Kept) (hplain : l.Plain) :
    (l.direct ++ l.entries.flatMap Entry.instrDefs).Nodup := by
  rw [direct, (List.flatMap_append_perm l.entries Entry.direct Entry.instrDefs).nodup_iff]
  refine (List.Sublist.flatMap_right l.entries fun e he => ?_).nodup h.nodup_regs.of_map
  exact e.direct_append_sublist (hplain.helpers e he)

theorem nodup_bodyDefs (h : l.Kept) (hplain : l.Plain) :
    (l.nodes.flatMap fun e => e.2.bodyDefs).Nodup := by
  have hinstrs : ((l.nodes.map Prod.snd).filterMap Node.instr?).flatMap Instr.defs =
      l.entries.flatMap Entry.instrDefs := by
    simp only [nodes, List.map_flatMap, List.filterMap_flatMap, List.flatMap_assoc]
    rfl
  obtain ⟨-, hnodup, hapart⟩ := List.nodup_append'.mp (h.nodup_direct_append hplain)
  rw [← List.flatMap_map (f := Prod.snd) (g := Node.bodyDefs), ← (Node.bodyDefs_perm _).nodup_iff,
    hinstrs]
  refine hplain.single.append hnodup fun r hr => ?_
  obtain ⟨φ, hφ, rfl⟩ := List.mem_map.mp hr
  exact hapart (hplain.direct φ hφ)

/-- A graph from a plain draft lists no definition twice. -/
theorem nodup_defs (h : l.Kept) (hplain : l.Plain) (hfinish : l.draft.finish = .ok g) :
    g.defs.Nodup := by
  have hblock : ∀ e ∈ g.walk, List.Perm e.2.defs ((itemsIn e.1 l.nodes).flatMap Node.bodyDefs) := by
    rintro ⟨id, b⟩ he
    have hb := (Graph.mem_walk_iff.mp he).2
    have hid : id ∈ l.labels := by
      rw [h.labels_of_finish hfinish, List.mem_range]
      exact Graph.lt_of_block? hb
    obtain ⟨t, ht, hb'⟩ := h.block?_of_finish hfinish hid
    cases hb.symm.trans hb'
    rw [Block.defs, (hplain.known id hid t ht).defs_eq_nil, List.append_nil]
    exact Node.bodyDefs_perm _
  rw [Graph.defs, (List.Perm.flatMap_left _ hblock).nodup_iff]
  -- the walk meets a block once, also a block with two ways to it
  have hids := g.nodup_postOrder
  rw [← Graph.map_fst_walk] at hids
  have hnodup := nodup_flatMap_itemsIn hids (h.nodup_bodyDefs hplain)
  rwa [List.flatMap_map] at hnodup

theorem check_ne_duplicateDefinition (h : l.Kept) (hplain : l.Plain)
    (hfinish : l.draft.finish = .ok g) (live : Bool) (r : Reg) :
    g.check live ≠ .error (.duplicateDefinition r) := by
  intro hcheck
  obtain ⟨hz, p, q, hne, hp, hq⟩ := Graph.trueOf_of_check hcheck
  have hnamed : (Layout.named g.defs).Nodup := (h.nodup_defs hplain hfinish).filter _
  exact hne (Graph.nodup_named_defs_iff.mp hnamed r p q hz hp hq)

/-- The supply of registers is handed over with the blocks. -/
theorem nodup_regs_append (h : l.Kept) (hfinish : l.draft.finish = .ok g) {out : List Reg × Graph}
    (hout : g.Supplies out) : ((l.regs ++ out.1).map Reg.index).Nodup := by
  obtain ⟨n, hn, -⟩ := hout
  rw [List.map_append, h.regs, hn, (Draft.parts_of_finish hfinish).2.1, range_append_range']
  exact List.nodup_range

end Kept

/-- What a graph has to do with the requests it was drafted by. -/
structure Delivers (l : Log) (g : Graph) : Prop where
  labels : l.labels = List.range g.size
  numbered : g.Numbered
  entry : g.entry = 0
  blocks : ∀ id ∈ l.labels, ∃ t, l.term? id = some t ∧
    g.block? id = some ⟨id, l.phis id, l.instrs id, t⟩
  fresh : ∀ changes out, g.changeAll changes = .ok out → ((l.regs ++ out.1).map Reg.index).Nodup
  single : l.Plain → ∀ live r, g.check live ≠ .error (.duplicateDefinition r)

end Draft.Log

/-- A draft serves all requests that are about open blocks and make no sentinel, and
the registers it hands out have different indices. It can be finished exactly if it
is closed. The graph then has the blocks in the order they were opened, each named
by its place and with what was put into it in order and the last of its
terminators; registers that it makes later are new again, and if registers were
defined only in the ways meant for it, the checker finds no register defined
twice. -/
theorem drafts_deliver_closed_graphs (requests : List Draft.Request) :
    ((∃ l, Draft.Log.run requests = .ok l) ↔ Draft.Request.AllAllowed 0 requests) ∧
      ∀ l, Draft.Log.run requests = .ok l →
        (l.regs.map Reg.index).Nodup ∧ ((∃ g, l.draft.finish = .ok g) ↔ l.Closed) ∧
          ∀ g, l.draft.finish = .ok g → l.Delivers g := by
  refine ⟨Draft.Log.exists_run_iff, fun l h => ?_⟩
  have hkept := Draft.Log.Kept.run h
  refine ⟨hkept.nodup_regs, hkept.exists_finish_iff, fun g hfinish => ⟨?_, ?_, ?_, ?_, ?_, ?_⟩⟩
  · exact hkept.labels_of_finish hfinish
  · exact Draft.numbered_of_finish hfinish
  · exact (Draft.parts_of_finish hfinish).1
  · exact fun id => hkept.block?_of_finish hfinish
  · exact fun changes out hout => hkept.nodup_regs_append hfinish (Graph.supplies_changeAll hout)
  · exact fun hplain => hkept.check_ne_duplicateDefinition hplain hfinish

/-- A loop that is entered before it is opened. Its end calls a routine with two
results, and the first ending of the first block is replaced. -/
def loopRequests : List Draft.Request := [
  .block,
  .const 0 10,
  .terminate 0 (.ret []),
  .terminate 0 (.jump 1),
  .reg .scalar,
  .block,
  .phi 1 ⟨.scalar 1, [(0, .scalar 0), (1, .scalar 2)]⟩,
  .call 1 0 [.scalar 1] 2,
  .terminate 1 (.branch (.scalar 2) 1 2),
  .block,
  .arg 2 .pointer 0,
  .emit 2 (.scalar 3) 8,
  .terminate 2 (.ret [.pointer 4])]

/-- The requests for the loop are served, and its graph defines nothing twice. -/
theorem drafts_deliver_closed_graphs_loop :
    ∃ l g, Draft.Log.run loopRequests = .ok l ∧ l.draft.finish = .ok g ∧ l.Delivers g ∧
      l.regs = [.scalar 0, .scalar 1, .scalar 2, .scalar 3, .pointer 4] ∧
      ∀ live r, g.check live ≠ .error (.duplicateDefinition r) := by
  obtain ⟨l, hrun⟩ : ∃ l, Draft.Log.run loopRequests = .ok l := ⟨_, rfl⟩
  obtain ⟨-, hfinish, hdelivers⟩ := (drafts_deliver_closed_graphs loopRequests).2 l hrun
  cases hrun
  obtain ⟨g, hg⟩ := hfinish.mpr ⟨by decide, by decide, by decide⟩
  refine ⟨_, g, rfl, hg, hdelivers g hg, rfl, (hdelivers g hg).single ⟨?_, ?_, ?_, ?_⟩⟩
  all_goals decide

end WireFlow
