import WireFlow.Graph.Draft
import WireFlow.Proofs.SingleAssignment

/-!
# Drafts

A draft is built by requests: for a block, for a register, for a node in a block.
Whatever the request, serving it comes down to one of three things: a block is
opened, a register is made, or a node is put into a block together with the
registers made for it. A log keeps the requests with their replies, and what a
draft holds can be read off its log, block by block in the order of the requests.
Requests are served as long as they are about open blocks and make no sentinel.
-/

namespace WireFlow

/-- The items that are for a block, in order. -/
def itemsIn {α : Type} (id : Label) (xs : List (Label × α)) : List α :=
  (xs.filter fun x => x.1 = id).map Prod.snd

section ItemsIn

variable {α : Type} {id : Label} {xs : List (Label × α)}

theorem itemsIn_append (id : Label) (xs ys : List (Label × α)) :
    itemsIn id (xs ++ ys) = itemsIn id xs ++ itemsIn id ys := by
  simp [itemsIn]

theorem itemsIn_singleton (id other : Label) (x : α) :
    itemsIn id [(other, x)] = if other = id then [x] else [] := by
  by_cases h : other = id <;> simp [itemsIn, h]

theorem itemsIn_eq_nil (h : ∀ x ∈ xs, x.1 ≠ id) : itemsIn id xs = [] := by
  rw [itemsIn, List.filter_eq_nil_iff.mpr (by simpa using h), List.map_nil]

theorem mem_itemsIn {x : α} : x ∈ itemsIn id xs ↔ (id, x) ∈ xs := by
  simp [itemsIn]

theorem itemsIn_sublist (id : Label) (xs : List (Label × α)) :
    (itemsIn id xs).Sublist (xs.map Prod.snd) :=
  List.filter_sublist.map Prod.snd

/-- What is made from all items without repetition is also made without
repetition block by block. -/
theorem nodup_flatMap_itemsIn {β : Type} {ids : List Label} {f : α → List β} (hids : ids.Nodup)
    (h : (xs.flatMap fun x => f x.2).Nodup) :
    (ids.flatMap fun id => (itemsIn id xs).flatMap f).Nodup := by
  have hapart := (List.nodup_flatMap.mp h).2
  rw [List.nodup_flatMap]
  refine ⟨fun id _ => ?_, hids.imp fun {id id'} hne b hb hb' => ?_⟩
  · rw [← List.flatMap_map (g := f) (f := Prod.snd)] at h
    exact ((itemsIn_sublist id xs).flatMap f).nodup h
  · obtain ⟨x, hx, hb⟩ := List.mem_flatMap.mp hb
    obtain ⟨x', hx', hb'⟩ := List.mem_flatMap.mp hb'
    -- items of different blocks are different items, whatever they hold
    have hpair : (id, x) ≠ (id', x') := fun heq => hne (congrArg Prod.fst heq)
    have : Std.Symm (Function.onFun List.Disjoint fun x : Label × α => f x.2) :=
      ⟨fun _ _ h => h.symm⟩
    exact hapart.forall (mem_itemsIn.mp hx) (mem_itemsIn.mp hx') hpair hb hb'

end ItemsIn

namespace Node

def phi? : Node → Option Phi
  | phi φ => some φ
  | _ => none

def instr? : Node → Option Instr
  | instr i => some i
  | _ => none

def term? : Node → Option Terminator
  | term t => some t
  | _ => none

end Node

namespace DraftBlock

/-- Add a phi or an instruction at the end, or replace the terminator. -/
def add (b : DraftBlock) : Node → DraftBlock
  | .phi φ => { b with phis := b.phis ++ [φ] }
  | .instr i => { b with instrs := b.instrs ++ [i] }
  | .term t => { b with term := some t }

/-- The block that holds nodes in order, with the last of the terminators. -/
def ofNodes (ns : List Node) : DraftBlock where
  phis := ns.filterMap Node.phi?
  instrs := ns.filterMap Node.instr?
  term := (ns.filterMap Node.term?).getLast?

theorem ofNodes_concat (ns : List Node) (n : Node) : ofNodes (ns ++ [n]) = (ofNodes ns).add n := by
  cases n <;> simp [ofNodes, add, Node.phi?, Node.instr?, Node.term?]

end DraftBlock

theorem range_append_range' (m n : Nat) : List.range m ++ List.range' m n = List.range (m + n) := by
  rw [List.range_add, List.range'_eq_map_range]

theorem Reg.index_ofKind {kind : RegKind} {r : Reg} {i : Nat} (h : ofKind kind i = .ok r) :
    r.index = i := by
  cases kind <;> cases h <;> rfl

namespace Draft

open Sequencing

/-- What can be asked of a draft. -/
inductive Request where
  | block
  | reg (kind : RegKind)
  | phi (id : Label) (φ : Phi)
  /-- Add an instruction as it is. -/
  | instr (id : Label) (i : Instr)
  | terminate (id : Label) (t : Terminator)
  | const (id : Label) (value : UInt64)
  | arg (id : Label) (kind : RegKind) (index : Nat)
  | binary (id : Label) (op : BinOp) (x y : Reg)
  | emit (id : Label) (src : Reg) (width : Nat)
  | call (id : Label) (handle : Nat) (args : List Reg) (n : Nat)
deriving DecidableEq

namespace Request

/-- The blocks that a request opens. -/
def opens : Request → Nat
  | block => 1
  | _ => 0

/-- The request makes no sentinel and is about one of so many blocks. -/
def Allowed (count : Nat) : Request → Prop
  | block => True
  | reg kind => kind ≠ .zero
  | phi id _ => id < count
  | instr id _ => id < count
  | terminate id _ => id < count
  | const id _ => id < count
  | arg id kind _ => kind ≠ .zero ∧ id < count
  | binary id _ _ _ => id < count
  | emit id _ _ => id < count
  | call id _ _ _ => id < count

/-- Every request is allowed when its turn comes. -/
def AllAllowed : Nat → List Request → Prop
  | _, [] => True
  | count, r :: rest => r.Allowed count ∧ AllAllowed (count + r.opens) rest

end Request

/-- The names that a request returns. -/
structure Reply where
  labels : List Label := []
  regs : List Reg := []
deriving DecidableEq

def serve (d : Draft) : Request → Except Fault (Reply × Draft)
  | .block => .ok ({ labels := [d.addBlock.1] }, d.addBlock.2)
  | .reg kind => do
      let made ← d.freshReg kind
      return ({ regs := [made.1] }, made.2)
  | .phi id φ => do return ({}, ← d.pushPhi id φ)
  | .instr id i => do return ({}, ← d.pushInstr id i)
  | .terminate id t => do return ({}, ← d.terminate id t)
  | .const id v => do
      let made ← d.const id v
      return ({ regs := [made.1] }, made.2)
  | .arg id kind k => do
      let made ← d.arg id kind k
      return ({ regs := [made.1] }, made.2)
  | .binary id op x y => do
      let made ← d.binary id op x y
      return ({ regs := [made.1] }, made.2)
  | .emit id v width => do return ({}, ← d.emit id v width)
  | .call id h args n => do
      let made ← d.call id h args n
      return ({ regs := made.1 }, made.2)

/-- A request with its reply. -/
structure Entry where
  request : Request
  reply : Reply
deriving DecidableEq

/-- What an entry puts into a draft, and where. -/
def Entry.nodes (e : Entry) : List (Label × Node) :=
  match e.request with
  | .block => []
  | .reg _ => []
  | .phi id φ => [(id, .phi φ)]
  | .instr id i => [(id, .instr i)]
  | .terminate id t => [(id, .term t)]
  | .const id v => e.reply.regs.map fun r => (id, .instr (.const r v))
  | .arg id _ k => e.reply.regs.map fun r => (id, .instr (.arg r k))
  | .binary id op x y => e.reply.regs.map fun r => (id, .instr (.binary r op x y))
  | .emit id v width => [(id, .instr (.emit v width))]
  | .call id h args _ => [(id, .instr (.call h args e.reply.regs))]

/-- What serving a request can come to: a block is opened, a register is made, or
a node is put into a block, together with the registers made for it. -/
inductive Served (d : Draft) : Entry → Draft → Prop
  | opened :
      Served d ⟨.block, { labels := [d.blocks.size] }⟩ { d with blocks := d.blocks.push {} }
  | made {kind : RegKind} {r : Reg} (hr : r.index = d.nextReg) :
      Served d ⟨.reg kind, { regs := [r] }⟩ { d with nextReg := d.nextReg + 1 }
  | placed {e : Entry} {id : Label} {n : Node} {k : Nat} (hid : id < d.blocks.size)
      (hnodes : e.nodes = [(id, n)]) (hlabels : e.reply.labels = [])
      (hregs : e.reply.regs.map Reg.index = List.range' d.nextReg k) :
      Served d e ⟨d.blocks.modify id (·.add n), d.nextReg + k⟩

section Serve

variable {d d' : Draft} {id : Label} {kind : RegKind} {n : Node}

theorem eq_of_freshReg {made : Reg × Draft} (h : d.freshReg kind = .ok made) :
    made.1.index = d.nextReg ∧ made.2 = { d with nextReg := d.nextReg + 1 } := by
  obtain ⟨r, hr, hmade⟩ := bind_eq_ok_iff.mp h
  cases hmade
  exact ⟨Reg.index_ofKind hr, rfl⟩

/-- All that is put into a block comes in through one door. -/
theorem eq_of_modifyBlock {f : DraftBlock → DraftBlock} (h : d.modifyBlock id f = .ok d') :
    id < d.blocks.size ∧ d' = { d with blocks := d.blocks.modify id f } := by
  unfold modifyBlock at h
  split at h
  · next hid =>
      cases h
      exact ⟨hid, rfl⟩
  · cases h

/-- A node is put into a block without a register. -/
theorem served_of_add {r : Request} {reply : Reply}
    (hnodes : (⟨r, {}⟩ : Entry).nodes = [(id, n)])
    (h : (do return ({}, ← d.modifyBlock id (·.add n))) = Except.ok (ε := Fault) (reply, d')) :
    Served d ⟨r, reply⟩ d' := by
  obtain ⟨_, hput, h⟩ := bind_eq_ok_iff.mp h
  cases h
  obtain ⟨hid, rfl⟩ := eq_of_modifyBlock hput
  exact Served.placed (k := 0) hid hnodes rfl rfl

/-- An instruction is put into a block with a register of its own. -/
theorem served_of_define {r : Request} {reply : Reply} {make : Reg → Instr}
    (hnodes : ∀ s, (⟨r, { regs := [s] }⟩ : Entry).nodes = [(id, .instr (make s))])
    (h : (do
      let made ← d.define id kind make
      return ({ regs := [made.1] }, made.2)) = Except.ok (ε := Fault) (reply, d')) :
    Served d ⟨r, reply⟩ d' := by
  obtain ⟨made, hmade, h⟩ := bind_eq_ok_iff.mp h
  cases h
  obtain ⟨⟨s, d₁⟩, hfresh, hmade⟩ := bind_eq_ok_iff.mp hmade
  obtain ⟨hs, rfl⟩ := eq_of_freshReg hfresh
  obtain ⟨d₂, hput, hmade⟩ := bind_eq_ok_iff.mp hmade
  cases hmade
  obtain ⟨hid, rfl⟩ := eq_of_modifyBlock hput
  exact Served.placed (d := d) hid (hnodes s) rfl (congrArg (fun i => [i]) hs)

theorem index_freshScalars (d : Draft) (n : Nat) :
    (d.freshScalars n).1.map Reg.index = List.range' d.nextReg n := by
  simp only [freshScalars, List.map_map, List.range'_eq_map_range]
  rfl

theorem served_of_serve {r : Request} {reply : Reply} (h : d.serve r = .ok (reply, d')) :
    Served d ⟨r, reply⟩ d' := by
  cases r with
  | block =>
      cases h
      exact .opened
  | reg kind =>
      obtain ⟨made, hmade, h⟩ := bind_eq_ok_iff.mp h
      cases h
      obtain ⟨hindex, heq⟩ := eq_of_freshReg hmade
      rw [heq]
      exact .made hindex
  | phi id φ => exact served_of_add rfl h
  | instr id i => exact served_of_add rfl h
  | terminate id t => exact served_of_add rfl h
  | emit id v width => exact served_of_add rfl h
  | const id v => exact served_of_define (fun _ => rfl) h
  | arg id kind k => exact served_of_define (fun _ => rfl) h
  | binary id op x y => exact served_of_define (fun _ => rfl) h
  | call id handle args n =>
      obtain ⟨made, hmade, h⟩ := bind_eq_ok_iff.mp h
      cases h
      obtain ⟨d₁, hput, hmade⟩ := bind_eq_ok_iff.mp hmade
      cases hmade
      obtain ⟨hid, rfl⟩ := eq_of_modifyBlock hput
      let e : Entry := ⟨.call id handle args n, { regs := (d.freshScalars n).1 }⟩
      exact Served.placed (d := d) (e := e) hid rfl rfl (d.index_freshScalars n)

theorem size_of_serve {r : Request} {out : Reply × Draft} (h : d.serve r = .ok out) :
    out.2.blocks.size = d.blocks.size + r.opens := by
  obtain ⟨reply, d'⟩ := out
  cases served_of_serve h with
  | opened => exact Array.size_push _
  | made => rfl
  | @placed _ _ n _ _ hnodes =>
      rw [Array.size_modify]
      cases r with
      | block => cases hnodes
      | _ => rfl

theorem exists_modifyBlock_iff {f : DraftBlock → DraftBlock} :
    (∃ d', d.modifyBlock id f = .ok d') ↔ id < d.blocks.size := by
  by_cases hid : id < d.blocks.size <;> simp [modifyBlock, hid]

theorem exists_freshReg_iff : (∃ made, d.freshReg kind = .ok made) ↔ kind ≠ .zero := by
  cases kind <;> simp [freshReg, Reg.ofKind]

theorem exists_define_iff {make : Reg → Instr} :
    (∃ made, d.define id kind make = .ok made) ↔ kind ≠ .zero ∧ id < d.blocks.size := by
  rw [← exists_freshReg_iff (d := d)]
  constructor
  · rintro ⟨made, h⟩
    obtain ⟨fresh, hfresh, h⟩ := bind_eq_ok_iff.mp h
    obtain ⟨d', hput, -⟩ := bind_eq_ok_iff.mp h
    obtain ⟨-, heq⟩ := eq_of_freshReg hfresh
    have hid := (eq_of_modifyBlock hput).1
    rw [heq] at hid
    exact ⟨⟨fresh, hfresh⟩, hid⟩
  · rintro ⟨⟨fresh, hfresh⟩, hid⟩
    obtain ⟨-, heq⟩ := eq_of_freshReg hfresh
    rw [define, hfresh, ok_bind]
    exact exists_bind_pure_eq_ok_iff.mpr (exists_modifyBlock_iff.mpr (by rwa [heq]))

theorem exists_serve_iff {r : Request} :
    (∃ out, d.serve r = .ok out) ↔ r.Allowed d.blocks.size := by
  cases r with
  | block => exact iff_of_true ⟨_, rfl⟩ trivial
  | reg kind => exact exists_bind_pure_eq_ok_iff.trans exists_freshReg_iff
  | phi id φ => exact exists_bind_pure_eq_ok_iff.trans exists_modifyBlock_iff
  | instr id i => exact exists_bind_pure_eq_ok_iff.trans exists_modifyBlock_iff
  | terminate id t => exact exists_bind_pure_eq_ok_iff.trans exists_modifyBlock_iff
  | emit id v width => exact exists_bind_pure_eq_ok_iff.trans exists_modifyBlock_iff
  | const id v =>
      exact exists_bind_pure_eq_ok_iff.trans (exists_define_iff.trans (and_iff_right (by decide)))
  | arg id kind k => exact exists_bind_pure_eq_ok_iff.trans exists_define_iff
  | binary id op x y =>
      exact exists_bind_pure_eq_ok_iff.trans (exists_define_iff.trans (and_iff_right (by decide)))
  | call id handle args n =>
      exact exists_bind_pure_eq_ok_iff.trans
        (exists_bind_pure_eq_ok_iff.trans exists_modifyBlock_iff)

end Serve

/-- A draft with all that was asked of it, earliest first. -/
structure Log where
  draft : Draft := .empty
  entries : List Entry := []

namespace Log

def step (l : Log) (r : Request) : Except Fault Log := do
  let served ← l.draft.serve r
  return ⟨served.2, l.entries ++ [⟨r, served.1⟩]⟩

/-- Serve requests in order, starting with nothing. -/
def run (requests : List Request) : Except Fault Log := requests.foldlM step {}

theorem exists_foldlM_step_iff {requests : List Request} {l : Log} :
    (∃ l', requests.foldlM step l = .ok l') ↔
      Request.AllAllowed l.draft.blocks.size requests := by
  induction requests generalizing l with
  | nil => exact iff_of_true ⟨l, rfl⟩ trivial
  | cons r rest ih =>
      rw [List.foldlM_cons, Request.AllAllowed, ← exists_serve_iff]
      constructor
      · rintro ⟨l', h⟩
        obtain ⟨_, hstep, h⟩ := bind_eq_ok_iff.mp h
        obtain ⟨served, hserve, hstep⟩ := bind_eq_ok_iff.mp hstep
        cases hstep
        exact ⟨⟨served, hserve⟩, size_of_serve hserve ▸ ih.mp ⟨l', h⟩⟩
      · rintro ⟨⟨served, hserve⟩, hrest⟩
        simp only [step, hserve, ok_bind, pure_eq_ok]
        exact ih.mpr (size_of_serve hserve ▸ hrest)

/-- Requests are served if every one is allowed when its turn comes. -/
theorem exists_run_iff {requests : List Request} :
    (∃ l, run requests = .ok l) ↔ Request.AllAllowed 0 requests :=
  exists_foldlM_step_iff

/-- What holds at the start and is kept by every request holds at all times. -/
theorem run_induction {P : Log → Prop} (start : P {})
    (step : ∀ l e d, P l → Served l.draft e d → P ⟨d, l.entries ++ [e]⟩)
    {requests : List Request} {l : Log} (h : run requests = .ok l) : P l := by
  have hall : Ensures (fun _ => True) P (run requests) := by
    refine Ensures.foldlM start fun l hl r _ => ?_
    cases hserve : l.draft.serve r with
    | error _ => simp [Log.step, hserve]
    | ok served =>
        simp only [Log.step, hserve, ok_bind, pure_eq_ok, Ensures.ok_iff]
        exact step l _ _ hl (served_of_serve hserve)
  rwa [h] at hall

/-- The names of the blocks that were opened. -/
def labels (l : Log) : List Label := l.entries.flatMap fun e => e.reply.labels

/-- The registers that were handed out. -/
def regs (l : Log) : List Reg := l.entries.flatMap fun e => e.reply.regs

/-- The nodes that were put into blocks, also those replaced since. -/
def nodes (l : Log) : List (Label × Node) := l.entries.flatMap Entry.nodes

def phis (l : Log) (id : Label) : List Phi := (itemsIn id l.nodes).filterMap Node.phi?

def instrs (l : Log) (id : Label) : List Instr := (itemsIn id l.nodes).filterMap Node.instr?

/-- The last terminator a block was given. -/
def term? (l : Log) (id : Label) : Option Terminator :=
  ((itemsIn id l.nodes).filterMap Node.term?).getLast?

theorem labels_concat (l : Log) (e : Entry) (d : Draft) :
    labels ⟨d, l.entries ++ [e]⟩ = l.labels ++ e.reply.labels := by
  simp [labels]

theorem regs_concat (l : Log) (e : Entry) (d : Draft) :
    regs ⟨d, l.entries ++ [e]⟩ = l.regs ++ e.reply.regs := by
  simp [regs]

theorem nodes_concat (l : Log) (e : Entry) (d : Draft) :
    nodes ⟨d, l.entries ++ [e]⟩ = l.nodes ++ e.nodes := by
  simp [nodes]

/-- What a draft has to do with what was asked of it. -/
structure Kept (l : Log) : Prop where
  labels : l.labels = List.range l.draft.blocks.size
  regs : l.regs.map Reg.index = List.range l.draft.nextReg
  inside : ∀ e ∈ l.nodes, e.1 < l.draft.blocks.size
  blocks : ∀ id < l.draft.blocks.size,
    l.draft.blocks[id]? = some (.ofNodes (itemsIn id l.nodes))

namespace Kept

variable {l : Log}

theorem start : Kept {} := ⟨rfl, rfl, by simp [nodes], by simp [Draft.empty]⟩

theorem open_block (h : l.Kept) :
    Kept ⟨{ l.draft with blocks := l.draft.blocks.push {} },
      l.entries ++ [⟨.block, { labels := [l.draft.blocks.size] }⟩]⟩ := by
  have hnodes := l.nodes_concat ⟨.block, { labels := [l.draft.blocks.size] }⟩
    { l.draft with blocks := l.draft.blocks.push {} }
  rw [show Entry.nodes _ = [] from rfl, List.append_nil] at hnodes
  refine ⟨?_, ?_, ?_, ?_⟩
  · rw [labels_concat, h.labels, Array.size_push, List.range_succ]
  · rw [regs_concat, List.append_nil, h.regs]
  · intro x hx
    rw [Array.size_push]
    exact Nat.lt_succ_of_lt (h.inside x (hnodes ▸ hx))
  · intro id hid
    rw [Array.size_push] at hid
    rw [hnodes, Array.getElem?_push]
    split
    · next heq =>
        -- nothing was put into the block before it was opened
        rw [itemsIn_eq_nil fun x hx => heq ▸ (h.inside x hx).ne]
        rfl
    · next hne => exact h.blocks id (by omega)

theorem make_reg (h : l.Kept) {kind : RegKind} {r : Reg} (hr : r.index = l.draft.nextReg) :
    Kept ⟨{ l.draft with nextReg := l.draft.nextReg + 1 },
      l.entries ++ [⟨.reg kind, { regs := [r] }⟩]⟩ := by
  have hnodes := l.nodes_concat ⟨.reg kind, { regs := [r] }⟩
    { l.draft with nextReg := l.draft.nextReg + 1 }
  rw [show Entry.nodes _ = [] from rfl, List.append_nil] at hnodes
  refine ⟨?_, ?_, hnodes ▸ h.inside, hnodes ▸ h.blocks⟩
  · rw [labels_concat, List.append_nil, h.labels]
  · rw [regs_concat, List.map_append, h.regs, List.map_singleton, hr, List.range_succ]

theorem place_node (h : l.Kept) {e : Entry} {id : Label} {n : Node} {k : Nat}
    (hid : id < l.draft.blocks.size) (hnode : e.nodes = [(id, n)]) (hnone : e.reply.labels = [])
    (hfresh : e.reply.regs.map Reg.index = List.range' l.draft.nextReg k) :
    Kept ⟨⟨l.draft.blocks.modify id (·.add n), l.draft.nextReg + k⟩, l.entries ++ [e]⟩ := by
  refine ⟨?_, ?_, ?_, ?_⟩
  · rw [labels_concat, hnone, List.append_nil, h.labels, Array.size_modify]
  · rw [regs_concat, List.map_append, h.regs, hfresh, range_append_range']
  · intro x hx
    rw [nodes_concat, hnode] at hx
    rw [Array.size_modify]
    rcases List.mem_append.mp hx with hx | hx
    · exact h.inside x hx
    · cases List.mem_singleton.mp hx
      exact hid
  · intro other hother
    rw [Array.size_modify] at hother
    rw [nodes_concat, hnode, itemsIn_append, itemsIn_singleton, Array.getElem?_modify,
      h.blocks other hother]
    split
    · rw [DraftBlock.ofNodes_concat, Option.map_some]
    · rw [List.append_nil]

/-- Every request adds to a draft what it adds to the log. -/
theorem step (h : l.Kept) {e : Entry} {d : Draft} (hserved : Served l.draft e d) :
    Kept ⟨d, l.entries ++ [e]⟩ := by
  cases hserved with
  | opened => exact h.open_block
  | made hr => exact h.make_reg hr
  | placed hid hnode hnone hfresh => exact h.place_node hid hnode hnone hfresh

theorem run {requests : List Request} (h : run requests = .ok l) : l.Kept :=
  run_induction start (fun _ _ _ h => h.step) h

end Kept

end Log

end Draft

end WireFlow
