import Mathlib.Logic.Equiv.Basic
import WireFlow.Proofs.SweepCounts

/-!
# The names of registers are irrelevant

Analyses compare registers for equality and ask for their kind. So they commute
with every change of names that keeps different registers apart and keeps kinds.
A sweep is followed phase by phase: what is read, what is dead, what is retired
and what is dropped are the same under other names. Assembly is followed through
both of its scans: slots are handed out to the same places, and since lowered
code mentions slots only, it is the same code.
-/

namespace WireFlow

open Sequencing (Related)

/-- A change of names that keeps registers apart and keeps what they hold. -/
structure Reg.Renaming where
  map : Reg → Reg
  injective : Function.Injective map
  kind_map : ∀ r, (map r).kind = r.kind

namespace Reg.Renaming

instance : CoeFun Renaming fun _ => Reg → Reg := ⟨map⟩

/-- Two registers of one kind trade names. -/
def swap (r s : Reg) (h : r.kind = s.kind) : Renaming where
  map := Equiv.swap r s
  injective := (Equiv.swap r s).injective
  kind_map t := by
    rw [Equiv.swap_apply_def]
    split
    · simp [*]
    · split <;> simp [*]

variable (σ : Renaming)

/-- The sentinel is the one register of its kind, so it keeps its name. -/
@[simp] theorem map_eq_zero_iff {r : Reg} : σ r = .zero ↔ r = .zero := by
  have hkind (s : Reg) : s = .zero ↔ s.kind = .zero := by cases s <;> simp [Reg.kind]
  rw [hkind, σ.kind_map, ← hkind]

theorem map_zero : σ .zero = .zero := σ.map_eq_zero_iff.mpr rfl

@[simp] theorem isPointer_map (r : Reg) : (σ r).isPointer = r.isPointer := by
  rw [Reg.isPointer, σ.kind_map, Reg.isPointer]

theorem mem_map_iff {r : Reg} {rs : List Reg} : σ r ∈ rs.map σ ↔ r ∈ rs :=
  List.mem_map_of_injective σ.injective

theorem idxOf?_map (layout : List Reg) (r : Reg) :
    (layout.map σ).idxOf? (σ r) = layout.idxOf? r := by
  simp only [List.idxOf?, List.findIdx?_map, Function.comp_def]
  congr 1
  funext s
  rw [Bool.eq_iff_iff, beq_iff_eq, beq_iff_eq, σ.injective.eq_iff]

theorem named_map (rs : List Reg) : Layout.named (rs.map σ) = (Layout.named rs).map σ := by
  simp only [Layout.named, List.filter_map, Function.comp_def, ne_eq, σ.map_eq_zero_iff]

/-- Renaming and retiring can be done in either order. -/
theorem comp_retired (dead : List Reg) :
    Reg.retired (dead.map σ) ∘ σ = σ ∘ Reg.retired dead := by
  funext r
  simp only [Function.comp_apply, Reg.retired, σ.mem_map_iff]
  split
  · exact σ.map_zero.symm
  · rfl

end Reg.Renaming

variable (σ : Reg.Renaming)

/-- The phi with its definition and its reads renamed. -/
def Phi.renamed (φ : Phi) : Phi := (φ.mapDefs σ).mapUses σ

/-- The instruction with its definitions and its reads renamed. -/
def Instr.renamed (i : Instr) : Instr := (i.mapDefs σ).mapUses σ

/-- The terminator with its definitions and its reads renamed. -/
def Terminator.renamed (t : Terminator) : Terminator := (t.mapDefs σ).mapUses σ

theorem Instr.mapDefs_mapUses (σ τ : Reg → Reg) (i : Instr) :
    (i.mapUses σ).mapDefs τ = (i.mapDefs τ).mapUses σ := by
  cases i <;> rfl

theorem Terminator.mapDefs_mapUses (σ τ : Reg → Reg) (t : Terminator) :
    (t.mapUses σ).mapDefs τ = (t.mapDefs τ).mapUses σ := by
  cases t <;> rfl

namespace Block

/-- The block with all its definitions and reads renamed. -/
def renamed (b : Block) : Block := (b.mapDefs σ).mapUses σ

variable {σ} {b : Block}

theorem label_renamed : (b.renamed σ).label = b.label := rfl

theorem phis_renamed : (b.renamed σ).phis = b.phis.map (Phi.renamed σ) := List.map_map

theorem instrs_renamed : (b.renamed σ).instrs = b.instrs.map (Instr.renamed σ) := List.map_map

theorem term_renamed : (b.renamed σ).term = b.term.renamed σ := rfl

@[simp] theorem defs_renamed : (b.renamed σ).defs = b.defs.map σ := by simp [renamed]

@[simp] theorem uses_renamed : (b.renamed σ).uses = b.uses.map σ := by simp [renamed]

@[simp] theorem successors_renamed : (b.renamed σ).term.successors = b.term.successors := by
  simp [term_renamed, Terminator.renamed]

@[simp] theorem nodeCount_renamed : (b.renamed σ).nodeCount = b.nodeCount := by simp [renamed]

theorem mapDefs_mapUses (σ τ : Reg → Reg) :
    (b.mapUses σ).mapDefs τ = (b.mapDefs τ).mapUses σ := by
  have hphi (φ : Phi) : (φ.mapUses σ).mapDefs τ = (φ.mapDefs τ).mapUses σ := rfl
  simp only [mapDefs, mapUses, List.map_map, Function.comp_def, hphi, Instr.mapDefs_mapUses,
    Terminator.mapDefs_mapUses]

theorem mapDefs_comp (σ τ : Reg → Reg) : b.mapDefs (σ ∘ τ) = (b.mapDefs τ).mapDefs σ := by
  have hphi (φ : Phi) : φ.mapDefs (σ ∘ τ) = (φ.mapDefs τ).mapDefs σ := rfl
  simp only [mapDefs, List.map_map, Function.comp_def, ← hphi, ← Instr.mapDefs_comp,
    ← Terminator.mapDefs_comp]

/-- A block is retired by its new names as it was by the old ones. -/
theorem retire_renamed (dead : List Reg) :
    (b.renamed σ).retire (dead.map σ) = (b.retire dead).renamed σ := by
  calc
    (b.renamed σ).retire (dead.map σ)
        = ((b.mapDefs σ).mapUses σ).mapDefs (Reg.retired (dead.map σ)) := rfl
    _ = (b.mapDefs (Reg.retired (dead.map σ) ∘ σ)).mapUses σ := by
      rw [mapDefs_mapUses, mapDefs_comp]
    _ = ((b.mapDefs (Reg.retired dead)).mapDefs σ).mapUses σ := by
      rw [σ.comp_retired, mapDefs_comp]

theorem retireCount_renamed (dead : List Reg) :
    (b.renamed σ).retireCount (dead.map σ) = b.retireCount dead := by
  simp only [retireCount, defs_renamed, List.countP_map, Function.comp_def, ne_eq,
    σ.map_eq_zero_iff, σ.mem_map_iff]

theorem compact_renamed : (b.renamed σ).compact = b.compact.renamed σ := by
  have hphi (φ : Phi) : keepsPhi (φ.renamed σ) = keepsPhi φ := by
    simp [keepsPhi, Phi.renamed]
  have hinstr (i : Instr) : keepsInstr (i.renamed σ) = keepsInstr i := by
    simp [keepsInstr, Instr.renamed, Function.comp_def]
  have hparts (b : Block) : b.renamed σ =
      ⟨b.label, b.phis.map (Phi.renamed σ), b.instrs.map (Instr.renamed σ), b.term.renamed σ⟩ := by
    rw [← label_renamed (σ := σ), ← phis_renamed, ← instrs_renamed, ← term_renamed]
  simp only [hparts, compact, List.filter_map, Function.comp_def, hphi, hinstr]

end Block

namespace Graph

/-- The graph with every definition and read of every block renamed. -/
def renamed (g : Graph) : Graph :=
  { g with blocks := g.blocks.map (Block.renamed σ), entry_lt := by simpa using g.entry_lt }

variable {σ} {g : Graph}

theorem block?_renamed (id : Label) :
    (g.renamed σ).block? id = (g.block? id).map (Block.renamed σ) := by
  simp [renamed, block?]

@[simp] theorem size_renamed : (g.renamed σ).size = g.size := by simp [renamed, size]

@[simp] theorem successors_renamed : (g.renamed σ).successors = g.successors := by
  funext id
  simp only [successors, renamed, Array.getElem?_map]
  cases g.blocks[id]? with
  | none => rfl
  | some b => exact Block.successors_renamed

@[simp] theorem postOrder_renamed : (g.renamed σ).postOrder = g.postOrder := by
  rw [postOrder, size_renamed, successors_renamed]
  rfl

theorem walk_renamed : (g.renamed σ).walk = g.walk.map fun e => (e.1, e.2.renamed σ) := by
  simp only [walk, pick, postOrder_renamed, List.map_filterMap, block?_renamed, Option.map_map]
  rfl

@[simp] theorem defs_renamed : (g.renamed σ).defs = g.defs.map σ := by
  simp [defs, walk_renamed, List.flatMap_map, List.map_flatMap]

@[simp] theorem uses_renamed : (g.renamed σ).uses = g.uses.map σ := by
  simp [uses, walk_renamed, List.flatMap_map, List.map_flatMap]

@[simp] theorem predecessors_renamed : (g.renamed σ).predecessors = g.predecessors := by
  have hedges : (g.renamed σ).addEdges = g.addEdges := by
    funext table id
    rw [addEdges, successors_renamed, addEdges]
  rw [predecessors, postOrder_renamed, hedges, predecessors]

theorem deadRegs_renamed : (g.renamed σ).deadRegs = g.deadRegs.map σ := by
  simp only [deadRegs, defs_renamed, uses_renamed, List.filter_map, Function.comp_def,
    σ.mem_map_iff]

/-- Changes of blocks that correspond under renaming correspond as changes of
the graph. -/
theorem mapReachable_renamed {f f' : Block → Block}
    (hf : ∀ b, f' (b.renamed σ) = (f b).renamed σ) :
    (g.renamed σ).mapReachable f' = (g.mapReachable f).renamed σ := by
  refine ext_block? rfl rfl fun id => ?_
  simp only [block?_mapReachable, block?_renamed, postOrder_renamed, Option.map_map]
  congr 1
  funext b
  by_cases hid : id ∈ g.postOrder <;> simp [hid, hf]

/-- A round on the renamed graph is the round on the graph, renamed. -/
theorem sweepRound_renamed :
    (g.renamed σ).sweepRound = (g.sweepRound.1.renamed σ, g.sweepRound.2) := by
  have hretired := mapReachable_renamed (g := g) fun b : Block =>
    Block.retire_renamed (σ := σ) (b := b) g.deadRegs
  have hcompacted := mapReachable_renamed (g := g.mapReachable (Block.retire g.deadRegs))
    fun b : Block => Block.compact_renamed (σ := σ) (b := b)
  simp only [sweepRound, deadRegs_renamed, hretired, hcompacted, walk_renamed, sumOf_map,
    Block.retireCount_renamed, Block.compact_renamed, Block.nodeCount_renamed]

theorem sweepRounds_renamed (n : Nat) :
    sweepRounds n (g.renamed σ) = ((sweepRounds n g).1.renamed σ, (sweepRounds n g).2) := by
  induction n generalizing g with
  | zero => rfl
  | succ n ih =>
      simp only [sweepRounds, sweepRound_renamed]
      split
      · rfl
      · rw [ih]

theorem liveDefCount_renamed : (g.renamed σ).liveDefCount = g.liveDefCount := by
  simp [liveDefCount, List.countP_map, Function.comp_def]

/-- A sweep of the renamed graph is the sweep of the graph, renamed. -/
theorem sweep_renamed : (g.renamed σ).sweep = (g.sweep.1.renamed σ, g.sweep.2) := by
  rw [sweep, liveDefCount_renamed, sweepRounds_renamed, sweep]

/-- Definitions and reads keep apart and keep meeting, so a graph stays in order. -/
theorem inOrder_renamed_iff : (g.renamed σ).InOrder byLabel ↔ g.InOrder byLabel := by
  have hsingle : (Layout.named (g.renamed σ).defs).Nodup ↔ (Layout.named g.defs).Nodup := by
    rw [defs_renamed, σ.named_map, List.nodup_map_iff σ.injective]
  have hincoming : (∀ id b, (id, b) ∈ (g.renamed σ).walk →
        ∀ φ ∈ b.phis, ∀ e ∈ φ.incoming, e.1 ∈ (g.renamed σ).predecessors.getD b.label []) ↔
      ∀ id b, (id, b) ∈ g.walk →
        ∀ φ ∈ b.phis, ∀ e ∈ φ.incoming, e.1 ∈ g.predecessors.getD b.label [] := by
    simp [walk_renamed, Block.label_renamed, Block.phis_renamed, Phi.renamed, Phi.mapDefs,
      Phi.mapUses]
  have hdefined : (∀ r ∈ (g.renamed σ).uses, r = .zero ∨ r ∈ (g.renamed σ).defs) ↔
      ∀ r ∈ g.uses, r = .zero ∨ r ∈ g.defs := by
    simp only [uses_renamed, defs_renamed, List.forall_mem_map, σ.map_eq_zero_iff, σ.mem_map_iff]
  exact ⟨fun h => ⟨hsingle.mp h.single, hincoming.mp h.incoming, hdefined.mp h.defined⟩,
    fun h => ⟨hsingle.mpr h.single, hincoming.mpr h.incoming, hdefined.mpr h.defined⟩⟩

theorem allRead_renamed_iff : (g.renamed σ).AllRead ↔ g.AllRead := by
  simp only [AllRead, uses_renamed, defs_renamed, List.forall_mem_map, σ.map_eq_zero_iff,
    σ.mem_map_iff]

end Graph

/-- Both computations are rejected, whatever the reasons, or neither is and their
results are related by `A`. -/
abbrev AcceptedAlike {α β : Type} (A : α → β → Prop) :
    Except Rejection α → Except Rejection β → Prop :=
  Related (fun _ _ => True) A

theorem forall₂_map_self {α β : Type} (τ : α → β) (xs : List α) :
    List.Forall₂ (fun x y => y = τ x) xs (xs.map τ) := by
  rw [List.forall₂_map_right_iff]
  exact List.forall₂_same.mpr fun _ _ => rfl

theorem AcceptedAlike.mapM_map {α β γ : Type} {f : α → Except Rejection β}
    {f' : γ → Except Rejection β} {τ : α → γ} (hf : ∀ a, AcceptedAlike Eq (f a) (f' (τ a)))
    (xs : List α) : AcceptedAlike Eq (xs.mapM f) ((xs.map τ).mapM f') := by
  have hall := Related.mapM (forall₂_map_self τ xs) fun x y hy => by rw [hy]; exact hf x
  rwa [List.forall₂_eq_eq_eq] at hall

namespace Layout

/-- Slots are handed out under the new names as they are under the old. -/
abbrev FilledAlike : Except Rejection (List Reg) → Except Rejection (List Reg) → Prop :=
  AcceptedAlike fun layout layout' => layout' = layout.map σ

variable {σ}

/-- Loops over renamed items hand out slots alike when their steps do. -/
theorem FilledAlike.foldlM_map {α : Type} {f f' : List Reg → α → Except Rejection (List Reg)}
    {τ : α → α} (hf : ∀ layout a, FilledAlike σ (f layout a) (f' (layout.map σ) (τ a)))
    (xs : List α) (layout : List Reg) :
    FilledAlike σ (xs.foldlM f layout) ((xs.map τ).foldlM f' (layout.map σ)) := by
  refine Related.foldlM (forall₂_map_self τ xs) (fun layout layout' x y hl hy => ?_) rfl
  rw [hl, hy]
  exact hf layout x

theorem define_renamed (layout : List Reg) (r : Reg) :
    FilledAlike σ (define layout r) (define (layout.map σ) (σ r)) := by
  simp only [define, σ.map_eq_zero_iff, σ.mem_map_iff]
  split
  · exact .ok rfl
  · split
    · exact .error trivial
    · exact .ok (by simp)

theorem defineAll_renamed (layout rs : List Reg) :
    FilledAlike σ (defineAll layout rs) (defineAll (layout.map σ) (rs.map σ)) :=
  .foldlM_map define_renamed rs layout

theorem addInstr_renamed (id : Label) (layout : List Reg) (i : Instr) :
    FilledAlike σ (addInstr id layout i) (addInstr id (layout.map σ) (i.renamed σ)) := by
  have hsupported : supported (i.renamed σ) = supported i := by cases i <;> rfl
  have hdefs : (i.renamed σ).defs = i.defs.map σ := by simp [Instr.renamed]
  simp only [addInstr, hsupported, hdefs]
  split
  · exact defineAll_renamed layout i.defs
  · exact .error trivial

theorem addBlock_renamed (layout : List Reg) (e : Label × Block) :
    FilledAlike σ (addBlock layout e) (addBlock (layout.map σ) (e.1, e.2.renamed σ)) := by
  have hdsts : (e.2.renamed σ).phis.map Phi.dst = (e.2.phis.map Phi.dst).map σ := by
    simp [Block.phis_renamed, Phi.renamed]
  simp only [addBlock, hdsts, Block.instrs_renamed]
  refine (defineAll_renamed layout _).bind fun mid mid' hmid => ?_
  rw [hmid]
  exact FilledAlike.foldlM_map (addInstr_renamed e.1) e.2.instrs mid

theorem ofBlocks_renamed (bs : List (Label × Block)) :
    FilledAlike σ (ofBlocks bs) (ofBlocks (bs.map fun e => (e.1, e.2.renamed σ))) :=
  .foldlM_map addBlock_renamed bs []

/-- Pointers stay pointers. -/
theorem bitmap_map (layout : List Reg) : bitmap (layout.map σ) = bitmap layout := by
  simp [bitmap, Function.comp_def]

end Layout

namespace Lower

variable {σ} {layout : List Reg} {id : Label}

theorem dest_renamed (r : Reg) : dest (layout.map σ) (σ r) = dest layout r :=
  σ.idxOf?_map layout r

theorem operand_renamed (r : Reg) :
    AcceptedAlike Eq (operand layout id r) (operand (layout.map σ) id (σ r)) := by
  simp only [operand, σ.map_eq_zero_iff, σ.idxOf?_map]
  split
  · exact .ok rfl
  · cases layout.idxOf? r with
    | some i => exact .ok rfl
    | none => exact .error trivial

theorem operands_renamed (rs : List Reg) :
    AcceptedAlike Eq (operands layout id rs) (operands (layout.map σ) id (rs.map σ)) :=
  .mapM_map operand_renamed rs

theorem call_renamed (handle : Nat) (args results : List Reg) :
    AcceptedAlike Eq (call layout id handle args results)
      (call (layout.map σ) id handle (args.map σ) (results.map σ)) := by
  have hdests : (results.map σ).map (dest (layout.map σ)) = results.map (dest layout) := by
    simp [dest_renamed]
  unfold call
  cases Callee.ofHandle? handle with
  | none => exact .error trivial
  | some f =>
      simp only [List.length_map, hdests]
      split
      · exact .error trivial
      · split
        · exact .error trivial
        · refine (operands_renamed args).bind fun xs xs' hxs => ?_
          exact .ok (by rw [hxs])

theorem instr_renamed (i : Instr) :
    AcceptedAlike Eq (instr layout id i) (instr (layout.map σ) id (i.renamed σ)) := by
  cases i with
  | const r v => exact .ok (by rw [dest_renamed])
  | arg r k => exact .ok (by rw [dest_renamed])
  | binary r op x y =>
      refine (operand_renamed x).bind fun a a' ha => (operand_renamed y).bind fun b b' hb => ?_
      exact .ok (by rw [ha, hb, dest_renamed])
  | emit v w =>
      by_cases hw : w ∈ widths
      · simp only [instr, Instr.renamed, Instr.mapDefs, Instr.mapUses, if_pos hw]
        exact (operand_renamed v).bind fun a a' ha => .ok (by rw [ha])
      · simp only [instr, Instr.renamed, Instr.mapDefs, Instr.mapUses, if_neg hw]
        exact .error trivial
  | call handle args results => exact call_renamed handle args results
  | nop => exact .error trivial
  | foreign f effect => exact .error trivial

theorem phi_renamed (size : Nat) (preds : List Label) (φ : Phi) :
    AcceptedAlike Eq (phi layout size preds id φ)
      (phi (layout.map σ) size preds id (φ.renamed σ)) := by
  have hincoming (e : Label × Reg) :
      AcceptedAlike Eq (incoming layout size preds id φ.dst e)
        (incoming (layout.map σ) size preds id (σ φ.dst) (e.1, σ e.2)) := by
    unfold incoming
    split
    · exact .error trivial
    · split
      · exact .error trivial
      · exact (operand_renamed e.2).bind fun a a' ha => .ok (by rw [ha])
  refine (AcceptedAlike.mapM_map hincoming φ.incoming).bind fun es es' hes => ?_
  exact .ok (by rw [hes]; exact congrArg (Code.Phi.mk · es') (dest_renamed φ.dst).symm)

theorem terminator_renamed (t : Terminator) :
    AcceptedAlike Eq (terminator layout id t) (terminator (layout.map σ) id (t.renamed σ)) := by
  cases t with
  | ret values => exact (operands_renamed values).bind fun a a' ha => .ok (by rw [ha])
  | jump target => exact .ok rfl
  | branch cond target otherwise =>
      exact (operand_renamed cond).bind fun a a' ha => .ok (by rw [ha])
  | switch value targets default =>
      exact (operand_renamed value).bind fun a a' ha => .ok (by rw [ha])
  | foreign f succs => exact .error trivial

theorem exit_renamed (size : Nat) (t : Terminator) :
    AcceptedAlike Eq (exit layout size id t) (exit (layout.map σ) size id (t.renamed σ)) := by
  have hsucc : (t.renamed σ).successors = t.successors := by simp [Terminator.renamed]
  simp only [exit, hsucc]
  cases t.successors.find? (size ≤ ·) with
  | some target => exact .error trivial
  | none => exact terminator_renamed t

/-- Lowered blocks mention slots only, and the slots are the same. -/
theorem block_renamed (size : Nat) (preds : Label → List Label) (e : Label × Block) :
    AcceptedAlike Eq (block layout size preds e)
      (block (layout.map σ) size preds (e.1, e.2.renamed σ)) := by
  simp only [block, Block.phis_renamed, Block.instrs_renamed, Block.term_renamed]
  refine (AcceptedAlike.mapM_map (phi_renamed size (preds e.1)) e.2.phis).bind fun φs φs' hφs => ?_
  refine (AcceptedAlike.mapM_map instr_renamed e.2.instrs).bind fun ops ops' hops => ?_
  refine (exit_renamed size e.2.term).bind fun t t' ht => ?_
  exact .ok (by rw [hφs, hops, ht])

end Lower

namespace Graph

variable {σ} {g : Graph}

theorem lowerBlocks_renamed :
    AcceptedAlike (fun c c' => c' = { c with layout := c.layout.map σ }) g.lowerBlocks
      (g.renamed σ).lowerBlocks := by
  simp only [lowerBlocks, pick_reversePostOrder, walk_renamed, ← List.map_reverse, size_renamed,
    predecessors_renamed]
  refine (Layout.ofBlocks_renamed g.walk.reverse).bind fun layout layout' hlayout => ?_
  rw [hlayout]
  refine (AcceptedAlike.mapM_map (Lower.block_renamed _ _) g.walk.reverse).bind fun bs bs' hbs => ?_
  exact .ok (by rw [hbs]; rfl)

theorem lower_renamed :
    AcceptedAlike (fun c c' => c' = { c with layout := c.layout.map σ }) g.lower
      (g.renamed σ).lower := by
  have hphi : (g.renamed σ).entryPhi? = g.entryPhi?.map fun first => (first.1, σ first.2) := by
    have hentry : (g.renamed σ).entry = g.entry := rfl
    simp only [entryPhi?, hentry, block?_renamed]
    cases g.block? g.entry with
    | none => rfl
    | some b => simp [Block.label_renamed, Block.phis_renamed, Phi.renamed, Function.comp_def]
  simp only [lower, hphi]
  cases g.entryPhi? with
  | some first => exact .error trivial
  | none => exact lowerBlocks_renamed

end Graph

/-- The second program is the first under new names: the blocks, the arguments
and the frame are the same, and every register has the slot it had. -/
structure Program.RenamedTo (p p' : Program) : Prop where
  blocks : p'.code.blocks = p.code.blocks
  entry : p'.code.entry = p.code.entry
  argCount : p'.code.argCount = p.code.argCount
  frameSize : p'.code.frameSize = p.code.frameSize
  slots : ∀ r, p'.code.slot? (σ r) = p.code.slot? r
  map : p'.frameMap.map = p.frameMap.map

theorem Graph.assemble_renamed (g : Graph) (h h' : Heap) :
    AcceptedAlike (fun r r' => r.1.RenamedTo σ r'.1) (g.assemble h)
      ((g.renamed σ).assemble h') := by
  refine Graph.lower_renamed.bind fun c c' hc => ?_
  subst hc
  refine .ok ⟨rfl, rfl, rfl, List.length_map .., σ.idxOf?_map c.layout, ?_⟩
  exact congrArg PointerMap.ofBitmap (Layout.bitmap_map c.layout)

/-- A graph is swept, checked and assembled under new names as it is under its
own, as long as different registers keep different names and each keeps its
kind. A sweep does the same in every round and leaves the same graph under the
new names. Every check gives the same verdict. The graph is assembled under both
names or under neither, and then into the same lowered blocks with the same
arguments, frame and frame map, in which each register has its old slot. -/
theorem names_of_registers_are_irrelevant (g : Graph) :
    (g.renamed σ).sweep = (g.sweep.1.renamed σ, g.sweep.2) ∧
      (∀ live, (g.renamed σ).check live = .ok () ↔ g.check live = .ok ()) ∧
      ∀ h h', Related (fun _ _ => True) (fun r r' => r.1.RenamedTo σ r'.1) (g.assemble h)
        ((g.renamed σ).assemble h') := by
  refine ⟨Graph.sweep_renamed, fun live => ?_, g.assemble_renamed σ⟩
  rw [Graph.check_eq_ok_iff, Graph.check_eq_ok_iff, Graph.inOrder_renamed_iff,
    Graph.allRead_renamed_iff]

/-- The product that nothing reads trades names with the register that is returned,
and keeps its slot. -/
theorem names_of_registers_are_irrelevant_to_join :
    let g := Graph.joinBeside ⟨3, [], [], .ret []⟩
    let σ := Reg.Renaming.swap (.scalar 2) (.scalar 3) rfl
    g.renamed σ ≠ g ∧ (g.renamed σ).sweep.2 = [⟨1, 1⟩, ⟨0, 0⟩] ∧
      (g.renamed σ).check false = .ok () ∧ (g.renamed σ).check true ≠ .ok () ∧
      ∃ p h p' h', g.assemble {} = .ok (p, h) ∧ (g.renamed σ).assemble {} = .ok (p', h') ∧
        p.RenamedTo σ p' ∧ p.code.slot? (.scalar 2) = some 2 ∧
        p'.code.slot? (.scalar 3) = some 2 := by
  intro g σ
  obtain ⟨hsweep, hcheck, hassemble⟩ := names_of_registers_are_irrelevant σ g
  refine ⟨by decide +kernel, ?_, ?_, ?_, ?_⟩
  · rw [hsweep]
    decide +kernel
  · rw [hcheck]
    decide +kernel
  · rw [Ne, hcheck]
    decide +kernel
  · obtain ⟨p, h, hp⟩ := Graph.exists_assemble_of_isOk (g := g) (by decide +kernel) {}
    have hslot : (g.lower.map fun c => c.slot? (.scalar 2)) = .ok (some 2) := by decide +kernel
    rw [Graph.lower_of_assemble hp] at hslot
    have hslot : p.code.slot? (.scalar 2) = some 2 := Except.ok.inj hslot
    have halike := hassemble {} {}
    rw [hp] at halike
    generalize (g.renamed σ).assemble {} = result at halike ⊢
    cases halike with
    | @ok _ r' hrenamed =>
        exact ⟨p, h, r'.1, r'.2, hp, rfl, hrenamed, hslot, (hrenamed.slots (.scalar 2)).trans hslot⟩

end WireFlow
