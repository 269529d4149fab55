import WireFlow.Proofs.Failures
import WireFlow.Proofs.MeaningKept
import WireFlow.Proofs.Predecessors

/-!
# What the errors of a run say about the graph

The argument count of a program is one more than the largest argument that any
of its blocks loads. So an argument can be missing only below it, and arguments
from it on are never looked at. That phis have entries for all predecessors is
not asked of a graph; an edge without an entry is an error of the runs that take
it.
-/

namespace WireFlow

open Sequencing
open Wire (Buffer)
open Code (Op)

theorem Phi.incomingFrom?_eq_none_iff {φ : Phi} {pred : Label} :
    φ.incomingFrom? pred = none ↔ pred ∉ φ.incoming.map Prod.fst := by
  simp only [incomingFrom?, Option.map_eq_none_iff, List.find?_eq_none, beq_iff_eq, List.mem_map,
    not_exists, not_and]

namespace Lower

theorem foldl_max_le_iff {xs : List Nat} {a n : Nat} :
    xs.foldl max a ≤ n ↔ a ≤ n ∧ ∀ x ∈ xs, x ≤ n := by
  induction xs generalizing a with
  | nil => simp
  | cons x xs ih => simp [ih, and_assoc]

/-- The argument count is the least bound of the arguments loaded. -/
theorem argCount_le_iff {lowered : List Code.Block} {n : Nat} :
    argCount lowered ≤ n ↔ ∀ b ∈ lowered, ∀ dst i, .arg dst i ∈ b.ops → i < n := by
  simp only [argCount, foldl_max_le_iff, Nat.zero_le, true_and, List.mem_map, List.mem_flatMap]
  constructor
  · intro h b hb dst i hop
    exact h (i + 1) ⟨.arg dst i, ⟨b, hb, hop⟩, rfl⟩
  · rintro h k ⟨op, ⟨b, hb, hop⟩, rfl⟩
    cases op with
    | arg dst i => exact h b hb dst i hop
    | _ => exact Nat.zero_le n

end Lower

/-- Lowered code loads arguments below its argument count only. -/
theorem Graph.lt_argCount_of_lower {g : Graph} {c : Code} (hc : g.lower = .ok c) {id : Label}
    {b : Code.Block} (hb : c.block? id = some b) {dst : Dest} {i : Nat}
    (hop : .arg dst i ∈ b.ops) : i < c.argCount := by
  obtain ⟨-, hblocks⟩ := lower_eq_ok_iff.mp hc
  obtain ⟨layout, lowered, -, -, rfl⟩ := lowerBlocks_eq_ok_iff.mp hblocks
  obtain ⟨hmem, -⟩ := Lower.mem_of_block?_arrange hb
  exact Lower.argCount_le_iff.mp le_rfl b hmem dst i hop

namespace Interpreter

variable {args args' : List UInt64} {c : Code}

/-- Both rows of arguments hold the same word at `i`. -/
def SameWord (args args' : List UInt64) (i : Nat) : Prop :=
  ∃ v, args[i]? = some v ∧ args'[i]? = some v

theorem step_congr {op : Op} (h : ∀ dst i, op = .arg dst i → SameWord args args' i) (m : Machine) :
    step args m op = step args' m op := by
  cases op with
  | arg dst i =>
      obtain ⟨v, hv, hv'⟩ := h dst i rfl
      simp only [step, Machine.loadArg, hv, hv']
  | _ => rfl

theorem steps_congr {ops : List Op} (h : ∀ dst i, .arg dst i ∈ ops → SameWord args args' i)
    (m : Machine) : steps args ops m = steps args' ops m := by
  induction ops generalizing m with
  | nil => rfl
  | cons op ops ih =>
      have hop : step args m op = step args' m op := by
        apply step_congr
        rintro dst i rfl
        exact h dst i (List.mem_cons_self ..)
      have hops := ih fun dst i hi => h dst i (List.mem_cons_of_mem _ hi)
      simp only [steps, List.foldlM_cons] at hops ⊢
      simp only [hop, hops]

/-- Equal words for the arguments that the code loads make equal runs. -/
theorem run_congr (h : ∀ id b, c.block? id = some b →
      ∀ dst i, .arg dst i ∈ b.ops → SameWord args args' i) (n : Nat) (s : State) :
    run c args n s = run c args' n s := by
  induction n generalizing s with
  | zero => rfl
  | succ n ih =>
      have hvisit : visit c args s = visit c args' s := by
        cases hb : c.block? s.block with
        | none => simp [visit, fetch, hb]
        | some b => simp only [visit, fetch_eq_ok hb, ok_bind, steps_congr (h s.block b hb)]
      simp only [run, hvisit, ih]

end Interpreter

namespace Graph

variable {g : Graph} {h h' : Heap} {p : Program} {n : Nat} {args : List UInt64} {out o : Buffer}

/-- Every reachable phi has an entry for every predecessor of its block. -/
def Covered (g : Graph) : Prop :=
  ∀ e ∈ g.walk, ∀ φ ∈ e.2.phis, ∀ pred ∈ g.predecessors.getD e.1 [],
    pred ∈ φ.incoming.map Prod.fst

/-- Both blocks are reachable, control can go from the first to the second, and
a phi of the second has no entry for the first. -/
def Uncovered (g : Graph) (pred block : Label) : Prop :=
  ∃ b b', (pred, b) ∈ g.walk ∧ (block, b') ∈ g.walk ∧ block ∈ b.term.successors ∧
    ∃ φ ∈ b'.phis, pred ∉ φ.incoming.map Prod.fst

theorem Covered.not_uncovered (hg : g.Covered) (pred block : Label) : ¬g.Uncovered pred block := by
  rintro ⟨b, b', hb, hb', hsucc, φ, hφ, hnone⟩
  obtain ⟨hmem, hblock⟩ := mem_walk.mp hb
  have hpred : pred ∈ g.predecessors.getD block [] :=
    mem_predecessors.mpr ⟨hmem, (successors_of_block? hblock).symm ▸ hsucc⟩
  exact hnone (hg (block, b') hb' φ hφ pred hpred)

/-- The edge on which lowered code fails is an uncovered one of the graph. -/
theorem LoweredAs.uncovered {c : Code} (hc : g.LoweredAs c) {id next : Label}
    {b target : Code.Block} {φ : Code.Phi} (hb : c.block? id = some b)
    (hnext : next ∈ b.exit.successors) (ht : c.block? next = some target)
    (hφ : φ ∈ target.phis) (hnone : φ.incomingFrom? id = none) : g.Uncovered id next := by
  obtain ⟨gb, hwalk, hlow⟩ := hc.block id b hb
  obtain ⟨gt, hwalk', hlow'⟩ := hc.block next target ht
  refine ⟨gb, gt, hwalk, hwalk', hlow.exit.successors_eq ▸ hnext, ?_⟩
  obtain ⟨ψ, hψ, hphi⟩ := exists_of_mem_right hlow'.phis hφ
  refine ⟨ψ, hψ, Phi.incomingFrom?_eq_none_iff.mp ?_⟩
  rcases hphi.incomingFrom? id with ⟨hnone', -⟩ | ⟨r, x, -, hx, -⟩
  · exact hnone'
  · rw [hnone] at hx
    cases hx

theorem bounds_of_missingArgument (hp : g.assemble h = .ok (p, h')) {index count : Nat}
    (hfail : p.interpreted.call n args out = .failed (.missingArgument index count) o) :
    count = args.length ∧ count ≤ index ∧ index < p.code.argCount := by
  obtain ⟨k, id, frame, written, b, -, -, hb, hfails⟩ :=
    (sound_of_assemble hp).exists_failsIn hfail
  cases hfails with
  | @argument _ _ dst _ _ split _ missing =>
      have hop : .arg dst index ∈ b.ops := by simp [split]
      exact ⟨rfl, missing, lt_argCount_of_lower (lower_of_assemble hp) hb hop⟩

theorem uncovered_of_phiMismatch (hp : g.assemble h = .ok (p, h')) {block pred : Label}
    (hfail : p.interpreted.call n args out = .failed (.phiMismatch block pred) o) :
    (p.code.block? pred).isSome ∧ (p.code.block? block).isSome ∧ g.Uncovered pred block := by
  have hsound := sound_of_assemble hp
  obtain ⟨k, id, frame, written, b, -, -, hb, hfails⟩ := hsound.exists_failsIn hfail
  cases hfails with
  | edge _ _ taken there mem uncovered =>
      rw [hsound.ids _ _ hb] at uncovered ⊢
      rw [hsound.ids _ _ there, hb, there]
      have has := loweredAs_of_lower (lower_of_assemble hp)
      exact ⟨rfl, rfl, has.uncovered hb taken there mem uncovered⟩

end Graph

/-- The errors of an interpreted program. A missing argument is one below the
argument count that was not passed. A phi mismatch names an edge between two
assembled blocks, the second of which has a phi without an entry for the first.
So a program whose phis are covered does not fail when it is given all its
arguments; further arguments make no difference to any run. -/
theorem run_errors_have_static_causes {g : Graph} {h h' : Heap} {p : Program}
    (hp : g.assemble h = .ok (p, h')) (n : Nat) (args : List UInt64) (out : Buffer) :
    (∀ index count o,
      p.interpreted.call n args out = .failed (.missingArgument index count) o →
        count = args.length ∧ count ≤ index ∧ index < p.code.argCount) ∧
      (∀ block pred o,
        p.interpreted.call n args out = .failed (.phiMismatch block pred) o →
          (p.code.block? pred).isSome ∧ (p.code.block? block).isSome ∧
            g.Uncovered pred block) ∧
      (g.Covered → p.code.argCount ≤ args.length →
        ∀ error o, p.interpreted.call n args out ≠ .failed error o) ∧
      (p.code.argCount ≤ args.length →
        p.interpreted.call n args out =
          p.interpreted.call n (args.take p.code.argCount) out) := by
  refine ⟨fun index count o => Graph.bounds_of_missingArgument hp,
    fun block pred o => Graph.uncovered_of_phiMismatch hp, ?_, ?_⟩
  · intro hcovered hcount error o hfail
    cases error with
    | missingArgument index count =>
        obtain ⟨rfl, hle, hlt⟩ := Graph.bounds_of_missingArgument hp hfail
        omega
    | phiMismatch block pred =>
        obtain ⟨-, -, huncovered⟩ := Graph.uncovered_of_phiMismatch hp hfail
        exact hcovered.not_uncovered pred block huncovered
  · intro hcount
    apply Interpreter.run_congr
    intro id b hb dst i hop
    have hlt := Graph.lt_argCount_of_lower (Graph.lower_of_assemble hp) hb hop
    have hi : i < args.length := by omega
    refine ⟨args[i], List.getElem?_eq_getElem hi, ?_⟩
    rw [List.getElem?_take_of_lt hlt]
    exact List.getElem?_eq_getElem hi

/-- The countdown needs two arguments, and with them it does not fail. -/
theorem run_errors_have_static_causes_countdown :
    ∃ p h', Graph.countdown.assemble {} = .ok (p, h') ∧ p.code.argCount = 2 ∧
      Graph.countdown.Covered ∧
      ∀ n out error o, p.interpreted.call n [3, 7, 1] out ≠ .failed error o ∧
        p.interpreted.call n [3, 7, 1] out = p.interpreted.call n [3, 7] out := by
  obtain ⟨p, h', hp⟩ := Graph.exists_assemble_countdown {}
  have hcount : p.code.argCount = 2 := by
    have hmap : Graph.countdown.lower.map Code.argCount = .ok 2 := by decide +kernel
    rw [Graph.lower_of_assemble hp] at hmap
    exact Except.ok.inj hmap
  have hcovered : Graph.countdown.Covered := by
    unfold Graph.Covered
    decide +kernel
  have hargs : p.code.argCount ≤ [3, 7, (1 : UInt64)].length := by simp [hcount]
  refine ⟨p, h', hp, hcount, hcovered, fun n out error o => ?_⟩
  have hcauses := run_errors_have_static_causes hp n [3, 7, 1] out
  refine ⟨hcauses.2.2.1 hcovered hargs error o, ?_⟩
  have htake := hcauses.2.2.2 hargs
  rw [hcount] at htake
  exact htake

end WireFlow
