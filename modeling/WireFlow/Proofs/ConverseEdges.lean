import WireFlow.Proofs.SingleAssignment

/-!
# The table of predecessors is the converse of the edges

The table is filled block by block along the walk. Entering a block makes an
entry for the block itself and for each of its successors, inside the graph or
not, and adds the block to the entries of its successors. Parallel edges are
entered once. So the table has entries for what is reached or named by what is
reached, and every entry lists the sources of its edges in the order of the walk.
-/

namespace WireFlow

namespace Graph

variable {g : Graph}

/-- Entering edges makes entries for their targets. -/
theorem mem_foldl_alter (targets : List Label) (id target : Label)
    (table : Std.TreeMap Label (List Label)) :
    target ∈ targets.foldl (fun t succ => t.alter succ fun preds => some (preds.getD [] ++ [id]))
      table ↔ target ∈ table ∨ target ∈ targets := by
  induction targets generalizing table with
  | nil => simp
  | cons succ rest ih =>
      rw [List.foldl_cons, ih, Std.TreeMap.mem_alter]
      by_cases heq : succ = target
      · simp [heq]
      · simp [heq, Ne.symm heq]

/-- Entering a block makes entries for the block and for its successors. -/
theorem mem_addEdges (g : Graph) (table : Std.TreeMap Label (List Label)) (id target : Label) :
    target ∈ g.addEdges table id ↔ target ∈ table ∨ target = id ∨ target ∈ g.successors id := by
  rw [addEdges, mem_foldl_alter, List.mem_eraseDups, Std.TreeMap.mem_alter]
  by_cases heq : id = target
  · simp [heq]
  · simp [heq, Ne.symm heq]

theorem mem_foldl_addEdges (g : Graph) (ids : List Label) (target : Label)
    (table : Std.TreeMap Label (List Label)) :
    target ∈ ids.foldl g.addEdges table ↔
      target ∈ table ∨ ∃ id ∈ ids, target = id ∨ target ∈ g.successors id := by
  induction ids generalizing table with
  | nil => simp
  | cons id rest ih =>
      rw [List.foldl_cons, ih, mem_addEdges]
      simp only [List.mem_cons, exists_eq_or_imp, or_assoc]

/-- There are entries for the reachable blocks and for the ends of their edges. -/
theorem mem_keys_predecessors {id : Label} :
    id ∈ g.predecessors ↔ g.Reachable id ∨ ∃ pred, g.Reachable pred ∧ id ∈ g.successors pred := by
  rw [predecessors, mem_foldl_addEdges]
  simp only [Std.TreeMap.not_mem_emptyc, false_or, mem_postOrder_iff, and_or_left, exists_or,
    exists_eq_right']

/-- The sources of edges are listed in the order of the walk. -/
theorem sublist_predecessors (g : Graph) (id : Label) :
    (g.predecessors.getD id []).Sublist g.postOrder := by
  rw [getD_predecessors]
  exact List.filter_sublist

/-- No source is listed twice, however many of its edges lead to the block. -/
theorem nodup_predecessors (g : Graph) (id : Label) : (g.predecessors.getD id []).Nodup :=
  (g.sublist_predecessors id).nodup g.nodup_postOrder

end Graph

/-- The table has an entry for a name exactly when it is a reachable block or a
successor of one, be it in the graph or not. The entry lists the reachable blocks
that have the name among their successors, each once, in the order of the walk. -/
theorem predecessors_converse_of_edges (g : Graph) (id : Label) :
    (id ∈ g.predecessors ↔ g.Reachable id ∨ ∃ pred, g.Reachable pred ∧ id ∈ g.successors pred) ∧
      (∀ pred, pred ∈ g.predecessors.getD id [] ↔ g.Reachable pred ∧ id ∈ g.successors pred) ∧
      (g.predecessors.getD id []).Nodup ∧ (g.predecessors.getD id []).Sublist g.postOrder :=
  ⟨Graph.mem_keys_predecessors, fun _ => Graph.mem_predecessors_iff, g.nodup_predecessors id,
    g.sublist_predecessors id⟩

-- equal arms, a default that is also a target, a self loop, a name outside the graph and a block
-- that nothing leads to
example :
    let g : Graph := {
      blocks := #[⟨0, [], [], .branch .zero 1 1⟩, ⟨1, [], [], .switch .zero [2, 0, 2, 9] 0⟩,
        ⟨2, [], [], .branch .zero 2 1⟩, ⟨3, [], [], .jump 1⟩]
      entry := 0
      nextReg := 0
      entry_lt := by simp }
    g.postOrder = [2, 1, 0] ∧
      g.predecessors.toList = [(0, [1]), (1, [2, 0]), (2, [2, 1]), (9, [1])] := by
  decide +kernel

end WireFlow
