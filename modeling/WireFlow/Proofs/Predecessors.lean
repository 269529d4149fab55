import Mathlib.Data.List.Nodup
import WireFlow.Proofs.Walk

/-!
# Predecessors

The table of predecessors is the edges turned around: for every block it lists
the reachable blocks that have it as a successor, in walk order and each once,
however often the successor is repeated.
-/

namespace WireFlow

theorem nodup_eraseDups (ids : List Label) : ids.eraseDups.Nodup := by
  cases ids with
  | nil => simp
  | cons id rest =>
      rw [List.eraseDups_cons, List.nodup_cons]
      constructor
      · simp [List.mem_eraseDups]
      · exact nodup_eraseDups _
termination_by ids.length
decreasing_by exact Nat.lt_succ_of_le (List.length_filter_le _ _)

namespace Graph

variable {g : Graph} {id pred : Label}

/-- Entering the edges from `id` to different targets adds it to each of them. -/
theorem getD_foldl_alter {targets : List Label} (hnodup : targets.Nodup) (id target : Label)
    (table : Std.TreeMap Label (List Label)) :
    (targets.foldl (fun t succ => t.alter succ fun preds => some (preds.getD [] ++ [id]))
      table).getD target [] = table.getD target [] ++ if target ∈ targets then [id] else [] := by
  induction targets generalizing table with
  | nil => simp
  | cons succ rest ih =>
      obtain ⟨hsucc, hrest⟩ := List.nodup_cons.mp hnodup
      rw [List.foldl_cons, ih hrest, Std.TreeMap.getD_alter]
      by_cases heq : succ = target
      · subst heq
        simp [hsucc, Std.TreeMap.getD_eq_getD_getElem?]
      · simp [heq, Ne.symm heq]

theorem getD_addEdges (g : Graph) (table : Std.TreeMap Label (List Label)) (id target : Label) :
    (g.addEdges table id).getD target [] =
      table.getD target [] ++ if target ∈ g.successors id then [id] else [] := by
  have hstart : (table.alter id fun preds => some (preds.getD [])).getD target [] =
      table.getD target [] := by
    rw [Std.TreeMap.getD_alter]
    by_cases heq : id = target
    · simp [heq, Std.TreeMap.getD_eq_getD_getElem?]
    · simp [heq]
  rw [addEdges, getD_foldl_alter (nodup_eraseDups _), hstart]
  simp only [List.mem_eraseDups]

/-- The entry of a block lists the reachable blocks it is a successor of. -/
theorem getD_predecessors (g : Graph) (id : Label) :
    g.predecessors.getD id [] = g.postOrder.filter fun pred => id ∈ g.successors pred := by
  have hfold (ids : List Label) (table : Std.TreeMap Label (List Label)) :
      (ids.foldl g.addEdges table).getD id [] =
        table.getD id [] ++ ids.filter fun pred => id ∈ g.successors pred := by
    induction ids generalizing table with
    | nil => simp
    | cons pred rest ih =>
        rw [List.foldl_cons, ih, getD_addEdges, List.append_assoc]
        by_cases h : id ∈ g.successors pred <;> simp [h]
  rw [predecessors, hfold, Std.TreeMap.getD_emptyc, List.nil_append]

theorem mem_predecessors :
    pred ∈ g.predecessors.getD id [] ↔ pred ∈ g.postOrder ∧ id ∈ g.successors pred := by
  simp [getD_predecessors]

theorem lt_of_mem_predecessors (h : pred ∈ g.predecessors.getD id []) : pred < g.size :=
  Walk.lt_of_mem_postOrder (mem_predecessors.mp h).1

end Graph

end WireFlow
