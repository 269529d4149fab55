import Mathlib.Algebra.BigOperators.Intervals
import WireFlow.Graph.Basic

/-!
# Depth-first walks cover what they should

A walk never runs out of its bound on tasks, because every vertex pays for
its own expansion once. It therefore ends with an empty stack, and what it has
finished contains the entry, stays inside the graph, and is closed under
successors inside the graph.
-/

namespace WireFlow

theorem sumOf_eq_sum {α : Type} (count : α → Nat) (xs : List α) :
    sumOf count xs = (xs.map count).sum := by
  induction xs with
  | nil => rfl
  | cons x xs ih => rw [sumOf_cons, List.map_cons, List.sum_cons, ih]

namespace Walk

variable {size : Nat} {succ : Nat → List Nat}

/-- The tasks on the stack and those that unseen vertices can still add. -/
def work (size : Nat) (succ : Nat → List Nat) (stack : List Task) (s : State) : Nat :=
  stack.length + ∑ v ∈ (Finset.range size).filter (· ∉ s.seen), (expand succ v).length

theorem taskBound_eq (size : Nat) (succ : Nat → List Nat) :
    taskBound size succ = 1 + ∑ v ∈ Finset.range size, (expand succ v).length := by
  rw [taskBound, sumOf_eq_sum]
  rfl

/-- At the start of a walk all work is within the bound. -/
theorem work_start (size : Nat) (succ : Nat → List Nat) (entry : Nat) :
    work size succ [.explore entry] {} = taskBound size succ := by
  simp [work, taskBound_eq]

/-- Expanding a vertex moves its share of the work onto the stack. -/
theorem work_explore (succ : Nat → List Nat) {v : Nat} (rest : List Task) {s : State}
    (hv : v < size) (hs : v ∉ s.seen) :
    work size succ (expand succ v ++ rest) { s with seen := v :: s.seen } + 1 =
      work size succ (.explore v :: rest) s := by
  have herase : (Finset.range size).filter (· ∉ v :: s.seen) =
      ((Finset.range size).filter (· ∉ s.seen)).erase v := by
    ext w
    simp only [Finset.mem_filter, Finset.mem_erase, List.mem_cons, not_or]
    tauto
  have hmem : v ∈ (Finset.range size).filter (· ∉ s.seen) := by simp [hv, hs]
  have hsum := Finset.add_sum_erase _ (fun w => (expand succ w).length) hmem
  simp only [work, herase, List.length_append, List.length_cons]
  omega

/-- What every task of a walk preserves holds at its end, with an empty stack. -/
theorem drain_induction {P : List Task → State → Prop}
    (finish : ∀ v rest s, P (.finish v :: rest) s → P rest { s with done := s.done ++ [v] })
    (explore : ∀ v rest s, v < size → v ∉ s.seen → P (.explore v :: rest) s →
      P (expand succ v ++ rest) { s with seen := v :: s.seen })
    (skip : ∀ v rest s, (v < size → v ∈ s.seen) → P (.explore v :: rest) s → P rest s)
    (n : Nat) (stack : List Task) (s : State) (hn : work size succ stack s ≤ n)
    (h : P stack s) : P [] (drain size succ n stack s) := by
  induction n generalizing stack s with
  | zero =>
      have hnil : stack = [] := by
        simp only [work, Nat.le_zero, Nat.add_eq_zero_iff, List.length_eq_zero_iff] at hn
        exact hn.1
      subst hnil
      exact h
  | succ n ih =>
      match stack with
      | [] => exact h
      | .finish v :: rest =>
          apply ih rest { s with done := s.done ++ [v] }
          · simp only [work, List.length_cons] at hn ⊢
            omega
          · exact finish v rest s h
      | .explore v :: rest =>
          by_cases hv : v < size ∧ v ∉ s.seen
          · simp only [drain, if_pos hv]
            apply ih
            · have := work_explore succ rest hv.1 hv.2
              omega
            · exact explore v rest s hv.1 hv.2 h
          · simp only [drain, if_neg hv]
            apply ih
            · simp only [work, List.length_cons] at hn ⊢
              omega
            · exact skip v rest s (by tauto) h

/-- What holds between two tasks of a walk from `entry`: whatever is still
missing from the finished vertices waits on the stack. -/
structure Covers (size : Nat) (succ : Nat → List Nat) (entry : Nat) (stack : List Task)
    (s : State) : Prop where
  entry : entry < size → entry ∈ s.seen ∨ .explore entry ∈ stack
  inside : ∀ v ∈ s.seen, v < size
  finished : ∀ v ∈ s.done, v ∈ s.seen
  finishing : ∀ v, .finish v ∈ stack → v ∈ s.seen
  seen : ∀ v ∈ s.seen, v ∈ s.done ∨ .finish v ∈ stack
  closed : ∀ v ∈ s.seen, ∀ w ∈ succ v, w < size → w ∈ s.seen ∨ .explore w ∈ stack

namespace Covers

variable {entry v : Nat} {rest : List Task} {s : State}

theorem start : Covers size succ entry [.explore entry] {} where
  entry _ := Or.inr (List.mem_singleton.mpr rfl)
  inside := by simp
  finished := by simp
  finishing := by simp
  seen := by simp
  closed := by simp

theorem finish (h : Covers size succ entry (.finish v :: rest) s) :
    Covers size succ entry rest { s with done := s.done ++ [v] } where
  entry he := by simpa using h.entry he
  inside := h.inside
  finished w hw := by
    rcases List.mem_append.mp hw with hw | hw
    · exact h.finished w hw
    · rw [List.mem_singleton.mp hw]
      exact h.finishing v (List.mem_cons_self ..)
  finishing w hw := h.finishing w (List.mem_cons_of_mem _ hw)
  seen w hw := by
    rcases h.seen w hw with hd | hf
    · exact Or.inl (List.mem_append_left _ hd)
    · rcases List.mem_cons.mp hf with he | hf
      · cases he
        exact Or.inl (List.mem_append_right _ (List.mem_singleton.mpr rfl))
      · exact Or.inr hf
  closed u hu w hw hlt := by simpa using h.closed u hu w hw hlt

theorem explore (hv : v < size) (h : Covers size succ entry (.explore v :: rest) s) :
    Covers size succ entry (expand succ v ++ rest) { s with seen := v :: s.seen } where
  entry he := by
    rcases h.entry he with hs | hs
    · exact Or.inl (List.mem_cons_of_mem _ hs)
    · rcases List.mem_cons.mp hs with hs | hs
      · cases hs
        exact Or.inl (List.mem_cons_self ..)
      · exact Or.inr (List.mem_append_right _ hs)
  inside w hw := by
    rcases List.mem_cons.mp hw with rfl | hw
    · exact hv
    · exact h.inside w hw
  finished w hw := List.mem_cons_of_mem _ (h.finished w hw)
  finishing w hw := by
    rcases List.mem_append.mp hw with hw | hw
    · simp only [expand, List.mem_append, List.mem_map, reduceCtorEq, and_false, exists_false,
        List.mem_singleton, Task.finish.injEq, false_or] at hw
      exact hw ▸ List.mem_cons_self ..
    · exact List.mem_cons_of_mem _ (h.finishing w (List.mem_cons_of_mem _ hw))
  seen w hw := by
    rcases List.mem_cons.mp hw with rfl | hw
    · exact Or.inr (by simp [expand])
    · rcases h.seen w hw with hd | hf
      · exact Or.inl hd
      · exact Or.inr (List.mem_append_right _ (by simpa using hf))
  closed u hu w hw hlt := by
    rcases List.mem_cons.mp hu with rfl | hu
    · exact Or.inr (by simp [expand, hw])
    · rcases h.closed u hu w hw hlt with hs | hs
      · exact Or.inl (List.mem_cons_of_mem _ hs)
      · rcases List.mem_cons.mp hs with hs | hs
        · cases hs
          exact Or.inl (List.mem_cons_self ..)
        · exact Or.inr (List.mem_append_right _ hs)

theorem skip (hv : v < size → v ∈ s.seen) (h : Covers size succ entry (.explore v :: rest) s) :
    Covers size succ entry rest s where
  entry he := by
    rcases h.entry he with hs | hs
    · exact Or.inl hs
    · rcases List.mem_cons.mp hs with hs | hs
      · cases hs
        exact Or.inl (hv he)
      · exact Or.inr hs
  inside := h.inside
  finished := h.finished
  finishing w hw := h.finishing w (List.mem_cons_of_mem _ hw)
  seen w hw := by simpa using h.seen w hw
  closed u hu w hw hlt := by
    rcases h.closed u hu w hw hlt with hs | hs
    · exact Or.inl hs
    · rcases List.mem_cons.mp hs with hs | hs
      · cases hs
        exact Or.inl (hv hlt)
      · exact Or.inr hs

end Covers

/-- A whole walk, with nothing left to do. -/
theorem covers_postOrder (size : Nat) (succ : Nat → List Nat) (entry : Nat) :
    Covers size succ entry [] (drain size succ (taskBound size succ) [.explore entry] {}) :=
  drain_induction (fun _ _ _ h => h.finish) (fun _ _ _ hv _ h => h.explore hv)
    (fun _ _ _ hv h => h.skip hv) _ _ _ (work_start size succ entry).le Covers.start

theorem mem_postOrder_iff_seen {entry v : Nat} :
    v ∈ postOrder size succ entry ↔
      v ∈ (drain size succ (taskBound size succ) [.explore entry] {}).seen := by
  have h := covers_postOrder size succ entry
  constructor
  · exact h.finished v
  · intro hv
    rcases h.seen v hv with hd | hf
    · exact hd
    · cases hf

theorem entry_mem_postOrder {entry : Nat} (h : entry < size) :
    entry ∈ postOrder size succ entry := by
  rcases (covers_postOrder size succ entry).entry h with hs | hs
  · exact mem_postOrder_iff_seen.mpr hs
  · cases hs

theorem lt_of_mem_postOrder {entry v : Nat} (h : v ∈ postOrder size succ entry) : v < size :=
  (covers_postOrder size succ entry).inside v (mem_postOrder_iff_seen.mp h)

/-- A walk leaves no edge inside the graph unfollowed. -/
theorem mem_postOrder_of_succ {entry v w : Nat} (hv : v ∈ postOrder size succ entry)
    (hw : w ∈ succ v) (hlt : w < size) : w ∈ postOrder size succ entry := by
  have h := covers_postOrder size succ entry
  rcases h.closed v (mem_postOrder_iff_seen.mp hv) w hw hlt with hs | hs
  · exact mem_postOrder_iff_seen.mpr hs
  · cases hs

end Walk

namespace Graph

variable {g : Graph} {id : Label} {b : Block}

theorem block?_eq_some_of_lt (h : id < g.size) : ∃ b, g.block? id = some b :=
  ⟨_, Array.getElem?_eq_getElem h⟩

theorem lt_of_block? (h : g.block? id = some b) : id < g.size :=
  (Array.getElem?_eq_some_iff.mp h).1

theorem successors_of_block? (h : g.block? id = some b) : g.successors id = b.term.successors := by
  simp only [block?] at h
  simp [successors, h]

theorem entry_mem_postOrder (g : Graph) : g.entry ∈ g.postOrder :=
  Walk.entry_mem_postOrder g.entry_lt

theorem exists_block?_of_mem_postOrder (h : id ∈ g.postOrder) : ∃ b, g.block? id = some b :=
  block?_eq_some_of_lt (Walk.lt_of_mem_postOrder h)

/-- Successors of reachable blocks that are in the graph are reachable. -/
theorem mem_postOrder_of_successor {next : Label} (h : id ∈ g.postOrder)
    (hb : g.block? id = some b) (hn : next ∈ b.term.successors) (hlt : next < g.size) :
    next ∈ g.postOrder :=
  Walk.mem_postOrder_of_succ h (successors_of_block? hb ▸ hn) hlt

theorem mem_pick {ids : List Label} : (id, b) ∈ g.pick ids ↔ id ∈ ids ∧ g.block? id = some b := by
  simp only [pick, List.mem_filterMap, Option.map_eq_some_iff, Prod.mk.injEq]
  constructor
  · rintro ⟨i, hi, c, hc, rfl, rfl⟩
    exact ⟨hi, hc⟩
  · rintro ⟨hi, hb⟩
    exact ⟨id, hi, b, hb, rfl, rfl⟩

/-- The walk lists the reachable blocks. -/
theorem mem_walk : (id, b) ∈ g.walk ↔ id ∈ g.postOrder ∧ g.block? id = some b := mem_pick

end Graph

end WireFlow
