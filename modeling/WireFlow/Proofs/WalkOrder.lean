import WireFlow.Proofs.Reachable

/-!
# The order of a walk

A walk finishes every vertex once, and the entry last. While it is under way,
the vertices that it has opened and not finished lie on the stack as a chain:
every one of them leads to all that waits above it. When a vertex is finished,
each of its successors has been seen, so it is finished already or it is open
further down, and then the vertex can be reached from it. Hence an edge can only
point backwards in the finishing order if it lies on a cycle.
-/

namespace WireFlow

namespace Walk

variable {size entry : Nat} {succ : Nat → List Nat}

/-- What exploring a vertex puts on the stack if vertices that are not worth it
are left out: those outside the graph and those that have been seen. -/
def expandFresh (size : Nat) (succ : Nat → List Nat) (seen : List Nat) (v : Nat) : List Task :=
  ((succ v).filter fun w => w < size ∧ w ∉ seen).reverse.map .explore ++ [.finish v]

/-- The walk as a loop without a bound: it takes the top of the stack until the
stack is empty, and the vertices it takes have to be in the graph. -/
inductive Loop (size : Nat) (succ : Nat → List Nat) : List Task → State → State → Prop
  | stop (s : State) : Loop size succ [] s s
  | finish {v : Nat} {rest : List Task} {s t : State}
      (h : Loop size succ rest { s with done := s.done ++ [v] } t) :
      Loop size succ (.finish v :: rest) s t
  | skip {v : Nat} {rest : List Task} {s t : State} (hlt : v < size) (hv : v ∈ s.seen)
      (h : Loop size succ rest s t) : Loop size succ (.explore v :: rest) s t
  | explore {v : Nat} {rest : List Task} {s t : State} (hlt : v < size) (hv : v ∉ s.seen)
      (h : Loop size succ (expandFresh size succ (v :: s.seen) v ++ rest)
        { s with seen := v :: s.seen } t) :
      Loop size succ (.explore v :: rest) s t

namespace Loop

variable {stack : List Task} {s t t' : State}

/-- The loop has one way to go. -/
theorem unique (h : Loop size succ stack s t) (h' : Loop size succ stack s t') : t = t' := by
  induction h with
  | stop s =>
      cases h'
      rfl
  | finish _ ih =>
      cases h' with
      | finish h' => exact ih h'
  | skip _ hv _ ih =>
      cases h' with
      | skip _ _ h' => exact ih h'
      | explore _ hv' _ => exact absurd hv hv'
  | explore _ hv _ ih =>
      cases h' with
      | skip _ hv' _ => exact absurd hv' hv
      | explore _ _ h' => exact ih h'

/-- What lies at the bottom of the stack is finished last. -/
theorem getLast?_done (h : Loop size succ stack s t) {e : Nat}
    (hbottom : stack.getLast? = some (.finish e)) : t.done.getLast? = some e := by
  induction h with
  | stop s => cases hbottom
  | @finish v rest s t hrest ih =>
      cases rest with
      | nil =>
          cases hrest
          cases hbottom
          exact List.getLast?_concat
      | cons task rest => exact ih (by rwa [List.getLast?_cons_cons] at hbottom)
  | @skip v rest s t _ _ _ ih =>
      cases rest with
      | nil => cases hbottom
      | cons task rest => exact ih (by rwa [List.getLast?_cons_cons] at hbottom)
  | @explore v rest s t _ _ _ ih =>
      cases rest with
      | nil => cases hbottom
      | cons task rest =>
          rw [List.getLast?_cons_cons] at hbottom
          exact ih (by rw [List.getLast?_append, hbottom, Option.some_or])

end Loop

/-- Taking the task from the stack would change nothing. -/
def Stale (size : Nat) (seen : List Nat) (task : Task) : Prop :=
  ∃ v, task = .explore v ∧ (v < size → v ∈ seen)

theorem Stale.cons {seen : List Nat} {task : Task} (h : Stale size seen task) (v : Nat) :
    Stale size (v :: seen) task := by
  obtain ⟨w, rfl, hw⟩ := h
  exact ⟨w, rfl, fun hlt => List.mem_cons_of_mem _ (hw hlt)⟩

theorem thin_expandFresh (size : Nat) (succ : Nat → List Nat) (seen : List Nat) (v : Nat) :
    Thin id (Stale size seen) (expand succ v) (expandFresh size succ seen v) := by
  have hsuccs : Thin id (Stale size seen) ((succ v).reverse.map .explore)
      (((succ v).filter fun w => w < size ∧ w ∉ seen).reverse.map .explore) := by
    rw [← List.filter_reverse]
    generalize (succ v).reverse = ws
    induction ws with
    | nil => exact .nil
    | cons w ws ih =>
        by_cases hw : w < size ∧ w ∉ seen
        · rw [List.filter_cons_of_pos (by simpa using hw)]
          exact ih.keep (.explore w)
        · rw [List.filter_cons_of_neg (by simpa using hw)]
          exact ih.drop ⟨w, rfl, by tauto⟩
  exact hsuccs.append (Thin.nil.keep (Task.finish v))

/-- The stack of the loop is the stack of the walk without some stale tasks, and
what the loop still has to do from there is what it had to do at its start. -/
def Simulates (size : Nat) (succ : Nat → List Nat) (entry : Nat) (stack : List Task)
    (s : State) : Prop :=
  ∃ stack', Thin id (Stale size s.seen) stack stack' ∧ (∀ v, .explore v ∈ stack' → v < size) ∧
    ∀ t, Loop size succ stack' s t → Loop size succ [.explore entry] {} t

namespace Simulates

variable {v : Nat} {rest : List Task} {s : State}

theorem start (h : entry < size) : Simulates size succ entry [.explore entry] {} := by
  refine ⟨[.explore entry], Thin.nil.keep (Task.explore entry), ?_, fun t ht => ht⟩
  intro v hv
  cases List.mem_singleton.mp hv
  exact h

theorem finish (h : Simulates size succ entry (.finish v :: rest) s) :
    Simulates size succ entry rest { s with done := s.done ++ [v] } := by
  obtain ⟨stack', hthin, hinside, hloop⟩ := h
  cases hthin with
  | keep _ hthin =>
      refine ⟨_, hthin, fun w hw => hinside w (List.mem_cons_of_mem _ hw), fun t ht => ?_⟩
      exact hloop t (.finish ht)
  | drop hstale _ =>
      obtain ⟨w, hw, -⟩ := hstale
      cases hw

theorem skip (hv : v < size → v ∈ s.seen) (h : Simulates size succ entry (.explore v :: rest) s) :
    Simulates size succ entry rest s := by
  obtain ⟨stack', hthin, hinside, hloop⟩ := h
  cases hthin with
  | keep _ hthin =>
      have hlt := hinside v (List.mem_cons_self ..)
      refine ⟨_, hthin, fun w hw => hinside w (List.mem_cons_of_mem _ hw), fun t ht => ?_⟩
      exact hloop t (.skip hlt (hv hlt) ht)
  | drop _ hthin => exact ⟨stack', hthin, hinside, hloop⟩

theorem explore (hlt : v < size) (hv : v ∉ s.seen)
    (h : Simulates size succ entry (.explore v :: rest) s) :
    Simulates size succ entry (expand succ v ++ rest) { s with seen := v :: s.seen } := by
  obtain ⟨stack', hthin, hinside, hloop⟩ := h
  cases hthin with
  | @keep _ _ rest' hthin =>
      refine ⟨expandFresh size succ (v :: s.seen) v ++ rest', ?_, ?_, fun t ht => ?_⟩
      · exact (thin_expandFresh size succ (v :: s.seen) v).append
          (hthin.imp fun _ hstale => hstale.cons v)
      · intro w hw
        rcases List.mem_append.mp hw with hw | hw
        · simp only [expandFresh, List.mem_append, List.mem_map, List.mem_reverse,
            List.mem_filter, List.mem_singleton, Task.explore.injEq, exists_eq_right,
            decide_eq_true_eq, reduceCtorEq, or_false] at hw
          exact hw.2.1
        · exact hinside w (List.mem_cons_of_mem _ hw)
      · exact hloop t (.explore hlt hv ht)
  | drop hstale _ =>
      obtain ⟨w, hw, hseen⟩ := hstale
      cases hw
      exact absurd (hseen hlt) hv

end Simulates

/-- The loop comes to an end, with the state that the bounded walk ends in. -/
theorem loop_drain (h : entry < size) :
    Loop size succ [.explore entry] {}
      (drain size succ (taskBound size succ) [.explore entry] {}) := by
  have hsim : Simulates size succ entry []
      (drain size succ (taskBound size succ) [.explore entry] {}) :=
    drain_induction (fun _ _ _ h => h.finish) (fun _ _ _ hlt hv h => h.explore hlt hv)
      (fun _ _ _ hv h => h.skip hv) _ _ _ (work_start size succ entry).le (Simulates.start h)
  obtain ⟨stack', hthin, -, hloop⟩ := hsim
  cases hthin
  exact hloop _ (.stop _)

theorem getLast?_postOrder (h : entry < size) :
    (postOrder size succ entry).getLast? = some entry := by
  have hloop : Loop size succ [.explore entry] {}
      (drain size succ (taskBound size succ) [.explore entry] {}) := loop_drain h
  rw [postOrder]
  cases hloop with
  | skip _ hv _ => cases hv
  | explore _ _ hloop => exact hloop.getLast?_done (by simp [expandFresh])

/-- The vertices that have been opened and not finished, the latest first. -/
def opened : List Task → List Nat
  | [] => []
  | .explore _ :: rest => opened rest
  | .finish v :: rest => v :: opened rest

theorem opened_append (xs ys : List Task) : opened (xs ++ ys) = opened xs ++ opened ys := by
  induction xs with
  | nil => rfl
  | cons task xs ih => cases task <;> simp [opened, ih]

theorem opened_expand (succ : Nat → List Nat) (v : Nat) : opened (expand succ v) = [v] := by
  have hnone (ws : List Nat) : opened (ws.map .explore) = [] := by
    induction ws with
    | nil => rfl
    | cons w ws ih => exact ih
  rw [expand, opened_append, hnone]
  rfl

theorem mem_opened {stack : List Task} {v : Nat} : v ∈ opened stack ↔ .finish v ∈ stack := by
  induction stack with
  | nil => simp [opened]
  | cons task rest ih => cases task <;> simp [opened, ih]

/-- The vertex a task is about. -/
def Task.vertex : Task → Nat
  | explore v => v
  | finish v => v

/-- An open vertex leads to what waits above it. -/
def Leads (size : Nat) (succ : Nat → List Nat) (task below : Task) : Prop :=
  ∀ u, below = .finish u → task.vertex < size → Reachable size succ u task.vertex

theorem mem_expand {v : Nat} {task : Task} :
    task ∈ expand succ v ↔ (∃ w ∈ succ v, task = .explore w) ∨ task = .finish v := by
  simp [expand, eq_comm]

/-- What a vertex puts on the stack can be reached from the vertex. -/
theorem reachable_of_mem_expand {u v : Nat} {task : Task} (htask : task ∈ expand succ v)
    (hv : Reachable size succ u v) (hlt : task.vertex < size) :
    Reachable size succ u task.vertex := by
  rcases mem_expand.mp htask with ⟨w, hw, rfl⟩ | rfl
  · exact hv.next hw hlt
  · exact hv

/-- What holds between two tasks of a walk about the order of things. -/
structure Ordered (size : Nat) (succ : Nat → List Nat) (stack : List Task) (s : State) : Prop where
  /-- Finished vertices and open ones are all different. -/
  once : (s.done ++ opened stack).Nodup
  chain : stack.Pairwise (Leads size succ)
  /-- The successors of an open vertex have been seen, or wait above it. -/
  pending : ∀ u, .finish u ∈ stack → ∀ v ∈ succ u, v < size →
    v ∈ s.seen ∨ [.explore v, .finish u].Sublist stack
  /-- A successor is finished before, unless the edge lies on a cycle. -/
  order : ∀ u ∈ s.done, ∀ v ∈ succ u, v < size →
    [v, u].Sublist s.done ∨ Reachable size succ v u

namespace Ordered

variable {v : Nat} {rest : List Task} {s : State}

theorem start : Ordered size succ [.explore entry] {} where
  once := by simp [opened]
  chain := List.pairwise_singleton _ _
  pending := by simp
  order := by simp

theorem finish (hcovers : Covers size succ entry (.finish v :: rest) s)
    (h : Ordered size succ (.finish v :: rest) s) :
    Ordered size succ rest { s with done := s.done ++ [v] } where
  once := by
    have honce := h.once
    rwa [opened, ← List.singleton_append, ← List.append_assoc] at honce
  chain := h.chain.of_cons
  pending u hu w hw hlt := by
    refine (h.pending u (List.mem_cons_of_mem _ hu) w hw hlt).imp_right fun hsub => ?_
    rcases List.cons_sublist_cons'.mp hsub with hsub | ⟨heq, -⟩
    · exact hsub
    · cases heq
  order u hu w hw hlt := by
    rcases List.mem_append.mp hu with hu | hu
    · exact (h.order u hu w hw hlt).imp_left fun hsub =>
        hsub.trans (List.sublist_append_left ..)
    · cases List.mem_singleton.mp hu
      -- nothing waits above the vertex, so its successor has been seen
      have hseen : w ∈ s.seen := by
        refine (h.pending v (List.mem_cons_self ..) w hw hlt).resolve_right fun hsub => ?_
        have hbelow : .finish v ∈ rest := by
          rcases List.cons_sublist_cons'.mp hsub with hsub | ⟨heq, -⟩
          · exact hsub.subset (by simp)
          · cases heq
        have hnodup := h.once.of_append_right
        exact (List.nodup_cons.mp hnodup).1 (mem_opened.mpr hbelow)
      rcases hcovers.seen w hseen with hdone | hopen
      · refine Or.inl ?_
        exact (List.singleton_sublist.mpr hdone).append (List.Sublist.refl [v])
      · refine Or.inr ?_
        rcases List.mem_cons.mp hopen with heq | hopen
        · cases heq
          exact .entry hlt
        · have hv := hcovers.inside v (hcovers.finishing v (List.mem_cons_self ..))
          exact (List.pairwise_cons.mp h.chain).1 _ hopen w rfl hv

theorem skip (hv : v < size → v ∈ s.seen) (h : Ordered size succ (.explore v :: rest) s) :
    Ordered size succ rest s where
  once := h.once
  chain := h.chain.of_cons
  pending u hu w hw hlt := by
    rcases h.pending u (List.mem_cons_of_mem _ hu) w hw hlt with hseen | hsub
    · exact Or.inl hseen
    · rcases List.cons_sublist_cons'.mp hsub with hsub | ⟨heq, -⟩
      · exact Or.inr hsub
      · cases heq
        exact Or.inl (hv hlt)
  order := h.order

theorem explore (hcovers : Covers size succ entry (.explore v :: rest) s) (hlt : v < size)
    (hv : v ∉ s.seen) (h : Ordered size succ (.explore v :: rest) s) :
    Ordered size succ (expand succ v ++ rest) { s with seen := v :: s.seen } where
  once := by
    have hfresh : v ∉ s.done ++ opened rest := by
      intro hmem
      rcases List.mem_append.mp hmem with hdone | hopen
      · exact hv (hcovers.finished v hdone)
      · exact hv (hcovers.finishing v (List.mem_cons_of_mem _ (mem_opened.mp hopen)))
    rw [opened_append, opened_expand, List.singleton_append]
    exact (List.perm_middle.nodup_iff).mpr (List.nodup_cons.mpr ⟨hfresh, h.once⟩)
  chain := by
    obtain ⟨habove, hrest⟩ := List.pairwise_cons.mp h.chain
    refine List.pairwise_append.mpr ⟨?_, hrest, ?_⟩
    · apply List.pairwise_of_forall_mem_list
      intro task htask below hbelow u hu hinside
      subst hu
      rcases mem_expand.mp hbelow with ⟨w, -, heq⟩ | heq
      · cases heq
      · cases heq
        exact reachable_of_mem_expand htask (.entry hlt) hinside
    · intro task htask below hbelow u hu hinside
      exact reachable_of_mem_expand htask (habove below hbelow u hu hlt) hinside
  pending u hu w hw hinside := by
    rcases List.mem_append.mp hu with hu | hu
    · rcases mem_expand.mp hu with ⟨_, -, heq⟩ | heq
      · cases heq
      · cases heq
        have hwait : [Task.explore w].Sublist ((succ v).reverse.map .explore) := by
          rw [List.singleton_sublist]
          exact List.mem_map_of_mem (List.mem_reverse.mpr hw)
        have hsub := hwait.append (List.Sublist.refl [Task.finish v])
        exact Or.inr (hsub.trans (List.sublist_append_left ..))
    · rcases h.pending u (List.mem_cons_of_mem _ hu) w hw hinside with hseen | hsub
      · exact Or.inl (List.mem_cons_of_mem _ hseen)
      · rcases List.cons_sublist_cons'.mp hsub with hsub | ⟨heq, -⟩
        · exact Or.inr (hsub.trans (List.sublist_append_right ..))
        · cases heq
          exact Or.inl (List.mem_cons_self ..)
  order := h.order

end Ordered

theorem ordered_drain (size : Nat) (succ : Nat → List Nat) (entry : Nat) :
    Ordered size succ [] (drain size succ (taskBound size succ) [.explore entry] {}) := by
  have hboth :
      Covers size succ entry [] (drain size succ (taskBound size succ) [.explore entry] {}) ∧
        Ordered size succ [] (drain size succ (taskBound size succ) [.explore entry] {}) :=
    drain_induction (P := fun stack s => Covers size succ entry stack s ∧ Ordered size succ stack s)
      (fun _ _ _ h => ⟨h.1.finish, h.2.finish h.1⟩)
      (fun _ _ _ hlt hv h => ⟨h.1.explore hlt, h.2.explore h.1 hlt hv⟩)
      (fun _ _ _ hv h => ⟨h.1.skip hv, h.2.skip hv⟩)
      _ _ _ (work_start size succ entry).le ⟨Covers.start, Ordered.start⟩
  exact hboth.2

theorem nodup_postOrder (size : Nat) (succ : Nat → List Nat) (entry : Nat) :
    (postOrder size succ entry).Nodup := by
  have honce := (ordered_drain size succ entry).once
  rwa [opened, List.append_nil] at honce

/-- Edges of a walk point to what is finished earlier, or lie on a cycle. -/
theorem before_or_reachable {u v : Nat} (hu : u ∈ postOrder size succ entry) (hv : v ∈ succ u)
    (hlt : v < size) : [v, u].Sublist (postOrder size succ entry) ∨ Reachable size succ v u :=
  (ordered_drain size succ entry).order u hu v hv hlt

end Walk

theorem pairwise_idxOf_lt {xs : List Label} (h : xs.Nodup) :
    xs.Pairwise fun x y => xs.idxOf x < xs.idxOf y := by
  apply List.pairwise_iff_getElem.mpr
  intro i j hi hj hij
  rwa [h.idxOf_getElem, h.idxOf_getElem]

theorem Graph.nodup_postOrder (g : Graph) : g.postOrder.Nodup := Walk.nodup_postOrder _ _ _

/-- The walk of a graph is a post-order: the loop that makes it ends, and ends
with it; it lists the reachable blocks and no others, each once and the entry
last; and the successors of a block that are in the graph come before the block,
unless the block can be reached from them again. -/
theorem walk_is_post_order (g : Graph) :
    (∃ t, Walk.Loop g.size g.successors [.explore g.entry] {} t) ∧
      (∀ t, Walk.Loop g.size g.successors [.explore g.entry] {} t → t.done = g.postOrder) ∧
      (∀ id, id ∈ g.postOrder ↔ g.Reachable id) ∧ g.postOrder.Nodup ∧
      g.postOrder.getLast? = some g.entry ∧
      ∀ u v, g.Reachable u → v ∈ g.successors u → v < g.size →
        [v, u].Sublist g.postOrder ∨ Walk.Reachable g.size g.successors v u := by
  have hloop : Walk.Loop g.size g.successors [.explore g.entry] {} _ := Walk.loop_drain g.entry_lt
  refine ⟨⟨_, hloop⟩, ?_, fun id => Graph.mem_postOrder_iff, g.nodup_postOrder,
    Walk.getLast?_postOrder g.entry_lt, ?_⟩
  · intro t ht
    rw [ht.unique hloop]
    rfl
  · intro u v hu hv hlt
    exact Walk.before_or_reachable (Graph.mem_postOrder_iff.mpr hu) hv hlt

end WireFlow
