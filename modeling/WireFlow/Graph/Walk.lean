import WireFlow.Count

/-!
# Depth-first walks

A walk follows successors from one vertex with a stack of tasks. Exploring a
vertex puts its successors on the stack, so the last one is explored first, and
below them the task to finish the vertex. A vertex can wait on the stack more
than once; only the first time it comes up counts, and vertices outside the
graph are passed over.
-/

namespace WireFlow.Walk

/-- What waits on the stack. -/
inductive Task where
  | explore (v : Nat)
  | finish (v : Nat)
deriving DecidableEq

/-- What a walk has seen, and the finished vertices, earliest first. -/
structure State where
  seen : List Nat := []
  done : List Nat := []
deriving DecidableEq

/-- What exploring a vertex puts on the stack, top first. -/
def expand (succ : Nat → List Nat) (v : Nat) : List Task :=
  (succ v).reverse.map .explore ++ [.finish v]

/-- Work through the stack, top first, for at most a number of tasks. -/
def drain (size : Nat) (succ : Nat → List Nat) : Nat → List Task → State → State
  | 0, _, s => s
  | _ + 1, [], s => s
  | n + 1, .finish v :: rest, s => drain size succ n rest { s with done := s.done ++ [v] }
  | n + 1, .explore v :: rest, s =>
      if v < size ∧ v ∉ s.seen then
        drain size succ n (expand succ v ++ rest) { s with seen := v :: s.seen }
      else drain size succ n rest s

/-- Every vertex is expanded at most once, so no walk has more tasks. -/
def taskBound (size : Nat) (succ : Nat → List Nat) : Nat :=
  1 + sumOf (fun v => (expand succ v).length) (List.range size)

/-- The vertices reachable from `entry`, each after what it leads to. -/
def postOrder (size : Nat) (succ : Nat → List Nat) (entry : Nat) : List Nat :=
  (drain size succ (taskBound size succ) [.explore entry] {}).done

end WireFlow.Walk
