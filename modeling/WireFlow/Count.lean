/-!
# Counting

Blocks, nodes and rounds are counted by adding up what each of them counts for.
-/

namespace WireFlow

/-- What the items of a list count for, added up. -/
def sumOf {α : Type} (count : α → Nat) (xs : List α) : Nat := xs.foldr (fun x n => count x + n) 0

@[simp] theorem sumOf_nil {α : Type} (count : α → Nat) : sumOf count [] = 0 := rfl

@[simp] theorem sumOf_cons {α : Type} (count : α → Nat) (x : α) (xs : List α) :
    sumOf count (x :: xs) = count x + sumOf count xs := rfl

theorem sumOf_append {α : Type} (count : α → Nat) (xs ys : List α) :
    sumOf count (xs ++ ys) = sumOf count xs + sumOf count ys := by
  induction xs with
  | nil => simp
  | cons x xs ih => simp [ih, Nat.add_assoc]

theorem sumOf_eq_zero_iff {α : Type} {count : α → Nat} {xs : List α} :
    sumOf count xs = 0 ↔ ∀ x ∈ xs, count x = 0 := by
  induction xs with
  | nil => simp
  | cons x xs ih => simp [ih]

end WireFlow
