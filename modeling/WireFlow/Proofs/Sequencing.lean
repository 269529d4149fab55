import Mathlib.Data.List.Forall2

/-!
# Computations that can fail

Reasoning about sequences of `Except` steps: when a sequence succeeds, what
holds of a result however it came about, and when two sequences go the same
way. Loops over lists are treated once, so that later arguments are about a
single step.
-/

namespace WireFlow.Sequencing

variable {ε ε' α α' β β' γ : Type}

@[simp] theorem pure_eq_ok (a : α) : (pure a : Except ε α) = .ok a := rfl

@[simp] theorem throw_eq_error (e : ε) : (throw e : Except ε α) = .error e := rfl

@[simp] theorem ok_bind (a : α) (f : α → Except ε β) : (Except.ok a >>= f) = f a := rfl

@[simp] theorem error_bind (e : ε) (f : α → Except ε β) :
    (Except.error e >>= f) = Except.error e := rfl

@[simp] theorem mapError_ok (f : ε → ε') (a : α) :
    (Except.ok a : Except ε α).mapError f = .ok a := rfl

@[simp] theorem mapError_error (f : ε → ε') (e : ε) :
    (Except.error e : Except ε α).mapError f = .error (f e) := rfl

theorem bind_eq_ok_iff {x : Except ε α} {f : α → Except ε β} {b : β} :
    (x >>= f) = .ok b ↔ ∃ a, x = .ok a ∧ f a = .ok b := by
  cases x with
  | error e => simp
  | ok a => simp

theorem bind_eq_error_iff {x : Except ε α} {f : α → Except ε β} {e : ε} :
    (x >>= f) = .error e ↔ x = .error e ∨ ∃ a, x = .ok a ∧ f a = .error e := by
  cases x with
  | error e' => simp
  | ok a => simp

/-- A step that cannot fail takes nothing from a success. -/
theorem exists_bind_pure_eq_ok_iff {x : Except ε α} {f : α → β} :
    (∃ b, (x >>= fun a => pure (f a)) = .ok b) ↔ ∃ a, x = .ok a := by
  cases x with
  | error e => simp
  | ok a => simp

/-- A loop that collects results succeeds when every item does. -/
theorem mapM_eq_ok_iff {f : α → Except ε β} {xs : List α} {ys : List β} :
    xs.mapM f = .ok ys ↔ List.Forall₂ (fun x y => f x = .ok y) xs ys := by
  induction xs generalizing ys with
  | nil => simp [eq_comm]
  | cons x xs ih =>
      simp only [List.mapM_cons, bind_eq_ok_iff, ih, pure_eq_ok, Except.ok.injEq,
        List.forall₂_cons_left_iff]
      constructor
      · rintro ⟨y, hy, zs, hzs, rfl⟩
        exact ⟨y, zs, hy, hzs, rfl⟩
      · rintro ⟨y, zs, hy, hzs, rfl⟩
        exact ⟨y, hy, zs, hzs, rfl⟩

theorem exists_mapM_eq_ok_iff {f : α → Except ε β} {xs : List α} :
    (∃ ys, xs.mapM f = .ok ys) ↔ ∀ x ∈ xs, ∃ y, f x = .ok y := by
  induction xs with
  | nil => simp
  | cons x xs ih =>
      simp only [List.mapM_cons, bind_eq_ok_iff, pure_eq_ok, Except.ok.injEq,
        List.forall_mem_cons, ← ih]
      constructor
      · rintro ⟨_, y, hy, zs, hzs, _⟩
        exact ⟨⟨y, hy⟩, ⟨zs, hzs⟩⟩
      · rintro ⟨⟨y, hy⟩, ⟨zs, hzs⟩⟩
        exact ⟨y :: zs, y, hy, zs, hzs, rfl⟩

theorem forall₂_getElem? {R : α → β → Prop} {xs : List α} {ys : List β}
    (h : List.Forall₂ R xs ys) {i : Nat} {y : β} (hy : ys[i]? = some y) :
    ∃ x, xs[i]? = some x ∧ R x y := by
  induction h generalizing i with
  | nil => simp at hy
  | cons hxy _ ih =>
      cases i with
      | zero =>
          cases hy
          exact ⟨_, rfl, hxy⟩
      | succ i => exact ih hy

theorem exists_of_mem_right {R : α → β → Prop} {xs : List α} {ys : List β}
    (h : List.Forall₂ R xs ys) {y : β} (hy : y ∈ ys) : ∃ x ∈ xs, R x y := by
  induction h with
  | nil => cases hy
  | cons hxy _ ih =>
      rcases List.mem_cons.mp hy with rfl | hy
      · exact ⟨_, List.mem_cons_self .., hxy⟩
      · obtain ⟨x, hx, hr⟩ := ih hy
        exact ⟨x, List.mem_cons_of_mem _ hx, hr⟩

/-- Every item of a successful loop has its result, and every result its item. -/
theorem mem_of_mapM_eq_ok {f : α → Except ε β} {xs : List α} {ys : List β}
    (h : xs.mapM f = .ok ys) (y : β) : y ∈ ys ↔ ∃ x ∈ xs, f x = .ok y := by
  have hall := mapM_eq_ok_iff.mp h
  clear h
  induction hall with
  | nil => simp
  | cons hxy _ ih => simp [ih, hxy, eq_comm]

/-- The result satisfies `A`, or the failure `E`. -/
def Ensures (E : ε → Prop) (A : α → Prop) : Except ε α → Prop
  | .ok a => A a
  | .error e => E e

namespace Ensures

variable {E : ε → Prop} {A A' : α → Prop} {B : β → Prop}

@[simp] theorem ok_iff {a : α} : Ensures E A (.ok a) ↔ A a := Iff.rfl

@[simp] theorem error_iff {e : ε} : Ensures E A (.error e) ↔ E e := Iff.rfl

theorem bind {x : Except ε α} {f : α → Except ε β} (hx : Ensures E A x)
    (hf : ∀ a, A a → Ensures E B (f a)) : Ensures E B (x >>= f) := by
  cases x with
  | error e => exact hx
  | ok a => exact hf a hx

/-- What every step of a loop keeps, the loop keeps. -/
theorem foldlM {f : α → γ → Except ε α} {xs : List γ} {a : α} (ha : A a)
    (hf : ∀ a, A a → ∀ x ∈ xs, Ensures E A (f a x)) : Ensures E A (xs.foldlM f a) := by
  induction xs generalizing a with
  | nil => exact ha
  | cons x xs ih =>
      rw [List.foldlM_cons]
      apply (hf a ha x (List.mem_cons_self ..)).bind
      intro b hb
      exact ih hb fun c hc y hy => hf c hc y (List.mem_cons_of_mem _ hy)

/-- A loop fails as one of its items does. -/
theorem mapM {f : γ → Except ε α} {xs : List γ} (hf : ∀ x ∈ xs, Ensures E (fun _ => True) (f x)) :
    Ensures E (fun _ => True) (xs.mapM f) := by
  induction xs with
  | nil => trivial
  | cons x xs ih =>
      rw [List.mapM_cons]
      apply (hf x (List.mem_cons_self ..)).bind
      intro y _
      apply (ih fun z hz => hf z (List.mem_cons_of_mem _ hz)).bind
      intro ys _
      trivial

end Ensures

theorem exists_of_mapM_eq_error {f : α → Except ε β} {xs : List α} {e : ε}
    (h : xs.mapM f = .error e) : ∃ x ∈ xs, f x = .error e := by
  have hall : Ensures (fun e => ∃ x ∈ xs, f x = .error e) (fun _ => True) (xs.mapM f) := by
    apply Ensures.mapM
    intro x hx
    cases hfx : f x with
    | ok y => trivial
    | error e => exact ⟨x, hx, hfx⟩
  rw [h] at hall
  exact hall

/-- Both computations succeed with results related by `A`, or both fail with
failures related by `E`. -/
inductive Related (E : ε → ε' → Prop) (A : α → α' → Prop) : Except ε α → Except ε' α' → Prop
  | ok {a : α} {a' : α'} (h : A a a') : Related E A (.ok a) (.ok a')
  | error {e : ε} {e' : ε'} (h : E e e') : Related E A (.error e) (.error e')

namespace Related

variable {E : ε → ε' → Prop} {A : α → α' → Prop} {B : β → β' → Prop}

theorem bind {x : Except ε α} {x' : Except ε' α'} {f : α → Except ε β} {f' : α' → Except ε' β'}
    (hx : Related E A x x') (hf : ∀ a a', A a a' → Related E B (f a) (f' a')) :
    Related E B (x >>= f) (x' >>= f') := by
  cases hx with
  | ok h => exact hf _ _ h
  | error h => exact .error h

theorem mapError_left {D : γ → ε' → Prop} {x : Except ε α} {x' : Except ε' α'} {f : ε → γ}
    (hx : Related E A x x') (hf : ∀ e e', E e e' → D (f e) e') : Related D A (x.mapError f) x' := by
  cases hx with
  | ok h => exact .ok h
  | error h => exact .error (hf _ _ h)

/-- Two loops over matching items go the same way when their steps do. -/
theorem foldlM {R : γ → β → Prop} {f : α → γ → Except ε α} {f' : α' → β → Except ε' α'}
    {xs : List γ} {ys : List β} (hxs : List.Forall₂ R xs ys)
    (hf : ∀ a a' x y, A a a' → R x y → Related E A (f a x) (f' a' y)) {a : α} {a' : α'}
    (ha : A a a') : Related E A (xs.foldlM f a) (ys.foldlM f' a') := by
  induction hxs generalizing a a' with
  | nil => exact .ok ha
  | cons hxy _ ih =>
      rw [List.foldlM_cons, List.foldlM_cons]
      exact (hf _ _ _ _ ha hxy).bind fun _ _ hb => ih hb

/-- Two loops that collect results go the same way when their items do. -/
theorem mapM {R : γ → β → Prop} {f : γ → Except ε α} {f' : β → Except ε' α'} {xs : List γ}
    {ys : List β} (hxs : List.Forall₂ R xs ys) (hf : ∀ x y, R x y → Related E A (f x) (f' y)) :
    Related E (List.Forall₂ A) (xs.mapM f) (ys.mapM f') := by
  induction hxs with
  | nil => exact .ok .nil
  | cons hxy _ ih =>
      rw [List.mapM_cons, List.mapM_cons]
      exact (hf _ _ hxy).bind fun _ _ ha => ih.bind fun _ _ has => .ok (.cons ha has)

end Related

end WireFlow.Sequencing
