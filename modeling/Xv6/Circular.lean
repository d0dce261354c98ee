/-
# Circular singly linked lists

`Circle next base c`: the list `c` starts with `base`, `next` leads from each of its elements to the
one after it, and from the last back to `base`.  A loop that follows `next` can start ANYWHERE in
the circle; it meets every element, and before it is back where it started (`meets_before`).

A change of pointers behind one element is a change of the path from there to `base` (`replace`).
-/
import Mathlib

namespace Xv6.Circular

variable {α : Type}

/-- From `u`, over the elements of the list, to `v`. -/
def Path (next : α → α) : α → List α → α → Prop
  | u, [], v => next u = v
  | u, x :: l, v => next u = x ∧ Path next x l v

/-- From `base`, over the other elements of `c`, back to `base`. -/
def Circle (next : α → α) (base : α) (c : List α) : Prop :=
  ∃ l, c = base :: l ∧ Path next base l base

variable {next next' : α → α} {base p q u v x y : α} {c l l₁ l₂ : List α}

theorem path_append :
    Path next u (l₁ ++ x :: l₂) v ↔ Path next u l₁ x ∧ Path next x l₂ v := by
  induction l₁ generalizing u with
  | nil => exact Iff.rfl
  | cons y l₁ ih => simp only [List.cons_append, Path, ih, and_assoc]

/-- The same elements, from another start and with other pointers elsewhere. -/
theorem Path.move (h : Path next u l v) (hu : next' x = next u)
    (hl : ∀ y ∈ l, next' y = next y) : Path next' x l v := by
  induction l generalizing u x with
  | nil => exact hu.trans h
  | cons y l ih =>
    rw [List.forall_mem_cons] at hl
    exact ⟨hu.trans h.1, ih h.2 hl.1 hl.2⟩

theorem Path.next_mem (h : Path next u l v) (hx : x ∈ u :: l) : next x ∈ l ++ [v] := by
  induction l generalizing u with
  | nil =>
    rw [List.mem_singleton.mp hx]
    exact List.mem_singleton.mpr h
  | cons y l ih =>
    rcases List.mem_cons.mp hx with rfl | hx
    · rw [h.1]
      exact List.mem_cons_self
    · exact List.mem_cons_of_mem _ (ih h.2 hx)

/-- Every element of a path is met on the way, and then the end. -/
theorem Path.iterate (h : Path next u l v) (hy : y ∈ u :: l ++ [v]) : ∃ k, next^[k] u = y := by
  induction l generalizing u with
  | nil =>
    rcases List.mem_cons.mp hy with rfl | hy
    · exact ⟨0, rfl⟩
    · exact ⟨1, by rw [List.mem_singleton.mp hy]; exact h⟩
  | cons z l ih =>
    rcases List.mem_cons.mp hy with rfl | hy
    · exact ⟨0, rfl⟩
    · obtain ⟨k, hk⟩ := ih h.2 hy
      exact ⟨k + 1, by rw [Function.iterate_succ_apply, h.1]; exact hk⟩

namespace Circle

theorem base_mem (h : Circle next base c) : base ∈ c := by
  obtain ⟨l, rfl, -⟩ := h
  exact List.mem_cons_self

theorem next_mem (h : Circle next base c) (hx : x ∈ c) : next x ∈ c := by
  obtain ⟨l, rfl, hp⟩ := h
  exact (List.perm_append_singleton base l).mem_iff.mp (hp.next_mem hx)

theorem iterate_mem (h : Circle next base c) (hx : x ∈ c) (k : Nat) : next^[k] x ∈ c := by
  induction k generalizing x with
  | zero => exact hx
  | succ k ih => exact ih (h.next_mem hx)

/-- The path from an element back to the base. -/
theorem after (h : Circle next base (l₁ ++ p :: l₂)) : Path next p l₂ base := by
  obtain ⟨l, hl, hp⟩ := h
  cases l₁ with
  | nil =>
    cases hl
    exact hp
  | cons a l₁ =>
    cases hl
    exact (path_append.mp hp).2

/-- Other pointers behind one element. -/
theorem replace (h : Circle next base (l₁ ++ p :: l₂)) (hl : ∀ y ∈ l₁, next' y = next y)
    (hp : Path next' p l base) : Circle next' base (l₁ ++ p :: l) := by
  obtain ⟨l', hl', hpath⟩ := h
  cases l₁ with
  | nil =>
    cases hl'
    exact ⟨l, rfl, hp⟩
  | cons a l₁ =>
    cases hl'
    rw [List.forall_mem_cons] at hl
    exact ⟨l₁ ++ p :: l, rfl, path_append.mpr ⟨(path_append.mp hpath).1.move hl.1 hl.2, hp⟩⟩

/-- Other pointers outside the circle. -/
theorem congr (h : Circle next base c) (hc : ∀ y ∈ c, next' y = next y) : Circle next' base c := by
  obtain ⟨l, rfl, hp⟩ := h
  rw [List.forall_mem_cons] at hc
  exact ⟨l, rfl, hp.move hc.1 hc.2⟩

/-- From any element one gets to any other. -/
theorem meets (h : Circle next base c) (hx : x ∈ c) (hy : y ∈ c) : ∃ k, next^[k] x = y := by
  obtain ⟨l₁, l₂, rfl⟩ := List.append_of_mem hx
  -- first to the base, and from there to `y`
  obtain ⟨k, hk⟩ := h.after.iterate (y := base) (by simp)
  obtain ⟨l, hl, hp⟩ := h
  rw [hl] at hy
  obtain ⟨k', hk'⟩ := hp.iterate (List.mem_append_left _ hy)
  exact ⟨k' + k, by rw [Function.iterate_add_apply, hk, hk']⟩

/-- **Once round**: a loop that starts behind `x` meets every element before it is at `x` a second
time. -/
theorem meets_before (h : Circle next base c) (hx : x ∈ c) (hy : y ∈ c) :
    ∃ k, next^[k] (next x) = y ∧ ∀ i < k, next^[i] (next x) ≠ x := by
  classical
  have hex := h.meets (h.next_mem hx) hy
  refine ⟨Nat.find hex, Nat.find_spec hex, fun i hi hback => ?_⟩
  -- from `x` on the loop repeats itself, so that it met `y` earlier
  refine Nat.find_min hex (m := Nat.find hex - (i + 1)) (by omega) ?_
  have hloop : next^[i + 1] (next x) = next x := by rw [Function.iterate_succ_apply', hback]
  have hsplit : Nat.find hex = (Nat.find hex - (i + 1)) + (i + 1) := by omega
  have hspec := Nat.find_spec hex
  rw [hsplit, Function.iterate_add_apply, hloop] at hspec
  exact hspec

end Circle

end Xv6.Circular
