/-
# Singly linked lists that end

`Chain next l xs`: following `next` from the link `l` one meets the elements `xs`, in this order,
and then the null link.  The list is determined by where it starts (`Chain.unique`), so it meets
nothing twice (`Chain.nodup`): a chain is ACYCLIC by being one.

A change of pointers off the chain does not touch it (`Chain.congr`); a change of the last pointer
makes it longer (`Chain.snoc`), and a loop that follows the pointers finds that one (`Chain.last_eq`).
-/
import Mathlib

namespace Xv6

variable {α : Type}

/-- From the link `l`, over the elements of the list, to the null link. -/
def Chain (next : α → Option α) : Option α → List α → Prop
  | l, [] => l = none
  | l, x :: xs => l = some x ∧ Chain next (next x) xs

namespace Chain

variable {next next' : α → Option α} {l : Option α} {x t n : α} {xs ys : List α}

theorem eq_none_iff (h : Chain next l xs) : l = none ↔ xs = [] := by
  cases xs with
  | nil => exact iff_of_true h rfl
  | cons x xs => exact iff_of_false (by rw [h.1]; exact nofun) nofun

theorem head? (h : Chain next l xs) : l = xs.head? := by
  cases xs with
  | nil => exact h
  | cons x xs => exact h.1

theorem single (hn : next n = none) : Chain next (some n) [n] := ⟨rfl, hn⟩

theorem congr (h : Chain next l xs) (heq : ∀ x ∈ xs, next' x = next x) : Chain next' l xs := by
  induction xs generalizing l with
  | nil => exact h
  | cons x xs ih =>
    rw [List.forall_mem_cons] at heq
    refine ⟨h.1, ?_⟩
    rw [heq.1]
    exact ih h.2 heq.2

theorem unique (hx : Chain next l xs) (hy : Chain next l ys) : xs = ys := by
  induction xs generalizing l ys with
  | nil => exact ((eq_none_iff hy).mp hx).symm
  | cons x xs ih =>
    cases ys with
    | nil => exact absurd (hx.1.symm.trans hy) nofun
    | cons y ys =>
      obtain rfl : x = y := Option.some.inj (hx.1.symm.trans hy.1)
      rw [ih hx.2 hy.2]

/-- Whatever is met on a chain starts a chain itself: the rest of it. -/
theorem suffix (h : Chain next l (xs ++ x :: ys)) : Chain next (some x) (x :: ys) := by
  induction xs generalizing l with
  | nil => exact h.1 ▸ h
  | cons z xs ih => exact ih h.2

/-- A chain has no cycle: two places of the same element would have the same rest. -/
theorem nodup (h : Chain next l xs) : xs.Nodup := by
  induction xs generalizing l with
  | nil => exact List.nodup_nil
  | cons x xs ih =>
    refine List.nodup_cons.mpr ⟨fun hmem => ?_, ih h.2⟩
    obtain ⟨as, bs, hxs⟩ := List.append_of_mem hmem
    have hlong : Chain next (some x) (x :: xs) := h.1 ▸ h
    have hshort : Chain next (some x) (x :: bs) := suffix (hxs ▸ h.2)
    have hlen := congrArg List.length (unique hlong hshort)
    rw [hxs] at hlen
    simp only [List.length_cons, List.length_append] at hlen
    omega

/-- A new last element: only the pointer of the last one changes. -/
theorem snoc (h : Chain next l (xs ++ [t])) (hn : next' n = none) (ht : next' t = some n)
    (heq : ∀ x ∈ xs, next' x = next x) : Chain next' l (xs ++ [t] ++ [n]) := by
  induction xs generalizing l with
  | nil =>
    refine ⟨h.1, ht, ?_⟩
    exact hn
  | cons x xs ih =>
    rw [List.forall_mem_cons] at heq
    refine ⟨h.1, ?_⟩
    rw [heq.1]
    exact ih h.2 heq.2

/-- The loop that follows `next` to the element whose pointer is null, in at most `rounds` rounds. -/
def last (next : α → Option α) : (rounds : Nat) → α → Option α
  | 0, _ => none
  | rounds + 1, x =>
    match next x with
    | none => some x
    | some y => last next rounds y

theorem last_eq (h : Chain next l (xs ++ [t])) (hx : l = some x) {rounds : Nat}
    (hr : xs.length < rounds) : last next rounds x = some t := by
  induction xs generalizing l x rounds with
  | nil =>
    obtain ⟨rounds, rfl⟩ : ∃ k, rounds = k + 1 := ⟨rounds - 1, by omega⟩
    obtain rfl : x = t := Option.some.inj (hx.symm.trans h.1)
    have hnone : next x = none := h.2
    rw [last, hnone]
  | cons y xs ih =>
    obtain ⟨rounds, rfl⟩ : ∃ k, rounds = k + 1 := ⟨rounds - 1, by omega⟩
    obtain rfl : x = y := Option.some.inj (hx.symm.trans h.1)
    cases hnext : next x with
    | none =>
      have hnil := (eq_none_iff h.2).mp hnext
      exact absurd hnil (by simp)
    | some z =>
      rw [last, hnext]
      exact ih h.2 hnext (by rw [List.length_cons] at hr; omega)

/-- However many rounds it was given, it ends there. -/
theorem eq_of_last (h : Chain next l (xs ++ [t])) (hx : l = some x) {rounds : Nat} {y : α}
    (hy : last next rounds x = some y) : y = t := by
  induction xs generalizing l x rounds with
  | nil =>
    obtain rfl : x = t := Option.some.inj (hx.symm.trans h.1)
    have hnone : next x = none := h.2
    cases rounds with
    | zero => exact nomatch hy
    | succ rounds =>
      rw [last, hnone] at hy
      exact (Option.some.inj hy).symm
  | cons z xs ih =>
    obtain rfl : x = z := Option.some.inj (hx.symm.trans h.1)
    cases rounds with
    | zero => exact nomatch hy
    | succ rounds =>
      cases hnext : next x with
      | none =>
        have hnil := (eq_none_iff h.2).mp hnext
        exact absurd hnil (by simp)
      | some z =>
        rw [last, hnext] at hy
        exact ih h.2 hnext hy

end Chain

end Xv6
