/-
# Circular doubly linked lists with a sentinel

The nodes are the elements of a type `ι` and one SENTINEL, written `none`; `prev` and `next` are
arrays of pointers.  `Circle l` says that going round by `next` from the sentinel one meets the
elements of `l`, in this order and each once, and comes back, and that `prev` undoes every step.

The two pieces of pointer surgery are `unlink` and `push`, as four assignments each would have
them, one after the other.  Neither lemma about them speaks of positions: a pair of neighbours that
does not involve the node in question is a pair of neighbours still, and that is all the induction
needs.  `walk` is the loop that follows the pointers until it is back at the sentinel.
-/
import Mathlib

namespace Xv6.Sentinel

variable {ι : Type}

/-! ## 1. Links -/

/-- The pointers of every node. -/
structure Links (ι : Type) where
  prev : Option ι → Option ι
  next : Option ι → Option ι

namespace Links

/-- The sentinel alone. -/
def empty : Links ι := ⟨fun _ => none, fun _ => none⟩

/-- `u` and `v` are neighbours. -/
def Link (k : Links ι) (u v : Option ι) : Prop := k.next u = v ∧ k.prev v = u

/-- From `u`, over the nodes of the list, to `v`. -/
def Path (k : Links ι) : Option ι → List ι → Option ι → Prop
  | u, [], v => k.Link u v
  | u, x :: l, v => k.Link u (some x) ∧ k.Path (some x) l v

/-- From the sentinel, over the nodes of the list, each met once, back to the sentinel. -/
def Circle (k : Links ι) (l : List ι) : Prop := k.Path none l none ∧ l.Nodup

/-- The same list, the other way round. -/
def flip (k : Links ι) : Links ι := ⟨k.next, k.prev⟩

theorem circle_empty : (empty : Links ι).Circle [] := ⟨⟨rfl, rfl⟩, List.nodup_nil⟩

variable {k k' : Links ι} {l l' : List ι} {u v w : Option ι} {x : ι}

/-- Neighbours that stay neighbours make a path that stays a path. -/
theorem Path.mono (h : k.Path u l v)
    (hk : ∀ a b, a ∈ u :: l.map some → b ∈ l.map some ++ [v] → k.Link a b → k'.Link a b) :
    k'.Path u l v := by
  induction l generalizing u with
  | nil => exact hk u v (by simp) (by simp) h
  | cons y l ih =>
    refine ⟨hk u (some y) (by simp) (by simp) h.1, ih h.2 fun a b ha hb => hk a b ?_ ?_⟩
    · exact List.mem_cons_of_mem _ ha
    · exact List.mem_cons_of_mem _ hb

theorem path_append : k.Path u (l ++ x :: l') v ↔ k.Path u l (some x) ∧ k.Path (some x) l' v := by
  induction l generalizing u with
  | nil => exact Iff.rfl
  | cons y l ih =>
    show (k.Link u (some y) ∧ k.Path (some y) (l ++ x :: l') v) ↔
      (k.Link u (some y) ∧ k.Path (some y) l (some x)) ∧ k.Path (some x) l' v
    rw [ih, and_assoc]

theorem Path.flip (h : k.Path u l v) : k.flip.Path v l.reverse u := by
  induction l generalizing u with
  | nil => exact ⟨h.2, h.1⟩
  | cons y l ih =>
    rw [List.reverse_cons]
    exact path_append.mpr ⟨ih h.2, h.1.2, h.1.1⟩

theorem Circle.flip (h : k.Circle l) : k.flip.Circle l.reverse :=
  ⟨h.1.flip, List.nodup_reverse.mpr h.2⟩

theorem Path.first (h : k.Path u l v) : k.Link u (k.next u) := by
  cases l with
  | nil => exact ⟨rfl, h.1 ▸ h.2⟩
  | cons y l => exact ⟨rfl, h.1.1 ▸ h.1.2⟩

theorem Path.last (h : k.Path u l v) : k.Link (k.prev v) v := ⟨h.flip.first.2, rfl⟩

/-! ## 2. Taking a node out -/

/-- Two paths that meet in `x` make one path without it, if the pairs without `x` are neighbours
still and the two neighbours of `x` are neighbours now. -/
theorem Path.bypass (h : k.Path u l (some x)) (h' : k.Path (some x) l' v) (hu : u ≠ some x)
    (hv : v ≠ some x) (hl : x ∉ l) (hl' : x ∉ l')
    (hout : ∀ a b, a ≠ some x → b ≠ some x → k.Link a b → k'.Link a b)
    (hover : ∀ a b, k.Link a (some x) → k.Link (some x) b → k'.Link a b) :
    k'.Path u (l ++ l') v := by
  induction l generalizing u with
  | nil =>
    cases l' with
    | nil => exact hover u v h h'
    | cons y l' =>
      refine ⟨hover u (some y) h h'.1, h'.2.mono fun a b ha hb => hout a b ?_ ?_⟩
      · rintro rfl
        exact hl' (by simpa using ha)
      · rintro rfl
        rcases List.mem_append.mp hb with hb | hb
        · exact hl' (List.mem_cons_of_mem _ (by simpa using hb))
        · exact hv (List.mem_singleton.mp hb).symm
  | cons y l ih =>
    have hy : some y ≠ some x := fun e => hl (by cases e; exact List.mem_cons_self)
    exact ⟨hout u (some y) hu hy h.1, ih h.2 hy fun hx => hl (List.mem_cons_of_mem _ hx)⟩

variable [DecidableEq ι]

/-- `x->next->prev = x->prev; x->prev->next = x->next;` -/
def unlink (k : Links ι) (x : ι) : Links ι :=
  let k : Links ι := { k with prev := Function.update k.prev (k.next (some x)) (k.prev (some x)) }
  { k with next := Function.update k.next (k.prev (some x)) (k.next (some x)) }

/-- The second assignment reads `x->prev` after the first was made, which matters to nobody: `x`
does not come after itself. -/
theorem unlink_eq (h : k.next (some x) ≠ some x) : k.unlink x =
    ⟨Function.update k.prev (k.next (some x)) (k.prev (some x)),
      Function.update k.next (k.prev (some x)) (k.next (some x))⟩ := by
  simp [unlink, Function.update_of_ne h.symm]

theorem circle_unlink (h : k.Circle l) (hx : x ∈ l) : (k.unlink x).Circle (l.erase x) := by
  obtain ⟨a, b, rfl⟩ := List.append_of_mem hx
  obtain ⟨hxab, hab⟩ := List.nodup_cons.mp (List.nodup_middle.mp h.2)
  have hxa : x ∉ a := fun hm => hxab (List.mem_append_left _ hm)
  have hxb : x ∉ b := fun hm => hxab (List.mem_append_right _ hm)
  obtain ⟨hto, hfrom⟩ := path_append.mp h.1
  have hself : k.next (some x) ≠ some x := by
    intro e
    cases b with
    | nil => cases hfrom.1.symm.trans e
    | cons y b =>
      cases hfrom.1.1.symm.trans e
      exact hxb List.mem_cons_self
  rw [List.erase_append_right _ hxa, List.erase_cons_head, unlink_eq hself]
  refine ⟨hto.bypass hfrom nofun nofun hxa hxb ?_ ?_, hab⟩
  · rintro p q hp hq ⟨hn, hv⟩
    -- the only pairs whose pointers change have `x` in them
    have hp' : p ≠ k.prev (some x) := by
      rintro rfl
      exact hq (hn.symm.trans hto.last.1)
    have hq' : q ≠ k.next (some x) := by
      rintro rfl
      exact hp (hv.symm.trans hfrom.first.2)
    exact ⟨(Function.update_of_ne hp' ..).trans hn, (Function.update_of_ne hq' ..).trans hv⟩
  · rintro p q ⟨-, rfl⟩ ⟨rfl, -⟩
    exact ⟨Function.update_self .., Function.update_self ..⟩

/-! ## 3. Putting a node in -/

/-- `x->next = head.next; x->prev = &head; head.next->prev = x; head.next = x;` -/
def push (k : Links ι) (x : ι) : Links ι :=
  let k : Links ι := { k with next := Function.update k.next (some x) (k.next none) }
  let k : Links ι := { k with prev := Function.update k.prev (some x) none }
  let k : Links ι := { k with prev := Function.update k.prev (k.next none) (some x) }
  { k with next := Function.update k.next none (some x) }

theorem circle_push (h : k.Circle l) (hx : x ∉ l) : (k.push x).Circle (x :: l) := by
  have hnone : (none : Option ι) ≠ some x := nofun
  have hnext : ∀ p, (k.push x).next p =
      if p = none then some x else if p = some x then k.next none else k.next p := fun p => by
    simp [push, Function.update_apply]
  have hprev : ∀ p, (k.push x).prev p =
      if p = k.next none then some x else if p = some x then none else k.prev p := fun p => by
    simp [push, Function.update_apply]
  -- the first node, if there is one, is not `x`
  have hfirst : some x ≠ k.next none := by
    cases l with
    | nil => rw [h.1.1]; exact hnone.symm
    | cons y l =>
      rw [h.1.1.1]
      intro e
      cases e
      exact hx List.mem_cons_self
  have hto : (k.push x).Link none (some x) := ⟨by simp [hnext], by simp [hprev, hfirst]⟩
  have hfrom : (k.push x).Link (some x) (k.next none) := ⟨by simp [hnext], by simp [hprev]⟩
  refine ⟨⟨hto, ?_⟩, List.nodup_cons.mpr ⟨hx, h.2⟩⟩
  cases l with
  | nil => rwa [h.1.1] at hfrom
  | cons y l =>
    rw [h.1.1.1] at hfrom
    refine ⟨hfrom, h.1.2.mono fun a b ha hb hab => ?_⟩
    have ha₀ : a ≠ none := by
      rintro rfl
      simp at ha
    have hax : a ≠ some x := by
      rintro rfl
      exact hx (by simpa using ha)
    have hb₀ : b ≠ k.next none := by
      rintro rfl
      exact ha₀ (hab.2.symm.trans h.1.first.2)
    have hbx : b ≠ some x := by
      rintro rfl
      rcases List.mem_append.mp hb with hb | hb
      · exact hx (List.mem_cons_of_mem _ (by simpa using hb))
      · exact hnone (List.mem_singleton.mp hb).symm
    exact ⟨by rw [hnext, if_neg ha₀, if_neg hax]; exact hab.1,
      by rw [hprev, if_neg hb₀, if_neg hbx]; exact hab.2⟩

/-- One after the other, from an array: the last comes to stand first. -/
theorem circle_foldl_push {m : List ι} (h : k.Circle m) (hnd : (l ++ m).Nodup) :
    (l.foldl push k).Circle (l.reverse ++ m) := by
  induction l generalizing m k with
  | nil => exact h
  | cons x l ih =>
    obtain ⟨hx, -⟩ := List.nodup_cons.mp hnd
    have hxm : x ∉ m := fun hm => hx (List.mem_append_right _ hm)
    rw [List.foldl_cons, List.reverse_cons, List.append_assoc]
    exact ih (circle_push h hxm) (List.nodup_middle.mpr hnd)

end Links

/-! ## 4. Going round -/

/-- `for (b = start; b != &head; b = b->next) if (found(b)) break;`, for at most as many turns as
the first argument says: `none` if that was not enough, `some none` if the loop came back to the
sentinel. -/
def walk (found : ι → Bool) (next : Option ι → Option ι) : Nat → Option ι → Option (Option ι)
  | 0, _ => none
  | _ + 1, none => some none
  | n + 1, some x => if found x then some (some x) else walk found next n (next (some x))

variable {k : Links ι} {l : List ι} {n : Nat}

theorem walk_path (found : ι → Bool) {u : Option ι} (h : k.Path u l none) (hn : l.length < n) :
    walk found k.next n (k.next u) = some (l.find? found) := by
  induction l generalizing u n with
  | nil =>
    obtain ⟨n, rfl⟩ := Nat.exists_eq_add_of_lt hn
    rw [h.1]
    rfl
  | cons y l ih =>
    obtain ⟨m, rfl⟩ : ∃ m, n = m + 1 := ⟨n - 1, by omega⟩
    rw [h.1.1, walk, List.find?_cons]
    cases hy : found y with
    | true => rfl
    | false => exact ih h.2 (by simpa using hn)

/-- **The loop comes to an end**, at the first node that fits. -/
theorem walk_next (found : ι → Bool) (h : k.Circle l) (hn : l.length < n) :
    walk found k.next n (k.next none) = some (l.find? found) := walk_path found h.1 hn

/-- The same loop by `prev`: it meets the last node first. -/
theorem walk_prev (found : ι → Bool) (h : k.Circle l) (hn : l.length < n) :
    walk found k.prev n (k.prev none) = some (l.reverse.find? found) :=
  walk_next (k := k.flip) found h.flip (by rwa [List.length_reverse])

end Xv6.Sentinel
