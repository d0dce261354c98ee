/-
# Spans of memory

A span starts at an address and is `size` units of `w` bytes long; what is in memory is a list of
starts, and the size of each.  A list of spans is a TILING if no two of them overlap, and it has the
number of units that the sizes add up to.  Cutting a span in two, and joining two where one ends
where the other starts, make a tiling with the same units out of another.
-/
import Mathlib

namespace Xv6.Spans

/-- Neither of the two spans starts inside the other. -/
def Apart (w : Nat) (size : Nat → Nat) (x y : Nat) : Prop :=
  x + w * size x ≤ y ∨ y + w * size y ≤ x

variable {w : Nat} {size size' : Nat → Nat} {x y a b units : Nat} {l l' : List Nat}

theorem Apart.symm (h : Apart w size x y) : Apart w size y x := Or.symm h

instance : Std.Symm (Apart w size) := ⟨fun _ _ h => h.symm⟩

/-- Spans that do not overlap, and their units. -/
structure Tiling (w : Nat) (size : Nat → Nat) (l : List Nat) (units : Nat) : Prop where
  nodup : l.Nodup
  apart : l.Pairwise (Apart w size)
  sum : (l.map size).sum = units

namespace Tiling

theorem perm (h : Tiling w size l units) (hp : l.Perm l') : Tiling w size l' units where
  nodup := hp.nodup_iff.mp h.nodup
  apart := (hp.pairwise_iff fun h => h.symm).mp h.apart
  sum := by rw [← h.sum]; exact (hp.map size).sum_eq.symm

theorem congr (h : Tiling w size l units) (hs : ∀ x ∈ l, size' x = size x) :
    Tiling w size' l units where
  nodup := h.nodup
  apart := h.apart.imp_of_mem fun hx hy hxy => by rwa [Apart, hs _ hx, hs _ hy]
  sum := by rw [List.map_congr_left hs, h.sum]

/-- Two spans of a tiling. -/
theorem apart_of_mem (h : Tiling w size l units) (hx : x ∈ l) (hy : y ∈ l) (hne : x ≠ y) :
    Apart w size x y :=
  h.apart.forall hx hy hne

/-- One more span, away from the others. -/
theorem cons (h : Tiling w size l units) (hx : ∀ y ∈ l, x ≠ y ∧ Apart w size x y) :
    Tiling w size (x :: l) (units + size x) where
  nodup := List.nodup_cons.mpr ⟨fun hmem => (hx x hmem).1 rfl, h.nodup⟩
  apart := List.pairwise_cons.mpr ⟨fun y hy => (hx y hy).2, h.apart⟩
  sum := by rw [List.map_cons, List.sum_cons, h.sum, Nat.add_comm]

/-- **Two spans become one.** -/
theorem join (h : Tiling w size (x :: y :: l) units) (hxy : x + w * size x = y) :
    Tiling w (Function.update size x (size x + size y)) (x :: l) units := by
  obtain ⟨hx, hy, hl⟩ := List.nodup_cons.mp h.nodup |>.imp_right List.nodup_cons.mp
  have hkeep : ∀ z ∈ l, Function.update size x (size x + size y) z = size z := fun z hz =>
    Function.update_of_ne (fun he : z = x => hx (List.mem_cons_of_mem _ (he ▸ hz))) ..
  obtain ⟨hax, hay, hal⟩ := List.pairwise_cons.mp h.apart |>.imp_right List.pairwise_cons.mp
  refine ⟨List.nodup_cons.mpr ⟨fun hm => hx (List.mem_cons_of_mem _ hm), hl⟩,
    List.pairwise_cons.mpr ⟨fun z hz => ?_, hal.imp_of_mem fun ha hb hab => ?_⟩, ?_⟩
  · have hzy : z ≠ y := fun he => hy (he ▸ hz)
    have hxz := hax z (List.mem_cons_of_mem _ hz)
    have hyz := hay z hz
    rw [Apart, Function.update_self, hkeep z hz, Nat.mul_add]
    unfold Apart at hxz hyz
    omega
  · rwa [Apart, hkeep _ ha, hkeep _ hb]
  · have hsum := h.sum
    simp only [List.map_cons, List.sum_cons, Function.update_self, List.map_congr_left hkeep]
      at hsum ⊢
    omega

/-- **One span becomes two.** -/
theorem split (h : Tiling w size (x :: l) units) (hw : 0 < w) (ha : 0 < a) (hb : 0 < b)
    (hx : size x = a + b) :
    Tiling w (Function.update (Function.update size x a) (x + w * a) b) ((x + w * a) :: x :: l)
      units := by
  have hwa : 0 < w * a := Nat.mul_pos hw ha
  have hwb : 0 < w * b := Nat.mul_pos hw hb
  have hx' : x ≠ x + w * a := by omega
  obtain ⟨hnx, hl⟩ := List.nodup_cons.mp h.nodup
  obtain ⟨hax, hal⟩ := List.pairwise_cons.mp h.apart
  have hout : ∀ z ∈ l, z ≠ x ∧ z ≠ x + w * a := by
    intro z hz
    refine ⟨fun he => hnx (he ▸ hz), fun he => ?_⟩
    have hxz := hax z hz
    rw [Apart, hx, Nat.mul_add] at hxz
    omega
  have hkeep : ∀ z ∈ l, Function.update (Function.update size x a) (x + w * a) b z = size z := by
    intro z hz
    rw [Function.update_of_ne (hout z hz).2, Function.update_of_ne (hout z hz).1]
  have hself : Function.update (Function.update size x a) (x + w * a) b x = a := by
    rw [Function.update_of_ne hx', Function.update_self]
  refine ⟨?_, ?_, ?_⟩
  · refine List.nodup_cons.mpr ⟨fun hm => ?_, h.nodup⟩
    rcases List.mem_cons.mp hm with he | hm
    · exact hx' he.symm
    · exact (hout _ hm).2 rfl
  · simp only [List.pairwise_cons, List.forall_mem_cons]
    refine ⟨⟨?_, fun z hz => ?_⟩, fun z hz => ?_, hal.imp_of_mem fun h1 h2 h12 => ?_⟩
    · rw [Apart, hself]
      omega
    · have hxz := hax z hz
      rw [Apart, hx, Nat.mul_add] at hxz
      rw [Apart, Function.update_self, hkeep z hz]
      omega
    · have hxz := hax z hz
      rw [Apart, hx, Nat.mul_add] at hxz
      rw [Apart, hself, hkeep z hz]
      omega
    · rwa [Apart, hkeep _ h1, hkeep _ h2]
  · have hsum := h.sum
    simp only [List.map_cons, List.sum_cons, Function.update_self, hself,
      List.map_congr_left hkeep] at hsum ⊢
    omega

end Tiling

end Xv6.Spans
