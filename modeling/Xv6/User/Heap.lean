/-
# The heap stays sound (umalloc.c)

The state of the allocator is a circle of free blocks and a list of blocks in use, which together
tile the memory that the kernel has given.  `free` is three moves on it: the block is PUT into the
circle behind its predecessor (`insert`), then it is melded with the block behind it, and its
predecessor with it, where one ends where the other starts (`meld`).  The code writes the pointers
in another order, and the result is the same (`joinPrev_joinNext`).

No two free blocks touch, as an invariant, means that of the pairs that touch after `insert` both
are melded away; for that it has to be known that there are only two (`touches_insert`).
-/
import Xv6.Circular
import Xv6.Spans
import Xv6.User.Umalloc

namespace Xv6.Umalloc

open Xv6.Circular Xv6.Spans

/-! ## 1. The invariant -/

/-- The free blocks are the circle `c`, and with the blocks `live` they tile the memory. -/
structure Placed (base : Nat) (h : Heap) (c live : List Nat) : Prop where
  pos : 0 < base
  circle : Circle h.ptr base c
  sorted : c.Pairwise (· < ·)
  tiling : Tiling 8 h.size (c ++ live) h.got
  zero : h.size base = 0
  block : ∀ x ∈ c ++ live, x ≠ base →
    8 ∣ x ∧ base + 8 ≤ x ∧ 0 < h.size x ∧ x + 8 * h.size x ≤ h.brk
  low : base + 8 ≤ h.brk
  high : h.brk < 2 ^ 32

/-- `y` starts where `x` ends. -/
def Touches (h : Heap) (x y : Nat) : Prop := x + 8 * h.size x = y

/-- **The invariant**: no two free blocks touch, and the search starts in the circle. -/
structure Sound (base : Nat) (h : Heap) (c live : List Nat) : Prop extends
    Placed base h c live where
  gapped : ∀ x ∈ c, ∀ y ∈ c, x ≠ base → ¬Touches h x y
  freep : h.freep ∈ c

section

variable {base bp p q x y z : Nat} {h g : Heap} {c live l₁ l₂ : List Nat}

theorem plus_of_lt {n : Nat} (hlt : x + 8 * n < 2 ^ 32) : plus x n = x + 8 * n :=
  Nat.mod_eq_of_lt hlt

namespace Placed

theorem nodup (hp : Placed base h c live) : c.Nodup := hp.tiling.nodup.of_append_left

theorem base_le (hp : Placed base h c live) (hx : x ∈ c ++ live) : base ≤ x := by
  rcases eq_or_ne x base with rfl | hne
  · exact Nat.le_refl _
  · have := (hp.block x hx hne).2.1
    omega

theorem end_le (hp : Placed base h c live) (hx : x ∈ c ++ live) : x + 8 * h.size x ≤ h.brk := by
  rcases eq_or_ne x base with rfl | hne
  · have := hp.low
    rw [hp.zero]
    omega
  · exact (hp.block x hx hne).2.2.2

theorem plus_size (hp : Placed base h c live) (hx : x ∈ c ++ live) :
    plus x (h.size x) = x + 8 * h.size x :=
  plus_of_lt (Nat.lt_of_le_of_lt (hp.end_le hx) hp.high)

/-- What follows an element of the circle: the next address up, or the base. -/
theorem next_cases (hp : Placed base h c live) (hz : z ∈ c) :
    (h.ptr z = base ∧ ∀ x ∈ c, x ≤ z) ∨
      (z < h.ptr z ∧ h.ptr z ∈ c ∧ ∀ x ∈ c, z < x → h.ptr z ≤ x) := by
  obtain ⟨l₁, l₂, rfl⟩ := List.append_of_mem hz
  have hpath := hp.circle.after
  obtain ⟨-, hsort, hless⟩ := List.pairwise_append.mp hp.sorted
  rw [List.pairwise_cons] at hsort
  cases l₂ with
  | nil =>
    refine Or.inl ⟨hpath, fun x hx => ?_⟩
    rcases List.mem_append.mp hx with hx | hx
    · exact Nat.le_of_lt (hless x hx z List.mem_cons_self)
    · exact Nat.le_of_eq (List.mem_singleton.mp hx)
  | cons y l₂ =>
    have hy : h.ptr z = y := hpath.1
    rw [hy]
    refine Or.inr ⟨hsort.1 y List.mem_cons_self, by simp, fun x hx hzx => ?_⟩
    rcases List.mem_append.mp hx with hx | hx
    · exact absurd (hless x hx z List.mem_cons_self) (by omega)
    · rcases List.mem_cons.mp hx with rfl | hx
      · omega
      · rcases List.mem_cons.mp hx with rfl | hx
        · exact Nat.le_refl _
        · exact Nat.le_of_lt ((List.pairwise_cons.mp hsort.2).1 x hx)

end Placed

/-! ## 2. The place of a block -/

/-- `p` is the last free block below `bp`. -/
def Before (c : List Nat) (bp p : Nat) : Prop := p < bp ∧ ∀ x ∈ c, p < x → bp < x

theorem exists_before (hbase : base ∈ c) (hlt : base < bp) (hbp : bp ∉ c) :
    ∃ p ∈ c, Before c bp p := by
  obtain ⟨p, hp, hmax⟩ := (c.toFinset.filter (· < bp)).exists_max_image id
    ⟨base, by simp [hbase, hlt]⟩
  simp only [Finset.mem_filter, List.mem_toFinset, id] at hp hmax
  refine ⟨p, hp.1, hp.2, fun x hx hpx => ?_⟩
  by_contra hle
  have hne : x ≠ bp := fun he => hbp (he ▸ hx)
  have := hmax x ⟨hx, by omega⟩
  omega

/-- The two tests of the loop of `free` are one: whether `p` is the block before `bp`. -/
theorem freeLoop_succ (hp : Placed base h c live) (hz : z ∈ c) (hlt : base < bp) (hbp : bp ∉ c)
    (fuel : Nat) [Decidable (Before c bp z)] : freeLoop h bp (fuel + 1) z =
      if Before c bp z then some z else freeLoop h bp fuel (h.ptr z) := by
  rw [freeLoop]
  have hne : z ≠ bp := fun he => hbp (he ▸ hz)
  rcases hp.next_cases hz with ⟨hnext, hlast⟩ | ⟨hup, hmem, hnext⟩
  · -- the last block: everything behind the wrap is below `bp`
    have hzb : base ≤ z := hp.base_le (List.mem_append_left _ hz)
    rw [hnext]
    by_cases hbefore : Before c bp z
    · rw [if_neg (by omega), if_pos ⟨hzb, Or.inl hbefore.1⟩, if_pos hbefore]
    · have hnot : ¬z < bp := fun hlt => hbefore ⟨hlt, fun x hx hzx => by
        have := hlast x hx
        omega⟩
      rw [if_neg (by omega), if_neg (by omega), if_neg hbefore]
  · have hne' : h.ptr z ≠ bp := fun he => hbp (he ▸ hmem)
    by_cases hbefore : Before c bp z
    · rw [if_pos ⟨hbefore.1, hbefore.2 _ hmem hup⟩, if_pos hbefore]
    · have hnot : ¬(z < bp ∧ bp < h.ptr z) := fun hin => hbefore ⟨hin.1, fun x hx hzx => by
        have := hnext x hx hzx
        omega⟩
      rw [if_neg hnot, if_neg (by omega), if_neg hbefore]

/-- **The loop of `free` ends**, at the block before `bp`. -/
theorem freeLoop_ends (hp : Placed base h c live) (hz : z ∈ c) (hlt : base < bp) (hbp : bp ∉ c) :
    ∃ p ∈ c, Before c bp p ∧ ∃ n, ∀ fuel ≥ n, freeLoop h bp fuel z = some p := by
  classical
  obtain ⟨q, hq, hbefore⟩ := exists_before hp.circle.base_mem hlt hbp
  obtain ⟨k, hk⟩ := hp.circle.meets hz hq
  have hfound : ∀ z ∈ c, Before c bp z → ∀ fuel ≥ 1, freeLoop h bp fuel z = some z := by
    intro z hz hb fuel hfuel
    obtain ⟨fuel, rfl⟩ := Nat.exists_eq_add_of_le' hfuel
    rw [freeLoop_succ hp hz hlt hbp, if_pos hb]
  -- induction on the number of rounds to the block before `bp`
  induction k generalizing z with
  | zero =>
    have hzq : z = q := hk
    exact ⟨z, hz, hzq ▸ hbefore, 1, hfound z hz (hzq ▸ hbefore)⟩
  | succ k ih =>
    by_cases hb : Before c bp z
    · exact ⟨z, hz, hb, 1, hfound z hz hb⟩
    · obtain ⟨p, hpc, hpb, n, hn⟩ := ih (hp.circle.next_mem hz) hk
      refine ⟨p, hpc, hpb, n + 1, fun fuel hfuel => ?_⟩
      obtain ⟨fuel, rfl⟩ := Nat.exists_eq_add_of_le' (Nat.le_of_add_left_le hfuel)
      rw [freeLoop_succ hp hz hlt hbp, if_neg hb]
      exact hn fuel (by omega)

/-! ## 3. A block is put into the circle -/

/-- `bp` is linked behind `p`. -/
def insert (h : Heap) (bp p : Nat) : Heap := (h.setPtr bp (h.ptr p)).setPtr p bp

theorem Placed.insert (hp : Placed base h (l₁ ++ p :: l₂) (bp :: live)) (hlt : p < bp)
    (hl : ∀ x ∈ l₂, bp < x) : Placed base (insert h bp p) (l₁ ++ p :: bp :: l₂) live := by
  have hperm : (l₁ ++ p :: l₂ ++ bp :: live).Perm (l₁ ++ p :: bp :: l₂ ++ live) := by
    simp only [List.append_assoc, List.cons_append]
    exact List.Perm.append_left _ (List.Perm.cons _ List.perm_middle)
  have hnodup := hp.nodup
  have hbp : bp ∉ l₁ ++ p :: l₂ := fun hmem =>
    (List.nodup_append.mp hp.tiling.nodup).2.2 bp hmem bp List.mem_cons_self rfl
  simp only [List.mem_append, List.mem_cons, not_or] at hbp
  rw [List.nodup_append, List.nodup_cons] at hnodup
  have hne : bp ≠ p := hbp.2.1
  have hkeep : ∀ x, x ≠ p → x ≠ bp → (Umalloc.insert h bp p).ptr x = h.ptr x := fun x h1 h2 =>
    (Function.update_of_ne h1 ..).trans (Function.update_of_ne h2 ..)
  constructor
  case pos => exact hp.pos
  case circle =>
    refine hp.circle.replace (fun x hx => hkeep x (fun he => ?_) (fun he => hbp.1 (he ▸ hx)))
      ⟨Function.update_self .., hp.circle.after.move ?_ fun x hx =>
        hkeep x (fun he => hnodup.2.1.1 (he ▸ hx)) (fun he => hbp.2.2 (he ▸ hx))⟩
    · exact hnodup.2.2 x hx p List.mem_cons_self he
    · exact (Function.update_of_ne hne ..).trans (Function.update_self ..)
  case sorted =>
    have hsort := hp.sorted
    simp only [List.pairwise_append, List.pairwise_cons, List.forall_mem_cons] at hsort ⊢
    exact ⟨hsort.1, ⟨⟨hlt, hsort.2.1.1⟩, hl, hsort.2.1.2⟩, fun x hx =>
      ⟨(hsort.2.2 x hx).1, Nat.lt_trans (hsort.2.2 x hx).1 hlt, (hsort.2.2 x hx).2⟩⟩
  case tiling => exact hp.tiling.perm hperm
  case zero => exact hp.zero
  case block => exact fun x hx => hp.block x (hperm.mem_iff.mpr hx)
  case low => exact hp.low
  case high => exact hp.high

/-- The blocks that touch after that: the new one and its neighbours. -/
theorem touches_insert (hs : Sound base h (l₁ ++ p :: l₂) (bp :: live)) (hlt : p < bp)
    (hl : ∀ x ∈ l₂, bp < x) (hx : x ∈ l₁ ++ p :: bp :: l₂) (hy : y ∈ l₁ ++ p :: bp :: l₂)
    (hne : x ≠ base) (ht : Touches h x y) :
    (x = p ∧ y = bp) ∨ (x = bp ∧ ∃ l, l₂ = y :: l) := by
  have hplaced := hs.toPlaced.insert hlt hl
  have hxy : x < y := by
    have hpos := (hplaced.block x (List.mem_append_left _ hx) hne).2.2.1
    have hend : x + 8 * h.size x = y := ht
    change 0 < h.size x at hpos
    omega
  -- nothing lies between two blocks that touch
  have hbetween : ∀ z ∈ l₁ ++ p :: bp :: l₂, x < z → y ≤ z := by
    intro z hz hxz
    have hend : x + 8 * h.size x = y := ht
    have hapart : x + 8 * h.size x ≤ z ∨ z + 8 * h.size z ≤ x :=
      hplaced.tiling.apart_of_mem (List.mem_append_left _ hx) (List.mem_append_left _ hz)
        (Nat.ne_of_lt hxz)
    omega
  have hmem : ∀ z, z ∈ l₁ ++ p :: bp :: l₂ → z ≠ bp → z ∈ l₁ ++ p :: l₂ := by
    intro z hz hz'
    simp only [List.mem_append, List.mem_cons] at hz ⊢
    tauto
  by_cases hxb : x = bp
  · refine Or.inr ⟨hxb, ?_⟩
    subst hxb
    have hy2 : y ∈ l₂ := by
      have hsort := hplaced.sorted
      simp only [List.pairwise_append, List.pairwise_cons, List.forall_mem_cons] at hsort
      simp only [List.mem_append, List.mem_cons] at hy
      rcases hy with hy | rfl | rfl | hy
      · have := (hsort.2.2 y hy).2.1
        omega
      · omega
      · omega
      · exact hy
    cases l₂ with
    | nil => cases hy2
    | cons q l =>
      have hle := hbetween q (by simp) (hl q List.mem_cons_self)
      rcases List.mem_cons.mp hy2 with rfl | hy2
      · exact ⟨l, rfl⟩
      · have hsort := hplaced.sorted
        simp only [List.pairwise_append, List.pairwise_cons] at hsort
        have := hsort.2.1.2.2.1 y hy2
        omega
  · by_cases hyb : y = bp
    · refine Or.inl ⟨?_, hyb⟩
      -- `p` is below `bp`, so that it cannot be above `x`
      subst hyb
      have hle : ¬x < p := fun hlt' => by
        have := hbetween p (by simp) hlt'
        omega
      have hsort := hs.sorted
      simp only [List.pairwise_append, List.pairwise_cons] at hsort
      have hx' := hmem x hx hxb
      simp only [List.mem_append, List.mem_cons] at hx'
      rcases hx' with hx' | hx' | hx'
      · exact absurd (hsort.2.2 x hx' p List.mem_cons_self) hle
      · exact hx'
      · have := hl x hx'
        omega
    · exact absurd ht (hs.gapped x (hmem x hx hxb) y (hmem y hy hyb) hne)

/-! ## 4. Two blocks become one -/

/-- `x` takes the block behind it. -/
def merge (h : Heap) (x y : Nat) : Heap :=
  (h.setSize x (add (h.size x) (h.size y))).setPtr x (h.ptr y)

/-- `x` takes the block behind it if it ends there. -/
def meld (h : Heap) (x y : Nat) : Heap := if plus x (h.size x) = y then merge h x y else h

theorem sublist_skip (l₁ l₂ : List Nat) (x y : Nat) :
    (l₁ ++ x :: l₂).Sublist (l₁ ++ x :: y :: l₂) :=
  List.Sublist.append_left (List.Sublist.cons_cons _ (List.sublist_cons_self ..)) _

theorem Placed.merge (hp : Placed base h (l₁ ++ x :: y :: l₂) live) (ht : Touches h x y) :
    Placed base (merge h x y) (l₁ ++ x :: l₂) live ∧
      (Umalloc.merge h x y).size x = h.size x + h.size y := by
  have ht' : x + 8 * h.size x = y := ht
  have hmx : x ∈ l₁ ++ x :: y :: l₂ ++ live := by simp
  have hmy : y ∈ l₁ ++ x :: y :: l₂ ++ live := by simp
  have hnodup := hp.nodup
  simp only [List.nodup_append, List.nodup_cons, List.mem_cons, not_or] at hnodup
  have hxb : x ≠ base := by
    rintro rfl
    rw [hp.zero] at ht'
    exact hnodup.2.1.1.1 (by omega)
  have hyb : y ≠ base := by
    have := (hp.block x hmx hxb).2.1
    omega
  have hadd : add (h.size x) (h.size y) = h.size x + h.size y := by
    have := hp.end_le hmy
    have := hp.high
    exact Nat.mod_eq_of_lt (by omega)
  have hsize : (Umalloc.merge h x y).size = Function.update h.size x (h.size x + h.size y) := by
    rw [← hadd]
    rfl
  have hperm : (l₁ ++ x :: y :: l₂ ++ live).Perm (x :: y :: (l₁ ++ l₂ ++ live)) := by
    simp only [List.append_assoc, List.cons_append]
    exact List.perm_middle.trans (List.Perm.cons _ List.perm_middle)
  have hperm' : (x :: (l₁ ++ l₂ ++ live)).Perm (l₁ ++ x :: l₂ ++ live) := by
    simp only [List.append_assoc, List.cons_append]
    exact List.perm_middle.symm
  have hsub : ∀ z ∈ l₁ ++ x :: l₂ ++ live, z ∈ l₁ ++ x :: y :: l₂ ++ live := fun z hz =>
    ((sublist_skip ..).append_right live).subset hz
  refine ⟨?_, by rw [hsize, Function.update_self]⟩
  constructor
  case pos => exact hp.pos
  case circle =>
    refine hp.circle.replace (fun z hz => Function.update_of_ne ?_ ..)
      (hp.circle.after.2.move (Function.update_self ..) fun z hz => Function.update_of_ne ?_ ..)
    · exact fun he => hnodup.2.2 z hz x (Or.inl rfl) he
    · exact fun he => hnodup.2.1.1.2 (he ▸ hz)
  case sorted =>
    exact hp.sorted.sublist (sublist_skip ..)
  case tiling =>
    rw [hsize]
    exact ((hp.tiling.perm hperm).join ht').perm hperm'
  case zero =>
    rw [hsize, Function.update_of_ne hxb.symm]
    exact hp.zero
  case block =>
    intro z hz hzb
    rcases eq_or_ne z x with rfl | hne
    · obtain ⟨hal, hlow, hpos, -⟩ := hp.block z hmx hxb
      have hend := hp.end_le hmy
      rw [hsize, Function.update_self]
      exact ⟨hal, hlow, by omega, by rw [Nat.mul_add, ← Nat.add_assoc, ht']; exact hend⟩
    · rw [hsize, Function.update_of_ne hne]
      exact hp.block z (hsub z hz) hzb
  case low => exact hp.low
  case high => exact hp.high

/-- **Melding**: the second block stays or goes, and what touches after that touched before, the pair
in question excepted. -/
theorem Placed.meld (hp : Placed base h (l₁ ++ x :: y :: l₂) live) :
    ∃ l, (l = l₂ ∧ h.size y ≤ (meld h x y).size x ∨ l = y :: l₂) ∧
      Placed base (Umalloc.meld h x y) (l₁ ++ x :: l) live ∧
      (∀ a, a ≠ x → (Umalloc.meld h x y).size a = h.size a) ∧ h.size x ≤ (Umalloc.meld h x y).size x ∧
      ∀ a b, Touches (Umalloc.meld h x y) a b →
        (a = x ∧ Touches h y b) ∨ (Touches h a b ∧ ¬(a = x ∧ b = y)) := by
  have hmx : x ∈ l₁ ++ x :: y :: l₂ ++ live := by simp
  by_cases ht : Touches h x y
  · have heq : Umalloc.meld h x y = Umalloc.merge h x y := if_pos ((hp.plus_size hmx).trans ht)
    obtain ⟨hplaced, hsize⟩ := hp.merge ht
    have hkeep : ∀ a, a ≠ x → (Umalloc.merge h x y).size a = h.size a :=
      fun a ha => Function.update_of_ne ha ..
    rw [heq]
    refine ⟨l₂, Or.inl ⟨rfl, by omega⟩, hplaced, hkeep, by omega, fun a b hab => ?_⟩
    have ht' : x + 8 * h.size x = y := ht
    unfold Touches at hab ⊢
    by_cases ha : a = x
    · subst ha
      rw [hsize] at hab
      exact Or.inl ⟨rfl, by omega⟩
    · rw [hkeep a ha] at hab
      exact Or.inr ⟨hab, fun hboth => ha hboth.1⟩
  · have heq : Umalloc.meld h x y = h := if_neg fun he => ht ((hp.plus_size hmx).symm.trans he)
    rw [heq]
    refine ⟨y :: l₂, Or.inr rfl, hp, fun _ _ => rfl, Nat.le_refl _, fun a b hab => Or.inr ⟨hab, ?_⟩⟩
    rintro ⟨rfl, rfl⟩
    exact ht hab

/-! ## 5. `free` -/

/-- The pointers of `free` are written in another order: the result is that of putting the block in
and of melding it with the block behind it and the block before it. -/
theorem joinPrev_joinNext (hne : bp ≠ p)
    (hq : plus bp (h.size bp) = h.ptr p → h.ptr p ≠ p ∧ h.ptr p ≠ bp) :
    joinPrev (joinNext h bp p) bp p = meld (meld (insert h bp p) bp (h.ptr p)) p bp := by
  have hnext : (joinNext h bp p).setPtr p bp = meld (insert h bp p) bp (h.ptr p) := by
    unfold joinNext meld
    change _ = if plus bp (h.size bp) = h.ptr p then _ else _
    split
    · rename_i ht
      have hptr : (insert h bp p).ptr (h.ptr p) = h.ptr (h.ptr p) :=
        (Function.update_of_ne (hq ht).1 ..).trans (Function.update_of_ne (hq ht).2 ..)
      rw [merge, hptr]
      simp only [insert, Heap.setPtr, Heap.setSize, Heap.mk.injEq, and_true]
      have hcomm : ∀ v, Function.update (Function.update h.ptr bp v) p bp =
          Function.update (Function.update h.ptr p bp) bp v := fun v => Function.update_comm hne ..
      rw [hcomm, hcomm, Function.update_idem]
    · rfl
  have hprev : ∀ g : Heap, joinPrev g bp p = meld (g.setPtr p bp) p bp := by
    intro g
    unfold joinPrev meld
    change _ = if plus p (g.size p) = bp then _ else _
    split
    · have hptr : (g.setPtr p bp).ptr bp = g.ptr bp := Function.update_of_ne hne ..
      rw [merge, hptr]
      simp only [Heap.setPtr, Heap.setSize, Function.update_idem]
    · rfl
  rw [hprev, hnext]

/-- The new block and the one behind it: after that only the block before it may touch it. -/
theorem Sound.meld_next (hs : Sound base h (l₁ ++ p :: l₂) (bp :: live)) (hlt : p < bp)
    (hl : ∀ x ∈ l₂, bp < x) {g : Heap} (hg : g = Umalloc.meld (insert h bp p) bp (h.ptr p)) :
    ∃ l, Placed base g (l₁ ++ p :: bp :: l) live ∧ (∀ a, a ≠ bp → g.size a = h.size a) ∧
      h.size bp ≤ g.size bp ∧ ∀ a ∈ l₁ ++ p :: bp :: l, ∀ b ∈ l₁ ++ p :: bp :: l, a ≠ base →
        Touches g a b → a = p ∧ b = bp := by
  have hplaced := hs.toPlaced.insert hlt hl
  have htouch := fun {x y} => touches_insert (x := x) (y := y) hs hlt hl
  have hpath := hs.circle.after
  cases l₂ with
  | nil =>
    have hptr : h.ptr p = base := hpath
    have hmem : bp ∈ l₁ ++ p :: [] ++ bp :: live := by simp
    have hkeep : Umalloc.meld (insert h bp p) bp (h.ptr p) = insert h bp p := by
      refine if_neg fun he => ?_
      rw [hptr] at he
      have hend : plus bp (h.size bp) = bp + 8 * h.size bp := hs.plus_size hmem
      have hge := hs.base_le (x := p) (by simp)
      change plus bp (h.size bp) = base at he
      omega
    rw [hg, hkeep]
    refine ⟨[], hplaced, fun _ _ => rfl, Nat.le_refl _, fun a ha b hb hab ht => ?_⟩
    rcases htouch ha hb hab ht with hboth | ⟨-, l, hnil⟩
    · exact hboth
    · cases hnil
  | cons q l₃ =>
    have hptr : h.ptr p = q := hpath.1
    have hq := hl q List.mem_cons_self
    have hassoc : ∀ l, l₁ ++ [p] ++ bp :: l = l₁ ++ p :: bp :: l := fun l => by simp
    rw [← hassoc] at hplaced
    obtain ⟨l, hl', hplaced', hsize, hbp, ht⟩ := hplaced.meld
    rw [hptr] at hg
    rw [← hg] at hplaced' hsize hbp ht
    rw [hassoc] at hplaced'
    refine ⟨l, hplaced', hsize, hbp, fun a ha b hb hab hgt => ?_⟩
    have hsub : ∀ z ∈ l₁ ++ p :: bp :: l, z ∈ l₁ ++ p :: bp :: q :: l₃ := by
      intro z hz
      rcases hl' with ⟨rfl, -⟩ | rfl
      · rw [← hassoc] at hz ⊢
        exact (sublist_skip ..).subset hz
      · exact hz
    rcases ht a b hgt with ⟨-, hqb⟩ | ⟨hold, hnot⟩
    · have hqb' : q ≠ base := by
        have := hs.base_le (x := p) (by simp)
        omega
      rcases htouch (by simp) (hsub b hb) hqb' hqb with ⟨hqp, -⟩ | ⟨hqp, -⟩ <;> omega
    · rcases htouch (hsub a ha) (hsub b hb) hab hold with hboth | ⟨rfl, l', hl'⟩
      · exact hboth
      · exact absurd ⟨rfl, (List.cons.inj hl').1.symm⟩ hnot

/-- **`free` ends, and keeps the heap sound**: the block is in the circle, alone or as a part of
another. -/
theorem free_spec (hs : Sound base h c (bp :: live)) :
    ∃ h' c', Sound base h' c' live ∧ (∀ x ∈ live, h'.size x = h.size x) ∧
      (∃ y ∈ c', h.size bp ≤ h'.size y) ∧ ∃ n, ∀ fuel ≥ n, free fuel h (bp + 8) = some h' := by
  have hmem : bp ∈ c ++ bp :: live := by simp
  obtain ⟨-, hlive, hdisj⟩ := List.nodup_append.mp hs.tiling.nodup
  have hbp : bp ∉ c := fun hc => hdisj bp hc bp List.mem_cons_self rfl
  have hne : bp ≠ base := fun he => hbp (he ▸ hs.circle.base_mem)
  have hlow := (hs.block bp hmem hne).2.1
  have hminus : minus (bp + 8) = bp := by
    have := hs.end_le hmem
    have := hs.high
    unfold minus
    omega
  obtain ⟨p, hpc, ⟨hlt, habove⟩, n, hn⟩ := freeLoop_ends hs.toPlaced hs.freep (by omega) hbp
  obtain ⟨l₁, l₂, rfl⟩ := List.append_of_mem hpc
  have hl : ∀ x ∈ l₂, bp < x := by
    intro x hx
    refine habove x (by simp [hx]) ?_
    exact (List.pairwise_cons.mp (List.pairwise_append.mp hs.sorted).2.1).1 x hx
  have hnext : plus bp (h.size bp) = h.ptr p → h.ptr p ≠ p ∧ h.ptr p ≠ bp := by
    intro he
    have hpos := (hs.block bp hmem hne).2.2.1
    rw [hs.plus_size hmem] at he
    omega
  obtain ⟨l, hgp, hgsize, hgbp, hgt⟩ := hs.meld_next hlt hl rfl
  obtain ⟨l', hl', hplaced, hsize, hpsize, ht⟩ := hgp.meld
  have hsub : ∀ z ∈ l₁ ++ p :: l', z ∈ l₁ ++ p :: bp :: l := by
    intro z hz
    rcases hl' with ⟨rfl, -⟩ | rfl
    · exact (sublist_skip ..).subset hz
    · exact hz
  refine ⟨{ joinPrev (joinNext h bp p) bp p with freep := p }, l₁ ++ p :: l', ?_, ?_, ?_, n,
    fun fuel hfuel => by rw [free, hminus, hn fuel hfuel]; rfl⟩
  · rw [joinPrev_joinNext (by omega) hnext]
    refine ⟨⟨hplaced.pos, hplaced.circle, hplaced.sorted, hplaced.tiling, hplaced.zero, hplaced.block,
      hplaced.low, hplaced.high⟩, fun x hx y hy hxb htx => ?_, by simp⟩
    rcases ht x y htx with ⟨-, hold⟩ | ⟨hold, hnot⟩
    · have := (hgt bp (by simp) y (hsub y hy) hne hold).1
      omega
    · exact hnot (hgt x (hsub x hx) y (hsub y hy) hxb hold)
  · intro x hx
    have hxp : x ≠ p := fun he => hdisj p (by simp) x (List.mem_cons_of_mem _ hx) he.symm
    have hxbp : x ≠ bp := fun he => (List.nodup_cons.mp hlive).1 (he ▸ hx)
    rw [joinPrev_joinNext (by omega) hnext]
    exact (hsize x hxp).trans (hgsize x hxbp)
  · rw [joinPrev_joinNext (by omega) hnext]
    rcases hl' with ⟨-, hle⟩ | rfl
    · exact ⟨p, by simp, Nat.le_trans hgbp hle⟩
    · exact ⟨bp, by simp, Nat.le_trans hgbp (Nat.le_of_eq (hsize bp (by omega)).symm)⟩

/-! ## 6. `malloc` -/

/-- A block of the right size leaves the circle. -/
theorem Sound.takeWhole (hs : Sound base h (l₁ ++ q :: p :: l₂) live) :
    Sound base { h.setPtr q (h.ptr p) with freep := q } (l₁ ++ q :: l₂) (p :: live) := by
  have hperm : (l₁ ++ q :: p :: l₂ ++ live).Perm (l₁ ++ q :: l₂ ++ p :: live) := by
    simp only [List.append_assoc, List.cons_append]
    exact List.Perm.append_left _ (List.Perm.cons _ List.perm_middle.symm)
  have hnodup := hs.nodup
  simp only [List.nodup_append, List.nodup_cons, List.mem_cons, not_or] at hnodup
  have hsub := (sublist_skip l₁ l₂ q p).subset
  constructor
  case gapped => exact fun x hx y hy => hs.gapped x (hsub hx) y (hsub hy)
  case freep => simp
  constructor
  case pos => exact hs.pos
  case circle =>
    refine hs.circle.replace (fun z hz => Function.update_of_ne ?_ ..)
      (hs.circle.after.2.move (Function.update_self ..) fun z hz => Function.update_of_ne ?_ ..)
    · exact fun he => hnodup.2.2 z hz q (Or.inl rfl) he
    · exact fun he => hnodup.2.1.1.2 (he ▸ hz)
  case sorted => exact hs.sorted.sublist (sublist_skip ..)
  case tiling => exact hs.tiling.perm hperm
  case zero => exact hs.zero
  case block => exact fun x hx => hs.block x (hperm.mem_iff.mpr hx)
  case low => exact hs.low
  case high => exact hs.high

/-- The end of a larger block is cut off. -/
theorem Sound.takeEnd (hs : Sound base h c live) (hq : q ∈ c) (hp : p ∈ c) {m n : Nat}
    (hm : 0 < m) (hn : 0 < n) (hsize : h.size p = m + n) :
    Sound base { (h.setSize p m).setSize (p + 8 * m) n with freep := q } c
        ((p + 8 * m) :: live) ∧
      ∀ x ∈ live, ((h.setSize p m).setSize (p + 8 * m) n).size x = h.size x := by
  have hpb : p ≠ base := by
    rintro rfl
    rw [hs.zero] at hsize
    omega
  obtain ⟨hal, hlow, hpos, hend⟩ := hs.block p (List.mem_append_left _ hp) hpb
  have hperm : (c ++ live).Perm (p :: (c ++ live).erase p) :=
    List.perm_cons_erase (List.mem_append_left _ hp)
  have htiling := ((hs.tiling.perm hperm).split (by decide) hm hn hsize).perm
    ((List.Perm.cons _ hperm.symm).trans List.perm_middle.symm)
  -- the new block starts inside the old one, where no other does
  have hnew : ∀ x ∈ c ++ live, x ≠ p + 8 * m := by
    intro x hx he
    have hdis := List.perm_middle.nodup_iff.mp htiling.nodup
    exact (List.nodup_cons.mp hdis).1 (he ▸ hx)
  have hkeep : ∀ x ∈ c ++ live, x ≠ p →
      ((h.setSize p m).setSize (p + 8 * m) n).size x = h.size x := fun x hx hne =>
    (Function.update_of_ne (hnew x hx) ..).trans (Function.update_of_ne hne ..)
  have hself : ((h.setSize p m).setSize (p + 8 * m) n).size p = m :=
    (Function.update_of_ne (hnew p (List.mem_append_left _ hp)) ..).trans (Function.update_self ..)
  have hcut : ((h.setSize p m).setSize (p + 8 * m) n).size (p + 8 * m) = n :=
    Function.update_self ..
  refine ⟨?_, fun x hx => hkeep x (List.mem_append_right _ hx) fun he => ?_⟩
  · constructor
    case freep => exact hq
    case gapped =>
      intro x hx y hy hxb ht
      unfold Touches at ht
      by_cases hxp : x = p
      · subst hxp
        change x + 8 * ((h.setSize x m).setSize (x + 8 * m) n).size x = y at ht
        rw [hself] at ht
        exact hnew y (List.mem_append_left _ hy) ht.symm
      · change x + 8 * ((h.setSize p m).setSize (p + 8 * m) n).size x = y at ht
        rw [hkeep x (List.mem_append_left _ hx) hxp] at ht
        exact hs.gapped x hx y hy hxb ht
    constructor
    case pos => exact hs.pos
    case circle => exact hs.circle
    case sorted => exact hs.sorted
    case tiling => exact htiling
    case zero =>
      exact (hkeep base (List.mem_append_left _ hs.circle.base_mem) hpb.symm).trans hs.zero
    case block =>
      intro x hx hxb
      change 8 ∣ x ∧ base + 8 ≤ x ∧ 0 < ((h.setSize p m).setSize (p + 8 * m) n).size x ∧
        x + 8 * ((h.setSize p m).setSize (p + 8 * m) n).size x ≤ h.brk
      rcases List.mem_cons.mp (List.perm_middle.mem_iff.mp hx) with rfl | hx
      · rw [hcut]
        omega
      · by_cases hxp : x = p
        · subst hxp
          rw [hself]
          omega
        · rw [hkeep x hx hxp]
          exact hs.block x hx hxb
    case low => exact hs.low
    case high => exact hs.high
  · exact (List.nodup_append.mp hs.tiling.nodup).2.2 p hp x hx he.symm

/-- `malloc` takes a block, or a part of one. -/
theorem carve_spec (hs : Sound base h c live) (hprev : q ∈ c) {nunits : Nat} (hn : 0 < nunits)
    (hle : nunits ≤ h.size (h.ptr q)) : ∃ c' bp, (carve h q (h.ptr q) nunits).2 = bp + 8 ∧
      Sound base (carve h q (h.ptr q) nunits).1 c' (bp :: live) ∧
      (carve h q (h.ptr q) nunits).1.size bp = nunits ∧
      ∀ x ∈ live, (carve h q (h.ptr q) nunits).1.size x = h.size x := by
  have hmem := hs.circle.next_mem hprev
  have hend := hs.end_le (List.mem_append_left live hmem)
  have hhigh := hs.high
  unfold carve
  by_cases hfit : h.size (h.ptr q) = nunits
  · obtain ⟨l₁, l₂, rfl⟩ := List.append_of_mem hprev
    have hpath := hs.circle.after
    cases l₂ with
    | nil =>
      have hbase : h.ptr q = base := hpath
      rw [hbase, hs.zero] at hle
      omega
    | cons p l₃ =>
      have hp : h.ptr q = p := hpath.1
      rw [if_pos hfit]
      rw [hp] at hfit hend ⊢
      exact ⟨l₁ ++ q :: l₃, p, plus_of_lt (by omega), hs.takeWhole, hfit, fun _ _ => rfl⟩
  · rw [if_neg hfit]
    have hsplit : h.size (h.ptr q) = (h.size (h.ptr q) - nunits) + nunits := by omega
    obtain ⟨m, hm⟩ : ∃ m, m = h.size (h.ptr q) - nunits := ⟨_, rfl⟩
    rw [← hm] at hsplit ⊢
    obtain ⟨hsound, hkeep⟩ := hs.takeEnd hprev hmem (by omega) hn hsplit
    have hself : (h.setSize (h.ptr q) m).size (h.ptr q) = m := Function.update_self ..
    have hplus : plus (h.ptr q) m = h.ptr q + 8 * m := plus_of_lt (by omega)
    simp only [hself, hplus]
    exact ⟨c, h.ptr q + 8 * m, plus_of_lt (by omega), hsound, Function.update_self .., hkeep⟩

/-- The kernel's memory is a block in use, until it is freed. -/
theorem Sound.grow (hs : Sound base h c live) {hp nu : Nat} (hnu : 0 < nu) (hal : 8 ∣ hp)
    (hlow : h.brk ≤ hp) (hhigh : hp + 8 * nu < 2 ^ 32) :
    Sound base ({ h with brk := hp + 8 * nu, got := h.got + nu }.setSize hp nu) c (hp :: live) ∧
      ∀ x ∈ live, ({ h with brk := hp + 8 * nu, got := h.got + nu }.setSize hp nu).size x =
        h.size x := by
  have hbelow : ∀ x ∈ c ++ live, x + 8 * h.size x ≤ hp ∧ x ≠ hp := by
    intro x hx
    have hend := hs.end_le hx
    refine ⟨by omega, fun he => ?_⟩
    by_cases hxb : x = base
    · have := hs.low
      omega
    · have := (hs.block x hx hxb).2.2.1
      omega
  have hkeep : ∀ x ∈ c ++ live, Function.update h.size hp nu x = h.size x :=
    fun x hx => Function.update_of_ne (hbelow x hx).2 ..
  refine ⟨?_, fun x hx => hkeep x (List.mem_append_right _ hx)⟩
  constructor
  case freep => exact hs.freep
  case gapped =>
    intro x hx y hy hxb ht
    have ht' : x + 8 * Function.update h.size hp nu x = y := ht
    rw [hkeep x (List.mem_append_left _ hx)] at ht'
    exact hs.gapped x hx y hy hxb ht'
  constructor
  case pos => exact hs.pos
  case circle => exact hs.circle
  case sorted => exact hs.sorted
  case tiling =>
    have hcons := (hs.tiling.congr hkeep).cons (x := hp) fun y hy => by
      refine ⟨(hbelow y hy).2.symm, Or.inr ?_⟩
      rw [hkeep y hy]
      exact (hbelow y hy).1
    rw [Function.update_self] at hcons
    exact hcons.perm List.perm_middle.symm
  case zero => exact (hkeep base (List.mem_append_left _ hs.circle.base_mem)).trans hs.zero
  case block =>
    intro x hx hxb
    change 8 ∣ x ∧ base + 8 ≤ x ∧ 0 < Function.update h.size hp nu x ∧
      x + 8 * Function.update h.size hp nu x ≤ hp + 8 * nu
    have := hs.low
    rcases List.mem_cons.mp (List.perm_middle.mem_iff.mp hx) with rfl | hx
    · rw [Function.update_self]
      omega
    · rw [hkeep x hx]
      have := hs.block x hx hxb
      omega
  case low =>
    have := hs.low
    change base + 8 ≤ hp + 8 * nu
    omega
  case high => exact hhigh

/-- **`morecore`** ends: without memory, or with a block that is large enough in the circle. -/
theorem morecore_spec (hs : Sound base h c live) (k : Kernel) {nu : Nat} (hnu : 8 * nu < 2 ^ 31) :
    ∃ h' c' q, Sound base h' c' live ∧ (∀ x ∈ live, h'.size x = h.size x) ∧
      (q = 0 ∨ q = h'.freep ∧ ∃ y ∈ c', nu ≤ h'.size y) ∧
      ∃ n, ∀ fuel ≥ n, morecore k fuel h nu = some (h', q) := by
  obtain ⟨nu', hnu'⟩ : ∃ nu', nu' = if nu < 4096 then 4096 else nu := ⟨_, rfl⟩
  have hle : nu ≤ nu' ∧ 0 < nu' ∧ 8 * nu' < 2 ^ 32 := by
    rw [hnu']
    split <;> omega
  have hbytes : nu' * 8 % 2 ^ 32 = 8 * nu' := by omega
  simp only [morecore, ← hnu', hbytes]
  cases hsbrk : k.sbrk h (8 * nu') with
  | none => exact ⟨h, c, 0, hs, fun _ _ => rfl, Or.inl rfl, 0, fun _ _ => rfl⟩
  | some hp =>
    obtain ⟨hal, hlow, hhigh⟩ := k.fresh _ _ _ hsbrk
    obtain ⟨hgrown, hkeep⟩ := hs.grow hle.2.1 hal hlow hhigh
    obtain ⟨h', c', hs', hkeep', ⟨y, hy, hbig⟩, n, hn⟩ := free_spec hgrown
    have hsize : ({ h with brk := hp + 8 * nu', got := h.got + nu' }.setSize hp nu').size hp = nu' :=
      Function.update_self ..
    rw [hsize] at hbig
    refine ⟨h', c', h'.freep, hs', fun x hx => (hkeep' x hx).trans (hkeep x hx),
      Or.inr ⟨rfl, y, hy, by omega⟩, n, fun fuel hfuel => ?_⟩
    have hplus : plus hp 1 = hp + 8 := plus_of_lt (by omega)
    simp only [hplus, hn fuel hfuel, Option.map_some]

/-- What `malloc` answers: nothing, or a block of `nunits` that nobody else has. -/
def Answer (base : Nat) (h : Heap) (live : List Nat) (nunits : Nat) (r : Heap × Nat) : Prop :=
  (∃ c, r.2 = 0 ∧ Sound base r.1 c live ∨
    ∃ bp, r.2 = bp + 8 ∧ Sound base r.1 c (bp :: live) ∧ r.1.size bp = nunits) ∧
  ∀ x ∈ live, r.1.size x = h.size x

/-- The second of the two: the block at which the search has ended, or a part of it. -/
def Taken (base : Nat) (h : Heap) (live : List Nat) (nunits : Nat) (r : Heap × Nat) : Prop :=
  (∃ c bp, r.2 = bp + 8 ∧ Sound base r.1 c (bp :: live) ∧ r.1.size bp = nunits) ∧
  ∀ x ∈ live, r.1.size x = h.size x

theorem Taken.answer {nunits : Nat} {r : Heap × Nat} (ht : Taken base h live nunits r) :
    Answer base h live nunits r := by
  obtain ⟨⟨c, bp, hbp⟩, hkeep⟩ := ht
  exact ⟨⟨c, Or.inr ⟨bp, hbp⟩⟩, hkeep⟩

section

variable {k : Kernel} {nunits : Nat}

theorem mallocLoop_found (hs : Sound base h c live) (hq : q ∈ c) (hn : 0 < nunits)
    (hle : nunits ≤ h.size (h.ptr q)) : ∃ r, Taken base h live nunits r ∧
      ∀ fuel ≥ 1, mallocLoop k nunits fuel h q (h.ptr q) = some r := by
  obtain ⟨c', bp, hbp, hs', hsize, hkeep⟩ := carve_spec hs hq hn hle
  refine ⟨_, ⟨⟨c', bp, hbp, hs', hsize⟩, hkeep⟩, fun fuel hfuel => ?_⟩
  obtain ⟨fuel, rfl⟩ := Nat.exists_eq_add_of_le' hfuel
  rw [mallocLoop, if_pos hle]

/-- A large enough block on the way to `freep` is found. -/
theorem mallocLoop_finds (hs : Sound base h c live) (hn : 0 < nunits) (hy : nunits ≤ h.size y)
    (j : Nat) : ∀ q ∈ c, h.ptr^[j] (h.ptr q) = y → (∀ i < j, h.ptr^[i] (h.ptr q) ≠ h.freep) →
      ∃ r, Taken base h live nunits r ∧
        ∃ n, ∀ fuel ≥ n, mallocLoop k nunits fuel h q (h.ptr q) = some r := by
  -- induction on the number of blocks before it
  induction j with
  | zero =>
    intro q hq hj _
    have hpy : h.ptr q = y := hj
    obtain ⟨r, hr, hf⟩ := mallocLoop_found hs hq hn (hpy ▸ hy)
    exact ⟨r, hr, 1, hf⟩
  | succ j ih =>
    intro q hq hj hbefore
    by_cases hle : nunits ≤ h.size (h.ptr q)
    · obtain ⟨r, hr, hf⟩ := mallocLoop_found hs hq hn hle
      exact ⟨r, hr, 1, hf⟩
    · obtain ⟨r, hr, n, hf⟩ := ih (h.ptr q) (hs.circle.next_mem hq) hj fun i hi =>
        hbefore (i + 1) (by omega)
      refine ⟨r, hr, n + 1, fun fuel hfuel => ?_⟩
      obtain ⟨fuel, rfl⟩ := Nat.exists_eq_add_of_le' (Nat.le_of_add_left_le hfuel)
      have hne : h.ptr q ≠ h.freep := hbefore 0 (by omega)
      rw [mallocLoop, if_neg hle, if_neg hne]
      exact hf fuel (by omega)

/-- **The loop of `malloc` ends**: it finds a block before it is back at `freep`, or asks the kernel
once and then finds one. -/
theorem mallocLoop_ends (hs : Sound base h c live) (hn : 0 < nunits) (hsmall : 8 * nunits < 2 ^ 31)
    (j : Nat) : ∀ q ∈ c, h.ptr^[j] (h.ptr q) = h.freep → ∃ r, Answer base h live nunits r ∧
      ∃ n, ∀ fuel ≥ n, mallocLoop k nunits fuel h q (h.ptr q) = some r := by
  induction j using Nat.strong_induction_on with
  | _ j ih =>
    intro q hq hj
    by_cases hle : nunits ≤ h.size (h.ptr q)
    · obtain ⟨r, hr, hf⟩ := mallocLoop_found hs hq hn hle
      exact ⟨r, hr.answer, 1, hf⟩
    · by_cases hfreep : h.ptr q = h.freep
      · obtain ⟨h', c', p, hs', hkeep, hp, n, hmore⟩ := morecore_spec hs k hsmall
        by_cases hp0 : p = 0
        · refine ⟨(h', 0), ⟨⟨c', Or.inl ⟨rfl, hs'⟩⟩, hkeep⟩, n + 1, fun fuel hfuel => ?_⟩
          obtain ⟨fuel, rfl⟩ := Nat.exists_eq_add_of_le' (Nat.le_of_add_left_le hfuel)
          rw [mallocLoop, if_neg hle, if_pos hfreep, hmore fuel (by omega)]
          simp only [Option.bind_some, hp0, if_true]
        · obtain ⟨rfl, y, hy, hbig⟩ := hp.resolve_left hp0
          obtain ⟨i, hi, hbefore⟩ := hs'.circle.meets_before hs'.freep hy
          obtain ⟨r, hr, n', hf⟩ :=
            mallocLoop_finds (k := k) hs' hn hbig i _ hs'.freep hi hbefore
          refine ⟨r, ⟨hr.answer.1, fun x hx => (hr.2 x hx).trans (hkeep x hx)⟩, n + n' + 1,
            fun fuel hfuel => ?_⟩
          obtain ⟨fuel, rfl⟩ := Nat.exists_eq_add_of_le' (Nat.le_of_add_left_le hfuel)
          rw [mallocLoop, if_neg hle, if_pos hfreep, hmore fuel (by omega)]
          simp only [Option.bind_some, if_neg hp0]
          exact hf fuel (by omega)
      · cases j with
        | zero => exact absurd hj hfreep
        | succ j =>
          obtain ⟨r, hr, n, hf⟩ := ih j (by omega) (h.ptr q) (hs.circle.next_mem hq) hj
          refine ⟨r, hr, n + 1, fun fuel hfuel => ?_⟩
          obtain ⟨fuel, rfl⟩ := Nat.exists_eq_add_of_le' (Nat.le_of_add_left_le hfuel)
          rw [mallocLoop, if_neg hle, if_neg hfreep]
          exact hf fuel (by omega)

end

end

/-! ## 7. Fuel -/

section

variable {base bp p q nunits fuel fuel' ap : Nat} {h h' : Heap} {k : Kernel} {r : Heap × Nat}

theorem freeLoop_mono (hf : fuel ≤ fuel') (h1 : freeLoop h bp fuel p = some q) :
    freeLoop h bp fuel' p = some q := by
  induction fuel generalizing fuel' p with
  | zero => cases h1
  | succ fuel ih =>
    obtain ⟨fuel', rfl⟩ := Nat.exists_eq_add_of_le' (Nat.le_of_add_left_le hf)
    rw [freeLoop] at h1 ⊢
    split_ifs at h1 ⊢
    · exact h1
    · exact h1
    · exact ih (by omega) h1

theorem free_mono (hf : fuel ≤ fuel') (h1 : free fuel h ap = some h') :
    free fuel' h ap = some h' := by
  obtain ⟨q, hq, rfl⟩ := Option.map_eq_some_iff.mp h1
  exact Option.map_eq_some_iff.mpr ⟨q, freeLoop_mono hf hq, rfl⟩

theorem morecore_mono (hf : fuel ≤ fuel') (h1 : morecore k fuel h nunits = some r) :
    morecore k fuel' h nunits = some r := by
  unfold morecore at h1 ⊢
  dsimp only at h1 ⊢
  split at h1
  · exact h1
  · obtain ⟨h', hh, rfl⟩ := Option.map_eq_some_iff.mp h1
    exact Option.map_eq_some_iff.mpr ⟨h', free_mono hf hh, rfl⟩

theorem mallocLoop_mono (hf : fuel ≤ fuel') (h1 : mallocLoop k nunits fuel h q p = some r) :
    mallocLoop k nunits fuel' h q p = some r := by
  induction fuel generalizing fuel' h q p with
  | zero => cases h1
  | succ fuel ih =>
    obtain ⟨fuel', rfl⟩ := Nat.exists_eq_add_of_le' (Nat.le_of_add_left_le hf)
    rw [mallocLoop] at h1 ⊢
    split_ifs at h1 ⊢
    · exact h1
    · obtain ⟨⟨h', q'⟩, hmore, hrest⟩ := Option.bind_eq_some_iff.mp h1
      refine Option.bind_eq_some_iff.mpr ⟨(h', q'), morecore_mono (by omega) hmore, ?_⟩
      dsimp only at hrest ⊢
      split_ifs at hrest ⊢
      · exact hrest
      · exact ih (by omega) hrest
    · exact ih (by omega) h1

/-- **More fuel changes no answer.** -/
theorem step_mono {w w' : World} {e : Event} (hf : fuel ≤ fuel')
    (h1 : step base fuel w e = some w') : step base fuel' w e = some w' := by
  cases e with
  | malloc n k =>
    simp only [step] at h1 ⊢
    split_ifs at h1 ⊢
    obtain ⟨r, hr, rfl⟩ := Option.map_eq_some_iff.mp h1
    exact Option.map_eq_some_iff.mpr ⟨r, mallocLoop_mono hf hr, rfl⟩
  | free ap =>
    simp only [step] at h1 ⊢
    split at h1
    · obtain ⟨h', hh, rfl⟩ := Option.map_eq_some_iff.mp h1
      exact Option.map_eq_some_iff.mpr ⟨h', free_mono hf hh, rfl⟩
    · cases h1
  | store a ptr size => exact h1

end

/-! ## 8. The program -/

/-- The header of a block the program has. -/
def header (b : Nat × Nat) : Nat := b.1 - 8

/-- The heap before the first `malloc`, or the invariant of a heap whose blocks in use are those the
program has, each with the bytes that were asked for. -/
def WorldSound (base : Nat) (w : World) : Prop :=
  (w.heap.freep = 0 ∧ w.live = [] ∧ w.heap.got = 0 ∧ base + 8 ≤ w.heap.brk ∧
    w.heap.brk < 2 ^ 32) ∨
  ∃ c, Sound base w.heap c (w.live.map header) ∧
    ∀ b ∈ w.live, 8 ≤ b.1 ∧ b.2 + 8 ≤ 8 * w.heap.size (header b)

section

variable {base n : Nat} {w w' : World} {e : Event}

/-- `malloc`'s first call makes a circle of the base alone. -/
theorem sound_first (hbase : 0 < base) {h : Heap} (hgot : h.got = 0) (hlow : base + 8 ≤ h.brk)
    (hhigh : h.brk < 2 ^ 32) :
    Sound base (({ h.setPtr base base with freep := base }).setSize base 0) [base] [] where
  pos := hbase
  circle := ⟨[], rfl, Function.update_self ..⟩
  sorted := List.pairwise_singleton _ _
  tiling := ⟨List.nodup_singleton _, List.pairwise_singleton _ _, by
    change ([base].map (Function.update h.size base 0)).sum = h.got
    rw [hgot, List.map_singleton, Function.update_self, List.sum_singleton]⟩
  zero := Function.update_self ..
  block := fun x hx hne => absurd (List.mem_singleton.mp hx) hne
  low := hlow
  high := hhigh
  gapped := fun x hx _ _ hne => absurd (List.mem_singleton.mp hx) hne
  freep := List.mem_singleton_self _

/-- **A call of `malloc`** ends, and keeps the invariant. -/
theorem step_malloc (hbase : 0 < base) (hw : WorldSound base w) {k : Kernel}
    (hn : n + 32768 < 2 ^ 31) : ∃ w', WorldSound base w' ∧
      ∃ f, ∀ fuel ≥ f, step base fuel w (.malloc n k) = some w' := by
  obtain ⟨nunits, hnunits⟩ : ∃ nunits, nunits = (n + 8 - 1) % 2 ^ 32 / 8 + 1 := ⟨_, rfl⟩
  -- after the first lines of `malloc` there is a circle
  obtain ⟨h, c, hs, hown, hmalloc⟩ : ∃ h c, Sound base h c (w.live.map header) ∧
      (∀ b ∈ w.live, 8 ≤ b.1 ∧ b.2 + 8 ≤ 8 * h.size (header b)) ∧
      ∀ fuel, malloc base k fuel w.heap n =
        mallocLoop k nunits fuel h h.freep (h.ptr h.freep) := by
    rcases hw with ⟨hfreep, hlive, hgot, hlow, hhigh⟩ | ⟨c, hs, hown⟩
    · refine ⟨_, [base], ?_, ?_, fun fuel => by rw [malloc, if_pos hfreep, hnunits]⟩
      · rw [hlive]
        exact sound_first hbase hgot hlow hhigh
      · rw [hlive]
        exact fun b hb => by cases hb
    · have hfreep : w.heap.freep ≠ 0 := by
        have := hs.base_le (List.mem_append_left _ hs.freep)
        omega
      exact ⟨w.heap, c, hs, hown, fun fuel => by rw [malloc, if_neg hfreep, hnunits]⟩
  obtain ⟨j, hj⟩ := hs.circle.meets (hs.circle.next_mem hs.freep) hs.freep
  have hpos : 0 < nunits := by omega
  have hsmall : 8 * nunits < 2 ^ 31 := by omega
  obtain ⟨⟨h', ap⟩, ⟨hans, hkeep⟩, f, hf⟩ :=
    mallocLoop_ends (k := k) hs hpos hsmall j _ hs.freep hj
  have hkeep' : ∀ b ∈ w.live, 8 ≤ b.1 ∧ b.2 + 8 ≤ 8 * h'.size (header b) := by
    intro b hb
    have hsame : h'.size (header b) = h.size (header b) := hkeep _ (List.mem_map_of_mem hb)
    rw [hsame]
    exact hown b hb
  refine ⟨if ap = 0 then ⟨h', w.live⟩ else ⟨h', (ap, n) :: w.live⟩, ?_, f, fun fuel hfuel => by
    simp only [step, if_pos hn, hmalloc, hf fuel hfuel, Option.map_some]⟩
  rcases hans with ⟨c', ⟨hap, hs'⟩ | ⟨bp, hap, hs', hsize⟩⟩
  · have hap : ap = 0 := hap
    rw [if_pos hap]
    exact Or.inr ⟨c', hs', hkeep'⟩
  · have hap : ap = bp + 8 := hap
    have hheader : header (ap, n) = bp := by
      rw [hap]
      exact Nat.add_sub_cancel ..
    rw [if_neg (by omega)]
    refine Or.inr ⟨c', ?_, List.forall_mem_cons.mpr ⟨⟨?_, ?_⟩, hkeep'⟩⟩
    · rw [List.map_cons, hheader]
      exact hs'
    · change 8 ≤ ap
      omega
    · have hsize : h'.size bp = nunits := hsize
      change n + 8 ≤ 8 * h'.size (header (ap, n))
      rw [hheader, hsize]
      omega

theorem Sound.perm {h : Heap} {c live live' : List Nat} (hs : Sound base h c live)
    (hp : live.Perm live') : Sound base h c live' :=
  ⟨⟨hs.pos, hs.circle, hs.sorted, hs.tiling.perm (hp.append_left c), hs.zero, fun x hx =>
    hs.block x ((hp.append_left c).mem_iff.mpr hx), hs.low, hs.high⟩, hs.gapped, hs.freep⟩

/-- **A call of `free`** ends, and keeps the invariant. -/
theorem step_free (hw : WorldSound base w) {ap : Nat} (hap : ∃ b ∈ w.live, b.1 = ap) :
    ∃ w', WorldSound base w' ∧ ∃ f, ∀ fuel ≥ f, step base fuel w (.free ap) = some w' := by
  obtain ⟨b, hfind⟩ : ∃ b, w.live.find? (·.1 = ap) = some b := by
    rw [← Option.isSome_iff_exists, List.find?_isSome]
    simpa using hap
  have hb := List.mem_of_find?_eq_some hfind
  have hbap : b.1 = ap := by simpa using List.find?_some hfind
  obtain ⟨c, hs, hown⟩ : ∃ c, Sound base w.heap c (w.live.map header) ∧
      ∀ b ∈ w.live, 8 ≤ b.1 ∧ b.2 + 8 ≤ 8 * w.heap.size (header b) := by
    refine hw.resolve_left fun hfirst => ?_
    rw [hfirst.2.1] at hb
    cases hb
  have hperm := (List.perm_cons_erase hb).map header
  obtain ⟨h', c', hs', hkeep, -, f, hf⟩ := free_spec (hs.perm hperm)
  have hheader : header b + 8 = ap := by
    have := (hown b hb).1
    unfold header
    omega
  rw [hheader] at hf
  refine ⟨⟨h', w.live.erase b⟩, Or.inr ⟨c', hs', fun b' hb' => ?_⟩, f, fun fuel hfuel => ?_⟩
  · have hsame : h'.size (header b') = w.heap.size (header b') := hkeep _ (List.mem_map_of_mem hb')
    change 8 ≤ b'.1 ∧ b'.2 + 8 ≤ 8 * h'.size (header b')
    rw [hsame]
    exact hown b' (List.mem_of_mem_erase hb')
  · simp only [step, hfind, hf fuel hfuel, Option.map_some]

/-- **A write into a block of the program** does not touch a header. -/
theorem step_store (hw : WorldSound base w) {a : Nat} (ptr size : Nat) (ha : w.Owns a) :
    WorldSound base ⟨(w.heap.setPtr a ptr).setSize a size, w.live⟩ := by
  obtain ⟨-, b, hb, hle, hlt⟩ := ha
  obtain ⟨c, hs, hown⟩ : ∃ c, Sound base w.heap c (w.live.map header) ∧
      ∀ b ∈ w.live, 8 ≤ b.1 ∧ b.2 + 8 ≤ 8 * w.heap.size (header b) := by
    refine hw.resolve_left fun hfirst => ?_
    rw [hfirst.2.1] at hb
    cases hb
  have hlt' : a < header b + 8 * w.heap.size (header b) := hlt
  have hheader : header b + 8 ≤ a := by
    have := (hown b hb).1
    unfold header
    omega
  have hmem : header b ∈ c ++ w.live.map header := List.mem_append_right _ (List.mem_map_of_mem hb)
  have hne : ∀ x ∈ c ++ w.live.map header, x ≠ a := by
    intro x hx he
    subst he
    have hapart : x + 8 * w.heap.size x ≤ header b ∨
        header b + 8 * w.heap.size (header b) ≤ x :=
      hs.tiling.apart_of_mem hx hmem (by omega)
    omega
  have hsize : ∀ x ∈ c ++ w.live.map header, Function.update w.heap.size a size x =
      w.heap.size x := fun x hx => Function.update_of_ne (hne x hx) ..
  have hc : ∀ x ∈ c, x ∈ c ++ w.live.map header := fun x hx => List.mem_append_left _ hx
  refine Or.inr ⟨c, ⟨⟨hs.pos, hs.circle.congr fun x hx =>
    Function.update_of_ne (hne x (hc x hx)) .., hs.sorted, hs.tiling.congr hsize,
    (hsize base (hc _ hs.circle.base_mem)).trans hs.zero, fun x hx hxb => ?_, hs.low, hs.high⟩,
    fun x hx y hy hxb ht => ?_, hs.freep⟩, fun b' hb' => ?_⟩
  · have hb := hs.block x hx hxb
    rw [← hsize x hx] at hb
    exact hb
  · refine hs.gapped x hx y hy hxb ?_
    rw [Touches, ← hsize x (hc x hx)]
    exact ht
  · have hb := hown b' hb'
    rw [← hsize (header b') (List.mem_append_right _ (List.mem_map_of_mem hb'))] at hb
    exact hb

/-- **Every allowed event** ends, and keeps the invariant. -/
theorem step_ends (hbase : 0 < base) (hw : WorldSound base w) (he : e.Allowed w) :
    ∃ w', WorldSound base w' ∧ ∃ f, ∀ fuel ≥ f, step base fuel w e = some w' := by
  cases e with
  | malloc n k => exact step_malloc hbase hw he
  | free ap => exact step_free hw he
  | store a ptr size => exact ⟨_, step_store hw ptr size he, 0, fun _ _ => if_pos he⟩

theorem allowed_of_step {fuel : Nat} (h : step base fuel w e = some w') : e.Allowed w := by
  cases e with
  | malloc n k =>
    simp only [step] at h
    split at h
    · assumption
    · cases h
  | free ap =>
    simp only [step] at h
    split at h
    · rename_i b hfind
      exact ⟨b, List.mem_of_find?_eq_some hfind, by simpa using List.find?_some hfind⟩
    · cases h
  | store a ptr size =>
    simp only [step] at h
    split at h
    · assumption
    · cases h

/-- The free blocks, other than the base, and the blocks of the program: what is true of them in
every state. -/
structure HeapSound (base : Nat) (w : World) (blocks : List Nat) : Prop where
  circle : Circle w.heap.ptr base (base :: blocks)
  freep : w.heap.freep ∈ base :: blocks
  sorted : (base :: blocks).Pairwise (· < ·)
  size : ∀ x ∈ blocks ++ w.live.map header, 0 < w.heap.size x
  apart : (blocks ++ w.live.map header).Pairwise (Apart 8 w.heap.size)
  gapped : ∀ x ∈ blocks, ∀ y ∈ blocks, ¬Touches w.heap x y
  live : ∀ b ∈ w.live, 8 ∣ b.1 ∧ b.1 + b.2 ≤ header b + 8 * w.heap.size (header b)
  units : ((blocks ++ w.live.map header).map w.heap.size).sum = w.heap.got

theorem WorldSound.heapSound (hw : WorldSound base w) :
    (w.heap.freep = 0 ∧ w.live = [] ∧ w.heap.got = 0) ∨ ∃ blocks, HeapSound base w blocks := by
  rcases hw with ⟨hfreep, hlive, hgot, -⟩ | ⟨c, hs, hown⟩
  · exact Or.inl ⟨hfreep, hlive, hgot⟩
  · obtain ⟨blocks, rfl, -⟩ := id hs.circle
    have hnodup := List.nodup_cons.mp hs.tiling.nodup
    have hbase : ∀ x ∈ blocks ++ w.live.map header, x ≠ base := fun x hx he =>
      hnodup.1 (he ▸ hx)
    refine Or.inr ⟨blocks, hs.circle, hs.freep, hs.sorted, fun x hx => ?_,
      (List.pairwise_cons.mp hs.tiling.apart).2, fun x hx y hy => ?_, fun b hb => ?_, ?_⟩
    · exact (hs.block x (List.mem_cons_of_mem _ hx) (hbase x hx)).2.2.1
    · exact hs.gapped x (List.mem_cons_of_mem _ hx) y (List.mem_cons_of_mem _ hy)
        (hbase x (List.mem_append_left _ hx))
    · have hmem : header b ∈ blocks ++ w.live.map header :=
        List.mem_append_right _ (List.mem_map_of_mem hb)
      have hal := (hs.block _ (List.mem_cons_of_mem _ hmem) (hbase _ hmem)).1
      have := hown b hb
      unfold header at hal this ⊢
      omega
    · have hsum := hs.tiling.sum
      rw [List.cons_append, List.map_cons, List.sum_cons, hs.zero, Nat.zero_add] at hsum
      exact hsum

end

/-- **The heap stays sound.**  In every state that a sequence of `malloc`s, `free`s and writes into
the blocks in use leads to, the free list, the blocks and the units are as `HeapSound` says (before
the first `malloc` there is none), and every next call of `malloc` or `free` ends. -/
theorem heap_stays_sound {base : Nat} (hbase : 0 < base) (hfit : base + 8 < 2 ^ 32) {fuel : Nat}
    {es : List Event} {w : World} (hrun : Runs.run (step base fuel) (start base) es = some w) :
    ((w.heap.freep = 0 ∧ w.live = [] ∧ w.heap.got = 0) ∨ ∃ blocks, HeapSound base w blocks) ∧
      ∀ e, Event.Allowed w e → ∃ w' f, ∀ fuel ≥ f, step base fuel w e = some w' := by
  have hstart : WorldSound base (start base) := Or.inl ⟨rfl, rfl, rfl, Nat.le_refl _, hfit⟩
  have hw : WorldSound base w := by
    refine Runs.run_always (fun s e t hs hst => ?_) es _ _ hstart hrun
    obtain ⟨t', ht', f, hf⟩ := step_ends hbase hs (allowed_of_step hst)
    -- with more fuel the step leads to the same state
    have hmore := step_mono (Nat.le_max_left fuel f) hst
    rw [hf _ (Nat.le_max_right fuel f)] at hmore
    exact Option.some.inj hmore ▸ ht'
  refine ⟨hw.heapSound, fun e he => ?_⟩
  obtain ⟨w', -, f, hf⟩ := step_ends hbase hw he
  exact ⟨w', f, hf⟩

/-- A kernel that gives out memory from 8192 on, up to 64K. -/
def smallKernel : Kernel where
  sbrk h n :=
    let a := (max h.brk 8192 + 7) / 8 * 8
    if a + n ≤ 65536 then some a else none
  fresh h n a ha := by
    dsimp only at ha
    split at ha
    · cases ha
      omega
    · cases ha

/-- Three blocks; the middle one is written and freed, then its neighbours; one call finds no
memory. -/
def someCalls : List Event :=
  [.malloc 8 smallKernel, .malloc 100 smallKernel, .malloc 1 smallKernel, .store 40840 7 7,
    .free 40840, .free 40952, .malloc 40000 smallKernel, .free 40824]

theorem heap_sound_after_someCalls :
    ∃ w, Runs.run (step 4096 20) (start 4096) someCalls = some w ∧ w.heap.got = 4096 ∧
      ((w.heap.freep = 0 ∧ w.live = [] ∧ w.heap.got = 0) ∨ ∃ blocks, HeapSound 4096 w blocks) := by
  have hrun : (Runs.run (step 4096 20) (start 4096) someCalls).any
      (fun w => w.heap.got = 4096) = true := by decide +kernel
  obtain ⟨w, hw, hgot⟩ := (Option.any_eq_true _ _).mp hrun
  exact ⟨w, hw, of_decide_eq_true hgot, (heap_stays_sound (by decide) (by decide) hw).1⟩

end Xv6.Umalloc
