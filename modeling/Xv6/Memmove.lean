/-
# The two functions called `memmove` (string.c, ulib.c)

The kernel's `memmove` looks at how its two ranges overlap and copies downwards where copying upwards
would overwrite bytes it still has to read.  The one of the user library always copies upwards.

A loop that copies upwards from `s` to `d` reads, for the byte at offset `i`, a byte that it may have
written itself, `d - s` bytes further down.  Followed back to a byte that was there at the start,
this is the byte at offset `i % (d - s)` (`copyUp_apply`), whatever the distance: if it is 0 or not
less than the number of bytes, the remainder is `i` and the copy is faithful.  Copying downwards is
copying upwards in the mirror (`copyDown_eq_copyUp`).

**What goes wrong.**  If the destination starts inside the source, the user library repeats the bytes
before it over and over, and the two functions leave the same memory only if the source consists of
such repetitions (`memmoves_agree_iff`).
-/
import Xv6.Bytes

namespace Xv6.Memmove

open Xv6.Bytes

/-! ## 1. The loops -/

/-- A pointer. -/
abbrev Addr := BitVec 32

/-- The bytes of an address space. -/
abbrev Memory := Addr → Byte

/-- `while(n-- > 0) *d++ = *s++;` -/
def copyUp (m : Memory) (d s : Addr) : (n : Nat) → Memory
  | 0 => m
  | n + 1 => copyUp (Function.update m d (m s)) (d + 1) (s + 1) n

/-- `while(n-- > 0) *--d = *--s;` -/
def copyDown (m : Memory) (d s : Addr) : (n : Nat) → Memory
  | 0 => m
  | n + 1 => copyDown (Function.update m (d - 1) (m (s - 1))) (d - 1) (s - 1) n

/-- `memmove(dst, src, n)` of string.c. -/
def Kernel.memmove (m : Memory) (dst src : Addr) (n : BitVec 32) : Memory × Addr :=
  if src < dst ∧ src + n > dst then (copyDown m (dst + n) (src + n) n.toNat, dst)
  else (copyUp m dst src n.toNat, dst)

/-- `memmove(vdst, vsrc, n)` of ulib.c, where `n` is an `int`. -/
def Ulib.memmove (m : Memory) (vdst vsrc : Addr) (n : BitVec 32) : Memory × Addr :=
  (copyUp m vdst vsrc n.toInt.toNat, vdst)

/-! ## 2. What they leave -/

/-- The next offset modulo `k`. -/
theorem succ_mod (i k : Nat) : (i + 1) % k = if i % k + 1 = k then 0 else i % k + 1 := by
  rcases Nat.eq_zero_or_pos k with rfl | hk
  · simp
  · split
    · rename_i h
      rw [← Nat.div_add_mod i k, Nat.add_assoc, h, Nat.mul_add_mod_self_left, Nat.mod_self]
    · rename_i h
      have hlt := Nat.mod_lt i hk
      rw [← Nat.mod_add_mod, Nat.mod_eq_of_lt (by omega)]

/-- **Upwards.**  The byte at offset `i` is the one that was at offset `i % (d - s)` of the source. -/
theorem copyUp_apply : ∀ (n : Nat) (m : Memory) (d s a : Addr), n ≤ 2 ^ 32 →
    copyUp m d s n a = if (a - d).toNat < n then
      m (s + BitVec.ofNat 32 ((a - d).toNat % (d - s).toNat)) else m a
  | 0, m, d, s, a, _ => by simp [copyUp]
  | n + 1, m, d, s, a, hn => by
    rw [copyUp, copyUp_apply n _ _ _ _ (by omega), show d + 1 - (s + 1) = d - s by bv_omega]
    rcases eq_or_ne a d with rfl | hne
    · -- the byte that the first round writes; the others do not come round to it again
      have hlast : ¬(a - (a + 1)).toNat < n := by bv_omega
      rw [if_neg hlast, if_pos (by simp), Function.update_self]
      simp
    · have hpos : (a - (d + 1)).toNat + 1 = (a - d).toNat := by bv_omega
      generalize (a - (d + 1)).toNat = i at hpos
      rw [← hpos]
      by_cases hlt : i < n
      · rw [if_pos hlt, if_pos (by omega), succ_mod]
        have hle : i % (d - s).toNat ≤ i := Nat.mod_le ..
        by_cases hwrap : i % (d - s).toNat + 1 = (d - s).toNat
        · -- it reads what the first round has written
          have hself : s + 1 + BitVec.ofNat 32 (i % (d - s).toNat) = d := by bv_omega
          rw [if_pos hwrap, hself, Function.update_self]
          simp
        · have hother : s + 1 + BitVec.ofNat 32 (i % (d - s).toNat) ≠ d := by bv_omega
          rw [if_neg hwrap, Function.update_of_ne hother]
          congr 1
          bv_omega
      · rw [if_neg hlt, if_neg (by omega), Function.update_of_ne hne]

/-- **Downwards** is upwards in the mirror that takes an address to its complement. -/
theorem copyDown_eq_copyUp : ∀ (n : Nat) (m : Memory) (d s a : Addr),
    copyDown m d s n a = copyUp (fun b => m (~~~b)) (-d) (-s) n (~~~a)
  | 0, m, d, s, a => by simp [copyDown, copyUp]
  | n + 1, m, d, s, a => by
    have hmirror : (fun b => Function.update m (d - 1) (m (s - 1)) (~~~b)) =
        Function.update (fun b => m (~~~b)) (-d) (m (~~~(-s))) := by
      funext b
      rcases eq_or_ne b (-d) with rfl | hne
      · rw [Function.update_self, show ~~~(-d) = d - 1 by bv_omega, Function.update_self,
          show ~~~(-s) = s - 1 by bv_omega]
      · rw [Function.update_of_ne hne, Function.update_of_ne (by bv_omega)]
    rw [copyDown, copyUp, copyDown_eq_copyUp n, hmirror, show -(d - 1) = -d + 1 by bv_omega,
      show -(s - 1) = -s + 1 by bv_omega]

/-- A byte of the destination has been copied. -/
def Copied (m : Memory) (dst src : Addr) (n : Nat) (m' : Memory) : Prop :=
  ∀ a, m' a = if (a - dst).toNat < n then m (src + (a - dst)) else m a

/-- Upwards, if the source does not start below the destination and reach into it. -/
theorem copied_copyUp {m : Memory} {dst src : Addr} {n : Nat} (hn : n ≤ 2 ^ 32)
    (h : dst = src ∨ n ≤ (dst - src).toNat) : Copied m dst src n (copyUp m dst src n) := by
  intro a
  rw [copyUp_apply n m dst src a hn]
  split
  · rename_i hlt
    have hmod : (a - dst).toNat % (dst - src).toNat = (a - dst).toNat := by
      rcases h with rfl | h
      · simp
      · exact Nat.mod_eq_of_lt (by omega)
    rw [hmod, BitVec.ofNat_toNat, BitVec.setWidth_eq]
  · rfl

/-- In the mirror, the offset of a byte is counted from the other end. -/
theorem mirror_offset (a d n : Addr) : ~~~a - -(d + n) = n - 1 - (a - d) := by bv_omega

theorem mirror_sub (d s n : Addr) : -(d + n) - -(s + n) = s - d := by bv_omega

theorem mirror_add (s n x : Addr) : ~~~(-(s + n) + (n - 1 - x)) = s + x := by bv_omega

/-- Downwards, if the destination does not start below the source and reach into it. -/
theorem copied_copyDown {m : Memory} {dst src : Addr} {n : BitVec 32}
    (h : n.toNat ≤ (src - dst).toNat) :
    Copied m dst src n.toNat (copyDown m (dst + n) (src + n) n.toNat) := by
  intro a
  have hlt := n.isLt
  have hfar : n.toNat ≤ (-(dst + n) - -(src + n)).toNat := by rwa [mirror_sub]
  rw [copyDown_eq_copyUp, copied_copyUp (by omega) (.inr hfar), mirror_offset]
  have hoff (x : Addr) : (n - 1 - x).toNat < n.toNat ↔ x.toNat < n.toNat := by
    clear h hfar
    bv_omega
  simp only [hoff, mirror_add, BitVec.not_not]

theorem Copied.apply {m m' : Memory} {dst src : Addr} {n : Nat} (h : Copied m dst src n m')
    (hn : n ≤ 2 ^ 32) {i : Nat} (hi : i < n) :
    m' (dst + BitVec.ofNat 32 i) = m (src + BitVec.ofNat 32 i) := by
  have hoff : dst + BitVec.ofNat 32 i - dst = BitVec.ofNat 32 i := by bv_omega
  rw [h, hoff, if_pos (by bv_omega)]

/-! ## 3. The kernel's -/

/-- The kernel copies in the direction that the overlap asks for. -/
theorem copied_memmove {m : Memory} {dst src : Addr} {n : BitVec 32}
    (hs : src.toNat + n.toNat ≤ 2 ^ 32) (hd : dst.toNat + n.toNat ≤ 2 ^ 32) :
    Copied m dst src n.toNat (Kernel.memmove m dst src n).1 := by
  have hlt := n.isLt
  unfold Kernel.memmove
  split
  · exact copied_copyDown (by bv_omega)
  · refine copied_copyUp (by omega) ?_
    rcases eq_or_ne dst src with h | h
    · exact .inl h
    · exact .inr (by bv_omega)

/-- **The kernel's `memmove` is correct under overlap.**  For ranges that end in the address space,
every byte of the destination is the one that was at its place in the source before the call, and all
other bytes are as they were. -/
theorem memmove_copies_under_overlap (m : Memory) (dst src : Addr) (n : BitVec 32)
    (hs : src.toNat + n.toNat ≤ 2 ^ 32) (hd : dst.toNat + n.toNat ≤ 2 ^ 32) :
    (Kernel.memmove m dst src n).2 = dst ∧
      (∀ i < n.toNat, (Kernel.memmove m dst src n).1 (dst + BitVec.ofNat 32 i) =
        m (src + BitVec.ofNat 32 i)) ∧
      ∀ a, (∀ i < n.toNat, a ≠ dst + BitVec.ofNat 32 i) → (Kernel.memmove m dst src n).1 a = m a := by
  have hlt := n.isLt
  have hcopy := copied_memmove (m := m) hs hd
  refine ⟨?_, fun i hi => hcopy.apply (by omega) hi, fun a ha => ?_⟩
  · unfold Kernel.memmove
    split <;> rfl
  · rw [hcopy, if_neg]
    intro hin
    refine ha _ hin ?_
    rw [BitVec.ofNat_toNat, BitVec.setWidth_eq]
    bv_omega

/-- A memory in which every address holds its own low byte. -/
def lowBytes : Memory := fun a => a.setWidth 8

/-- Six bytes move up by two, over four of themselves. -/
theorem memmove_copies_six_bytes_up :
    (Kernel.memmove lowBytes 2 0 6).2 = 2 ∧
      (∀ i < (6 : BitVec 32).toNat, (Kernel.memmove lowBytes 2 0 6).1 (2 + BitVec.ofNat 32 i) =
        lowBytes (0 + BitVec.ofNat 32 i)) ∧
      ∀ a, (∀ i < (6 : BitVec 32).toNat, a ≠ 2 + BitVec.ofNat 32 i) →
        (Kernel.memmove lowBytes 2 0 6).1 a = lowBytes a :=
  memmove_copies_under_overlap lowBytes 2 0 6 (by decide) (by decide)

/-! ## 4. The user library's -/

theorem toNat_toInt {n : BitVec 32} (hn : 0 ≤ n.toInt) : n.toInt.toNat = n.toNat := by
  have := n.isLt
  rw [BitVec.toInt] at hn ⊢
  split
  · rfl
  · rename_i h
    rw [if_neg h] at hn
    omega

/-- The user library's copy, followed back to the memory before. -/
theorem ulib_memmove_apply {m : Memory} {dst src : Addr} {n : BitVec 32} (hn : 0 ≤ n.toInt)
    (a : Addr) : (Ulib.memmove m dst src n).1 a = if (a - dst).toNat < n.toNat then
      m (src + BitVec.ofNat 32 ((a - dst).toNat % (dst - src).toNat)) else m a := by
  have hlt := n.isLt
  rw [Ulib.memmove, toNat_toInt hn]
  exact copyUp_apply _ m dst src a (by omega)

/-- **The two agree exactly if the destination does not start inside the source**, or the source
repeats the bytes before it. -/
theorem memmoves_agree_iff (m : Memory) (dst src : Addr) (n : BitVec 32) (hn : 0 ≤ n.toInt)
    (hs : src.toNat + n.toNat ≤ 2 ^ 32) (hd : dst.toNat + n.toNat ≤ 2 ^ 32) :
    (Ulib.memmove m dst src n).1 = (Kernel.memmove m dst src n).1 ↔
      (src < dst → dst.toNat < src.toNat + n.toNat → ∀ i < n.toNat,
        m (src + BitVec.ofNat 32 (i % (dst - src).toNat)) = m (src + BitVec.ofNat 32 i)) := by
  have hlt := n.isLt
  have hkernel := copied_memmove (m := m) hs hd
  constructor
  · intro h _ _ i hi
    have hat := congrFun h (dst + BitVec.ofNat 32 i)
    have hoff : (dst + BitVec.ofNat 32 i - dst).toNat = i := by bv_omega
    rw [ulib_memmove_apply hn, hkernel.apply (by omega) hi, hoff, if_pos hi] at hat
    exact hat
  · intro h
    funext a
    rw [ulib_memmove_apply hn, hkernel]
    split
    · rename_i hin
      have hself : src + (a - dst) = src + BitVec.ofNat 32 (a - dst).toNat := by
        rw [BitVec.ofNat_toNat, BitVec.setWidth_eq]
      rw [hself]
      by_cases hover : src < dst ∧ dst.toNat < src.toNat + n.toNat
      · exact h hover.1 hover.2 _ hin
      · -- no byte is read after it has been written
        rcases eq_or_ne dst src with rfl | hne
        · simp
        · rw [Nat.mod_eq_of_lt (by bv_omega)]
    · rfl

/-- Four bytes move down by two. -/
theorem memmoves_agree_downwards : 0 ≤ (4 : BitVec 32).toInt ∧
    ((Ulib.memmove lowBytes 0 2 4).1 = (Kernel.memmove lowBytes 0 2 4).1 ↔
      ((2 : Addr) < 0 → (0 : Addr).toNat < (2 : Addr).toNat + (4 : BitVec 32).toNat →
        ∀ i < (4 : BitVec 32).toNat, lowBytes (2 + BitVec.ofNat 32 (i % (0 - 2 : Addr).toNat)) =
          lowBytes (2 + BitVec.ofNat 32 i))) :=
  ⟨by decide, memmoves_agree_iff lowBytes 0 2 4 (by decide) (by decide) (by decide)⟩

/-- **Two bytes move up by one**, and the user library has copied the first one twice. -/
theorem memmoves_differ_upwards : 0 ≤ (2 : BitVec 32).toInt ∧
    (Ulib.memmove lowBytes 1 0 2).1 2 = 0 ∧ (Kernel.memmove lowBytes 1 0 2).1 2 = 1 := by
  decide +kernel

end Xv6.Memmove
