/-
# A ring buffer with counters that wrap

A ring of `c` slots with two counters that only ever go up: the number of items taken and the
number of items stored.  The counters have `w` bits and wrap; an item goes to the slot its counter
names modulo `c`.  What has to be related to them are two histories, all that was ever taken and
all that was ever stored, which do not wrap.

The ring `Represents` a pair of histories when the taken one is a prefix of the stored one, at most
`c` items are in between, each of them is in its slot, and the counters are the lengths.  This is
kept by storing unless the ring is full and by taking unless it is empty, and the tests for full and
empty, made on the wrapped counters, are right.  The slots survive the wrap because `c` divides
`2 ^ w`.
-/
import Mathlib

namespace Xv6.Ring

variable {α : Type} {c w : Nat} [NeZero c]

/-- The slot a counter names. -/
def slot (c : Nat) [NeZero c] (n : BitVec w) : Fin c := Fin.ofNat c n.toNat

/-- What a ring has in it, as the histories of what was taken and what was stored. -/
structure Represents (data : Fin c → α) (nread nwrite : BitVec w) (taken stored : List α) :
    Prop where
  nread : nread = BitVec.ofNat w taken.length
  nwrite : nwrite = BitVec.ofNat w stored.length
  order : taken <+: stored
  room : stored.length ≤ taken.length + c
  unread : ∀ k (hk : k < stored.length), taken.length ≤ k → data (Fin.ofNat c k) = stored[k]

/-- Counting modulo `2 ^ w` does not change the slot. -/
theorem slot_ofNat (hdvd : c ∣ 2 ^ w) (k : Nat) : slot c (BitVec.ofNat w k) = Fin.ofNat c k := by
  apply Fin.ext
  simp only [slot, Fin.ofNat, BitVec.toNat_ofNat]
  exact Nat.mod_mod_of_dvd k hdvd

/-- Counters less than `2 ^ w` apart are equal only if they are the same. -/
theorem ofNat_eq_iff {m n : Nat} (hle : m ≤ n) (hlt : n < m + 2 ^ w) :
    BitVec.ofNat w m = BitVec.ofNat w n ↔ m = n := by
  constructor
  · intro h
    have hmod : m % 2 ^ w = n % 2 ^ w := by
      have := congrArg BitVec.toNat h
      simpa only [BitVec.toNat_ofNat] using this
    have hdvd := Nat.dvd_of_mod_eq_zero (Nat.sub_mod_eq_zero_of_mod_eq hmod.symm)
    have hzero := Nat.eq_zero_of_dvd_of_lt hdvd (by omega)
    omega
  · rintro rfl
    rfl

/-- Counters less than `2 ^ w` apart, subtracted. -/
theorem toNat_ofNat_sub {m n : Nat} (hle : m ≤ n) (hlt : n < m + 2 ^ w) :
    (BitVec.ofNat w n - BitVec.ofNat w m).toNat = n - m := by
  have hsub : BitVec.ofNat w n - BitVec.ofNat w m = BitVec.ofNat w (n - m) := by
    rw [BitVec.sub_eq_iff_eq_add, ← BitVec.ofNat_add, Nat.sub_add_cancel hle]
  rw [hsub, BitVec.toNat_ofNat, Nat.mod_eq_of_lt (by omega)]

/-- Slots less than `c` apart are different. -/
theorem slot_ne {k n : Nat} (hlt : k < n) (hn : n < k + c) : Fin.ofNat c k ≠ Fin.ofNat c n := by
  intro h
  have hmod : k % c = n % c := congrArg Fin.val h
  have hdvd := Nat.dvd_of_mod_eq_zero (Nat.sub_mod_eq_zero_of_mod_eq hmod.symm)
  have hzero := Nat.eq_zero_of_dvd_of_lt hdvd (by omega)
  omega

namespace Represents

variable {data : Fin c → α} {nread nwrite : BitVec w} {taken stored : List α}

theorem empty (data : Fin c → α) : Represents data (0 : BitVec w) 0 [] [] :=
  ⟨rfl, rfl, List.prefix_refl _, by simp, fun k hk => absurd hk (by simp)⟩

/-- `nwrite == nread + c` says that the ring is full. -/
theorem full_iff (h : Represents data nread nwrite taken stored) (hlt : c < 2 ^ w) :
    nwrite = nread + BitVec.ofNat w c ↔ stored.length = taken.length + c := by
  have hroom := h.room
  rw [h.nread, h.nwrite, ← BitVec.ofNat_add]
  have hle := h.order.length_le
  exact ofNat_eq_iff hroom (by omega)

/-- `nread == nwrite` says that everything stored has been taken. -/
theorem empty_iff (h : Represents data nread nwrite taken stored) (hlt : c < 2 ^ w) :
    nread = nwrite ↔ taken = stored := by
  have hroom := h.room
  rw [h.nread, h.nwrite, ofNat_eq_iff h.order.length_le (by omega)]
  exact ⟨h.order.eq_of_length, congrArg List.length⟩

/-- The counters, subtracted, are the number of items in the ring. -/
theorem toNat_sub (h : Represents data nread nwrite taken stored) (hlt : c < 2 ^ w) :
    (nwrite - nread).toNat = stored.length - taken.length := by
  have hroom := h.room
  rw [h.nread, h.nwrite]
  exact toNat_ofNat_sub h.order.length_le (by omega)

theorem toNat_sub_le (h : Represents data nread nwrite taken stored) (hlt : c < 2 ^ w) :
    (nwrite - nread).toNat ≤ c := by
  have hroom := h.room
  rw [h.toNat_sub hlt]
  omega

/-- **Storing** in a ring that is not full overwrites nothing that is still to be taken. -/
theorem push (h : Represents data nread nwrite taken stored) (hdvd : c ∣ 2 ^ w) (hlt : c < 2 ^ w)
    (hfull : nwrite ≠ nread + BitVec.ofNat w c) (a : α) :
    Represents (Function.update data (slot c nwrite) a) nread (nwrite + 1) taken
      (stored ++ [a]) := by
  have hne : stored.length ≠ taken.length + c := fun he => hfull ((h.full_iff hlt).mpr he)
  have hroom := h.room
  have hslot : slot c nwrite = Fin.ofNat c stored.length := by rw [h.nwrite, slot_ofNat hdvd]
  refine ⟨h.nread, ?_, h.order.trans (List.prefix_append _ _), ?_, fun k hk hle => ?_⟩
  · rw [h.nwrite, List.length_append, List.length_singleton, BitVec.ofNat_add]
    rfl
  · rw [List.length_append, List.length_singleton]
    omega
  · rw [List.length_append, List.length_singleton] at hk
    rcases Nat.lt_or_ge k stored.length with hold | hnew
    · rw [hslot, Function.update_of_ne (slot_ne hold (by omega)), h.unread k hold hle,
        List.getElem_append_left hold]
    · obtain rfl : k = stored.length := by omega
      rw [hslot, Function.update_self, List.getElem_concat_length rfl]

/-- **Taking** from a ring that is not empty gives the oldest item that has not been taken. -/
theorem pop (h : Represents data nread nwrite taken stored) (hdvd : c ∣ 2 ^ w)
    (hne : nread ≠ nwrite) :
    Represents data (nread + 1) nwrite (taken ++ [data (slot c nread)]) stored := by
  have hlt : taken.length < stored.length := by
    refine lt_of_le_of_ne h.order.length_le fun he => hne ?_
    rw [h.nread, h.nwrite, he]
  have hroom := h.room
  have hitem : data (slot c nread) = stored[taken.length] := by
    rw [h.nread, slot_ofNat hdvd]
    exact h.unread _ hlt le_rfl
  refine ⟨?_, h.nwrite, ?_, ?_, fun k hk hle => h.unread k hk ?_⟩
  · rw [h.nread, List.length_append, List.length_singleton, BitVec.ofNat_add]
    rfl
  · rw [hitem]
    exact List.concat_get_prefix h.order hlt
  · rw [List.length_append, List.length_singleton]
    omega
  · rw [List.length_append, List.length_singleton] at hle
    omega

/-- The item stored last is in the slot in front of the counter. -/
theorem last_item {a : α} (h : Represents data nread nwrite taken (stored ++ [a]))
    (hdvd : c ∣ 2 ^ w) (hle : taken.length ≤ stored.length) : data (slot c (nwrite - 1)) = a := by
  have hlast : nwrite - 1 = BitVec.ofNat w stored.length := by
    rw [h.nwrite, BitVec.sub_eq_iff_eq_add, List.length_append, List.length_singleton,
      BitVec.ofNat_add]
    rfl
  rw [hlast, slot_ofNat hdvd, h.unread stored.length (by simp) hle]
  exact List.getElem_concat_length rfl _

/-- **Taking back** the item stored last, as long as it has not been taken. -/
theorem retract {a : α} (h : Represents data nread nwrite taken (stored ++ [a]))
    (hle : taken.length ≤ stored.length) : Represents data nread (nwrite - 1) taken stored := by
  have hroom := h.room
  rw [List.length_append, List.length_singleton] at hroom
  refine ⟨h.nread, ?_, List.prefix_of_prefix_length_le h.order (List.prefix_append _ _) hle,
    by omega, fun k hk hge => ?_⟩
  · rw [h.nwrite, BitVec.sub_eq_iff_eq_add, List.length_append, List.length_singleton,
      BitVec.ofNat_add]
    rfl
  · rw [h.unread k (by rw [List.length_append]; omega) hge, List.getElem_append_left hk]

end Represents

end Xv6.Ring
