/-
# Names and directory entries

A directory is a file of 16-byte entries, each an inode number and a name that is padded with NULs
and need not end in one.  `entryOf` is what the directory layer reads from such an entry.
-/
import Xv6.Fs.Bodies

namespace Xv6.Fs

open Xv6.Bytes Xv6.Threads

/-- The name that `namecmp` compares: at most DIRSIZ bytes, up to a NUL. -/
def nameKey (name : List Byte) : List Byte := cstr (name.take 14)

theorem nameEq_iff {a b : List Byte} : nameEq a b = true ↔ nameKey a = nameKey b := by
  simp [nameEq, nameKey]

/-- An inode number and a name. -/
abbrev Entry := Nat × List Byte

/-- The number and the name in the 16 bytes of an entry. -/
def entryOf (de : List Byte) : Entry := (deInum de, nameKey (deName de))

theorem ne_zero_of_mem_cstr {xs : List Byte} {x : Byte} (h : x ∈ cstr xs) : x ≠ 0 := by
  simpa using List.all_eq_true.mp List.all_takeWhile x h

/-- A padded name reads back. -/
theorem nameKey_padName (name : List Byte) : nameKey (padName name) = nameKey name := by
  have hlen : (nameKey name).length ≤ 14 :=
    Nat.le_trans (List.takeWhile_sublist _).length_le (List.length_take_le _ _)
  have htake : (padName name).take 14 =
      nameKey name ++ List.replicate (14 - (nameKey name).length) 0 := by
    rw [List.take_of_length_le]
    · rfl
    · simp only [padName, nameKey, List.length_append, List.length_replicate] at hlen ⊢
      omega
  have hstop : ∀ n, cstr (List.replicate n 0) = [] := by
    intro n
    cases n <;> simp [cstr, List.replicate_succ]
  rw [nameKey, htake, cstr, List.takeWhile_append_of_pos fun x hx => by
    simpa using ne_zero_of_mem_cstr hx]
  rw [show List.takeWhile (· ≠ 0) (List.replicate (14 - (nameKey name).length) (0 : Byte)) = [] from
    hstop _, List.append_nil]

/-- **What `dirlink` writes reads back.** -/
theorem entryOf_dirent (name : List Byte) {inum : Nat} (h : inum < 2 ^ 16) :
    entryOf (dirent name inum) = (inum, nameKey name) := by
  have h2 : (leBytes 2 inum).length = 2 := length_leBytes 2 inum
  refine Prod.ext ?_ ?_
  · show leNat ((leBytes 2 inum ++ padName name).take 2) = inum
    rw [List.take_append_of_le_length (by omega), List.take_of_length_le (by omega), leNat_leBytes]
    exact Nat.mod_eq_of_lt h
  · show nameKey ((leBytes 2 inum ++ padName name).drop 2) = nameKey name
    rw [List.drop_append_of_le_length (by omega), List.drop_of_length_le (by omega), List.nil_append,
      nameKey_padName]

end Xv6.Fs
