/-
# Fixed-size arrays of bytes, and little-endian fields in them

A `Blob n` is `n` bytes.  `field` reads some of them as a list and `put` overwrites some of them
with a list; the two lemmas relating them say that a field that was just written reads back, and
that a field elsewhere is untouched.  `leBytes` and `leNat` are the little-endian encoding of a
number in a given number of bytes.
-/
import Mathlib

namespace Xv6.Bytes

/-- One byte. -/
abbrev Byte := BitVec 8

instance lawfulBEq_byte : LawfulBEq Byte := inferInstance

/-- `n` bytes. -/
abbrev Blob (n : Nat) := Fin n → Byte

variable {n : Nat}

/-- The byte at position `i`. -/
def get (b : Blob n) (i : Nat) : Byte := if h : i < n then b ⟨i, h⟩ else 0

/-- `len` bytes from position `off`. -/
def field (b : Blob n) (off len : Nat) : List Byte := (List.range len).map fun j => get b (off + j)

/-- The array with `xs` written at position `off`. -/
def put (b : Blob n) (off : Nat) (xs : List Byte) : Blob n := fun i =>
  if off ≤ i.val then (xs[i.val - off]?).getD (b i) else b i

theorem get_put (b : Blob n) (off : Nat) (xs : List Byte) {i : Nat} (hi : i < n) :
    get (put b off xs) i = if off ≤ i then (xs[i - off]?).getD (get b i) else get b i := by
  simp only [get, hi, dif_pos, put]

@[simp] theorem length_field (b : Blob n) (off len : Nat) : (field b off len).length = len := by
  simp [field]

/-- **A field reads back what was written to it.** -/
theorem field_put_self (b : Blob n) (off : Nat) (xs : List Byte) (h : off + xs.length ≤ n) :
    field (put b off xs) off xs.length = xs := by
  apply List.ext_getElem
  · simp
  · intro j hj hj'
    have hlt : off + j < n := by omega
    simp [field, get_put b off xs hlt, hj']

/-- **A field is untouched by a write elsewhere.** -/
theorem field_put_of_disjoint (b : Blob n) {off len off' : Nat} (xs : List Byte)
    (hn : off + len ≤ n) (h : off + len ≤ off' ∨ off' + xs.length ≤ off) :
    field (put b off' xs) off len = field b off len := by
  simp only [field]
  apply List.map_congr_left
  intro j hj
  have hj' : j < len := List.mem_range.mp hj
  rw [get_put b off' xs (by omega)]
  rcases h with h | h
  · rw [if_neg (by omega)]
  · split
    · rw [List.getElem?_eq_none (by omega), Option.getD_none]
    · rfl

/-- **A part of what was written reads back**, where it stands in what was written. -/
theorem field_put_part (b : Blob n) (off : Nat) (xs ys zs : List Byte)
    (h : off + (xs ++ (ys ++ zs)).length ≤ n) :
    field (put b off (xs ++ (ys ++ zs))) (off + xs.length) ys.length = ys := by
  apply List.ext_getElem
  · simp
  · intro j hj hj'
    simp only [List.length_append] at h
    have hlt : off + xs.length + j < n := by omega
    have hle : off ≤ off + xs.length + j := by omega
    have hsub : off + xs.length + j - off = xs.length + j := by omega
    have hget : (ys ++ zs)[j]? = some ys[j] := by
      rw [List.getElem?_append_left hj', List.getElem?_eq_getElem hj']
    simp [field, get_put b off _ hlt, hle, hsub, List.getElem?_append_right, hget]

/-- The number some bytes stand for, least significant byte first. -/
def leNat : List Byte → Nat
  | [] => 0
  | x :: xs => x.toNat + 256 * leNat xs

/-- The `k` bytes that stand for `v`, least significant byte first. -/
def leBytes : Nat → Nat → List Byte
  | 0, _ => []
  | k + 1, v => BitVec.ofNat 8 v :: leBytes k (v / 256)

@[simp] theorem length_leBytes (k v : Nat) : (leBytes k v).length = k := by
  induction k generalizing v with
  | zero => rfl
  | succ k ih => simp [leBytes, ih]

/-- **The encoding can be read back**, up to the size of the field. -/
theorem leNat_leBytes (k v : Nat) : leNat (leBytes k v) = v % 256 ^ k := by
  induction k generalizing v with
  | zero => simp [leBytes, leNat, Nat.mod_one]
  | succ k ih =>
    simp only [leBytes, leNat, ih, BitVec.toNat_ofNat]
    rw [show (2 : Nat) ^ 8 = 256 from rfl, Nat.pow_succ', Nat.mod_mul]

/-- Only the bits that have room are encoded. -/
theorem leBytes_mod (k v : Nat) : leBytes k (v % 256 ^ k) = leBytes k v := by
  induction k generalizing v with
  | zero => rfl
  | succ k ih =>
    have hlow : BitVec.ofNat 8 (v % (256 * 256 ^ k)) = BitVec.ofNat 8 v := by
      apply BitVec.eq_of_toNat_eq
      rw [BitVec.toNat_ofNat, BitVec.toNat_ofNat, show (2 : Nat) ^ 8 = 256 from rfl,
        Nat.mod_mul_right_mod]
    rw [leBytes, leBytes, Nat.pow_succ', hlow, Nat.mod_mul_right_div_self, ih]

theorem leNat_lt (xs : List Byte) : leNat xs < 256 ^ xs.length := by
  induction xs with
  | nil => simp [leNat]
  | cons x xs ih =>
    have hx : x.toNat < 256 := x.isLt
    rw [leNat, List.length_cons, Nat.pow_succ]
    omega

/-! ## Arrays of words -/

/-- The 32-bit word at index `j`. -/
def word (b : Blob n) (j : Nat) : Nat := leNat (field b (4 * j) 4)

/-- The array with the word at index `j` set. -/
def setWord (b : Blob n) (j w : Nat) : Blob n := put b (4 * j) (leBytes 4 w)

theorem word_lt (b : Blob n) (j : Nat) : word b j < 2 ^ 32 := by
  have h := leNat_lt (field b (4 * j) 4)
  rwa [length_field] at h

theorem setWord_mod (b : Blob n) (j w : Nat) : setWord b j (w % 2 ^ 32) = setWord b j w :=
  congrArg (put b (4 * j)) (leBytes_mod 4 w)

theorem word_setWord_self (b : Blob n) {j w : Nat} (hj : 4 * j + 4 ≤ n) (hw : w < 2 ^ 32) :
    word (setWord b j w) j = w := by
  have h := field_put_self b (4 * j) (leBytes 4 w) (by rwa [length_leBytes])
  rw [length_leBytes] at h
  rw [word, setWord, h, leNat_leBytes]
  exact Nat.mod_eq_of_lt hw

theorem word_setWord_of_ne (b : Blob n) {i j w : Nat} (hi : 4 * i + 4 ≤ n) (h : i ≠ j) :
    word (setWord b j w) i = word b i := by
  rw [word, setWord, field_put_of_disjoint _ _ hi (by rw [length_leBytes]; omega), word]

/-- An array of zeros has zero words. -/
theorem word_zero (j : Nat) : word (fun _ => 0 : Blob n) j = 0 := by
  have hfield : field (fun _ => 0 : Blob n) (4 * j) 4 = [0, 0, 0, 0] := by
    simp [field, get, List.range_succ]
  rw [word, hfield]
  rfl

end Xv6.Bytes
