/-
# Reading the MP configuration table (mp.c)

At boot `mpinit` looks for the MP floating pointer structure, follows it to the configuration table
and walks over the table's entries to learn how many processors there are.  The table is the
firmware's: `mpconfig` checks its signature, version and checksum, and nothing else.

The walk is a loop that need not end, so it is given fuel: `scan` is `none` if the fuel is used up.
What the table IS, independently of the code, is a sequence of entries of the five known types, one
right after the other up to the end (`Entries`).  If it is one, the walk ends (`scan_entries`), and it
ends ONLY if it is one (`entries_of_scan`).  `used` is a history: the indices that were used into
`cpus`.

**What goes wrong.**  On an entry of another type the walk prints a message and does not move: it
comes back to the same byte for ever.  And nothing compares `ncpu` with `NCPU`, so that a ninth
processor is entered behind the end of `cpus` (`mpinit_fails_on_odd_tables`).

Addresses are physical ones, without a bound: no table reaches the end of the address space.
-/
import Xv6.Bytes

namespace Xv6.Mp

open Xv6.Bytes

/-! ## 1. The code -/

/-- Physical memory. -/
abbrev Memory := Nat → Byte

/-- `NCPU` -/
def ncpuMax : Nat := 8

/-- `sum(addr, len)`: the sum of the bytes, as a `uchar`. -/
def sum (mem : Memory) (addr len : Nat) : Byte :=
  (List.range len).foldl (fun acc i => acc + mem (addr + i)) 0

/-- `memcmp(p, sig, 4) == 0` -/
def signed (mem : Memory) (p : Nat) (sig : List Byte) : Bool :=
  (List.range 4).map (fun i => mem (p + i)) == sig

/-- A little-endian `ushort`. -/
def word16 (mem : Memory) (p : Nat) : Nat := (mem p).toNat + 256 * (mem (p + 1)).toNat

/-- A little-endian `uint`. -/
def word32 (mem : Memory) (p : Nat) : Nat := word16 mem p + 65536 * word16 mem (p + 2)

/-- `mpsearch1(a, len)`: in steps of `sizeof(struct mp)`. -/
def mpsearch1 (mem : Memory) (a len : Nat) : Option Nat :=
  ((List.range ((len + 15) / 16)).map fun k => a + 16 * k).find? fun p =>
    signed mem p [0x5f, 0x4d, 0x50, 0x5f] && sum mem p 16 == 0

/-- `mpsearch()` -/
def mpsearch (mem : Memory) : Option Nat :=
  let p := word16 mem 0x40e * 16
  let found :=
    if p ≠ 0 then mpsearch1 mem p 1024
    -- an `uint`: without any base memory this is the end of the address space
    else mpsearch1 mem ((word16 mem 0x413 * 1024 + 2 ^ 32 - 1024) % 2 ^ 32) 1024
  match found with
  | some mp => some mp
  | none => mpsearch1 mem 0xf0000 0x10000

/-- `conf->length` -/
def length (mem : Memory) (conf : Nat) : Nat := word16 mem (conf + 4)

/-- `mpconfig(&mp)`: the floating pointer structure and the table. -/
def mpconfig (mem : Memory) : Option (Nat × Nat) :=
  match mpsearch mem with
  | none => none
  | some mp =>
    let conf := word32 mem (mp + 4)
    if conf = 0 then none
    else if signed mem conf [0x50, 0x43, 0x4d, 0x50] = false then none
    else if mem (conf + 6) ≠ 1 ∧ mem (conf + 6) ≠ 4 then none
    else if sum mem conf (length mem conf) ≠ 0 then none
    else some (mp, conf)

/-- The globals that `mpinit` sets. -/
structure Cpus where
  ismp : Bool
  ncpu : Nat
  lapic : Nat
  ioapicid : Byte
  /-- index into `cpus` -/
  bcpu : Nat
  /-- `cpus[i].id` -/
  ids : Nat → Byte
  /-- the IMCR has been switched -/
  imcr : Bool
  used : List Nat

/-- At boot, after `bcpu = &cpus[0]`. -/
def Cpus.boot : Cpus := ⟨false, 0, 0, 0, 0, fun _ => 0, false, [0]⟩

/-- The types of entries: `MPPROC`, `MPBUS`, `MPIOAPIC`, `MPIOINTR`, `MPLINTR`. -/
inductive Kind
  | proc
  | bus
  | ioapic
  | iointr
  | lintr
  deriving DecidableEq

/-- The type byte; `none` is `default`. -/
def kind (b : Byte) : Option Kind :=
  if b = 0 then some .proc
  else if b = 1 then some .bus
  else if b = 2 then some .ioapic
  else if b = 3 then some .iointr
  else if b = 4 then some .lintr
  else none

/-- How far `p` moves over an entry. -/
def Kind.size : Kind → Nat
  | .proc => 20
  | .bus | .ioapic | .iointr | .lintr => 8

/-- `case MPPROC` -/
def Cpus.processor (mem : Memory) (p : Nat) (s : Cpus) : Cpus :=
  let s := if s.ncpu ≠ (mem (p + 1)).toNat then { s with ismp := false } else s
  -- `MPBOOT`
  let s := if mem (p + 3) &&& 2 ≠ 0 then { s with bcpu := s.ncpu, used := s.used ++ [s.ncpu] } else s
  { s with
    ids := Function.update s.ids s.ncpu (BitVec.ofNat 8 s.ncpu)
    used := s.used ++ [s.ncpu]
    ncpu := s.ncpu + 1 }

/-- What an entry of a known type does. -/
def Cpus.entry (mem : Memory) (p : Nat) (s : Cpus) : Kind → Cpus
  | .proc => s.processor mem p
  | .ioapic => { s with ioapicid := mem (p + 1) }
  | .bus | .iointr | .lintr => s

/-- The loop `for(; p<e; )`; `none` if the fuel is used up. -/
def scan (mem : Memory) (e : Nat) : (fuel : Nat) → (p : Nat) → Cpus → Option Cpus
  | 0, _, _ => none
  | fuel + 1, p, s =>
    if p < e then
      match kind (mem p) with
      | some k => scan mem e fuel (p + k.size) (s.entry mem p k)
      -- `default`: `p` stays where it is
      | none => scan mem e fuel p { s with ismp := false }
    else some s

/-- What follows the loop. -/
def Cpus.finish (mem : Memory) (mp : Nat) (s : Cpus) : Cpus :=
  if s.ismp = false then { s with ncpu := 1, lapic := 0, ioapicid := 0 }
  else { s with imcr := mem (mp + 12) != 0 }

/-- `mpinit()` -/
def mpinit (mem : Memory) (fuel : Nat) : Option Cpus :=
  match mpconfig mem with
  | none => some .boot
  | some (mp, conf) =>
    let s := { Cpus.boot with ismp := true, lapic := word32 mem (conf + 36) }
    (scan mem (conf + length mem conf) fuel (conf + 44) s).map (Cpus.finish mem mp)

/-! ## 2. The table -/

/-- From `p` to `e` there are entries of known types, at the addresses `ps`. -/
inductive Entries (mem : Memory) (e : Nat) : Nat → List Nat → Prop
  | done {p : Nat} (hp : ¬p < e) : Entries mem e p []
  | cons {p : Nat} {k : Kind} {ps : List Nat} (hp : p < e) (hk : kind (mem p) = some k)
      (hps : Entries mem e (p + k.size) ps) : Entries mem e p (p :: ps)

/-- There is a processor entry at `p`. -/
def isProc (mem : Memory) (p : Nat) : Bool := kind (mem p) == some .proc

/-- The visit of the entry at `p`. -/
def visit (mem : Memory) (s : Cpus) (p : Nat) : Cpus :=
  match kind (mem p) with
  | some k => s.entry mem p k
  | none => s

variable {mem : Memory} {e p : Nat} {ps : List Nat}

/-- **The walk ends on a sequence of entries**, after one visit to each of them. -/
theorem scan_entries (h : Entries mem e p ps) (s : Cpus) {fuel : Nat} (hfuel : ps.length < fuel) :
    scan mem e fuel p s = some (ps.foldl (visit mem) s) := by
  induction h generalizing s fuel with
  | done hp =>
    obtain ⟨fuel, rfl⟩ : ∃ k, fuel = k + 1 := ⟨fuel - 1, by omega⟩
    rw [scan, if_neg hp]
    rfl
  | @cons p k ps hp hk hps ih =>
    obtain ⟨fuel, rfl⟩ : ∃ k, fuel = k + 1 := ⟨fuel - 1, by omega⟩
    have hvisit : visit mem s p = s.entry mem p k := by simp only [visit, hk]
    rw [scan, if_pos hp, hk, List.foldl_cons, hvisit]
    exact ih _ (by rw [List.length_cons] at hfuel; omega)

/-- **And it ends only on one**: at an entry of another type every round is the same. -/
theorem entries_of_scan : ∀ {fuel p : Nat} {s t : Cpus}, scan mem e fuel p s = some t →
    ∃ ps, Entries mem e p ps ∧ t = ps.foldl (visit mem) s
  | 0, _, _, _, h => nomatch h
  | fuel + 1, p, s, t, h => by
    by_cases hp : p < e
    · rw [scan, if_pos hp] at h
      cases hk : kind (mem p) with
      | some k =>
        rw [hk] at h
        obtain ⟨ps, hps, rfl⟩ := entries_of_scan h
        refine ⟨p :: ps, .cons hp hk hps, ?_⟩
        simp only [List.foldl_cons, visit, hk]
      | none =>
        rw [hk] at h
        obtain ⟨ps, hps, -⟩ := entries_of_scan h
        cases hps with
        | done hp' => exact absurd hp hp'
        | cons _ hk' _ => exact nomatch hk.symm.trans hk'
    · rw [scan, if_neg hp] at h
      exact ⟨[], .done hp, (Option.some.inj h).symm⟩

/-! ## 3. What the visits leave -/

theorem ncpu_processor (s : Cpus) (p : Nat) : (s.processor mem p).ncpu = s.ncpu + 1 := by
  simp only [Cpus.processor]
  split <;> split <;> rfl

theorem mem_used_processor (s : Cpus) (p i : Nat) :
    i ∈ (s.processor mem p).used ↔ i ∈ s.used ∨ i = s.ncpu := by
  simp only [Cpus.processor]
  split <;> split <;> simp

/-- Each processor entry counts, and uses the next index. -/
theorem ncpu_visit (s : Cpus) (p : Nat) :
    (visit mem s p).ncpu = s.ncpu + if isProc mem p then 1 else 0 := by
  unfold visit isProc
  cases kind (mem p) with
  | none => rfl
  | some k => cases k <;> first | exact ncpu_processor s p | rfl

theorem mem_used_visit (s : Cpus) (p i : Nat) :
    i ∈ (visit mem s p).used ↔ i ∈ s.used ∨ isProc mem p = true ∧ i = s.ncpu := by
  unfold visit isProc
  cases kind (mem p) with
  | none => simp
  | some k =>
    cases k with
    | proc => simpa [Cpus.entry] using mem_used_processor s p i
    | bus | ioapic | iointr | lintr => simp [Cpus.entry]

theorem ncpu_visits (ps : List Nat) (s : Cpus) :
    (ps.foldl (visit mem) s).ncpu = s.ncpu + ps.countP (isProc mem) := by
  induction ps generalizing s with
  | nil => rfl
  | cons p ps ih =>
    rw [List.foldl_cons, ih, ncpu_visit, List.countP_cons]
    omega

theorem mem_used_visits (ps : List Nat) (s : Cpus) (i : Nat) :
    i ∈ (ps.foldl (visit mem) s).used ↔
      i ∈ s.used ∨ s.ncpu ≤ i ∧ i < s.ncpu + ps.countP (isProc mem) := by
  induction ps generalizing s with
  | nil =>
    simp only [List.foldl_nil, List.countP_nil, Nat.add_zero]
    exact ⟨.inl, fun h => h.elim id fun h => by omega⟩
  | cons p ps ih =>
    rw [List.foldl_cons, ih, ncpu_visit, mem_used_visit, List.countP_cons, or_assoc]
    refine or_congr_right ?_
    cases isProc mem p with
    | true =>
      simp only [true_and, if_true]
      omega
    | false =>
      simp only [Bool.false_eq_true, false_and, false_or, if_false]
      omega

/-! ## 4. `mpinit` -/

/-- What is expected on return: every index was in `cpus`, and either the processors have been counted
or the kernel falls back to one. -/
def Settled (mem : Memory) (conf : Nat) (s : Cpus) : Prop :=
  (∀ i ∈ s.used, i < ncpuMax) ∧
    ((s.ismp = true ∧ ∃ ps, Entries mem (conf + length mem conf) (conf + 44) ps ∧
        s.ncpu = ps.countP (isProc mem)) ∨
      (s.ismp = false ∧ s.ncpu = 1 ∧ s.lapic = 0))

theorem used_finish (mp : Nat) (s : Cpus) : (s.finish mem mp).used = s.used := by
  unfold Cpus.finish
  split <;> rfl

theorem finish_cases (mp : Nat) (s : Cpus) :
    ((s.finish mem mp).ismp = true ∧ (s.finish mem mp).ncpu = s.ncpu) ∨
      ((s.finish mem mp).ismp = false ∧ (s.finish mem mp).ncpu = 1 ∧
        (s.finish mem mp).lapic = 0) := by
  unfold Cpus.finish
  split
  · rename_i h
    exact .inr ⟨h, rfl, rfl⟩
  · rename_i h
    exact .inl ⟨Bool.of_not_eq_false h, rfl⟩

/-- **`mpinit` ends within bounds exactly on the tables of known entries with at most `NCPU`
processors.** -/
theorem mpinit_settles_iff (mem : Memory) (mp conf : Nat) (h : mpconfig mem = some (mp, conf)) :
    (∃ fuel s, mpinit mem fuel = some s ∧ Settled mem conf s) ↔
      ∃ ps, Entries mem (conf + length mem conf) (conf + 44) ps ∧
        ps.countP (isProc mem) ≤ ncpuMax := by
  have hinit (fuel : Nat) : mpinit mem fuel = (scan mem (conf + length mem conf) fuel (conf + 44)
      { Cpus.boot with ismp := true, lapic := word32 mem (conf + 36) }).map
        (Cpus.finish mem mp) := by
    unfold mpinit
    rw [h]
  simp only [hinit]
  generalize hs₀ : { Cpus.boot with ismp := true, lapic := word32 mem (conf + 36) } = s₀
  have hncpu : s₀.ncpu = 0 := by rw [← hs₀]; rfl
  have hused : s₀.used = [0] := by rw [← hs₀]; rfl
  constructor
  · rintro ⟨fuel, s, hs, hbound, -⟩
    obtain ⟨t, ht, rfl⟩ := Option.map_eq_some_iff.mp hs
    obtain ⟨ps, hps, rfl⟩ := entries_of_scan ht
    refine ⟨ps, hps, ?_⟩
    rw [used_finish] at hbound
    -- the index of the ninth processor
    by_contra hmany
    have hninth : ncpuMax ∈ (ps.foldl (visit mem) s₀).used := by
      rw [mem_used_visits, hncpu]
      exact .inr (by omega)
    exact Nat.lt_irrefl _ (hbound ncpuMax hninth)
  · rintro ⟨ps, hps, hle⟩
    refine ⟨ps.length + 1, _, congrArg _ (scan_entries hps s₀ (Nat.lt_succ_self _)), ?_, ?_⟩
    · intro i hi
      rw [used_finish, mem_used_visits, hncpu, hused, List.mem_singleton] at hi
      have : ncpuMax = 8 := rfl
      omega
    · refine (finish_cases mp _).imp (fun hc => ⟨hc.1, ps, hps, ?_⟩) id
      rw [hc.2, ncpu_visits, hncpu, Nat.zero_add]

/-- The bytes of a floating pointer structure at `0x800`, for a table at `0x810`. -/
def floating : List Byte :=
  let bytes (sum : Byte) : List Byte :=
    [0x5f, 0x4d, 0x50, 0x5f, 0x10, 0x08, 0, 0, 1, 4, sum, 0, 0, 0, 0, 0]
  bytes (-(bytes 0).sum)

/-- The bytes of a table with these entries. -/
def table (entries : List Byte) : List Byte :=
  let bytes (sum : Byte) : List Byte :=
    [0x50, 0x43, 0x4d, 0x50] ++ [BitVec.ofNat 8 (44 + entries.length), 0, 4, sum] ++
      List.replicate 28 0 ++ [0, 0, 0xe0, 0xfe, 0, 0, 0, 0] ++ entries
  bytes (-(bytes 0).sum)

/-- A memory that holds both, and the segment of the structure in the BIOS data area. -/
def memory (entries : List Byte) : Memory := fun a =>
  if a = 0x40e then 0x80
  else if a < 0x800 then 0
  else ((floating ++ table entries)[a - 0x800]?).getD 0

/-- A processor entry. -/
def processor (apicid : Byte) : List Byte := [0, apicid, 0x14, 1] ++ List.replicate 16 0

/-- Two processors and a bus. -/
def twoProcessors : List Byte := processor 0 ++ processor 1 ++ [1, 0, 0, 0, 0, 0, 0, 0]

theorem mpinit_settles_on_two_processors :
    ∃ fuel s, mpinit (memory twoProcessors) fuel = some s ∧
      Settled (memory twoProcessors) 0x810 s := by
  refine (mpinit_settles_iff _ 0x800 0x810 (by decide +kernel)).mpr
    ⟨[0x810 + 44, 0x810 + 64, 0x810 + 84], ?_, by decide +kernel⟩
  refine .cons (k := .proc) (by decide +kernel) (by decide +kernel) ?_
  refine .cons (k := .proc) (by decide +kernel) (by decide +kernel) ?_
  refine .cons (k := .bus) (by decide +kernel) (by decide +kernel) ?_
  exact .done (by decide +kernel)

/-- Nine processors. -/
def nineProcessors : List Byte := (List.range 9).flatMap fun i => processor (BitVec.ofNat 8 i)

/-- **Two tables that `mpconfig` accepts**: on one with an entry of type 5 the loop never ends, and on
one with nine processors the index 8 is used. -/
theorem mpinit_fails_on_odd_tables :
    (mpconfig (memory [5]) = some (0x800, 0x810) ∧ ∀ fuel, mpinit (memory [5]) fuel = none) ∧
      mpconfig (memory nineProcessors) = some (0x800, 0x810) ∧
      ∃ s, mpinit (memory nineProcessors) 10 = some s ∧ ncpuMax ∈ s.used := by
  refine ⟨⟨by decide +kernel, fun fuel => ?_⟩, by decide +kernel, ?_⟩
  · have hconf : mpconfig (memory [5]) = some (0x800, 0x810) := by decide +kernel
    rw [Option.eq_none_iff_forall_ne_some]
    intro s hs
    unfold mpinit at hs
    rw [hconf] at hs
    obtain ⟨t, ht, -⟩ := Option.map_eq_some_iff.mp hs
    obtain ⟨ps, hps, -⟩ := entries_of_scan ht
    -- the byte at the first entry is no known type
    cases hps with
    | done hp => exact hp (by decide +kernel)
    | cons _ hk _ =>
      have hnone : kind (memory [5] (0x810 + 44)) = none := by decide +kernel
      exact nomatch hnone.symm.trans hk
  · have h : (mpinit (memory nineProcessors) 10).any (fun s => decide (ncpuMax ∈ s.used)) = true := by
      decide +kernel
    obtain ⟨s, hs, hused⟩ := (Option.any_eq_true _ _).mp h
    exact ⟨s, hs, of_decide_eq_true hused⟩

end Xv6.Mp
