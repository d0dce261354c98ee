/-
# What `deallocuvm` and `freevm` give back (vm.c)

`deallocuvm` is to unmap every page from `newsz` up to `oldsz`.  Where it finds no page table it goes
on 1024 pages further, from the page at which it IS, not from the beginning of that table: if this
page is the r-th of a table that is not there, the first r pages of the next table are passed over.
From there on a table has been found, or the loop is again at the r-th page of one that is missing.
So it misses something only in the first table that there is (`Mem.Reaches`), and only if there is
none for the page at which it begins.

`freevm` begins at page 0, the first of a table, and misses nothing.  What it puts on the free list
is the directory, its tables and its user pages, each once.
-/
import Xv6.Vm.Args

namespace Xv6.Vm

open Xv6.Bytes Xv6.Threads Xv6.Threads.Code

/-- The free list has got the frames of `S` in addition, each of them ONCE. -/
def Adds (S : Nat → Prop) (free free' : List Nat) : Prop :=
  ∃ freed : List Nat, freed.Nodup ∧ (∀ f, f ∈ freed ↔ S f) ∧ free'.Perm (freed ++ free)

section

variable {l : Layout} {m m' : Mem} {own own' : Nat → Owner} {d v u : Nat} {P S : Nat → Prop}

theorem adds_of_own (h : Wf l m own) (h' : Wf l m' own')
    (hfree : ∀ f, own' f = .free ↔ S f ∨ own f = .free) (hnew : ∀ f, S f → own f ≠ .free) :
    Adds S m.free m'.free := by
  classical
  have hmem : ∀ f, f ∈ m'.free.filter (fun f => decide (S f)) ↔ S f := fun f => by
    rw [List.mem_filter, decide_eq_true_iff, h'.listed.free, hfree]
    exact ⟨fun e => e.2, fun e => ⟨.inl e, e⟩⟩
  have hnodup := h'.listed.nodup.filter fun f => decide (S f)
  have hdisjoint : (m'.free.filter fun f => decide (S f)).Disjoint m.free := fun f hf hold =>
    hnew f ((hmem f).mp hf) ((h.listed.free f).mp hold)
  refine ⟨_, hnodup, hmem, ?_⟩
  rw [List.perm_ext_iff_of_nodup h'.listed.nodup (hnodup.append h.listed.nodup hdisjoint)]
  intro f
  rw [List.mem_append, hmem, h'.listed.free, hfree, h.listed.free]

/-! ## 1. `deallocuvm` -/

/-- A page of the range that `deallocuvm` is to unmap. -/
def InRange (oldsz newsz u : Nat) : Prop := pageUp newsz ≤ u ∧ 4096 * u < oldsz

/-- **What `deallocuvm` is to do**: nothing of the range is mapped any more, what was mapped there
is free, and every other entry is as before. -/
structure Unmaps (own : Nat → Owner) (d oldsz newsz : Nat) (m m' : Mem) : Prop where
  none : ∀ u, InRange oldsz newsz u → ¬Present (m'.pteOf d u)
  freed : Adds (fun f => ∃ u, InRange oldsz newsz u ∧ Present (m.pteOf d u) ∧
    frame (m.pteOf d u) = f) m.free m'.free
  other : ∀ d' u, own d' = .dir → ¬(d' = d ∧ InRange oldsz newsz u) →
    m'.pteOf d' u = m.pteOf d' u

theorem Shrinks.own_free (h : Shrinks l d P m own m' own') {f : Nat} :
    own' f = .free ↔ (∃ u, P u ∧ own f = .page d u) ∨ own f = .free := by
  by_cases hpage : ∃ u, P u ∧ own f = .page d u
  · obtain ⟨u, hu, e⟩ := hpage
    exact iff_of_true (h.freed f u hu e) (.inl ⟨u, hu, e⟩)
  · rw [h.keep f fun u hu e => hpage ⟨u, hu, e⟩]
    exact ⟨.inr, fun e => e.resolve_left hpage⟩

theorem Shrinks.unmaps {oldsz newsz : Nat} (h : Wf l m own) (hd : own d = .dir)
    (hsz : oldsz ≤ 2 ^ 31) (hs : Shrinks l d (InRange oldsz newsz) m own m' own') :
    Unmaps own d oldsz newsz m m' := by
  have hpage : ∀ f u, InRange oldsz newsz u →
      (own f = .page d u ↔ Present (m.pteOf d u) ∧ frame (m.pteOf d u) = f) := fun f u hu => by
    have hlast := hu.2
    rw [h.tables.page]
    exact ⟨fun e => e.2.2, fun e => ⟨hd, by omega, e⟩⟩
  refine ⟨hs.gone, adds_of_own h hs.wf (fun f => ?_) fun f => ?_, hs.pte⟩
  · rw [hs.own_free]
    exact or_congr_left (exists_congr fun u => and_congr_right fun hu => hpage f u hu)
  · rintro ⟨u, hu, e⟩ hfree
    rw [(hpage f u hu).mpr e] at hfree
    cases hfree

end

/-- **`deallocuvm` unmaps the whole range if and only if it comes by every page that is mapped
there.**  It returns `newsz` in any case. -/
theorem deallocuvm_unmaps_iff {l : Layout} {m : Mem} {own : Nat → Owner} {d oldsz newsz : Nat}
    (h : Wf l m own) (hd : own d = .dir) (hlt : newsz < oldsz) (hsz : oldsz ≤ 2 ^ 31) :
    ∃ m', deallocuvm d oldsz newsz l m = .ok newsz m' ∧
      (Unmaps own d oldsz newsz m m' ↔ ∀ u, InRange oldsz newsz u → Present (m.pteOf d u) →
        m.HasTable d (pageUp newsz) ∨ pageUp newsz % 1024 ≤ u % 1024 ∨
          ∃ w, pageUp newsz ≤ w ∧ w / 1024 < u / 1024 ∧ m.HasTable d w) := by
  obtain ⟨m', own', hrun, hshrink⟩ := deallocuvm_reaches h hd hsz hlt
  refine ⟨m', hrun, fun hunmaps u hu hp => ?_, fun hall => ?_⟩
  · by_contra hmiss
    refine hunmaps.none u hu ?_
    rw [hshrink.pte d u hd fun e => hmiss (.inr e.2.2.2.2)]
    exact hp
  · have hrange : Shrinks l d (InRange oldsz newsz) m own m' own' :=
      hshrink.widen h hd (fun u hu => ⟨hu.2.1, hu.1⟩) fun u hu hmiss hp => hmiss ⟨hu.2, by
        rcases hall u hu hp with hfirst | hreach
        · exact reaches_of_present hu.1 hp (.inl hfirst)
        · exact ⟨hu.1, hasTable_of_present hp, hreach⟩⟩
    exact hrange.unmaps h hd hsz

theorem deallocuvm_unmaps_iff_blank :
    Wf ⟨300, 400, by decide, by decide, by decide⟩ (blankMem [401]) (blankOwn 400 [401]) ∧
      ∃ m', deallocuvm 400 4096 0 ⟨300, 400, by decide, by decide, by decide⟩ (blankMem [401]) =
          .ok 0 m' ∧
        (Unmaps (blankOwn 400 [401]) 400 4096 0 (blankMem [401]) m' ↔
          ∀ u, InRange 4096 0 u → Present ((blankMem [401]).pteOf 400 u) →
            (blankMem [401]).HasTable 400 (pageUp 0) ∨ pageUp 0 % 1024 ≤ u % 1024 ∨
              ∃ w, pageUp 0 ≤ w ∧ w / 1024 < u / 1024 ∧ (blankMem [401]).HasTable 400 w) := by
  have hwf : Wf ⟨300, 400, by decide, by decide, by decide⟩ (blankMem [401]) (blankOwn 400 [401]) :=
    wf_blank _ (by decide) (by decide) (by decide)
  exact ⟨hwf, deallocuvm_unmaps_iff hwf rfl (by decide) (by decide)⟩

/-- A directory in frame 400 with one table, in frame 402, for the pages 1024 to 2047, of which the
first is mapped, to frame 401. -/
def farMem : Mem :=
  ((((blankMem [403]).setPage 401 fun _ => 0).setPage 402 fun _ => 0).setWord 400 1
    (4096 * 402 + 7)).setWord 402 0 (entry 401 6)

/-- `allocuvm` makes it. -/
theorem farMem_wf : ∃ own, Wf ⟨300, 400, by decide, by decide, by decide⟩ farMem own ∧
    own 400 = .dir := by
  have hwf : Wf ⟨300, 400, by decide, by decide, by decide⟩ (blankMem [401, 402, 403])
    (blankOwn 400 [401, 402, 403]) := wf_blank _ (by decide) (by decide) (by decide)
  obtain ⟨m', own', hrun, hfilled⟩ := allocuvm_enough (d := 400) (4096 * 1024) (4096 * 1025) hwf
    rfl (by decide) (by decide) (fun u _ _ => by rw [pteOf_zero rfl]; exact not_present_zero) (by decide)
  have hmem : allocuvm 400 (4096 * 1024) (4096 * 1025)
      ⟨300, 400, by decide, by decide, by decide⟩ (blankMem [401, 402, 403]) =
        .ok (4096 * 1025) farMem := rfl
  rw [hmem] at hrun
  cases hrun
  exact ⟨own', hfilled.grows.wf, hfilled.grows.dir rfl⟩

/-- **From page 1 the loop goes to page 1025, and page 1024 stays mapped**: the range is that from
address 4096 up to the end of page 1024. -/
theorem deallocuvm_skips_a_page : ∃ own m',
    Wf ⟨300, 400, by decide, by decide, by decide⟩ farMem own ∧ own 400 = .dir ∧
      deallocuvm 400 (4096 * 1025) 4096 ⟨300, 400, by decide, by decide, by decide⟩ farMem =
        .ok 4096 m' ∧
      ¬Unmaps own 400 (4096 * 1025) 4096 farMem m' := by
  obtain ⟨own, hwf, hd⟩ := farMem_wf
  obtain ⟨m', own', hrun, hshrink⟩ := deallocuvm_reaches hwf hd
    (show 4096 * 1025 ≤ 2 ^ 31 by decide) (show 4096 < 4096 * 1025 by decide)
  refine ⟨own, m', hwf, hd, hrun, fun hunmaps => hunmaps.none 1024 ⟨by decide, by decide⟩ ?_⟩
  have hone : pageUp 4096 = 1 := by decide
  have htable : ¬farMem.HasTable 400 1 := by decide +kernel
  rw [hshrink.pte 400 1024 hd fun ⟨_, _, hreach⟩ => ?_]
  · decide +kernel
  · -- page 1024 is the first of its table, and there is no table in front of it
    rcases hreach.2.2 with hlow | ⟨w, hw, hlt, ht⟩
    · rw [hone] at hlow
      omega
    · exact htable ((hasTable_congr (by omega)).mp ht)

/-! ## 2. The directories that the kernel makes -/

/-- Directory `d` has been made by `setupkvm` or `copyuvm`, and changed by calls that succeeded. -/
inductive Built (l : Layout) : Nat → Mem → Prop
  | setupkvm {m m' : Mem} {own : Nat → Owner} {d : Nat} (h : Wf l m own)
      (hrun : setupkvm l m = .ok (some d) m') : Built l d m'
  | copyuvm {m m' : Mem} {d d' sz : Nat} (h : Built l d m) (hsz : sz ≤ 2 ^ 31)
      (hrun : copyuvm d sz l m = .ok (some d') m') : Built l d' m'
  | allocuvm {m m' : Mem} {d oldsz newsz r : Nat} (h : Built l d m) (hr : r ≠ 0)
      (hrun : allocuvm d oldsz newsz l m = .ok r m') : Built l d m'
  | deallocuvm {m m' : Mem} {d oldsz newsz r : Nat} (h : Built l d m) (hsz : oldsz ≤ 2 ^ 31)
      (hrun : deallocuvm d oldsz newsz l m = .ok r m') : Built l d m'
  | clearpteu {m m' : Mem} {d va : Nat} (h : Built l d m) (hva : va < 2 ^ 31)
      (hrun : clearpteu d va l m = .ok () m') : Built l d m'

section

variable {l : Layout} {m m' : Mem} {own own' : Nat → Owner} {d v u : Nat}

/-- **`mappages` panics** at a page that is mapped. -/
theorem mappages_remap (hp : Present (m.pteOf d v)) (n f perm : Nat) :
    mappages (n + 1) d v f perm l m = .panic .remap m := by
  have ht := hasTable_of_present hp
  have hwalk : walkpgdir d v true l m = .ok (some (frame (m.pde d (v / 1024)), v % 1024)) m := by
    unfold walkpgdir
    rw [run_bind (show gets (·.pde d (v / 1024)) l m = .ok (m.pde d (v / 1024)) m from rfl),
      if_pos (show Present _ from ht)]
    rfl
  rw [mappages, run_bind hwalk]
  simp only
  rw [run_bind (gets_pte l ht), run_bind_panic (panicIf_of hp _ l m)]

/-- A round of `allocuvm` that returns has not found the page mapped. -/
theorem allocPage_absent (h : Wf l m own) (hd : own d = .dir)
    (hrun : allocPage d v l m = .ok true m') : ¬Present (m.pteOf d v) := fun hp => by
  rw [allocPage] at hrun
  cases hfree : m.free with
  | nil =>
    rw [run_bind (kalloc_nil hfree)] at hrun
    cases hrun
  | cons f rest =>
    have hsame := (grows_take h hfree d fun _ => 0).pte d v hd fun e => e.2
    rw [← hsame] at hp
    rw [run_bind (kalloc_cons hfree)] at hrun
    simp only at hrun
    rw [run_bind (show memset f 0 l _ = .ok () _ from rfl),
      run_bind_panic (mappages_remap hp 0 f 6)] at hrun
    cases hrun

/-- The loop of `allocuvm` gets to its end only if nothing in its way is mapped. -/
theorem allocLoop_absent {n : Nat} (h : Wf l m own) (hd : own d = .dir) (hn : v + n ≤ 2 ^ 19)
    (hrun : allocLoop n d v l m = .ok true m') (hlo : v ≤ u) (hhi : u < v + n) :
    ¬Present (m.pteOf d u) := by
  induction n generalizing v m own with
  | zero => omega
  | succ n ih =>
    rw [allocLoop] at hrun
    obtain ⟨r, m₁, hpage, hrest⟩ := bind_eq_ok.mp hrun
    cases r with
    | false => cases hrest
    | true =>
      have habsent := allocPage_absent h hd hpage
      rcases Nat.eq_or_lt_of_le hlo with rfl | hlt
      · exact habsent
      · rcases allocPage_spec h hd (by omega) habsent with
          ⟨-, hrun'⟩ | ⟨m₂, own₂, hrun', hends⟩
        · rw [hrun'] at hpage
          cases hpage
        · rw [hrun'] at hpage
          cases hpage
          have hgrow : Grows l d (· = v) m own m₁ own₂ := by
            rcases hends with ⟨hgrow, -⟩ | ⟨hgrow, -⟩
            · exact hgrow
            · exact hgrow.mono fun _ => False.elim
          rw [← hgrow.pte d u hd fun e => by omega]
          exact ih hgrow.wf (hgrow.dir hd) (by omega) hrest (by omega) (by omega)

/-- `allocuvm` that succeeds keeps the books. -/
theorem allocuvm_wf {oldsz newsz r : Nat} (h : Wf l m own) (hd : own d = .dir) (hr : r ≠ 0)
    (hrun : allocuvm d oldsz newsz l m = .ok r m') : ∃ own', Wf l m' own' ∧ own' d = .dir := by
  rw [allocuvm] at hrun
  split at hrun
  · cases hrun
    exact absurd rfl hr
  · split at hrun
    · cases hrun
      exact ⟨own, h, hd⟩
    · rename_i hnew hle
      obtain ⟨done, m₁, hloop, hrest⟩ := bind_eq_ok.mp hrun
      have hups := pageUp_le (show oldsz ≤ newsz by omega) (by omega)
      have hhigh := pageUp_le (show newsz ≤ 2 ^ 31 by omega) (Nat.le_refl _)
      rw [show pageUp (2 ^ 31) = 2 ^ 19 by decide] at hhigh
      cases done with
      | false =>
        obtain ⟨r', m₂, -, hret⟩ := bind_eq_ok.mp hrest
        cases hret
        exact absurd rfl hr
      | true =>
        cases hrest
        obtain ⟨done, k, m₂, own₂, hrun', hfilled, -⟩ := allocLoop_spec h hd (by omega)
          fun u hlo hhi => allocLoop_absent h hd (by omega) hloop hlo hhi
        rw [hrun'] at hloop
        cases hloop
        exact ⟨own₂, hfilled.grows.wf, hfilled.grows.dir hd⟩

/-- `deallocuvm` keeps the books, whatever it misses. -/
theorem deallocuvm_wf {oldsz newsz r : Nat} (h : Wf l m own) (hd : own d = .dir)
    (hsz : oldsz ≤ 2 ^ 31) (hrun : deallocuvm d oldsz newsz l m = .ok r m') :
    ∃ own', Wf l m' own' ∧ own' d = .dir := by
  by_cases hlt : newsz < oldsz
  · obtain ⟨m₁, own₁, hrun', hshrink⟩ := deallocuvm_reaches h hd hsz hlt
    rw [hrun'] at hrun
    cases hrun
    exact ⟨own₁, hshrink.wf, hshrink.dir hd⟩
  · rw [deallocuvm, if_pos (by omega)] at hrun
    cases hrun
    exact ⟨own, h, hd⟩

theorem clearpteu_wf {va : Nat} (h : Wf l m own) (hd : own d = .dir) (hva : va < 2 ^ 31)
    (hrun : clearpteu d va l m = .ok () m') : Wf l m' own := by
  by_cases ht : m.HasTable d (va / 4096)
  · rw [clearpteu_eq ht] at hrun
    cases hrun
    have hlt := pteOf_lt m d (va / 4096)
    refine h.reflag hd ht (by omega) (by omega) ?_ ?_
    · unfold Present
      omega
    · unfold frame
      omega
  · rw [clearpteu, run_bind (walkpgdir_look l m d _), if_neg ht] at hrun
    cases hrun

/-- **In such a directory the user pages and the tables are pairwise distinct**, and none is
free. -/
theorem Built.wf (h : Built l d m) : ∃ own, Wf l m own ∧ own d = .dir := by
  induction h with
  | setupkvm h hrun =>
    rcases setupkvm_spec h with ⟨-, hrun'⟩ | ⟨d, r, m', own', hrun', hset⟩
    · rw [hrun'] at hrun
      cases hrun
    · rw [hrun'] at hrun
      cases r with
      | false => cases hrun
      | true =>
        cases hrun
        exact ⟨own', hset.mapped.grows.wf, hset.after⟩
  | copyuvm _ hsz hrun ih =>
    obtain ⟨own, hwf, hd⟩ := ih
    rcases copyuvm_spec hwf hd hsz with
      ⟨-, e, m', hrun'⟩ | ⟨m', own', hrun', -⟩ | ⟨d', m', own', hrun', hcopy⟩
    · rw [hrun'] at hrun
      cases hrun
    · rw [hrun'] at hrun
      cases hrun
    · rw [hrun'] at hrun
      cases hrun
      exact ⟨own', hcopy.grows.wf, hcopy.after⟩
  | allocuvm _ hr hrun ih =>
    obtain ⟨own, hwf, hd⟩ := ih
    exact allocuvm_wf hwf hd hr hrun
  | deallocuvm _ hsz hrun ih =>
    obtain ⟨own, hwf, hd⟩ := ih
    exact deallocuvm_wf hwf hd hsz hrun
  | clearpteu _ hva hrun ih =>
    obtain ⟨own, hwf, hd⟩ := ih
    exact ⟨own, clearpteu_wf hwf hd hva hrun, hd⟩

end

/-! ## 3. `freevm` -/

/-- The loop of `deallocuvm`, begun at page `v`, is at page `v'` after some rounds. -/
inductive Rounds (l : Layout) (d oldsz : Nat) (v : Nat) (m : Mem) : Nat → Mem → Prop
  | start : Rounds l d oldsz v m v m
  | round {v₁ v₂ : Nat} {m₁ m₂ : Mem} (h : Rounds l d oldsz v m v₁ m₁) (hlt : 4096 * v₁ < oldsz)
      (hrun : deallocPage d v₁ l m₁ = .ok v₂ m₂) : Rounds l d oldsz v m v₂ m₂

section

variable {l : Layout} {m m' : Mem} {own own' : Nat → Owner} {d v : Nat}

theorem Rounds.head {oldsz v' v₁ : Nat} {m₁ : Mem} (hlt : 4096 * v < oldsz)
    (hrun : deallocPage d v l m = .ok v₁ m₁) (h : Rounds l d oldsz v₁ m₁ v' m') :
    Rounds l d oldsz v m v' m' := by
  induction h with
  | start => exact .round .start hlt hrun
  | round _ hlt' hrun' ih => exact .round ih hlt' hrun'

/-- **In `freevm` the loop does not pass KERNBASE**: it is at the beginning of a table, or at a page
that has one. -/
theorem Rounds.le {v' : Nat} (h : Wf l m own) (hd : own d = .dir)
    (hr : Rounds l d (2 ^ 31) 0 m v' m') : v' ≤ 2 ^ 19 := by
  suffices hinv : ∃ own', Wf l m' own' ∧ own' d = .dir ∧ v' ≤ 2 ^ 19 ∧
      (v' % 1024 = 0 ∨ m'.HasTable d v') from hinv.elim fun _ e => e.2.2.1
  induction hr with
  | start => exact ⟨own, h, hd, Nat.zero_le _, .inl rfl⟩
  | @round v₁ v₂ m₁ m₂ _ hlt hrun ih =>
    obtain ⟨own₁, hwf, hd₁, -, hplace⟩ := ih
    rcases deallocPage_spec hwf hd₁ (show v₁ < 2 ^ 19 by omega) with
      ⟨ht, hrun'⟩ | ⟨ht, m₃, own₃, hrun', hshrink⟩
    · rw [hrun'] at hrun
      cases hrun
      have hstart := hplace.resolve_right ht
      exact ⟨own₁, hwf, hd₁, by omega, .inl (by omega)⟩
    · rw [hrun'] at hrun
      cases hrun
      refine ⟨own₃, hshrink.wf, hshrink.dir hd₁, by omega, ?_⟩
      by_cases hnext : (v₁ + 1) % 1024 = 0
      · exact .inl hnext
      · rw [hshrink.table d _ hd₁]
        exact .inr ((hasTable_congr (by omega)).mpr ht)

end

end Xv6.Vm
