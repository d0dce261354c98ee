/-
# `copyout`: the kernel writes to the user's memory (vm.c)

`copyout` goes through the pages of `[va, va + len)` one by one, asks `uva2ka` for the frame and
copies what belongs to the page.  `uva2ka` calls `walkpgdir`, which returns a null pointer if there
is no page table for the address, and READS THE ENTRY THROUGH IT.  A page that is not there is
noticed only if there is a table for its neighbours.

That is the only way in which `copyout` can fail to do what it says (`copyout_iff`).  `clone` lets
the user choose the address (its stack), and `exec` the length.
-/
import Xv6.Vm.Owner

namespace Xv6.Vm

open Xv6.Bytes Xv6.Threads Xv6.Threads.Code

/-! ## 1. Pages that can be accessed -/

/-- The user can access page `v`. -/
def Mem.Accessible (m : Mem) (d v : Nat) : Prop := Present (m.pteOf d v) ∧ User (m.pteOf d v)

instance (m : Mem) (d v : Nat) : Decidable (m.Accessible d v) :=
  inferInstanceAs (Decidable (_ ∧ _))

section

variable {l : Layout} {m m' m₁ : Mem} {own : Nat → Owner} {d v va k : Nat} {buf : List Byte}

/-- What is accessible is a page of the user's part, -/
theorem Wf.own_accessible (h : Wf l m own) (hd : own d = .dir) (ha : m.Accessible d v) :
    own (frame (m.pteOf d v)) = .page d v := by
  have hlt := lt_of_hasTable (hasTable_of_present ha.1)
  refine (h.tables.page d v _).mpr ⟨hd, ?_, ha.1, rfl⟩
  by_contra hge
  exact h.tables.kernel d v hd (by omega) hlt ha.1 ha.2

/-- and there is only one page for a frame. -/
theorem Wf.frame_inj (h : Wf l m own) (hd : own d = .dir) {u : Nat} (hv : m.Accessible d v)
    (hu : m.Accessible d u) (he : frame (m.pteOf d v) = frame (m.pteOf d u)) : v = u := by
  have hv' := h.own_accessible hd hv
  rw [he, h.own_accessible hd hu] at hv'
  cases hv'
  rfl

/-- `walkpgdir` without `alloc` only looks. -/
theorem walkpgdir_look (l : Layout) (m : Mem) (d v : Nat) : walkpgdir d v false l m =
    .ok (if m.HasTable d v then some (frame (m.pde d (v / 1024)), v % 1024) else none) m := by
  unfold walkpgdir
  rw [run_bind (show gets (·.pde d (v / 1024)) l m = .ok (m.pde d (v / 1024)) m from rfl)]
  by_cases ht : m.HasTable d v
  · rw [if_pos ht, if_pos (show Present _ from ht)]
    rfl
  · rw [if_neg ht, if_neg (show ¬Present _ from ht), if_pos rfl]
    rfl

/-- The entry that it points to is read. -/
theorem gets_pte (l : Layout) (ht : m.HasTable d v) :
    (gets fun s : Mem => word (s.page (frame (m.pde d (v / 1024)))) (v % 1024) : V Nat) l m =
      .ok (m.pteOf d v) m := congrArg (Out.ok · m) (pteOf_of_hasTable ht).symm

/-- **`uva2ka`** -/
theorem uva2ka_eq (l : Layout) (m : Mem) (d v : Nat) : uva2ka d v l m =
    if m.HasTable d v then
      .ok (if m.Accessible d v then some (frame (m.pteOf d v)) else none) m
    else .panic .nullPte m := by
  unfold uva2ka
  rw [run_bind (walkpgdir_look l m d v)]
  by_cases ht : m.HasTable d v
  · rw [if_pos ht, if_pos ht]
    simp only
    rw [run_bind (gets_pte l ht)]
    by_cases hp : Present (m.pteOf d v)
    · by_cases hu : User (m.pteOf d v)
      · rw [if_neg (not_not_intro hp), if_neg (not_not_intro hu), if_pos ⟨hp, hu⟩]
        rfl
      · rw [if_neg (not_not_intro hp), if_pos hu, if_neg fun e => hu e.2]
        rfl
    · rw [if_pos hp, if_neg fun e => hp e.1]
      rfl
  · rw [if_neg ht, if_neg ht]
    rfl

/-! ## 2. What has been copied -/

/-- The first `k` bytes of `buf` have been written from address `va` on, and nothing else. -/
structure Copied (d va : Nat) (buf : List Byte) (k : Nat) (m m' : Mem) : Prop where
  within : k ≤ buf.length
  reach : ∀ a, va ≤ a → a < va + k → m.Accessible d (a / 4096)
  written : ∀ a, va ≤ a → a < va + k →
    some (get (m'.page (frame (m.pteOf d (a / 4096)))) (a % 4096)) = buf[a - va]?
  kept : ∀ f j, (∀ a, va ≤ a → a < va + k → ¬(frame (m.pteOf d (a / 4096)) = f ∧ a % 4096 = j)) →
    get (m'.page f) j = get (m.page f) j
  free : m'.free = m.free
  denied : m'.denied = m.denied

theorem Copied.zero (d va : Nat) (buf : List Byte) (m : Mem) : Copied d va buf 0 m m :=
  ⟨Nat.zero_le _, fun a h h' => absurd h' (by omega), fun a h h' => absurd h' (by omega),
    fun _ _ _ => rfl, rfl, rfl⟩

/-- One page of the user's is overwritten: the entries stay. -/
structure Overwritten (l : Layout) (own : Nat → Owner) (m m' : Mem) : Prop where
  wf : Wf l m' own
  pte : ∀ d' v, own d' = .dir → m'.pteOf d' v = m.pteOf d' v
  table : ∀ d' v, own d' = .dir → (m'.HasTable d' v ↔ m.HasTable d' v)

theorem Overwritten.refl (h : Wf l m own) : Overwritten l own m m :=
  ⟨h, fun _ _ _ => rfl, fun _ _ _ => Iff.rfl⟩

theorem Overwritten.trans (h : Overwritten l own m m₁) (h' : Overwritten l own m₁ m') :
    Overwritten l own m m' :=
  ⟨h'.wf, fun d' v hd' => (h'.pte d' v hd').trans (h.pte d' v hd'),
    fun d' v hd' => (h'.table d' v hd').trans (h.table d' v hd')⟩

/-- The same pages can be accessed. -/
theorem Overwritten.accessible (h : Overwritten l own m m') (hd : own d = .dir) (v : Nat) :
    m'.Accessible d v ↔ m.Accessible d v := by
  rw [Mem.Accessible, h.pte d v hd, Mem.Accessible]

theorem Wf.overwrite (h : Wf l m own) (hd : own d = .dir) (ha : m.Accessible d v) (x : Page) :
    Overwritten l own m (m.setPage (frame (m.pteOf d v)) x) := by
  have hdata : ¬(own (frame (m.pteOf d v))).IsTable := by
    rw [h.own_accessible hd ha]
    exact id
  refine ⟨h.fill hdata x, fun d' v hd' => h.tables.pteOf_setPage hdata x hd', fun d' v hd' => ?_⟩
  unfold Mem.HasTable
  rw [pde_setPage hdata x hd']

/-- What lies in one page. -/
theorem copied_page {n : Nat} (ha : m.Accessible d (va / 4096)) (hn : n ≤ buf.length)
    (hpage : n ≤ 4096 - va % 4096) :
    Copied d va buf n m (m.setPage (frame (m.pteOf d (va / 4096)))
      (put (m.page (frame (m.pteOf d (va / 4096)))) (va % 4096) (buf.take n))) := by
  have hsame : ∀ a, va ≤ a → a < va + n → a / 4096 = va / 4096 := fun a h h' => by omega
  refine ⟨hn, fun a h h' => by rwa [hsame a h h'], fun a h h' => ?_, fun f j hout => ?_, rfl, rfl⟩
  · rw [hsame a h h', Mem.page_setPage_self, get_put _ _ _ (by omega), if_pos (by omega),
      show a % 4096 - va % 4096 = a - va by omega, List.getElem?_take_of_lt (by omega),
      List.getElem?_eq_getElem (by omega), Option.getD_some]
  · by_cases hf : f = frame (m.pteOf d (va / 4096))
    · subst hf
      rw [Mem.page_setPage_self]
      by_cases hj : j < 4096
      · rw [get_put _ _ _ hj]
        split
        · rename_i hle
          rw [List.getElem?_take, if_neg, Option.getD_none]
          intro hlt
          have hin := hout (va + (j - va % 4096)) (by omega) (by omega)
          rw [hsame _ (by omega) (by omega)] at hin
          exact hin ⟨rfl, by omega⟩
        · rfl
      · rw [Bytes.get, dif_neg hj, Bytes.get, dif_neg hj]
    · rw [Mem.page_setPage_of_ne _ hf]

/-- **One piece after another**: the later one does not touch the earlier. -/
theorem Copied.trans (h : Wf l m own) (hd : own d = .dir) {n : Nat}
    (hfirst : Copied d va buf n m m₁) (ho : Overwritten l own m m₁)
    (hrest : Copied d (va + n) (buf.drop n) k m₁ m') : Copied d va buf (n + k) m m' := by
  have hpte := fun v => ho.pte d v hd
  have hn := hfirst.within
  have hk := hrest.within
  rw [List.length_drop] at hk
  have hreach : ∀ a, va ≤ a → a < va + (n + k) → m.Accessible d (a / 4096) := by
    intro a hlo hhi
    by_cases hin : a < va + n
    · exact hfirst.reach a hlo hin
    · have := hrest.reach a (by omega) (by omega)
      rwa [Mem.Accessible, hpte] at this
  refine ⟨by omega, hreach, fun a hlo hhi => ?_, fun f j hout => ?_,
    hrest.free.trans hfirst.free, hrest.denied.trans hfirst.denied⟩
  · by_cases hin : a < va + n
    · rw [hrest.kept, hfirst.written a hlo hin]
      rintro a' hlo' hhi' ⟨hframe, hoff⟩
      rw [hpte] at hframe
      have := h.frame_inj hd (hreach a' (by omega) (by omega)) (hreach a hlo hhi) hframe
      omega
    · have := hrest.written a (by omega) (by omega)
      rwa [hpte, List.getElem?_drop, show n + (a - (va + n)) = a - va by omega] at this
  · rw [hrest.kept, hfirst.kept]
    · exact fun a hlo hhi => hout a hlo (by omega)
    · intro a hlo hhi
      rw [hpte]
      exact hout a (by omega) (by omega)

/-! ## 3. `copyout` -/

/-- Page `v` meets `[va, va + n)`. -/
def Meets (va n v : Nat) : Prop := 0 < n ∧ va < 4096 * (v + 1) ∧ 4096 * v < va + n

/-- Page `v` is the first of them that the user cannot access. -/
structure FirstBad (m : Mem) (d va n v : Nat) : Prop where
  meets : Meets va n v
  bad : ¬m.Accessible d v
  before : ∀ u, Meets va n u → u < v → m.Accessible d u

/-- How `copyout` ends. -/
def CopyEnds (d va : Nat) (buf : List Byte) (m : Mem) : Out Stop Mem Bool → Prop
  | .ok true m' => Copied d va buf buf.length m m'
  | .ok false m' => ∃ v, FirstBad m d va buf.length v ∧ m.HasTable d v ∧
      Copied d va buf (4096 * v - va) m m'
  | .panic e _ => e = .nullPte ∧ ∃ v, FirstBad m d va buf.length v ∧ ¬m.HasTable d v
  | .blocked => False

/-- The pages of the rest, after what lies in the first one. -/
theorem meets_rest {n len v : Nat} (hn : va + n = 4096 * (va / 4096 + 1)) (hlt : n < len) :
    Meets va len v ↔ v = va / 4096 ∨ Meets (va + n) (len - n) v := by
  unfold Meets
  omega

/-- What happens to the rest happens to the whole. -/
theorem CopyEnds.cons (h : Wf l m own) (hd : own d = .dir) {n : Nat} {out : Out Stop Mem Bool}
    (ha : m.Accessible d (va / 4096)) (hfirst : Copied d va buf n m m₁)
    (ho : Overwritten l own m m₁) (hn : va + n = 4096 * (va / 4096 + 1)) (hlt : n < buf.length)
    (hrest : CopyEnds d (va + n) (buf.drop n) m₁ out) : CopyEnds d va buf m out := by
  have hlen : (buf.drop n).length = buf.length - n := List.length_drop ..
  have hacc := ho.accessible hd
  have hbad : ∀ v, FirstBad m₁ d (va + n) (buf.drop n).length v →
      FirstBad m d va buf.length v := fun v hv => by
    rw [hlen] at hv
    refine ⟨(meets_rest hn hlt).mpr (.inr hv.meets), fun e => hv.bad ((hacc v).mpr e),
      fun u hu hlt' => ?_⟩
    rcases (meets_rest hn hlt).mp hu with rfl | hu
    · exact ha
    · exact (hacc u).mp (hv.before u hu hlt')
  match out, hrest with
  | .panic _ _, ⟨he, v, hv, hnt⟩ =>
    exact ⟨he, v, hbad v hv, fun e => hnt ((ho.table d v hd).mpr e)⟩
  | .ok true m', hrest =>
    have hall := Copied.trans h hd hfirst ho hrest
    rwa [hlen, show n + (buf.length - n) = buf.length by omega] at hall
  | .ok false m', ⟨v, hv, hvt, hc⟩ =>
    refine ⟨v, hbad v hv, (ho.table d v hd).mp hvt, ?_⟩
    have hall := Copied.trans h hd hfirst ho hc
    have hge := hv.meets.2.1
    have hnot : v ≠ va / 4096 := fun e => hv.bad ((hacc v).mpr (e ▸ ha))
    rwa [show n + (4096 * v - (va + n)) = 4096 * v - va by omega] at hall

/-- **The loop of `copyout`.** -/
theorem copyLoop_spec (h : Wf l m own) (hd : own d = .dir) {rounds : Nat}
    (hend : va + buf.length ≤ 2 ^ 32) (hr : buf.length ≤ rounds) :
    CopyEnds d va buf m (copyLoop rounds d va buf l m) := by
  induction rounds generalizing m va buf with
  | zero =>
    obtain rfl : buf = [] := List.eq_nil_of_length_eq_zero (by omega)
    exact Copied.zero d va [] m
  | succ rounds ih =>
    unfold copyLoop
    by_cases hbuf : buf = []
    · subst hbuf
      exact Copied.zero d va [] m
    · have hpos : 0 < buf.length := List.length_pos_iff.mpr hbuf
      have hfirst : ¬m.Accessible d (va / 4096) → FirstBad m d va buf.length (va / 4096) :=
        fun hbad => ⟨by unfold Meets; omega, hbad, fun u hu hlt => by unfold Meets at hu; omega⟩
      have huva := uva2ka_eq l m d (va / 4096)
      rw [if_neg hbuf]
      by_cases ht : m.HasTable d (va / 4096)
      · rw [if_pos ht] at huva
        rw [run_bind huva]
        by_cases ha : m.Accessible d (va / 4096)
        · rw [if_pos ha]
          simp only
          generalize hn : min buf.length (4096 - va % 4096) = n
          have hcopied : Copied d va buf n m _ := copied_page ha (by omega) (by omega)
          rw [run_bind (show modify _ l m = .ok () _ from rfl)]
          have ho := h.overwrite hd ha
            (put (m.page (frame (m.pteOf d (va / 4096)))) (va % 4096) (buf.take n))
          by_cases hall : n = buf.length
          · -- the last page
            subst hall
            have hdone : ∀ a s, copyLoop rounds d a [] l s = .ok true s := fun a s => by
              cases rounds <;> rfl
            rw [List.drop_length, hdone]
            exact hcopied
          · rw [show (va / 4096 * 4096 + 4096) % 2 ^ 32 = va + n by omega]
            have hlen : (buf.drop n).length = buf.length - n := List.length_drop ..
            exact .cons h hd ha hcopied ho (by omega) (by omega)
              (ih ho.wf (by omega) (by omega))
        · rw [if_neg ha]
          refine ⟨_, hfirst ha, ht, ?_⟩
          rw [show 4096 * (va / 4096) - va = 0 by omega]
          exact Copied.zero d va buf m
      · rw [if_neg ht] at huva
        rw [run_bind_panic huva]
        exact ⟨rfl, _, hfirst fun ha => ht (hasTable_of_present ha.1), ht⟩

/-- The kernel writes to pages of the user, and nowhere else. -/
theorem copyLoop_overwritten (h : Wf l m own) (hd : own d = .dir) {rounds : Nat} :
    wp (copyLoop rounds d va buf) (fun _ _ => True) (fun _ m' => Overwritten l own m m') l m := by
  induction rounds generalizing m va buf with
  | zero => exact .refl h
  | succ rounds ih =>
    rw [copyLoop, wp_ite]
    refine ⟨fun _ => .refl h, fun _ => ?_⟩
    rw [wp_bind]
    unfold wp
    rw [uva2ka_eq]
    by_cases ht : m.HasTable d (va / 4096)
    · rw [if_pos ht]
      by_cases ha : m.Accessible d (va / 4096)
      · rw [if_pos ha]
        have ho := h.overwrite hd ha (put (m.page (frame (m.pteOf d (va / 4096)))) (va % 4096)
          (buf.take (min buf.length (4096 - va % 4096))))
        exact wp_imp (ih ho.wf) fun _ m' => ho.trans
      · rw [if_neg ha]
        exact .refl h
    · rw [if_neg ht]
      trivial

/-- **What `copyout` is to do**: all of it, if every page can be accessed, or else what comes before
the first page that cannot. -/
def CopiesOut (l : Layout) (m : Mem) (d va : Nat) (buf : List Byte) : Prop :=
  ∃ r m', copyout d va buf l m = .ok r m' ∧
    ((r = true ∧ (∀ v, Meets va buf.length v → m.Accessible d v) ∧
        Copied d va buf buf.length m m') ∨
      (r = false ∧ ∃ v, FirstBad m d va buf.length v ∧ Copied d va buf (4096 * v - va) m m'))

end

/-- **`copyout` does what it is to do if and only if there is a page table for the first page that
cannot be accessed.**  Otherwise it reads an entry through a null pointer. -/
theorem copyout_iff {l : Layout} {m : Mem} {own : Nat → Owner} {d va : Nat} {buf : List Byte}
    (h : Wf l m own) (hd : own d = .dir) (hend : va + buf.length ≤ 2 ^ 32) :
    CopiesOut l m d va buf ↔ ∀ v, FirstBad m d va buf.length v → m.HasTable d v := by
  have hspec := copyLoop_spec h hd hend (Nat.le_refl _)
  have hreach : ∀ m', Copied d va buf buf.length m m' →
      ∀ v, Meets va buf.length v → m.Accessible d v := fun m' hc v hv => by
    unfold Meets at hv
    have := hc.reach (max va (4096 * v)) (by omega) (by omega)
    rwa [show max va (4096 * v) / 4096 = v by omega] at this
  -- there is at most one first page
  have hunique : ∀ {u v}, FirstBad m d va buf.length u → FirstBad m d va buf.length v → u = v :=
    fun {u v} hu hv => by
      rcases Nat.lt_trichotomy u v with hlt | he | hgt
      · exact absurd (hv.before u hu.meets hlt) hu.bad
      · exact he
      · exact absurd (hu.before v hv.meets hgt) hv.bad
  unfold CopiesOut copyout
  generalize copyLoop buf.length d va buf l m = out at hspec
  match out, hspec with
  | .ok true m', hc =>
    exact ⟨fun _ v hv => absurd (hreach m' hc v hv.meets) hv.bad,
      fun _ => ⟨true, m', rfl, .inl ⟨rfl, hreach m' hc, hc⟩⟩⟩
  | .ok false m', ⟨v, hv, hvt, hc⟩ =>
    exact ⟨fun _ u hu => hunique hv hu ▸ hvt, fun _ => ⟨false, m', rfl, .inr ⟨rfl, v, hv, hc⟩⟩⟩
  | .panic e m', ⟨_, v, hv, hvt⟩ =>
    refine ⟨fun ⟨r, m'', he, _⟩ => ?_, fun hall => absurd (hall v hv) hvt⟩
    cases he

theorem copyout_iff_blank :
    Wf ⟨300, 400, by decide, by decide, by decide⟩ (blankMem [401]) (blankOwn 400 [401]) ∧
      (CopiesOut ⟨300, 400, by decide, by decide, by decide⟩ (blankMem [401]) 400 0x400ff8
          (leBytes 4 (2 ^ 32 - 1) ++ leBytes 4 0) ↔
        ∀ v, FirstBad (blankMem [401]) 400 0x400ff8 8 v → (blankMem [401]).HasTable 400 v) := by
  have hwf : Wf ⟨300, 400, by decide, by decide, by decide⟩ (blankMem [401]) (blankOwn 400 [401]) :=
    wf_blank _ (by decide) (by decide) (by decide)
  exact ⟨hwf, copyout_iff hwf rfl (by decide)⟩

/-- **`copyout` of `clone`'s two words to a stack at 0x400000** where no page table is: the entry is
read through a null pointer. -/
theorem copyout_reads_through_null :
    copyout 400 0x400ff8 (leBytes 4 (2 ^ 32 - 1) ++ leBytes 4 0)
        ⟨300, 400, by decide, by decide, by decide⟩ (blankMem [401]) =
      .panic .nullPte (blankMem [401]) ∧
    ¬CopiesOut ⟨300, 400, by decide, by decide, by decide⟩ (blankMem [401]) 400 0x400ff8
      (leBytes 4 (2 ^ 32 - 1) ++ leBytes 4 0) := by
  have hrun : copyout 400 0x400ff8 (leBytes 4 (2 ^ 32 - 1) ++ leBytes 4 0)
      ⟨300, 400, by decide, by decide, by decide⟩ (blankMem [401]) =
        .panic .nullPte (blankMem [401]) := by
    refine run_bind_panic ?_
    rw [uva2ka_eq, if_neg]
    decide +kernel
  refine ⟨hrun, fun ⟨r, m', he, _⟩ => ?_⟩
  rw [hrun] at he
  cases he

end Xv6.Vm
