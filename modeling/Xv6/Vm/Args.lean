/-
# What `exec` passes to the program

The strings are copied to the stack page from the top down, and below them go the words of `ustack`.
Nothing in `exec` compares `sp` with the end of the page: what keeps it there is that each piece ends
where the one before began, so that a piece that does not fit MEETS THE GUARD PAGE, which `copyout`
refuses.  A string so long that `sp` wraps around begins in the kernel's half, which it refuses too.
-/
import Xv6.Vm.Exec

namespace Xv6.Vm

open Xv6.Bytes Xv6.Threads Xv6.Threads.Code
open Xv6.Ptable (Slot NPROC ProcState)

/-- These bytes are at address `a`. -/
def Mem.Holds (m : Mem) (d a : Nat) (buf : List Byte) : Prop :=
  ∀ i, i < buf.length → m.byteAt d (a + i) = buf[i]?

section

variable {l : Layout} {m m' m₁ : Mem} {own : Nat → Owner} {d a va sp sz : Nat} {s buf : List Byte}

/-! ## 1. One piece -/

/-- `buf` has been copied to `va`, and no other byte is different. -/
structure Written (l : Layout) (own : Nat → Owner) (d va : Nat) (buf : List Byte) (m m' : Mem) :
    Prop where
  after : Overwritten l own m m'
  reach : ∀ a, va ≤ a → a < va + buf.length → m.Accessible d (a / 4096)
  holds : m'.Holds d va buf
  kept : ∀ a, a < 2 ^ 31 → a < va ∨ va + buf.length ≤ a → m'.byteAt d a = m.byteAt d a

/-- The page below the stack page cannot be accessed. -/
structure Guarded (m : Mem) (d sz : Nat) : Prop where
  aligned : sz % 4096 = 0
  room : 8192 ≤ sz
  size : sz < 2 ^ 31
  guard : ¬m.Accessible d (sz / 4096 - 2)

theorem Guarded.after (hg : Guarded m d sz) (hd : own d = .dir) (ho : Overwritten l own m m') :
    Guarded m' d sz :=
  ⟨hg.aligned, hg.room, hg.size, fun e => hg.guard ((ho.accessible hd _).mp e)⟩

/-- **What has been written, and ends in the stack page or where it begins, has begun in it.** -/
theorem Written.above (hg : Guarded m d sz) (hwr : Written l own d va buf m m') (h4 : va % 4 = 0)
    (hend : sz ≤ va + buf.length + 4099) : sz ≤ va + 4096 := by
  have haligned := hg.aligned
  have hroom := hg.room
  by_contra hlt
  -- the last word of the guard page is among the bytes
  have hreach := hwr.reach (sz - 4100) (by omega) (by omega)
  rw [show (sz - 4100) / 4096 = sz / 4096 - 2 by omega] at hreach
  exact hg.guard hreach

/-- The strings lie one below the other between `lo` and `hi`, each with its NUL at the address that
stands for it in the list. -/
inductive Strings (m : Mem) (d lo : Nat) : (hi : Nat) → List (List Byte) → List Nat → Prop
  | nil {hi : Nat} (hle : lo ≤ hi) : Strings m d lo hi [] []
  | cons {hi p : Nat} {s : List Byte} {argv : List (List Byte)} {ptrs : List Nat}
      (hend : p + (s.length + 1) ≤ hi) (hholds : m.Holds d p (s ++ [0]))
      (hrest : Strings m d lo p argv ptrs) : Strings m d lo hi (s :: argv) (p :: ptrs)

section

variable {lo hi : Nat} {argv : List (List Byte)} {ptrs : List Nat}

theorem Strings.le (h : Strings m d lo hi argv ptrs) : lo ≤ hi := by
  induction h with
  | nil hle => exact hle
  | cons hend _ _ ih => omega

theorem Strings.length_eq (h : Strings m d lo hi argv ptrs) : ptrs.length = argv.length := by
  induction h with
  | nil => rfl
  | cons _ _ _ ih => rw [List.length_cons, List.length_cons, ih]

/-- Bytes elsewhere do not matter. -/
theorem Strings.congr (h : Strings m d lo hi argv ptrs)
    (hsame : ∀ a, lo ≤ a → a < hi → m'.byteAt d a = m.byteAt d a) : Strings m' d lo hi argv ptrs := by
  induction h with
  | nil hle => exact .nil hle
  | @cons hi p s argv ptrs hend hholds hrest ih =>
    have hle := hrest.le
    have hlen : (s ++ [(0 : Byte)]).length = s.length + 1 := List.length_append
    refine .cons hend (fun i hi => ?_) (ih fun a hlo hhi => hsame a hlo (by omega))
    rw [hsame (p + i) (by omega) (by omega), hholds i hi]

end

theorem length_wordBytes (ws : List Nat) : (wordBytes ws).length = 4 * ws.length := by
  induction ws with
  | nil => rfl
  | cons w ws ih =>
    rw [wordBytes, List.flatMap_cons, List.length_append, length_leBytes, List.length_cons]
    rw [wordBytes] at ih
    omega

/-- **What the program finds at `esp`**: a return address, `argc`, a pointer to the array that follows,
and the array, with a 0 at its end.  Above it are the strings, from the last one up to the first, and
all of it is in the page below `sz`. -/
structure ArgsPassed (m : Mem) (d sz esp : Nat) (argv : List (List Byte)) (ptrs : List Nat) : Prop where
  words : m.Holds d esp (wordBytes ([2 ^ 32 - 1, argv.length, esp + 12] ++ ptrs ++ [0]))
  strings : Strings m d (esp + 4 * (argv.length + 4)) sz argv ptrs
  page : sz ≤ esp + 4096

/-- `clearpteu` has made the page below the stack a guard page. -/
structure GuardSet (l : Layout) (own : Nat → Owner) (d sz : Nat) (m m' : Mem) : Prop where
  wf : Wf l m' own
  guarded : Guarded m' d sz
  bytes : ∀ a, a < 2 ^ 31 → m'.byteAt d a = m.byteAt d a
  present : ∀ u, Present (m'.pteOf d u) ↔ Present (m.pteOf d u)
  other : ∀ u, u ≠ sz / 4096 - 2 → m'.pteOf d u = m.pteOf d u

theorem clearpteu_guards (h : Wf l m own) (hd : own d = .dir) (haligned : sz % 4096 = 0)
    (hroom : 8192 ≤ sz) (hsize : sz < 2 ^ 31) (hrun : clearpteu d (sz - 8192) l m = .ok () m') :
    GuardSet l own d sz m m' := by
  have hpage : (sz - 8192) / 4096 = sz / 4096 - 2 := by omega
  by_cases ht : m.HasTable d ((sz - 8192) / 4096)
  · rw [clearpteu_eq ht] at hrun
    cases hrun
    rw [hpage] at ht ⊢
    generalize hv : sz / 4096 - 2 = v at ht ⊢
    have hlt := pteOf_lt m d v
    have hwlt : m.pteOf d v / 8 * 8 + m.pteOf d v % 4 < 2 ^ 32 := by omega
    have hp : Present (m.pteOf d v / 8 * 8 + m.pteOf d v % 4) ↔ Present (m.pteOf d v) := by
      unfold Present
      omega
    have hfr : frame (m.pteOf d v / 8 * 8 + m.pteOf d v % 4) = frame (m.pteOf d v) := by
      unfold frame
      omega
    have hpte := fun u => pteOf_setPte h hd ht hwlt (u := u) hd
    have hpres : ∀ u, Present ((m.setPte d v _).pteOf d u) ↔ Present (m.pteOf d u) := fun u => by
      rw [hpte]
      split
      · rename_i he
        rw [he.2, hp]
      · rfl
    have hframe : ∀ u, frame ((m.setPte d v _).pteOf d u) = frame (m.pteOf d u) := fun u => by
      rw [hpte]
      split
      · rename_i he
        rw [he.2, hfr]
      · rfl
    refine ⟨h.reflag hd ht hwlt (by omega) hp hfr, ⟨haligned, hroom, hsize, fun hacc => ?_⟩,
      fun a ha => byteAt_of_frame (hpres _) (hframe _) fun hpa => page_setPte h hd ht
        (h.isData_page hd (by omega) hpa).not_isTable, hpres, fun u hu => ?_⟩
    · have huser := hacc.2
      rw [hv, hpte, if_pos ⟨rfl, rfl⟩] at huser
      unfold User at huser
      omega
    · rw [hpte, if_neg fun e => hu (e.2.trans hv.symm)]
  · rw [clearpteu] at hrun
    rw [run_bind (walkpgdir_look l m d _), if_neg ht] at hrun
    cases hrun

/-- The old directory is freed: the new one is not touched. -/
theorem Freed.byteAt {d' : Nat} {own' : Nat → Owner} (hf : Freed l d' m own m' own') (h : Wf l m own)
    (hd : own d = .dir) (hne : d ≠ d') (ha : a < 2 ^ 31) : m'.byteAt d a = m.byteAt d a := by
  refine byteAt_congr (hf.pte d _ hd hne) fun hp => ?_
  have hpage := (h.tables.page d (a / 4096) _).mpr ⟨hd, by omega, hp, rfl⟩
  refine hf.data _ (h.isData_page hd (by omega) hp) fun hpart => ?_
  rw [hpage] at hpart
  exact hne hpart.1

theorem Mem.Holds.congr (h : m.Holds d a buf)
    (hsame : ∀ i, i < buf.length → m'.byteAt d (a + i) = m.byteAt d (a + i)) : m'.Holds d a buf :=
  fun i hi => (hsame i hi).trans (h i hi)

theorem ArgsPassed.congr {argv : List (List Byte)} {ptrs : List Nat} {esp : Nat}
    (h : ArgsPassed m d sz esp argv ptrs) (hsize : sz < 2 ^ 31)
    (hsame : ∀ a, a < 2 ^ 31 → m'.byteAt d a = m.byteAt d a) : ArgsPassed m' d sz esp argv ptrs := by
  have hle := h.strings.le
  have hlen := h.strings.length_eq
  refine ⟨h.words.congr fun i hi => hsame _ ?_, h.strings.congr fun a _ hlt => hsame a (by omega),
    h.page⟩
  rw [length_wordBytes] at hi
  simp only [List.length_append, List.length_cons, List.length_nil] at hi
  omega

/-! ## 5. With enough memory

A file with a header and nothing else is loaded, with arguments that fit, if there are 80 pages. -/

/-- **`setupkvm` succeeds.** -/
theorem setupkvm_enough (h : Wf l m own) (hmany : 70 ≤ m.free.length) :
    ∃ d m' own', setupkvm l m = .ok (some d) m' ∧ SetUp l d m own true m' own' := by
  rcases setupkvm_spec h with ⟨hempty, -⟩ | ⟨d, r, m', own', hrun, hsetup⟩
  · rw [hempty, List.length_nil] at hmany
    omega
  · cases r with
    | true => exact ⟨d, m', own', hrun, hsetup⟩
    | false =>
      have hfew := hsetup.mapped.few
      rw [(hsetup.mapped.count.resolve_left fun e => absurd e.1 nofun).2.2, List.length_nil] at hfew
      omega

/-- **`allocuvm` succeeds**, and every page is mapped. -/
theorem allocuvm_enough (oldsz newsz : Nat) (h : Wf l m own) (hd : own d = .dir)
    (hle : oldsz ≤ newsz) (hnew : newsz < 2 ^ 31)
    (hno : ∀ u, pageUp oldsz ≤ u → u < pageUp newsz → ¬Present (m.pteOf d u))
    (hmany : 2 * (pageUp newsz - pageUp oldsz) < m.free.length) :
    ∃ m' own', allocuvm d oldsz newsz l m = .ok newsz m' ∧
      Filled l d (pageUp oldsz) (pageUp newsz - pageUp oldsz) (fun _ => 6) (fun _ _ => 0) m own
        (pageUp newsz - pageUp oldsz) m' own' := by
  obtain ⟨m', own', ⟨hrun, n, hfilled, -⟩ | ⟨-, -, hfew, -⟩⟩ := allocuvm_spec h hd hle hnew hno
  · have hfew := hfilled.few
    rcases hfilled.dry with rfl | hempty
    · exact ⟨m', own', hrun, hfilled⟩
    · rw [hempty, List.length_nil] at hfew
      omega
  · omega

/-- What `allocuvm` has mapped can be accessed. -/
theorem Fresh.accessible {u : Nat} {x : Page} {own' : Nat → Owner} (h : Fresh d u 6 x own m own') :
    m.Accessible d u := by
  have he := h.entry
  unfold Mem.Accessible Present User
  rw [he]
  unfold Vm.entry
  omega

/-- What lies in one page that can be accessed is copied. -/
theorem copyout_inside (h : Wf l m own) (hd : own d = .dir) (haligned : sz % 4096 = 0)
    (hsize : sz < 2 ^ 31) (hacc : m.Accessible d (sz / 4096 - 1)) (va : Nat) (buf : List Byte)
    (hlo : sz ≤ va + 4096) (hhi : va + buf.length ≤ sz) :
    ∃ m', copyout d va buf l m = .ok true m' ∧ Overwritten l own m m' := by
  have hspec := copyLoop_spec h hd (show va + buf.length ≤ 2 ^ 32 by omega) (Nat.le_refl buf.length)
  have hbad : ∀ v, ¬FirstBad m d va buf.length v := fun v hv => hv.bad (by
    obtain ⟨hpos, hlt, hge⟩ := hv.meets
    rwa [show v = sz / 4096 - 1 by omega])
  have hover : wp (copyLoop buf.length d va buf) (fun _ _ => True)
    (fun _ m' => Overwritten l own m m') l m := copyLoop_overwritten h hd
  unfold copyout
  generalize hout : copyLoop buf.length d va buf l m = out at hspec
  match out, hspec with
  | .ok true m', _ => exact ⟨m', rfl, of_wp (Q := fun _ m' => Overwritten l own m m') hover hout⟩
  | .ok false m', ⟨v, hv, _⟩ => exact absurd hv (hbad v)
  | .panic e m', ⟨_, v, hv, _⟩ => exact absurd hv (hbad v)

/-- The room that strings take on the stack, at most. -/
def stringsRoom : List (List Byte) → Nat
  | [] => 0
  | s :: argv => s.length + 4 + stringsRoom argv

theorem pushStrings_fits {argv : List (List Byte)} (us : List Nat) (h : Wf l m own)
    (hd : own d = .dir) (haligned : sz % 4096 = 0) (hsize : sz < 2 ^ 31) (hlow : 4096 ≤ sz)
    (hacc : m.Accessible d (sz / 4096 - 1)) (hhi : sp ≤ sz) (h4 : sp % 4 = 0)
    (hroom : sz + stringsRoom argv ≤ sp + 4096) (hfew : us.length + argv.length ≤ 32) :
    ∃ sp' us' m', pushStrings d argv sp us l m = .ok (some (sp', us')) m' ∧ Overwritten l own m m' ∧
      us'.length = us.length + argv.length ∧ sp' ≤ sz ∧ sp ≤ sp' + stringsRoom argv := by
  induction argv generalizing m sp us with
  | nil => exact ⟨sp, us, m, rfl, .refl h, rfl, hhi, Nat.le_refl _⟩
  | cons s argv ih =>
    rw [stringsRoom] at hroom
    rw [List.length_cons] at hfew
    have hlen : (s ++ [(0 : Byte)]).length = s.length + 1 := List.length_append
    have heq : pushSp sp s = (sp - (s.length + 1)) / 4 * 4 := by
      unfold pushSp
      omega
    obtain ⟨m₁, hcopy, hover⟩ := copyout_inside h hd haligned hsize hacc (pushSp sp s) (s ++ [0])
      (by omega) (by omega)
    obtain ⟨sp', us', m', hrun, hover', hus, hsp', hroom'⟩ := ih (us ++ [pushSp sp s]) hover.wf
      ((hover.accessible hd _).mpr hacc) (show pushSp sp s ≤ sz by omega) (by omega) (by omega)
      (by rw [List.length_append, List.length_singleton]; omega)
    rw [List.length_append, List.length_singleton] at hus
    refine ⟨sp', us', m', ?_, hover.trans hover', by rw [hus, List.length_cons]; omega, hsp', ?_⟩
    · rw [pushStrings, if_neg (by omega), run_bind hcopy, if_pos rfl,
        run_bind (panicIf_of_not (by omega) _ l m₁), hrun]
    · rw [stringsRoom]
      omega

/-- **The arguments fit.** -/
theorem pushArgs_fits {argv : List (List Byte)} (sz : Nat) (h : Wf l m own) (hd : own d = .dir)
    (haligned : sz % 4096 = 0) (hsize : sz < 2 ^ 31) (hacc : m.Accessible d (sz / 4096 - 1))
    (hfew : argv.length ≤ 32) (hroom : stringsRoom argv + 4 * (argv.length + 4) ≤ 4096)
    (hlow : 4096 ≤ sz) :
    ∃ esp m', pushArgs d sz argv l m = .ok (some esp) m' ∧ Overwritten l own m m' := by
  obtain ⟨sp, us, m₁, hstrings, hover, hus, hsp, hroom'⟩ := pushStrings_fits [] h hd haligned
    hsize hlow hacc (Nat.le_refl _) (by omega) (show sz + stringsRoom argv ≤ sz + 4096 by omega)
    (by rw [List.length_nil]; omega)
  rw [List.length_nil, Nat.zero_add] at hus
  have hlen : (wordBytes (ustack sp us)).length = 4 * (us.length + 4) := by
    rw [length_wordBytes, ustack]
    simp only [List.length_append, List.length_cons, List.length_nil]
    omega
  have hesp : ustackSp sp us.length + 4 * (us.length + 4) = sp := by
    unfold ustackSp
    omega
  obtain ⟨m', hcopy, hover'⟩ := copyout_inside hover.wf hd haligned hsize
    ((hover.accessible hd _).mpr hacc) (ustackSp sp us.length) (wordBytes (ustack sp us))
    (by omega) (by omega)
  refine ⟨ustackSp sp us.length, m', ?_, hover.trans hover'⟩
  rw [pushArgs, run_bind hstrings]
  simp only
  rw [pushUstack, run_bind (panicIf_of_not (by omega) _ l m₁), run_bind hcopy, if_pos rfl]
  rfl

/-- The pages of a bare program: page 0, the guard page and the stack. -/
theorem execImage_bare (h : Wf l m own) (hmany : 80 ≤ m.free.length) (file : ExecFile)
    {elf : List Byte} (hph : elfPhnum elf = 0) :
    ∃ d m₁ m₂ own₂, execLoad file elf l m = .ok (some d, some 4096) m₁ ∧
      execStack d 4096 l m₁ = .ok 12288 m₂ ∧ Grows l d (fun _ => True) m own m₂ own₂ ∧
      own d = .free ∧ own₂ d = .dir ∧ (∀ u, u < 3 → m₂.Accessible d u) ∧
      m.free.length ≤ m₂.free.length + 75 := by
  have hups : pageUp 0 = 0 ∧ pageUp 4096 = 1 ∧ pageUp 12288 = 3 := by decide
  obtain ⟨d, m₀, own₀, hsetup, hset⟩ := setupkvm_enough h (by omega)
  have hfew₀ := hset.mapped.few
  obtain ⟨m₁, own₁, halloc, hfilled⟩ := allocuvm_enough 0 4096 hset.mapped.grows.wf hset.after
    (by decide) (by decide) (fun u _ hu => hset.none u (by omega)) (by omega)
  have hfew₁ := hfilled.few
  have hd₁ := hfilled.grows.dir hset.after
  obtain ⟨m₂, own₂, halloc₂, hfilled₂⟩ := allocuvm_enough 4096 12288 hfilled.grows.wf hd₁ (by decide)
    (by decide) (fun u hge hlt => by
      rw [hfilled.grows.pte d u hset.after fun e => by omega]
      exact hset.none u (by omega)) (by omega)
  have hfew₂ := hfilled₂.few
  refine ⟨d, m₁, m₂, own₂, ?_, ?_, ?_, hset.before, hfilled₂.grows.dir hd₁, fun u hu => ?_, by omega⟩
  · rw [execLoad, run_bind hsetup]
    simp only
    rw [run_bind halloc, if_neg (by decide), hph]
    rfl
  · rw [execStack, hups.2.1]
    exact halloc₂
  · exact (hset.mapped.grows.trans hfilled.grows (fun _ _ => trivial) fun _ _ => trivial).trans
      hfilled₂.grows (fun _ _ => trivial) fun _ _ => trivial
  · by_cases hzero : u = 0
    · exact ((hfilled.fresh u (by omega) (by omega)).mono hfilled₂.grows hd₁
        fun e => by omega).accessible
    · exact (hfilled₂.fresh u (by omega) (by omega)).accessible

/-- As many pages are free as the owners say. -/
theorem Wf.length_free_le {own' : Nat → Owner} (h : Wf l m own) (h' : Wf l m' own')
    (hfree : ∀ f, own f = .free → own' f = .free) : m.free.length ≤ m'.free.length :=
  (h.listed.nodup.subperm fun f hmem =>
    (h'.listed.free f).mpr (hfree f ((h.listed.free f).mp hmem))).length_le

/-- Freed pages are free. -/
theorem Freed.length_free {d' : Nat} {own' : Nat → Owner} (hf : Freed l d' m own m' own')
    (h : Wf l m own) : m.free.length ≤ m'.free.length := by
  refine h.length_free_le hf.wf fun f hown => (hf.keep f fun hpart => ?_).trans hown
  rw [hown] at hpart
  exact hpart

end

section

variable {me : Me} {k : Kernel} {own : Nat → Owner} {file : ExecFile} {path elf : List Byte}
  {argv : List (List Byte)} {ip : Nat}

/-- **With the image in place and arguments that fit, `exec` succeeds.** -/
theorem execArgs_fits {d sz : Nat} (hw : Wf me.layout k.mem own) (hd : own d = .dir)
    (hold : own (k.proc me.proc).pgdir = .dir) (hne : d ≠ (k.proc me.proc).pgdir)
    (haligned : sz % 4096 = 0) (hlow : 8192 ≤ sz) (hsize : sz < 2 ^ 31)
    (hguard : k.mem.HasTable d ((sz - 8192) / 4096)) (hacc : k.mem.Accessible d (sz / 4096 - 1))
    (hfew : argv.length ≤ 32) (hroom : stringsRoom argv + 4 * (argv.length + 4) ≤ 4096) :
    ends (execArgs elf path argv d sz) (fun r k' => r = true ∧ ∃ m' own' esp,
      k' = { k.upd me.proc fun x => { x.committed elf path d sz esp with pstack := sz } with mem := m' } ∧
      Wf me.layout m' own' ∧ own' d = .dir ∧
      (∀ u, Present (m'.pteOf d u) ↔ Present (k.mem.pteOf d u)) ∧
      k.mem.free.length ≤ m'.free.length) me k := by
  have hset := clearpteu_guards hw hd haligned hlow hsize (clearpteu_eq hguard)
  obtain ⟨esp, m₁, hpush, hover⟩ := pushArgs_fits sz hset.wf hd haligned hsize
    (by rwa [Mem.Accessible, hset.other _ (by omega)]) hfew hroom (by omega)
  obtain ⟨m', own', hfreevm, hfreed⟩ := freevm_spec hover.wf hold
  have hd' : own' d = .dir := (hfreed.keep d fun hpart => hne (by rwa [hd] at hpart)).trans hd
  unfold execArgs
  rw [ends_bind, ends_self, ends_bind, ends_upd, ends_bind, ends_onMem, upd_mem,
    ends_of_eq (clearpteu_eq hguard), ends_bind, ends_onMem, ends_of_eq hpush]
  simp only
  have hpgdir : ((k.upd me.proc fun x => { x with pstack := sz }).proc me.proc).pgdir =
      (k.proc me.proc).pgdir := by rw [upd_proc_self]
  have habove := me.layout.above
  have hrange := hw.listed.range d (by rw [hd]; rintro ⟨⟩)
  unfold execCommit
  rw [ends_bind, ends_self, ends_bind, ends_myproc, ends_bind, ends_upd, ends_bind, switchuvm,
    ends_bind, ends_gets, ends_panicIf, upd_proc_self]
  refine ⟨by show d ≠ 0; omega, ?_⟩
  rw [ends_bind, ends_onMem, upd_mem]
  simp only
  rw [hpgdir, ends_of_eq hfreevm]
  refine ⟨rfl, m', own', esp, ?_, hfreed.wf, hd', fun u => ?_, ?_⟩
  · exact congrArg (fun k₁ : Kernel => { k₁ with mem := m' })
      (upd_upd k me.proc (fun x => { x with pstack := sz }) (·.committed elf path d sz esp))
  · rw [hfreed.pte d u hd hne, hover.pte d u hd, hset.present]
  · exact (hw.length_free_le hover.wf fun _ => id).trans (hfreed.length_free hover.wf)

/-- The process runs a bare program, and the others notice nothing. -/
structure RunsBare (me : Me) (k k' : Kernel) : Prop where
  sz : (k'.proc me.proc).sz = 12288
  state : (k'.proc me.proc).state = (k.proc me.proc).state
  ofile : (k'.proc me.proc).ofile = (k.proc me.proc).ofile
  cwd : (k'.proc me.proc).cwd = (k.proc me.proc).cwd
  other : ∀ p, p ≠ me.proc → k'.proc p = k.proc p
  fileRef : k'.fileRef = k.fileRef
  wf : ∃ own', Wf me.layout k'.mem own' ∧ own' (k'.proc me.proc).pgdir = .dir
  present : ∀ u, u < 3 → Present (k'.mem.pteOf (k'.proc me.proc).pgdir u)
  free : k.mem.free.length ≤ k'.mem.free.length + 75

/-- **`exec` of a bare file succeeds.** -/
theorem exec_bare (hw : Wf me.layout k.mem own) (hd : own (k.proc me.proc).pgdir = .dir)
    (hmany : 80 ≤ k.mem.free.length) (hino : file.inode = some ip) (helf : file.elf = some elf)
    (hph : elfPhnum elf = 0) (hfew : argv.length ≤ 32)
    (hroom : stringsRoom argv + 4 * (argv.length + 4) ≤ 4096) :
    ∃ k', exec file path argv me k = .ok true k' ∧ RunsBare me k k' := by
  suffices hends : ends (exec file path argv) (fun r k' => r = true ∧ RunsBare me k k') me k by
    obtain ⟨r, k', hrun, hr, hbare⟩ := ends_iff.mp hends
    exact ⟨k', hr ▸ hrun, hbare⟩
  obtain ⟨d, m₁, m₂, own₂, hload, hstack, hgrows, hbefore, hafter, hacc, hfree⟩ :=
    execImage_bare hw hmany file hph
  have hne : d ≠ (k.proc me.proc).pgdir := by
    rintro rfl
    rw [hbefore] at hd
    cases hd
  unfold exec
  rw [hino]
  simp only
  rw [ends_bind, ends_iget, helf]
  simp only
  rw [ends_bind, ends_onMem, ends_of_eq hload]
  simp only
  rw [ends_bind, ends_iput, ends_bind, ends_onMem]
  simp only
  rw [ends_of_eq hstack, iput_iget, if_neg (by decide)]
  refine ends_imp (execArgs_fits (k := { k with mem := m₂ }) hgrows.wf hafter (hgrows.dir hd) hne
    (by decide) (by decide) (by decide) (hasTable_of_present (hacc 1 (by decide)).1)
    (hacc 2 (by decide)) hfew hroom) ?_
  rintro r k' ⟨hr, m', own', esp, hk', hwf, hdir, hpres, hlen⟩
  have hproc : k'.proc = Function.update k.proc me.proc
      { (k.proc me.proc).committed elf path d 12288 esp with pstack := 12288 } := by rw [hk']; rfl
  have hmem : k'.mem = m' := by rw [hk']
  have hself : k'.proc me.proc =
      { (k.proc me.proc).committed elf path d 12288 esp with pstack := 12288 } := by
    rw [hproc, Function.update_self]
  refine ⟨hr, ⟨?_, ?_, ?_, ?_, fun p hp => ?_, by rw [hk']; rfl, ⟨own', ?_, ?_⟩, fun u hu => ?_, ?_⟩⟩
  · rw [hself]
    rfl
  · rw [hself]
    rfl
  · rw [hself]
    rfl
  · rw [hself]
    rfl
  · rw [hproc, Function.update_of_ne hp]
  · rwa [hmem]
  · rw [hself]
    exact hdir
  · rw [hself, hmem]
    exact (hpres u).mpr (hacc u hu).1
  · rw [hmem]
    exact hfree.trans (Nat.add_le_add_right hlen 75)

end

/-- An ELF header without program headers. -/
def bareHeader : List Byte := [0x7F, 0x45, 0x4C, 0x46] ++ List.replicate 48 0

def bareFile : ExecFile where
  inode := some 2
  header := some bareHeader
  stale := []
  proghdr _ _ := none
  segment _ _ _ _ := none
  segment_le := nofun

theorem bareFile_elf : bareFile.elf = some bareHeader := by decide

/-- A process with 200 free pages. -/
def roomy : Kernel := single (blankMem (List.range' 401 200)) 400 0

theorem roomy_wf : Wf ⟨300, 400, by decide, by decide, by decide⟩ roomy.mem
    (blankOwn 400 (List.range' 401 200)) := by
  refine wf_blank _ List.nodup_range' ?_ fun f hf => ?_
  · rw [List.mem_range'_1]
    omega
  · rw [List.mem_cons, List.mem_range'_1] at hf
    show 400 ≤ f ∧ f < 57344
    omega

/-- `exec("a", {"a"})` -/
theorem exec_roomy : ∃ k', exec bareFile [97] [[97]] ⟨⟨300, 400, by decide, by decide, by decide⟩, 0⟩
      roomy = .ok true k' ∧
    RunsBare ⟨⟨300, 400, by decide, by decide, by decide⟩, 0⟩ roomy k' := by
  have hmany : 80 ≤ roomy.mem.free.length := by
    show 80 ≤ (List.range' 401 200).length
    rw [List.length_range']
    omega
  exact exec_bare roomy_wf rfl hmany rfl bareFile_elf (by decide) (by decide) (by decide)

/-- **`exec`, then `fork`**: the parent has page 0, and the child has not. -/
theorem fork_drops_page_zero : ∃ k₁ pid k₂ np,
    exec bareFile [97] [[97]] ⟨⟨300, 400, by decide, by decide, by decide⟩, 0⟩ roomy = .ok true k₁ ∧
      fork ⟨⟨300, 400, by decide, by decide, by decide⟩, 0⟩ k₁ = .ok (some pid) k₂ ∧
      (k₂.proc np).parent = some 0 ∧ Present (k₁.mem.pteOf (k₁.proc 0).pgdir 0) ∧
      ¬Present (k₂.mem.pteOf (k₂.proc np).pgdir 0) ∧
      ¬Duplicates k₁.mem (k₁.proc 0).pgdir (k₁.proc 0).sz k₂.mem (k₂.proc np).pgdir := by
  obtain ⟨k₁, hexec, hbare⟩ := exec_roomy
  obtain ⟨own, hwf, hdir⟩ := hbare.wf
  have hsz : (k₁.proc 0).sz = 12288 := hbare.sz
  have hups : pageUp 12288 = 3 := by decide
  have hfree : 200 ≤ k₁.mem.free.length + 75 := by
    have hlen : roomy.mem.free.length = 200 := List.length_range'
    rw [← hlen]
    exact hbare.free
  have hslot : k₁.unused ≠ none := fun hnone => by
    refine unused_eq_none hnone 1 ?_
    rw [hbare.other 1 (by decide)]
    rfl
  have hstate : (k₁.proc 0).state = .running := hbare.state
  have hlow : (k₁.proc 0).sz ≤ 2 ^ 31 := by omega
  have hlive : (k₁.proc 0).state ≠ .unused := by
    rw [hstate]
    exact nofun
  obtain ⟨pid, k₂, hfork⟩ : ∃ pid k₂,
      fork ⟨⟨300, 400, by decide, by decide, by decide⟩, 0⟩ k₁ = .ok (some pid) k₂ := by
    refine fork_enough hwf hdir hlow hlive hslot ?_ (fun u _ hhi => hbare.present u ?_)
      (congrFun hbare.ofile) hbare.cwd
    · show 70 + 2 * pageUp (k₁.proc 0).sz < _
      rw [hsz, hups]
      omega
    · change u < pageUp (k₁.proc 0).sz at hhi
      rw [hsz, hups] at hhi
      exact hhi
  obtain ⟨np, f, rest, d, own', -, -, hchild, -, hcopy⟩ := fork_some hwf hdir hlow hlive hfork
  have hpage : Present (k₁.mem.pteOf (k₁.proc 0).pgdir 0) := hbare.present 0 (by decide)
  have hgone : ¬Present (k₂.mem.pteOf (k₂.proc np).pgdir 0) := by
    rw [show (k₂.proc np).pgdir = d from hchild.pgdir]
    exact hcopy.none 0 (by decide) (.inl rfl)
  exact ⟨k₁, pid, k₂, np, hexec, hfork, hchild.parent, hpage, hgone,
    fun hdup => hgone ((hdup.present 0 (by omega)).mpr hpage)⟩

end Xv6.Vm
