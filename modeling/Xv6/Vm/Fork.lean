/-
# Making a process: `fork` and `clone` (proc.c)

Both begin with `allocproc`, which takes a slot and a page for the kernel stack.  When `fork` fails
after that, it gives both back.  `clone` does not: whatever fails, the arguments or `copyout`, the
slot stays EMBRYO and the page is never freed.
-/
import Xv6.Vm.Proc

namespace Xv6.Vm

open Xv6.Bytes Xv6.Threads Xv6.Threads.Code
open Xv6.Ptable (Slot NPROC ProcState)

variable {me : Me} {k k' : Kernel} {np : Slot}

/-! ## 1. `allocproc` -/

theorem unused_eq_none (h : k.unused = none) (p : Slot) : (k.proc p).state ≠ .unused := by
  simpa using List.find?_eq_none.mp h p (List.mem_finRange p)

theorem state_of_unused (h : k.unused = some np) : (k.proc np).state = .unused := by
  simpa using List.find?_some h

/-- The slot is EMBRYO and has a stack. -/
def Kernel.embryo (k : Kernel) (np : Slot) (f : Nat) (rest : List Nat) : Kernel :=
  { k.upd np fun x => { x with state := .embryo, pid := k.nextpid, kstack := f } with
    nextpid := (k.nextpid + 1) % 2 ^ 32
    mem := { k.mem with free := rest } }

theorem embryo_proc_self {f : Nat} {rest : List Nat} : (k.embryo np f rest).proc np =
    { k.proc np with state := .embryo, pid := k.nextpid, kstack := f } := Function.update_self ..

theorem embryo_proc_of_ne {f : Nat} {rest : List Nat} {p : Slot} (h : p ≠ np) :
    (k.embryo np f rest).proc p = k.proc p := Function.update_of_ne h ..

/-- The slot has been taken and given back. -/
def Kernel.stillborn (k : Kernel) (np : Slot) : Kernel :=
  { k.upd np fun x => { x with state := .unused, pid := k.nextpid, kstack := 0 } with
    nextpid := (k.nextpid + 1) % 2 ^ 32 }

/-- **`allocproc`** finds no slot, or has no page for the stack, or has both. -/
theorem allocproc_cases (me : Me) (k : Kernel) :
    (k.unused = none ∧ allocproc me k = .ok none k) ∨
      ∃ np, k.unused = some np ∧
        ((k.mem.free = [] ∧ allocproc me k = .ok none (k.stillborn np)) ∨
          ∃ f rest, k.mem.free = f :: rest ∧ allocproc me k = .ok (some np) (k.embryo np f rest)) := by
  unfold allocproc
  rw [run_bind (show gets Kernel.unused me k = .ok k.unused k from rfl)]
  cases hslot : k.unused with
  | none => exact .inl ⟨rfl, rfl⟩
  | some np =>
    refine .inr ⟨np, rfl, ?_⟩
    simp only
    rw [run_bind (show gets (·.nextpid) me k = .ok k.nextpid k from rfl),
      run_bind (show upd np _ me k = .ok () _ from rfl),
      run_bind (show modify _ me _ = .ok () _ from rfl)]
    let k₁ : Kernel :=
      { k.upd np fun x => { x with state := .embryo, pid := k.nextpid } with
        nextpid := (k.nextpid + 1) % 2 ^ 32 }
    cases hfree : k.mem.free with
    | nil =>
      have hkalloc : onMem kalloc me k₁ = .ok none k₁ := onMem_ok (kalloc_nil hfree)
      refine .inl ⟨rfl, Eq.trans (run_bind hkalloc) ?_⟩
      show Out.ok none (k₁.upd np fun x => { x with kstack := 0, state := .unused }) = _
      simp [k₁, Kernel.stillborn, Kernel.upd]
    | cons f rest =>
      have hkalloc : onMem kalloc me k₁ = .ok (some f) { k₁ with mem := { k.mem with free := rest } } :=
        onMem_ok (kalloc_cons hfree)
      refine .inr ⟨f, rest, rfl, Eq.trans (run_bind hkalloc) ?_⟩
      show Out.ok (some np) (Kernel.upd { k₁ with mem := { k.mem with free := rest } } np
        fun x => { x with kstack := f }) = _
      simp [k₁, Kernel.embryo, Kernel.upd]

/-! ## 2. What the pieces leave alone -/

section

variable {I : Me → Kernel → Prop} {E : Stop → Kernel → Prop}

theorem preserves_upd {f : Proc → Proc} (hI : ∀ me k, I me k → I me (k.upd np f)) :
    Preserves I E (upd np f) := fun me k h => hI me k h

/-- The files are counted, and the new slot gets them. -/
theorem preserves_dupFiles (hI : ∀ me k fr, I me k → I me { k with fileRef := fr })
    (hof : ∀ me k (g : (Fin 16 → Option Nat) → Fin 16 → Option Nat), I me k →
      I me (k.upd np fun x => { x with ofile := g x.ofile }))
    (hE : ∀ e k, E e k) (is : List (Fin 16)) : Preserves I E (dupFiles np is) := by
  induction is with
  | nil => exact .pure ()
  | cons i is ih =>
    refine .bind (.bind (fun _ _ h => h) fun p => ?_) fun _ => ih
    cases p.ofile i with
    | none => exact .pure ()
    | some f =>
      refine .bind (.bind (.gets _) fun n => .bind (.panicIf fun _ _ _ => hE _ _) fun _ =>
        .modify fun me k h => hI me k _ h) fun _ => ?_
      exact preserves_upd fun me k h => hof me k (Function.update · i (some f)) h

theorem preserves_dupCwd (hI : ∀ me k ir, I me k → I me { k with inodeRef := ir })
    (hcwd : ∀ me k c, I me k → I me (k.upd np fun x => { x with cwd := c }))
    (hE : ∀ e k, E e k) : Preserves I E (dupCwd np) := by
  refine .bind (fun _ _ h => h) fun p => ?_
  cases p.cwd with
  | none => exact .panic fun _ _ _ => hE _ _
  | some ip =>
    exact .bind (.modify fun me k h => hI me k _ h) fun _ =>
      preserves_upd fun me k h => hcwd me k (some ip) h

end

/-! ## 3. `clone` -/

/-- **A call that failed has left no trace**: the slots, the files, the inodes and the free pages are
as before, up to what is in a slot that nobody uses; and who had no children has none to wait for. -/
structure NoTrace (me : Me) (k k' : Kernel) : Prop where
  state : ∀ p, (k'.proc p).state = (k.proc p).state
  parent : ∀ p, (k'.proc p).parent = (k.proc p).parent
  used : ∀ p, (k.proc p).state ≠ .unused → k'.proc p = k.proc p
  files : k'.fileRef = k.fileRef
  inodes : k'.inodeRef = k.inodeRef
  pages : ∀ f, f ∈ k'.mem.free ↔ f ∈ k.mem.free
  wait : (∀ p, (k.proc p).parent ≠ some me.proc) → wait me k' = .ok none k'

/-- `wait` of a process without children. -/
theorem wait_childless (h : ∀ p, (k.proc p).parent ≠ some me.proc) : wait me k = .ok none k := by
  have hzombie : ((List.finRange NPROC).find? fun p =>
      (k.proc p).parent = some me.proc ∧ (k.proc p).state = .zombie) = none := by
    rw [List.find?_eq_none]
    intro p _ hp
    exact h p (of_decide_eq_true hp).1
  have hkids : ((List.finRange NPROC).any fun p => (k.proc p).parent = some me.proc) = false := by
    rw [List.any_eq_false]
    intro p _ hp
    exact h p (of_decide_eq_true hp)
  unfold wait
  rw [run_bind (show self me k = .ok me k from rfl),
    run_bind (show gets _ me k = .ok none k from congrArg (Out.ok · k) hzombie)]
  simp only
  rw [run_bind (show gets _ me k = .ok false k from congrArg (Out.ok · k) hkids),
    run_bind (show myproc me k = .ok _ k from rfl), if_pos (.inl rfl)]
  rfl

theorem NoTrace.refl (me : Me) (k : Kernel) : NoTrace me k k :=
  ⟨fun _ => rfl, fun _ => rfl, fun _ _ => rfl, rfl, rfl, fun _ => Iff.rfl, wait_childless⟩

section

variable {l : Layout} {m m' : Mem} {own own' : Nat → Owner} {d d' f u a : Nat}

end

section

variable {own : Nat → Owner} {pid : Nat}

/-- What the child has once its directory is stored, while the files are counted. -/
structure Child (me : Me) (k : Kernel) (np : Slot) (d : Nat) (k' : Kernel) : Prop where
  mem : k'.mem = k.mem
  pgdir : (k'.proc np).pgdir = d
  sz : (k'.proc np).sz = (k.proc me.proc).sz
  parent : (k'.proc np).parent = some me.proc
  pid : (k'.proc np).pid = (k.proc np).pid

theorem Child.upd {d : Nat} {f : Proc → Proc} {k₁ : Kernel} (h : Child me k np d k₁)
    (hf : ∀ x, (f x).pgdir = x.pgdir ∧ (f x).sz = x.sz ∧ (f x).parent = x.parent ∧
      (f x).pid = x.pid) : Child me k np d (k₁.upd np f) := by
  obtain ⟨hd, hs, hp, hi⟩ := hf (k₁.proc np)
  refine ⟨h.mem, ?_, ?_, ?_, ?_⟩ <;> rw [upd_proc_self]
  · rw [hd, h.pgdir]
  · rw [hs, h.sz]
  · rw [hp, h.parent]
  · rw [hi, h.pid]

/-- **The child has the directory**, and memory is not touched any more. -/
theorem forkChild_spec {d : Nat} (hrun : forkChild np d me k = .ok pid k') :
    Child me k np d k' ∧ pid = (k.proc np).pid := by
  unfold forkChild at hrun
  rw [run_bind (show self me k = .ok me k from rfl),
    run_bind (show myproc me k = .ok (k.proc me.proc) k from rfl)] at hrun
  obtain ⟨_, k₁, hstore, hrun⟩ := bind_eq_ok.mp hrun
  have h₁ : Child me k np d k₁ := by
    cases hstore
    exact ⟨rfl, by rw [upd_proc_self], by rw [upd_proc_self], by rw [upd_proc_self],
      by rw [upd_proc_self]⟩
  obtain ⟨_, k₂, hfiles, hrun⟩ := bind_eq_ok.mp hrun
  have h₂ : Child me k np d k₂ :=
    (preserves_dupFiles (I := fun _ => Child me k np d) (E := fun _ _ => True)
      (fun _ _ _ h => ⟨h.mem, h.pgdir, h.sz, h.parent, h.pid⟩)
      (fun _ _ g h => h.upd fun _ => ⟨rfl, rfl, rfl, rfl⟩) (fun _ _ => trivial) _).of_ok h₁ hfiles
  obtain ⟨_, k₃, hcwd, hrun⟩ := bind_eq_ok.mp hrun
  have h₃ : Child me k np d k₃ :=
    (preserves_dupCwd (I := fun _ => Child me k np d) (E := fun _ _ => True)
      (fun _ _ _ h => ⟨h.mem, h.pgdir, h.sz, h.parent, h.pid⟩)
      (fun _ _ c h => h.upd fun _ => ⟨rfl, rfl, rfl, rfl⟩) (fun _ _ => trivial)).of_ok h₂ hcwd
  rw [run_bind (show gets _ me k₃ = .ok (k₃.proc np).pid k₃ from rfl)] at hrun
  cases hrun
  exact ⟨h₃.upd fun _ => ⟨rfl, rfl, rfl, rfl⟩, h₃.pid⟩

/-- **`fork` that returns a pid** has a slot, a stack, and a copy of the pages from page 1 on. -/
theorem fork_some (h : Wf me.layout k.mem own) (hd : own (k.proc me.proc).pgdir = .dir)
    (hsz : (k.proc me.proc).sz ≤ 2 ^ 31) (hme : (k.proc me.proc).state ≠ .unused)
    (hrun : fork me k = .ok (some pid) k') :
    ∃ np f rest d own', k.unused = some np ∧ k.mem.free = f :: rest ∧
      Child me (k.embryo np f rest) np d { k' with mem := (k.embryo np f rest).mem } ∧
      pid = k.nextpid ∧
      Copy me.layout (k.proc me.proc).pgdir d (k.proc me.proc).sz { k.mem with free := rest }
        (Function.update own f .held) k'.mem own' := by
  rcases allocproc_cases me k with ⟨-, halloc⟩ | ⟨np, hslot, ⟨-, halloc⟩ | ⟨f, rest, hfree, halloc⟩⟩
  · unfold fork at hrun
    rw [run_bind halloc] at hrun
    cases hrun
  · unfold fork at hrun
    rw [run_bind halloc] at hrun
    cases hrun
  · unfold fork at hrun
    rw [run_bind halloc] at hrun
    simp only at hrun
    have hp : (k.embryo np f rest).proc me.proc = k.proc me.proc :=
      embryo_proc_of_ne fun e => hme (e ▸ state_of_unused hslot)
    have hd₁ : Function.update own f .held (k.proc me.proc).pgdir = .dir := by
      rw [Function.update_of_ne (ne_of_dir hd (h.own_head hfree) nofun).symm, hd]
    rw [run_bind (show myproc me _ = .ok (k.proc me.proc) _ from congrArg (Out.ok · _) hp)] at hrun
    rcases copyuvm_spec (h.take hfree) hd₁ hsz with ⟨-, e, m', hcopy⟩ | ⟨m', own', hcopy, -, -⟩ |
      ⟨d, m', own', hcopy, hcopied⟩
    · rw [run_bind_panic (onMem_panic hcopy)] at hrun
      cases hrun
    · rw [run_bind (onMem_ok hcopy)] at hrun
      obtain ⟨_, _, -, hrun⟩ := bind_eq_ok.mp hrun
      obtain ⟨_, _, -, hrun⟩ := bind_eq_ok.mp hrun
      obtain ⟨_, _, -, hrun⟩ := bind_eq_ok.mp hrun
      cases hrun
    · rw [run_bind (onMem_ok hcopy)] at hrun
      obtain ⟨pid', k₁, hchild, hend⟩ := bind_eq_ok.mp hrun
      cases hend
      obtain ⟨hspec, hpid⟩ := forkChild_spec hchild
      refine ⟨np, f, rest, d, own', hslot, hfree,
        ⟨rfl, hspec.pgdir, hspec.sz, hspec.parent, hspec.pid⟩, ?_, ?_⟩
      · rw [hpid]
        show ((k.embryo np f rest).proc np).pid = _
        rw [embryo_proc_self]
      · rw [hspec.mem]
        exact hcopied

end

/-! ## 5. `fork` when it succeeds -/

/-- **What `fork` is to do**: below `sz`, the child `d'` has what the parent `d` had, on frames of its
own, and from now on neither sees what the other writes. -/
structure Duplicates (m : Mem) (d sz : Nat) (m' : Mem) (d' : Nat) : Prop where
  present : ∀ a, a < sz → (Present (m'.pteOf d' (a / 4096)) ↔ Present (m.pteOf d (a / 4096)))
  flags : ∀ a, a < sz → Present (m.pteOf d (a / 4096)) →
    flags (m'.pteOf d' (a / 4096)) = flags (m.pteOf d (a / 4096))
  bytes : ∀ a, a < sz → m'.byteAt d' a = m.byteAt d a
  parent : ∀ a, a < 2 ^ 31 → m'.byteAt d a = m.byteAt d a
  disjoint : ∀ u u', u < 2 ^ 19 → u' < 2 ^ 19 → Present (m'.pteOf d u) → Present (m'.pteOf d' u') →
    frame (m'.pteOf d u) ≠ frame (m'.pteOf d' u')
  unseenByChild : ∀ u x a, u < 2 ^ 19 → Present (m'.pteOf d u) → a < 2 ^ 31 →
    (m'.setPage (frame (m'.pteOf d u)) x).byteAt d' a = m'.byteAt d' a
  unseenByParent : ∀ u x a, u < 2 ^ 19 → Present (m'.pteOf d' u) → a < 2 ^ 31 →
    (m'.setPage (frame (m'.pteOf d' u)) x).byteAt d a = m'.byteAt d a

section

variable {l : Layout} {m m' : Mem} {own own' : Nat → Owner} {d d' u u' a sz : Nat}

theorem Wf.frame_ne (h : Wf l m own) (hd : own d = .dir) (hd' : own d' = .dir) (hne : d ≠ d')
    (hu : u < 2 ^ 19) (hu' : u' < 2 ^ 19) (hp : Present (m.pteOf d u))
    (hp' : Present (m.pteOf d' u')) : frame (m.pteOf d u) ≠ frame (m.pteOf d' u') := fun e => by
  have hown := (h.tables.page d u _).mpr ⟨hd, hu, hp, rfl⟩
  rw [e, (h.tables.page d' u' _).mpr ⟨hd', hu', hp', rfl⟩] at hown
  cases hown
  exact hne rfl

/-- A page of one process is written, and the other sees nothing. -/
theorem Wf.unseen (h : Wf l m own) (hd : own d = .dir) (hd' : own d' = .dir) (hne : d ≠ d')
    (hu : u < 2 ^ 19) (hp : Present (m.pteOf d u)) (x : Page) (ha : a < 2 ^ 31) :
    (m.setPage (frame (m.pteOf d u)) x).byteAt d' a = m.byteAt d' a := by
  have hdata := h.isData_page hd hu hp
  refine byteAt_congr (h.tables.pteOf_setPage hdata.not_isTable x hd') fun hp' => ?_
  exact Mem.page_setPage_of_ne _ (h.frame_ne hd hd' hne hu (by omega) hp hp').symm

/-- **A copy is a duplicate if and only if there was nothing in page 0 to be copied.** -/
theorem Copy.duplicates_iff (hc : Copy l d d' sz m own m' own') (h : Wf l m own)
    (hd : own d = .dir) (hsz : sz ≤ 2 ^ 31) :
    Duplicates m d sz m' d' ↔ sz = 0 ∨ ¬Present (m.pteOf d 0) := by
  have hd₁ := hc.grows.dir hd
  have hne : d ≠ d' := by
    rintro rfl
    rw [hc.before] at hd
    cases hd
  have hwf := hc.grows.wf
  constructor
  · intro hdup
    by_contra hno
    rw [not_or, not_not] at hno
    exact hc.none 0 (by decide) (.inl rfl) ((hdup.present 0 (by omega)).mpr hno.2)
  · intro hzero
    -- page 0 is in neither, and the others are copies
    have hcase : ∀ a, a < sz → (¬Present (m'.pteOf d' (a / 4096)) ∧ ¬Present (m.pteOf d (a / 4096))) ∨
        (1 ≤ a / 4096 ∧ a / 4096 < pageUp sz) := fun a ha => by
      have hlt := (lt_pageUp_iff (v := a / 4096) hsz).mpr (by omega)
      by_cases hfirst : a / 4096 = 0
      · rw [hfirst]
        exact .inl ⟨hc.none 0 (by decide) (.inl rfl), hzero.resolve_left (by omega)⟩
      · exact .inr ⟨by omega, hlt⟩
    refine ⟨fun a ha => ?_, fun a ha hp => ?_, fun a ha => ?_, fun a ha => ?_,
      fun u u' hu hu' hp hp' => hwf.frame_ne hd₁ hc.after hne hu hu' hp hp',
      fun u x a hu hp ha => hwf.unseen hd₁ hc.after hne hu hp x ha,
      fun u x a hu hp ha => hwf.unseen hc.after hd₁ hne.symm hu hp x ha⟩
    · rcases hcase a ha with ⟨hno, hno'⟩ | ⟨hlo, hhi⟩
      · exact iff_of_false hno hno'
      · exact iff_of_true (hc.fresh _ hlo hhi).present (hc.present _ hlo hhi)
    · rcases hcase a ha with ⟨-, hno⟩ | ⟨hlo, hhi⟩
      · exact absurd hp hno
      · rw [(hc.fresh _ hlo hhi).entry]
        unfold Present at hp
        unfold Vm.flags entry
        omega
    · rcases hcase a ha with ⟨hno, hno'⟩ | ⟨hlo, hhi⟩
      · rw [byteAt_of_not_present hno, byteAt_of_not_present hno']
      · have hfresh := hc.fresh _ hlo hhi
        unfold Mem.byteAt Mem.translate
        rw [if_pos hfresh.present, if_pos (hc.present _ hlo hhi), Option.map_some, Option.map_some,
          hfresh.bytes]
    · exact byteAt_congr (hc.grows.pte d _ hd fun e => hne e.1) fun hp =>
        hc.grows.data _ (h.isData_page hd (by omega) hp)

end

/-- Nothing is open: nothing is duplicated. -/
theorem dupFiles_closed (h : ∀ i, (k.proc me.proc).ofile i = none) (is : List (Fin 16)) :
    dupFiles np is me k = .ok () k := by
  induction is with
  | nil => rfl
  | cons i is ih =>
    have hfile : dupFile np i me k = .ok () k := by
      unfold dupFile
      rw [run_bind (show myproc me k = .ok (k.proc me.proc) k from rfl), h i]
      rfl
    rw [dupFiles, run_bind hfile, ih]

/-- **`fork` succeeds** for a process without open files, with a slot and enough pages. -/
theorem fork_enough {own : Nat → Owner} {ip : Nat} (h : Wf me.layout k.mem own)
    (hd : own (k.proc me.proc).pgdir = .dir) (hsz : (k.proc me.proc).sz ≤ 2 ^ 31)
    (hme : (k.proc me.proc).state ≠ .unused) (hslot : k.unused ≠ none)
    (hmany : 70 + 2 * pageUp (k.proc me.proc).sz < k.mem.free.length)
    (hpres : ∀ u, 1 ≤ u → u < pageUp (k.proc me.proc).sz →
      Present (k.mem.pteOf (k.proc me.proc).pgdir u))
    (hfiles : ∀ i, (k.proc me.proc).ofile i = none) (hcwd : (k.proc me.proc).cwd = some ip) :
    ∃ pid k', fork me k = .ok (some pid) k' := by
  rcases allocproc_cases me k with ⟨hnone, -⟩ | ⟨np, hsome, ⟨hempty, -⟩ | ⟨f, rest, hfree, halloc⟩⟩
  · exact absurd hnone hslot
  · rw [hempty, List.length_nil] at hmany
    omega
  · have hother : me.proc ≠ np := fun e => hme (e ▸ state_of_unused hsome)
    have hp : (k.embryo np f rest).proc me.proc = k.proc me.proc := embryo_proc_of_ne hother
    have hd₁ : Function.update own f .held (k.proc me.proc).pgdir = .dir := by
      rw [Function.update_of_ne (ne_of_dir hd (h.own_head hfree) nofun).symm, hd]
    rw [hfree, List.length_cons] at hmany
    rcases copyuvm_spec (h.take hfree) hd₁ hsz with ⟨⟨u, hlo, hhi, habsent⟩, -⟩ |
      ⟨m', own', -, -, hfew⟩ | ⟨d, m', own', hcopy, -⟩
    · exact absurd (hpres u hlo hhi) habsent
    · exact absurd hfew (by show ¬rest.length ≤ _; omega)
    · unfold fork
      rw [run_bind halloc]
      simp only
      rw [run_bind (show myproc me _ = .ok (k.proc me.proc) _ from congrArg (Out.ok · _) hp),
        run_bind (onMem_ok hcopy)]
      simp only
      have hchild : ends (forkChild np d) (fun _ _ => True) me { k.embryo np f rest with mem := m' } := by
        unfold forkChild
        have hsame : ∀ g, (Kernel.upd { k.embryo np f rest with mem := m' } np g).proc me.proc =
            k.proc me.proc := fun g => (upd_proc_of_ne _ _ _ hother).trans hp
        rw [ends_bind, ends_self, ends_bind, ends_myproc, ends_bind, ends_upd, ends_bind,
          ends_of_eq (dupFiles_closed (fun i => by rw [hsame]; exact hfiles i) _), ends_bind, dupCwd,
          ends_bind, ends_myproc, hsame, hcwd]
        trivial
      obtain ⟨pid, k', hrun, -⟩ := ends_iff.mp hchild
      exact ⟨pid, k', by rw [run_bind hrun]; rfl⟩

/-- **A `fork` that succeeds duplicates the address space if and only if page 0 of the parent is not
mapped** (or there is nothing at all): `copyuvm` begins at page 1.  But `exec` maps page 0 in every
process. -/
theorem fork_duplicates_iff {own : Nat → Owner} {pid : Nat} (h : Wf me.layout k.mem own)
    (hd : own (k.proc me.proc).pgdir = .dir) (hsz : (k.proc me.proc).sz ≤ 2 ^ 31)
    (hme : (k.proc me.proc).state = .running) (hrun : fork me k = .ok (some pid) k') :
    ∃ np, (k'.proc np).pid = pid ∧ (k'.proc np).parent = some me.proc ∧
      (Duplicates k.mem (k.proc me.proc).pgdir (k.proc me.proc).sz k'.mem (k'.proc np).pgdir ↔
        (k.proc me.proc).sz = 0 ∨ ¬Present (k.mem.pteOf (k.proc me.proc).pgdir 0)) := by
  obtain ⟨np, f, rest, d, own', hslot, hfree, hchild, hpid, hcopy⟩ :=
    fork_some h hd hsz (by rw [hme]; exact nofun) hrun
  have hd₁ : Function.update own f .held (k.proc me.proc).pgdir = .dir := by
    rw [Function.update_of_ne (ne_of_dir hd (h.own_head hfree) nofun).symm, hd]
  refine ⟨np, ?_, hchild.parent, ?_⟩
  · rw [hpid]
    exact hchild.pid.trans (by rw [embryo_proc_self])
  · have hiff := hcopy.duplicates_iff (h.take hfree) hd₁ hsz
    rw [show (k'.proc np).pgdir = d from hchild.pgdir]
    -- the stack has been taken from the free list, and the pages are the same
    exact ⟨fun e => hiff.mp ⟨e.present, e.flags, e.bytes, e.parent, e.disjoint, e.unseenByChild,
        e.unseenByParent⟩, fun e =>
      have e := hiff.mpr e
      ⟨e.present, e.flags, e.bytes, e.parent, e.disjoint, e.unseenByChild, e.unseenByParent⟩⟩

theorem fork_duplicates_iff_single : ∃ pid k' np,
    fork ⟨⟨300, 400, by decide, by decide, by decide⟩, 0⟩
        (single (blankMem (List.range' 401 100)) 400 0) = .ok (some pid) k' ∧
      (Duplicates (blankMem (List.range' 401 100)) 400 0 k'.mem (k'.proc np).pgdir ↔
        0 = 0 ∨ ¬Present ((blankMem (List.range' 401 100)).pteOf 400 0)) := by
  have hwf : Wf ⟨300, 400, by decide, by decide, by decide⟩ (blankMem (List.range' 401 100))
      (blankOwn 400 (List.range' 401 100)) :=
    wf_blank _ List.nodup_range' (by decide) (by decide)
  have hzero : pageUp ((single (blankMem (List.range' 401 100)) 400 0).proc 0).sz = 0 := by decide
  obtain ⟨pid, k', hrun⟩ := @fork_enough ⟨⟨300, 400, by decide, by decide, by decide⟩, 0⟩
    (single (blankMem (List.range' 401 100)) 400 0) _ 1 hwf rfl (by decide) (by decide) (by decide)
    (by decide) (fun u _ hhi => absurd (lt_of_lt_of_eq hhi hzero) (Nat.not_lt_zero u)) (fun _ => rfl)
    rfl
  obtain ⟨np, -, -, hiff⟩ := fork_duplicates_iff hwf rfl (by decide) rfl hrun
  exact ⟨pid, k', np, hrun, hiff⟩

end Xv6.Vm
