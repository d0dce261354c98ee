/-
# Processes and their memory: `growproc`, `fork`, `clone`, `wait` (proc.c)

The process table together with physical memory.  What `Proc/Table.lean` leaves out of a slot is
here, the size, the trap frame, the open files, the current directory, the name and `pstack`; and
what the functions do to memory is done.  Each call runs from its beginning to its end: the
interleavings are the business of `Proc/Table.lean` and of `Sched`.

The trap frame and the context are on the kernel stack, and are fields here: the bytes of a kernel
stack are not kept.  Of the file table and the inode cache there are the reference counts.
-/
import Xv6.Proc.Table
import Xv6.Vm.Space

namespace Xv6.Vm

open Xv6.Bytes Xv6.Threads Xv6.Threads.Code
open Xv6.Ptable (Slot NPROC ProcState)

/-! ## 1. The kernel's state -/

/-- `struct trapframe`; `rest` is what no function here looks at. -/
structure TrapFrame where
  eax : Nat
  eip : Nat
  esp : Nat
  ebp : Nat
  rest : List Nat
  deriving DecidableEq, Repr

/-- `struct proc`.  A page directory and a kernel stack are frames, and 0 is the null pointer; a file
and an inode are indices into their tables. -/
structure Proc where
  sz : Nat
  pgdir : Nat
  kstack : Nat
  state : ProcState
  pid : Nat
  parent : Option Slot
  tf : TrapFrame
  killed : Bool
  ofile : Fin 16 → Option Nat
  cwd : Option Nat
  name : List Byte
  pstack : Nat
  isthread : Bool

/-- Memory, the process table, and who counts references. -/
structure Kernel where
  mem : Mem
  proc : Slot → Proc
  nextpid : Nat
  fileRef : Nat → Nat
  inodeRef : Nat → Nat

/-- Where the kernel is, and whose call it runs: `proc`. -/
structure Me where
  layout : Layout
  proc : Slot

/-- A slot of the table in `.bss`. -/
def Proc.zero : Proc :=
  { sz := 0, pgdir := 0, kstack := 0, state := .unused, pid := 0, parent := none,
    tf := ⟨0, 0, 0, 0, []⟩, killed := false, ofile := fun _ => none, cwd := none, name := [],
    pstack := 0, isthread := false }

/-- One process, in slot 0, with this memory. -/
def single (m : Mem) (d sz : Nat) : Kernel :=
  { mem := m
    proc := fun p =>
      if p = 0 then
        { Proc.zero with pgdir := d, sz := sz, state := .running, pid := 1, cwd := some 1 }
      else Proc.zero
    nextpid := 2
    fileRef := fun _ => 0
    inodeRef := fun ip => if ip = 1 then 1 else 0 }

/-- The code of system calls. -/
abbrev K := Code Me Stop Kernel

/-- A function of vm.c or kalloc.c is called. -/
def onMem {α : Type} (c : V α) : K α := fun me k =>
  match c me.layout k.mem with
  | .ok a m => .ok a { k with mem := m }
  | .blocked => .blocked
  | .panic e m => .panic e { k with mem := m }

/-- A slot is changed. -/
def Kernel.upd (k : Kernel) (p : Slot) (f : Proc → Proc) : Kernel :=
  { k with proc := Function.update k.proc p (f (k.proc p)) }

def upd (p : Slot) (f : Proc → Proc) : K Unit := modify (·.upd p f)

section

variable (k : Kernel) (p : Slot) (f : Proc → Proc)

@[simp] theorem upd_mem : (k.upd p f).mem = k.mem := rfl
@[simp] theorem upd_proc_self : (k.upd p f).proc p = f (k.proc p) := Function.update_self ..

theorem upd_proc_of_ne {q : Slot} (h : q ≠ p) : (k.upd p f).proc q = k.proc q :=
  Function.update_of_ne h ..

end

/-- `proc` -/
def myproc : K Proc := fun me k => .ok (k.proc me.proc) k

/-! ## 2. proc.c -/

/-- The first slot that is UNUSED. -/
def Kernel.unused (k : Kernel) : Option Slot :=
  (List.finRange NPROC).find? fun p => (k.proc p).state = .unused

/-- `allocproc()` -/
def allocproc : K (Option Slot) := do
  match ← gets Kernel.unused with
  | none => return none
  | some p =>
    let pid ← gets (·.nextpid)
    upd p fun x => { x with state := .embryo, pid := pid }
    modify fun k => { k with nextpid := (pid + 1) % 2 ^ 32 }
    match ← onMem kalloc with
    | none =>
      upd p fun x => { x with kstack := 0, state := .unused }
      return none
    | some f =>
      upd p fun x => { x with kstack := f }
      return some p

/-- `switchuvm(p)`, of which the directory counts. -/
def switchuvm (p : Slot) : K Unit := do
  let d ← gets fun k => (k.proc p).pgdir
  panicIf (d = 0) .switchuvm

/-- The end of `growproc`. -/
def setSize (sz : Nat) : K Bool := do
  let me ← self
  upd me.proc fun x => { x with sz := sz }
  switchuvm me.proc
  return true

/-- `growproc(n)`: `false` is -1. -/
def growproc (n : Int) : K Bool := do
  let p ← myproc
  -- `sz + n` as a `uint`
  let new := ((p.sz + n) % 2 ^ 32).toNat
  if 0 < n then
    let sz ← onMem (allocuvm p.pgdir p.sz new)
    if sz = 0 then return false else setSize sz
  else if n < 0 then
    let sz ← onMem (deallocuvm p.pgdir p.sz new)
    if sz = 0 then return false else setSize sz
  else setSize p.sz

/-- `filedup(f)` -/
def filedup (f : Nat) : K Unit := do
  let n ← gets (·.fileRef f)
  panicIf (n < 1) .filedup
  modify fun k => { k with fileRef := Function.update k.fileRef f (n + 1) }

/-- One round of the loop over the open files in `fork` and `clone`. -/
def dupFile (np : Slot) (i : Fin 16) : K Unit := do
  match (← myproc).ofile i with
  | none => return ()
  | some f =>
    filedup f
    upd np fun x => { x with ofile := Function.update x.ofile i (some f) }

/-- The loop. -/
def dupFiles (np : Slot) : List (Fin 16) → K Unit
  | [] => return ()
  | i :: is => do
    dupFile np i
    dupFiles np is

/-- `np->cwd = idup(proc->cwd)` -/
def dupCwd (np : Slot) : K Unit := do
  match (← myproc).cwd with
  | none => panic .nullInode
  | some ip =>
    modify fun k => { k with inodeRef := Function.update k.inodeRef ip (k.inodeRef ip + 1) }
    upd np fun x => { x with cwd := some ip }

/-- `safestrcpy(s, t, n)`, for strings without the NUL. -/
def safestrcpy (t : List Byte) (n : Nat) : List Byte := t.take (n - 1)

/-- The rest of `fork`, with the new directory. -/
def forkChild (np : Slot) (d : Nat) : K Nat := do
  let me ← self
  let p ← myproc
  upd np fun x =>
    { x with
      pgdir := d, sz := p.sz, parent := some me.proc, tf := { p.tf with eax := 0 },
      isthread := false }
  dupFiles np (List.finRange 16)
  dupCwd np
  let pid ← gets fun k => (k.proc np).pid
  upd np fun x => { x with state := .runnable, name := safestrcpy p.name 16 }
  return pid

/-- `fork()`: `none` is -1. -/
def fork : K (Option Nat) := do
  match ← allocproc with
  | none => return none
  | some np =>
    let p ← myproc
    match ← onMem (copyuvm p.pgdir p.sz) with
    | none =>
      let f ← gets fun k => (k.proc np).kstack
      onMem (kfree f)
      upd np fun x => { x with pgdir := 0, kstack := 0, state := .unused }
      return none
    | some d => return some (← forkChild np d)

/-- `while(pp->isthread == 1) pp = pp->parent` in `clone`.  A walk of more steps than there are slots
goes round in a circle, and never ends. -/
def firstNonThread : (steps : Nat) → (pp : Slot) → K Slot
  | 0, _ => do
    await fun _ => false
    panic .nullProc
  | steps + 1, pp => do
    let p ← gets fun k => k.proc pp
    if p.isthread = true then
      match p.parent with
      | none => panic .nullProc
      | some q => firstNonThread steps q
    else return pp

/-- `stack + PGSIZE`, less the eight bytes for `ustack`. -/
def cloneSp (stack : Nat) : Nat := ((stack + 4096) % 2 ^ 32 + 2 ^ 32 - 8) % 2 ^ 32

/-- `clone` up to `copyout`, and what that returns. -/
def cloneStack (np : Slot) (stack arg : Nat) : K Bool := do
  let me ← self
  let p ← myproc
  upd np fun x =>
    { x with pgdir := p.pgdir, sz := p.sz, parent := some me.proc, tf := p.tf, isthread := true }
  let pp ← firstNonThread NPROC me.proc
  upd np fun x => { x with parent := some pp }
  dupFiles np (List.finRange 16)
  upd np fun x => { x with tf := { x.tf with eax := 0, ebp := (stack + 4096) % 2 ^ 32 } }
  onMem (copyout p.pgdir (cloneSp stack) (leBytes 4 (2 ^ 32 - 1) ++ leBytes 4 arg))

/-- `clone` after `copyout`: the pid. -/
def cloneStart (np : Slot) (stack routine : Nat) : K Nat := do
  upd np fun x => { x with tf := { x.tf with eip := routine, esp := cloneSp stack } }
  dupCwd np
  switchuvm np
  let p ← myproc
  upd np fun x => { x with state := .runnable, name := safestrcpy p.name 16 }
  gets fun k => (k.proc np).pid

/-- `clone(stack, size, routine, arg)`, the arguments as words: `none` is -1.  The size is not used. -/
def clone (stack _size routine arg : Nat) : K (Option Nat) := do
  match ← allocproc with
  | none => return none
  | some np =>
    if stack % 4096 ≠ 0 ∨ stack = 0 ∨ routine = 0 then return none
    else if ← cloneStack np stack arg then return some (← cloneStart np stack routine)
    else return none

/-- A zombie child is given back, in `wait`. -/
def reap (p : Slot) : K Nat := do
  let x ← gets fun k => k.proc p
  onMem (kfree x.kstack)
  when (x.isthread = false) (onMem (freevm x.pgdir))
  upd p fun x =>
    { x with kstack := 0, state := .unused, pid := 0, parent := none, name := [], killed := false }
  return x.pid

/-- `wait()`: `none` is -1, and it is blocked while it sleeps. -/
def wait : K (Option Nat) := do
  let me ← self
  match ← gets fun k => (List.finRange NPROC).find? fun p =>
      (k.proc p).parent = some me.proc ∧ (k.proc p).state = .zombie with
  | some p => return some (← reap p)
  | none =>
    let havekids ← gets fun k => (List.finRange NPROC).any fun p => (k.proc p).parent = some me.proc
    let p ← myproc
    if havekids = false ∨ p.killed = true then return none
    else
      await fun _ => false
      return none

/-! ## 3. What a process sees of its memory -/

/-- The entry by which page `u` is translated. -/
def Mem.translate (m : Mem) (d u : Nat) : Option Nat :=
  if Present (m.pteOf d u) then some (m.pteOf d u) else none

/-- The byte at address `a`. -/
def Mem.byteAt (m : Mem) (d a : Nat) : Option Byte :=
  (m.translate d (a / 4096)).map fun w => get (m.page (frame w)) (a % 4096)

section

variable {l : Layout} {m m' : Mem} {own own' : Nat → Owner} {d u a : Nat} {me : Me} {k : Kernel}

theorem translate_congr (h : m'.pteOf d u = m.pteOf d u) : m'.translate d u = m.translate d u := by
  unfold Mem.translate
  rw [h]

theorem translate_of_not_present (h : ¬Present (m.pteOf d u)) : m.translate d u = none := if_neg h

/-- The same frame and the same bytes in it. -/
theorem byteAt_of_frame (hp : Present (m'.pteOf d (a / 4096)) ↔ Present (m.pteOf d (a / 4096)))
    (hf : frame (m'.pteOf d (a / 4096)) = frame (m.pteOf d (a / 4096)))
    (hpage : Present (m.pteOf d (a / 4096)) →
      m'.page (frame (m.pteOf d (a / 4096))) = m.page (frame (m.pteOf d (a / 4096)))) :
    m'.byteAt d a = m.byteAt d a := by
  unfold Mem.byteAt Mem.translate
  by_cases h : Present (m.pteOf d (a / 4096))
  · rw [if_pos h, if_pos (hp.mpr h), Option.map_some, Option.map_some, hf, hpage h]
  · rw [if_neg h, if_neg fun e => h (hp.mp e)]
    rfl

theorem byteAt_congr (h : m'.pteOf d (a / 4096) = m.pteOf d (a / 4096))
    (hpage : Present (m.pteOf d (a / 4096)) →
      m'.page (frame (m.pteOf d (a / 4096))) = m.page (frame (m.pteOf d (a / 4096)))) :
    m'.byteAt d a = m.byteAt d a := byteAt_of_frame (by rw [h]) (by rw [h]) hpage

theorem byteAt_of_not_present (h : ¬Present (m.pteOf d (a / 4096))) : m.byteAt d a = none := by
  rw [Mem.byteAt, translate_of_not_present h, Option.map_none]

/-- What a directory maps below KERNBASE is data. -/
theorem Wf.isData_page (h : Wf l m own) (hd : own d = .dir) (hu : u < 2 ^ 19)
    (hp : Present (m.pteOf d u)) : (own (frame (m.pteOf d u))).IsData := by
  rw [(h.tables.page d u _).mpr ⟨hd, hu, hp, rfl⟩]
  trivial

theorem onMem_ok {α : Type} {c : V α} {x : α} (h : c me.layout k.mem = .ok x m') :
    onMem c me k = .ok x { k with mem := m' } := by
  unfold onMem
  rw [h]

theorem ends_upd {p : Slot} {f : Proc → Proc} {Q : Unit → Kernel → Prop} :
    ends (upd p f) Q me k ↔ Q () (k.upd p f) := Iff.rfl

theorem ends_myproc {Q : Proc → Kernel → Prop} : ends myproc Q me k ↔ Q (k.proc me.proc) k := Iff.rfl

theorem ends_onMem {α : Type} {c : V α} {Q : α → Kernel → Prop} :
    ends (onMem c) Q me k ↔ ends c (fun x m => Q x { k with mem := m }) me.layout k.mem := by
  unfold ends onMem
  cases c me.layout k.mem <;> exact Iff.rfl

theorem onMem_panic {α : Type} {c : V α} {e : Stop} (h : c me.layout k.mem = .panic e m') :
    onMem c me k = .panic e { k with mem := m' } := by
  unfold onMem
  rw [h]

theorem switchuvm_eq {p : Slot} (hd : (k.proc p).pgdir ≠ 0) : switchuvm p me k = .ok () k := by
  unfold switchuvm
  rw [run_bind (show gets _ me k = .ok (k.proc p).pgdir k from rfl)]
  exact panicIf_of_not hd _ me k

theorem setSize_eq {sz : Nat} (hd : (k.proc me.proc).pgdir ≠ 0) :
    setSize sz me k = .ok true (k.upd me.proc fun x => { x with sz := sz }) := by
  unfold setSize
  rw [run_bind (show self me k = .ok me k from rfl),
    run_bind (show upd _ _ me k = .ok () (k.upd me.proc fun x => { x with sz := sz }) from rfl),
    run_bind (switchuvm_eq (by rw [upd_proc_self]; exact hd))]
  rfl

/-! ## 4. `growproc` -/

/-- Exactly the pages below `PGROUNDUP(sz)` are mapped. -/
def Mem.Solid (m : Mem) (d sz : Nat) : Prop := ∀ u, u < 2 ^ 19 → (Present (m.pteOf d u) ↔ u < pageUp sz)

/-- **What `growproc(n)` is to do** when it returns `r`, with `sz` before and `sz'` after: the size is
`sz + n` and all below it is mapped, with zeros in new pages and the old bytes in the others; or
nothing has changed. -/
def GrowExact (m : Mem) (d sz : Nat) (n : Int) (r : Bool) (m' : Mem) (sz' : Nat) : Prop :=
  (r = true → (sz' : Int) = sz + n ∧ sz' < 2 ^ 31 ∧ m'.Solid d sz' ∧
    (∀ u, pageUp sz ≤ u → u < pageUp sz' → m'.page (frame (m'.pteOf d u)) = fun _ => 0) ∧
    ∀ a, a < min sz sz' → m'.byteAt d a = m.byteAt d a) ∧
  (r = false → sz' = sz ∧ (∀ u, u < 2 ^ 19 → m'.translate d u = m.translate d u) ∧
    ∀ a, a < 2 ^ 31 → m'.byteAt d a = m.byteAt d a)

theorem GrowExact.unchanged {sz : Nat} (m : Mem) (d : Nat) (n : Int) :
    GrowExact m d sz n false m sz :=
  ⟨nofun, fun _ => ⟨rfl, fun _ _ => rfl, fun _ _ => rfl⟩⟩

/-- The bytes of a page whose entry stays are the same. -/
theorem Grows.byteAt {P : Nat → Prop} (hg : Grows l d P m own m' own') (h : Wf l m own)
    (hd : own d = .dir) (ha : a < 2 ^ 31) (hP : ¬P (a / 4096)) : m'.byteAt d a = m.byteAt d a :=
  byteAt_congr (hg.pte d _ hd fun e => hP e.2) fun hp =>
    hg.data _ (h.isData_page hd (by omega) hp)

theorem Shrinks.byteAt {P : Nat → Prop} (hs : Shrinks l d P m own m' own') (h : Wf l m own)
    (hd : own d = .dir) (ha : a < 2 ^ 31) (hP : ¬P (a / 4096)) : m'.byteAt d a = m.byteAt d a := by
  refine byteAt_congr (hs.pte d _ hd fun e => hP e.2) fun hp =>
    hs.data _ (h.isData_page hd (by omega) hp) fun u hu e => hP ?_
  rw [(h.tables.page d (a / 4096) _).mpr ⟨hd, by omega, hp, rfl⟩] at e
  cases e
  exact hu

theorem deallocuvm_of_le {oldsz newsz : Nat} (h : oldsz ≤ newsz) :
    deallocuvm d oldsz newsz l m = .ok oldsz m := by
  unfold deallocuvm
  rw [if_pos h]
  rfl

theorem allocuvm_of_ge {oldsz newsz : Nat} (h : 2 ^ 31 ≤ newsz) :
    allocuvm d oldsz newsz l m = .ok 0 m := by
  unfold allocuvm
  rw [if_pos h]
  rfl

/-- `allocuvm` has mapped all pages up to `newsz`. -/
theorem growExact_filled {sz sz' n : Nat} (h : Wf l m own) (hd : own d = .dir)
    (hsolid : m.Solid d sz) (hle : sz ≤ sz') (hsz' : sz' < 2 ^ 31) (hn : sz' = sz + n)
    (hfilled : Filled l d (pageUp sz) (pageUp sz' - pageUp sz) (fun _ => 6) (fun _ _ => 0) m own
      (pageUp sz' - pageUp sz) m' own') : GrowExact m d sz n true m' sz' := by
  have hups := pageUp_le hle (Nat.le_of_lt hsz')
  refine ⟨fun _ => ⟨by omega, hsz', fun u hu => ?_, fun u hlo hhi => ?_, fun a ha => ?_⟩, nofun⟩
  · by_cases hin : pageUp sz ≤ u ∧ u < pageUp sz'
    · exact iff_of_true (hfilled.fresh u hin.1 (by omega)).present hin.2
    · rw [hfilled.grows.pte d u hd fun e => hin ⟨e.2.1, by omega⟩, hsolid u hu]
      omega
  · exact (hfilled.fresh u hlo (by omega)).bytes
  · have hbelow : a / 4096 < pageUp sz := (lt_pageUp_iff (by omega)).mpr (by omega)
    exact hfilled.grows.byteAt h hd (by omega) (by omega)

/-- `allocuvm` has taken everything back. -/
theorem growExact_undone {sz sz' : Nat} {n : Int} (h : Wf l m own) (hd : own d = .dir)
    (hsolid : m.Solid d sz)
    (hundone : Undone l d (fun u => pageUp sz ≤ u ∧ u < pageUp sz') m own m' own') :
    GrowExact m d sz n false m' sz := by
  have hno : ∀ u, u < 2 ^ 19 → pageUp sz ≤ u → ¬Present (m.pteOf d u) := fun u hu hge hp =>
    absurd ((hsolid u hu).mp hp) (by omega)
  refine ⟨nofun, fun _ => ⟨rfl, fun u hu => ?_, fun a ha => ?_⟩⟩
  · by_cases hin : pageUp sz ≤ u ∧ u < pageUp sz'
    · rw [translate_of_not_present (hundone.none u hin),
        translate_of_not_present (hno u hu hin.1)]
    · exact translate_congr (hundone.grows.pte d u hd fun e => hin e.2)
  · by_cases hin : pageUp sz ≤ a / 4096 ∧ a / 4096 < pageUp sz'
    · rw [byteAt_of_not_present (hundone.none _ hin),
        byteAt_of_not_present (hno _ (by omega) hin.1)]
    · exact hundone.grows.byteAt h hd ha hin

/-- `deallocuvm` in a process whose pages are those below its size. -/
theorem deallocuvm_solid {sz sz' : Nat} (h : Wf l m own) (hd : own d = .dir) (hsz : sz < 2 ^ 31)
    (hsolid : m.Solid d sz) (hlt : sz' < sz) :
    ∃ m' own', deallocuvm d sz sz' l m = .ok sz' m' ∧
      Shrinks l d (fun u => pageUp sz' ≤ u ∧ 4096 * u < sz) m own m' own' :=
  deallocuvm_spec h hd (by omega) hlt fun u hu hlast hp => reaches_of_present hu hp
    (.inl (hasTable_of_present ((hsolid _ (by omega)).mpr ((lt_pageUp_iff (by omega)).mpr (by omega)))))

/-- When everything is gone, it does not do to return -1. -/
theorem not_growExact_zero {sz sz' : Nat} {n : Int} (hsolid : m.Solid d sz) (hsz : sz < 2 ^ 31)
    (hpos : 0 < sz) (hs : Shrinks l d (fun u => pageUp 0 ≤ u ∧ 4096 * u < sz) m own m' own') :
    ¬GrowExact m d sz n false m' sz' := fun hexact => by
  have hfirst := (hexact.2 rfl).2.1 0 (by decide)
  have hpage : 0 < pageUp sz := (lt_pageUp_iff (by omega)).mpr (by omega)
  rw [translate_of_not_present (hs.gone 0 ⟨by decide, by omega⟩), Mem.translate,
    if_pos ((hsolid 0 (by decide)).mpr hpage)] at hfirst
  cases hfirst

/-- `growproc` takes the 0 that `deallocuvm` returns for a failure. -/
theorem growproc_to_zero {n : Int} (hneg : n < 0)
    (hrun : deallocuvm (k.proc me.proc).pgdir (k.proc me.proc).sz
      (((k.proc me.proc).sz + n) % 2 ^ 32 : Int).toNat me.layout k.mem = .ok 0 m') :
    growproc n me k = .ok false { k with mem := m' } := by
  unfold growproc
  rw [run_bind (show myproc me k = .ok (k.proc me.proc) k from rfl), if_neg (by omega), if_pos hneg,
    run_bind (onMem_ok hrun)]
  rfl

/-- `deallocuvm` has unmapped all pages from `sz'` on. -/
theorem growExact_shrunk {sz sz' : Nat} {n : Int} (h : Wf l m own) (hd : own d = .dir)
    (hsolid : m.Solid d sz) (hsz : sz < 2 ^ 31) (hlt : sz' < sz) (hn : (sz' : Int) = sz + n)
    (hs : Shrinks l d (fun u => pageUp sz' ≤ u ∧ 4096 * u < sz) m own m' own') :
    GrowExact m d sz n true m' sz' := by
  have hups := pageUp_le (Nat.le_of_lt hlt) (Nat.le_of_lt hsz)
  refine ⟨fun _ => ⟨hn, by omega, fun u hu => ?_, fun u hlo hhi => by omega, fun a ha => ?_⟩, nofun⟩
  · have hpage : u < pageUp sz ↔ 4096 * u < sz := lt_pageUp_iff (by omega)
    by_cases hin : pageUp sz' ≤ u ∧ 4096 * u < sz
    · exact iff_of_false (hs.gone u hin) (by omega)
    · rw [hs.pte d u hd fun e => hin e.2, hsolid u hu]
      omega
  · have hbelow : a / 4096 < pageUp sz' := (lt_pageUp_iff (by omega)).mpr (by omega)
    exact hs.byteAt h hd (by omega) (by omega)

end

/-- **`growproc` does what it is to do if and only if it grows, or shrinks to something, or there is
nothing to shrink**, in a process whose pages are those below its size and where no page table is
refused.  Of the other calls, one with `n = -sz` frees everything and returns -1, and one with
`-n > sz` returns 0 and changes nothing. -/
theorem growproc_iff {me : Me} {k : Kernel} {own : Nat → Owner} {n : Int}
    (h : Wf me.layout k.mem own) (hd : own (k.proc me.proc).pgdir = .dir)
    (hsz : (k.proc me.proc).sz < 2 ^ 31)
    (hsolid : k.mem.Solid (k.proc me.proc).pgdir (k.proc me.proc).sz)
    (hlo : -2 ^ 31 ≤ n) (hhi : n < 2 ^ 31) :
    ∃ r k', growproc n me k = .ok r k' ∧
      (k'.mem.denied = k.mem.denied →
        (GrowExact k.mem (k.proc me.proc).pgdir (k.proc me.proc).sz n r k'.mem
            (k'.proc me.proc).sz ↔
          0 ≤ n ∨ 0 < (k.proc me.proc).sz + n ∨ (k.proc me.proc).sz = 0)) := by
  generalize hp : k.proc me.proc = p at hd hsz hsolid ⊢
  have hrange := h.listed.range p.pgdir (by rw [hd]; exact nofun)
  have habove := me.layout.above
  have hset : ∀ m' sz, setSize sz me { k with mem := m' } =
      .ok true (Kernel.upd { k with mem := m' } me.proc fun x => { x with sz := sz }) :=
    fun m' sz => setSize_eq (by rw [hp]; omega)
  have hsz' : ∀ m' sz, ((Kernel.upd { k with mem := m' } me.proc fun x =>
      { x with sz := sz }).proc me.proc).sz = sz := fun m' sz => by rw [upd_proc_self]
  unfold growproc
  rw [run_bind (show myproc me k = .ok p k from congrArg (Out.ok · k) hp)]
  rcases lt_trichotomy n 0 with hneg | rfl | hpos
  · rw [if_neg (by omega), if_pos hneg]
    by_cases hge : 0 ≤ p.sz + n
    · -- down to `sz + n`, which may be 0
      obtain ⟨s, hs⟩ := Int.eq_ofNat_of_zero_le hge
      obtain ⟨m', own', hrun, hshrink⟩ := deallocuvm_solid h hd hsz hsolid (show s < p.sz by omega)
      rw [show ((p.sz + n) % 2 ^ 32 : Int).toNat = s by omega, run_bind (onMem_ok hrun)]
      by_cases hzero : s = 0
      · subst hzero
        exact ⟨false, { k with mem := m' }, rfl, fun _ => iff_of_false
          (not_growExact_zero hsolid hsz (by omega) hshrink) (by omega)⟩
      · refine ⟨true, _, by rw [if_neg hzero]; exact hset m' s, fun _ => iff_of_true ?_ (by omega)⟩
        rw [hsz']
        exact growExact_shrunk h hd hsolid hsz (by omega) hs.symm hshrink
    · -- `sz + n` is a large number, and `deallocuvm` leaves everything as it is
      have hbig : p.sz ≤ ((p.sz + n) % 2 ^ 32 : Int).toNat := by omega
      rw [run_bind (onMem_ok (deallocuvm_of_le hbig))]
      by_cases hzero : p.sz = 0
      · refine ⟨false, { k with mem := k.mem }, by rw [if_pos hzero]; rfl, fun _ =>
          iff_of_true ?_ (.inr (.inr hzero))⟩
        show GrowExact _ _ _ _ _ _ (k.proc me.proc).sz
        rw [hp]
        exact .unchanged _ _ _
      · refine ⟨true, _, by rw [if_neg hzero]; exact hset k.mem p.sz, fun _ =>
          iff_of_false (fun hexact => ?_) (by omega)⟩
        rw [hsz'] at hexact
        have := (hexact.1 rfl).1
        omega
  · refine ⟨true, _, by rw [if_neg (by omega), if_neg (by omega)]; exact hset k.mem p.sz, fun _ =>
      iff_of_true ?_ (by omega)⟩
    rw [hsz']
    exact ⟨fun _ => ⟨by omega, hsz, hsolid, fun u _ _ => by omega, fun _ _ => rfl⟩, nofun⟩
  · rw [if_pos hpos]
    obtain ⟨i, rfl⟩ := Int.eq_ofNat_of_zero_le (Int.le_of_lt hpos)
    rw [show ((p.sz + i) % 2 ^ 32 : Int).toNat = p.sz + i by omega]
    by_cases hhigh : 2 ^ 31 ≤ p.sz + i
    · rw [run_bind (onMem_ok (allocuvm_of_ge hhigh))]
      refine ⟨false, { k with mem := k.mem }, rfl, fun _ => iff_of_true ?_ (by omega)⟩
      show GrowExact _ _ _ _ _ _ (k.proc me.proc).sz
      rw [hp]
      exact .unchanged _ _ _
    · have htop := pageUp_le (show p.sz + i ≤ 2 ^ 31 by omega) (Nat.le_refl _)
      rw [show pageUp (2 ^ 31) = 2 ^ 19 by decide] at htop
      obtain ⟨m', own', ⟨hrun, j, hfilled, hj⟩ | ⟨-, hrun, -, hundone⟩⟩ :=
        allocuvm_spec h hd (show p.sz ≤ p.sz + i by omega) (by omega) fun u hlo hhi hpu =>
          absurd ((hsolid u (by omega)).mp hpu) (by omega)
      · rw [run_bind (onMem_ok hrun)]
        refine ⟨true, _, by rw [if_neg (by omega)]; exact hset m' _, fun hden =>
          iff_of_true ?_ (by omega)⟩
        rw [hsz']
        have hden' : m'.denied = k.mem.denied := hden
        obtain rfl : j = pageUp (p.sz + i) - pageUp p.sz := by omega
        exact growExact_filled h hd hsolid (by omega) (by omega) rfl hfilled
      · rw [run_bind (onMem_ok hrun)]
        refine ⟨false, { k with mem := m' }, rfl, fun _ => iff_of_true ?_ (by omega)⟩
        show GrowExact _ _ _ _ _ _ (k.proc me.proc).sz
        rw [hp]
        exact growExact_undone h hd hsolid hundone

/-- A process of one page. -/
theorem exists_solid : ∃ m own,
    Wf ⟨300, 400, by decide, by decide, by decide⟩ m own ∧ own 400 = .dir ∧ m.Solid 400 4096 := by
  have hwf : Wf ⟨300, 400, by decide, by decide, by decide⟩ (blankMem [401, 402, 403])
      (blankOwn 400 [401, 402, 403]) := wf_blank _ (by decide) (by decide) (by decide)
  have hno : ∀ u, ¬Present ((blankMem [401, 402, 403]).pteOf 400 u) := fun u => by
    rw [pteOf_zero rfl]
    exact not_present_zero
  have hdir : blankOwn 400 [401, 402, 403] 400 = .dir := rfl
  obtain ⟨m, own, ⟨-, k, hfilled, -⟩ | ⟨-, -, hfew, -⟩⟩ :=
    allocuvm_spec hwf hdir (show 0 ≤ 4096 by decide) (by decide) fun u _ _ => hno u
  · obtain ⟨rfl, -⟩ := hfilled.all (by decide)
    refine ⟨m, own, hfilled.grows.wf, hfilled.grows.dir hdir, fun u hu => ?_⟩
    by_cases hin : pageUp 0 ≤ u ∧ u < pageUp 0 + (pageUp 4096 - pageUp 0)
    · exact iff_of_true (hfilled.fresh u hin.1 hin.2).present
        (by have : pageUp 0 = 0 := by decide
            omega)
    · rw [hfilled.grows.pte 400 u hdir fun e => hin e.2]
      refine iff_of_false (hno u) ?_
      have : pageUp 0 = 0 := by decide
      omega
  · exact absurd hfew (by decide)

theorem growproc_iff_single : ∃ m own,
    (Wf ⟨300, 400, by decide, by decide, by decide⟩ m own ∧ m.Solid 400 4096) ∧
      ∃ r k', growproc 5000 ⟨⟨300, 400, by decide, by decide, by decide⟩, 0⟩ (single m 400 4096) =
          .ok r k' ∧
        (k'.mem.denied = m.denied →
          (GrowExact m 400 4096 5000 r k'.mem (k'.proc 0).sz ↔
            0 ≤ (5000 : Int) ∨ 0 < (4096 : Int) + 5000 ∨ 4096 = 0)) := by
  obtain ⟨m, own, hwf, hdir, hsolid⟩ := exists_solid
  have hsz : 4096 < 2 ^ 31 := by decide
  exact ⟨m, own, ⟨hwf, hsolid⟩, growproc_iff hwf hdir hsz hsolid (by decide) (by decide)⟩

/-- **`sbrk(-4096)` in a process of one page** returns -1, and the page is gone. -/
theorem sbrk_to_zero_fails : ∃ m own,
    (Wf ⟨300, 400, by decide, by decide, by decide⟩ m own ∧ m.Solid 400 4096) ∧
      ∃ k', growproc (-4096) ⟨⟨300, 400, by decide, by decide, by decide⟩, 0⟩ (single m 400 4096) =
          .ok false k' ∧ k'.mem.denied = m.denied ∧
        ¬GrowExact m 400 4096 (-4096) false k'.mem (k'.proc 0).sz := by
  obtain ⟨m, own, hwf, hdir, hsolid⟩ := exists_solid
  obtain ⟨m', own', hrun, hshrink⟩ := deallocuvm_solid hwf hdir (by decide) hsolid
    (show 0 < 4096 by decide)
  refine ⟨m, own, ⟨hwf, hsolid⟩, { single m 400 4096 with mem := m' }, ?_, hshrink.denied,
    not_growExact_zero hsolid (by decide) (by decide) hshrink⟩
  refine growproc_to_zero (by decide) ?_
  show deallocuvm 400 4096 (((4096 : Nat) + -4096) % 2 ^ 32 : Int).toNat _ m = _
  rw [show (((4096 : Nat) + -4096) % 2 ^ 32 : Int).toNat = 0 by decide]
  exact hrun

end Xv6.Vm
