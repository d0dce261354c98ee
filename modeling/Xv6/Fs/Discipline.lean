/-
# Who writes to the log

`log_write` may be called between `begin_trans` and `commit_trans`, and every call goes to the
transaction that is open, whoever opened it.  The DISCIPLINE is that a process calls it only in a
transaction of its own.  Every function of the file system keeps it when its caller is in a
transaction, and most of the code outside transactions never gets to `log_write`.  There are two
ways to break it, both outside a transaction: an `iput` that drops the last reference to an inode
without links frees the inode's blocks, and reading an inode that has a hole allocates a block
for it.
-/
import Xv6.Fs.Calls

namespace Xv6.Fs

open Xv6.Bytes Xv6.Threads

/-! ## 1. The discipline and its condition -/

/-- **The discipline.**  Every call of `log_write` was made by the process whose transaction was
open. -/
def Disciplined (s : State) : Prop := ∀ c ∈ s.calls, c.2 = some c.1

/-- The condition on a move: an `iput` outside the caller's own transaction frees nothing, and
what is read outside the caller's own transaction has no hole. -/
def Harmless (p : Pid) (l : Label) (s : State) : Prop :=
  match l with
  | .put i => s.owner = some p ∨ ¬s.LastPut i
  | .look i => s.owner = some p ∨ NoHole s.blk (s.inode i)
  | _ => True

instance (p : Pid) : (l : Label) → (s : State) → Decidable (Harmless p l s)
  | .put i, s => inferInstanceAs (Decidable (s.owner = some p ∨ ¬s.LastPut i))
  | .look i, s => inferInstanceAs (Decidable (s.owner = some p ∨ NoHole s.blk (s.inode i)))
  | .enter, _ | .leave, _ | .tx, _ | .txAdd _, _ | .other, _ => isTrue trivial

/-- Every call is allowed. -/
def AnyCall (_ : Pid) (_ : Call) : Prop := True

instance (p : Pid) (c : Call) : Decidable (AnyCall p c) := isTrue trivial

/-! ## 2. Code inside the caller's transaction -/

/-- The process is in a transaction of its own, and the discipline has been kept. -/
def InTx (p : Pid) (s : State) : Prop := s.owner = some p ∧ Disciplined s

/-- Code that keeps the discipline when its caller is in a transaction. -/
def Tame {α : Type} (m : K α) : Prop :=
  m.Preserves InTx fun e s => e ≠ .writeOutsideTrans ∧ Disciplined s

/-- The one place where the owner of the log is asked for. -/
theorem tame_logWrite {b : Sector} : Tame (logWrite b) := by
  intro p s hs
  simp only [logWrite, Code.wp_bind, Code.wp_self, Code.wp_gets, Code.wp_modify, Code.wp_panicIf]
  have hd : ∀ c ∈ (p, s.owner) :: s.calls, c.2 = some c.1 := by
    intro c hc
    rcases List.mem_cons.mp hc with rfl | hc
    · exact hs.1
    · exact hs.2 c hc
  exact ⟨fun _ => ⟨by decide, hd⟩,
    fun _ => ⟨fun hn => absurd (hn.symm.trans hs.1) (by simp), fun _ => ⟨hs.1, hd⟩⟩⟩

/-- So every function keeps the discipline when its caller is in a transaction. -/
theorem tame : Basic InTx fun e s => e ≠ .writeOutsideTrans ∧ Disciplined s where
  keep _ _ _ ht hs := ⟨ht.owner.trans hs.1, fun c hc => hs.2 c (ht.calls ▸ hc)⟩
  write := tame_logWrite
  hand _ _ _ hs := hs
  stop _ _ _ he hs := ⟨he, hs.2⟩

/-! ## 3. Programs between whose pieces others run -/

/-- Whether a process is in a transaction of its own. -/
def inTrans (p : Pid) (s : State) : Bool := s.owner = some p

/-- Run by `p`, from outside a transaction if `x` is `false`, the program keeps the discipline. -/
def Law {α : Type} (p : Pid) (x : Bool) (m : P α) (Q : Bool → α → Prop) : Prop :=
  Keeps Disciplined inTrans Harmless (fun e s => e ≠ .writeOutsideTrans ∧ Disciplined s) p x m Q

/-- The postcondition of a program that ends outside a transaction. -/
def Outside {α : Type} : Bool → α → Prop := fun x _ => x = false

variable {sb : Super} {p : Pid} {α β : Type}

theorem Law.bind {x : Bool} {m : P α} {f : α → P β} {Q : Bool → β → Prop}
    (h : Law p x m fun y a => Law p y (f a) Q) : Law p x (m >>= f) Q := Keeps.bind m x h

/-- Sequence, for programs that start and end outside a transaction. -/
theorem Law.seq {m : P α} {f : α → P β} (hm : Law p false m Outside)
    (hf : ∀ a, Law p false (f a) Outside) : Law p false (m >>= f) Outside :=
  Law.bind (Keeps.imp (fun y a hy => by subst hy; exact hf a) m false hm)

theorem Law.pure (a : α) : Law p false (Pure.pure a : P α) Outside := Keeps.pure rfl

/-- What a silent piece leaves behind. -/
theorem law_unchanged {s t : State} {a : α} (hd : Disciplined s) (hx : inTrans p s = false)
    (ht : SameLog s t) : Disciplined t ∧ (∀ q, q ≠ p → inTrans q t = inTrans q s) ∧ Outside (inTrans p t) a := by
  refine ⟨fun c hc => hd c (ht.calls ▸ hc), fun q _ => ?_, ?_⟩
  · simp only [inTrans, ht.owner]
  · show inTrans p t = false
    simp only [inTrans, ht.owner] at hx ⊢
    exact hx

/-- A silent piece may run outside a transaction. -/
theorem law_silent {l : Label} {act : K α} (h : Silent act) :
    Law p false (Prog.atomic l act) Outside :=
  Keeps.atomic fun s hd hx _ => Code.wp_mono (h.wp p s)
    (fun _ _ ht => ⟨ht.1.1, (law_unchanged (a := ()) hd hx ht.2).1⟩) fun _ _ ht => law_unchanged hd hx ht

/-- An `iput` outside a transaction frees nothing. -/
theorem law_iput (i : Inum) : Law p false (iput i) Outside := by
  have htest : Law p false (Prog.atomic (.put i) (iputTest i)) fun y a => y = false ∧ a = false := by
    refine Keeps.atomic fun s hd hx hc => ?_
    -- the condition excludes the branch that frees
    have hlast : ¬s.LastPut i := hc.resolve_left (of_decide_eq_false hx)
    unfold State.LastPut at hlast
    simp only [iputTest, Code.wp_bind, Code.wp_gets]
    rw [if_neg hlast, Code.wp_pure]
    exact ⟨hd, fun _ _ => rfl, hx, rfl⟩
  refine Law.bind (Keeps.imp (fun y a hy => ?_) _ false htest)
  obtain ⟨rfl, rfl⟩ := hy
  exact Law.seq (Law.pure ()) fun _ => law_silent (passive_iputDrop i).silent

/-- **A transaction** around code that keeps the discipline. -/
theorem law_transaction {l : Label} {body : K α} (h : Tame body) :
    Law p false (transaction l body) Outside := by
  have hbegin : Law p false beginTrans fun y _ => y = true := by
    refine Keeps.atomic fun s hd _ _ => ?_
    simp only [Code.wp_bind, Code.wp_await, Code.wp_self, Code.wp_modify]
    intro hn
    have hnone : s.owner = none := Option.isNone_iff_eq_none.mp hn
    refine ⟨hd, fun q hq => ?_, ?_⟩
    · simp [inTrans, hnone, Ne.symm hq]
    · simp [inTrans]
  have hbody : Law p true (Prog.atomic l body) fun y _ => y = true := by
    refine Keeps.atomic fun s hd hx _ => ?_
    have ho : s.owner = some p := of_decide_eq_true hx
    refine Code.wp_imp (h p s ⟨ho, hd⟩) fun a t ht => ⟨ht.2, fun q _ => ?_, ?_⟩
    · simp only [inTrans, ht.1, ho]
    · simp [inTrans, ht.1]
  have hcommit : Law p true commitTrans fun y _ => y = false := by
    refine Keeps.atomic fun s hd hx _ => ?_
    have ho : s.owner = some p := of_decide_eq_true hx
    refine ⟨hd, fun q hq => ?_, ?_⟩
    · simp [inTrans, ho, Ne.symm hq]
    · simp [inTrans]
  refine Law.bind (Keeps.imp (fun y _ hy => ?_) _ false hbegin)
  subst hy
  refine Law.bind (Keeps.imp (fun y a hy => ?_) _ true hbody)
  subst hy
  exact Law.bind (Keeps.imp (fun y _ hy => hy) _ true hcommit)

/-- A piece that locks an inode and then reads it. -/
theorem law_look {i : Inum} {m : K α} (h : Reads i m) :
    Law p false (Prog.atomic (.look i) (do
      ilock i
      m)) Outside := by
  refine Keeps.atomic fun s hd hx hc => ?_
  have hn : NoHole s.blk (s.inode i) := hc.resolve_left (of_decide_eq_false hx)
  have hn' : NoHole (s.locked i).blk ((s.locked i).icache i).din := by
    simpa only [State.locked, State.setInode, Function.update_self] using hn
  have hE : ∀ (e : Panic) (t : State), e.Calm ∧ SameLog s t →
      e ≠ .writeOutsideTrans ∧ Disciplined t :=
    fun _ t ht => ⟨ht.1.1, (law_unchanged (a := ()) hd hx ht.2).1⟩
  have hlocked : SameLog s (s.locked i) := ⟨rfl, rfl, rfl, rfl, rfl⟩
  rw [Code.wp_bind, wp_ilock]
  refine ⟨fun _ => ⟨by decide, hd⟩, fun _ _ => ?_⟩
  split
  · exact hE _ _ ⟨by decide, hlocked⟩
  · exact Code.wp_mono (h p (s.locked i) hn')
      (fun e t ht => hE e t ⟨ht.1, hlocked.trans ht.2.log⟩)
      fun _ t ht => law_unchanged hd hx (hlocked.trans ht.log)

/-- So the discipline is a closed property of programs. -/
theorem closed_law (sb : Super) (p : Pid) : Closed sb fun m => Law p false m Outside where
  pure := Law.pure
  seq := Law.seq
  passive h := law_silent h.silent
  look h _ := law_look h
  put := law_iput
  close i := law_transaction (basic_iput tame i)
  link ip new := law_transaction (basic_linkBody tame sb ip new)
  unlink dp name := law_transaction (basic_unlinkBody tame sb dp name)
  create path := law_transaction (basic_create tame sb path _ _ _)
  make path type major minor _ := law_transaction (basic_makeBody tame sb path type major minor)

/-! ## 4. Whole runs -/

/-- **Transaction discipline.**  In every run, by any processes and in any interleaving, in which
no `iput` outside its caller's transaction drops the last reference to an inode without links, and
no inode with a hole is read outside a transaction, every call of `log_write` is made by a process
in a transaction of its own, and its panic is never reached. -/
theorem disciplined_unless_freed_outside (sb : Super) (m : State) (hcalls : m.calls = [])
    (howner : m.owner = none) (es : List Event) (t : System)
    (hc : Runs.Along (Sys.Meets AnyCall Harmless) (step sb) (System.at m) es)
    (hr : Runs.run (step sb) (System.at m) es = some t) :
    Disciplined t.mem ∧ t.halted ≠ some .writeOutsideTrans := by
  have hstart : SysOk Disciplined inTrans Harmless
      (fun e s => e ≠ .writeOutsideTrans ∧ Disciplined s) false (System.at m) := by
    refine ⟨fun _ => ⟨fun c hc => ?_, fun p => ?_⟩, fun e he => (by cases he)⟩
    · rw [show (System.at m).mem.calls = [] from hcalls] at hc
      cases hc
    · show inTrans p m = false
      simp [inTrans, howner]
  have hprog : ∀ (p : Pid) (c : Call), AnyCall p c → Law p false (syscall sb c) Outside :=
    fun p c _ => (closed_law sb p).syscall c fun _ _ _ f ip src _ =>
      law_transaction (basic_fwriteInode tame sb f ip src)
  have hend := sysOk_run hprog es (System.at m) t hstart hc hr
  cases hh : t.halted with
  | none => exact ⟨(hend.running hh).1, by simp⟩
  | some e =>
    obtain ⟨hne, hd⟩ := hend.stopped e hh
    exact ⟨hd, fun h => hne (Option.some.inj h)⟩

/-- The path `d`. -/
def pathD : List Byte := [100]

/-- The path `d/x`. -/
def pathDX : List Byte := [100, 47, 120]

/-- Process 0 makes process 1 and the directory `d`; process 1 opens `d/x`, which is not there,
and has looked in `d`, to which it still holds a reference, when process 0 removes it. -/
def removeUnderLookup : List Event :=
  .call 0 (.fork 1) :: moves 0 2 ++ .call 0 (.mkdir pathD) :: moves 0 4 ++
    .call 1 (.open pathDX 0) :: moves 1 5 ++ .call 0 (.unlink pathD) :: moves 0 6

/-- An orderly run: the lookup is finished before the directory is removed. -/
def removeAfterLookup : List Event :=
  .call 0 (.fork 1) :: moves 0 2 ++ .call 0 (.mkdir pathD) :: moves 0 4 ++
    .call 1 (.open pathDX 0) :: moves 1 7 ++ .call 0 (.unlink pathD) :: moves 0 6

/-- The theorem applies to the orderly run, which writes to the log in two transactions. -/
theorem disciplined_when_lookup_ends_first :
    ∃ t, Runs.run (step smallDisk) (System.at (mkfs smallDisk)) removeAfterLookup = some t ∧
      13 ≤ t.mem.calls.length ∧ Disciplined t.mem ∧ t.halted ≠ some .writeOutsideTrans := by
  have hrun : ((Runs.run (step smallDisk) (System.at (mkfs smallDisk)) removeAfterLookup).any
      fun t => 13 ≤ t.mem.calls.length) = true := by decide +kernel
  obtain ⟨t, ht, hlen⟩ := Option.any_eq_true _ _ |>.mp hrun
  exact ⟨t, ht, of_decide_eq_true hlen, disciplined_unless_freed_outside smallDisk (mkfs smallDisk)
    rfl rfl removeAfterLookup t (by decide +kernel) ht⟩

/-- **The last reference to a removed directory is dropped by a path lookup**, outside any
transaction.  If no transaction is open then, the kernel panics in `log_write`; if process 0 has
one open, the block that process 1 frees becomes part of it. -/
theorem lookup_frees_removed_directory :
    ((Runs.run (step smallDisk) (System.at (mkfs smallDisk)) (removeUnderLookup ++ moves 1 2)).map
        fun t => (t.mem.calls.head?, t.halted)) =
      some (some (1, none), some .writeOutsideTrans) ∧
    ((Runs.run (step smallDisk) (System.at (mkfs smallDisk)) (removeUnderLookup ++ moves 1 1 ++
        .call 0 (.mkdir pathD) :: moves 0 1 ++ moves 1 1)).map fun t => t.mem.calls.head?) =
      some (some (1, some 0)) := by
  constructor <;> decide +kernel

end Xv6.Fs
