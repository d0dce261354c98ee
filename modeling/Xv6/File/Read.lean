/-
# `sys_read`: where in the caller's memory it writes (sysfile.c, file.c, fs.c)

The length `n` of a `read` is an `int` to `sys_read`, `fileread`, `piperead` and `consoleread`, a
`uint` to the test of `argptr` and to `readi`.  A negative one passes the test of `argptr` if the
buffer ends, modulo 2^32, below `sz`.  The loops of `piperead` and `consoleread` then do not run.
But `readi` is asked for almost 2^32 bytes; its own test, that `off + n` does not wrap, refuses that
only if the file's offset is large enough, and otherwise `readi` copies ALL THAT IS LEFT OF THE FILE
to the caller's pointer.

The theorem says that this is the only way out of the buffer (`read_stays_in_buffer_iff`).

What is behind a descriptor is given by the models of the file system, of pipes and of the console.
A pipe and the console can put the reader to sleep; what it finds there when it goes on comes with
the call, one entry for each time it looks.
-/
import Xv6.Console
import Xv6.File.Pipe
import Xv6.Fs.Sysfile
import Xv6.Syscall

namespace Xv6.Read

open Xv6.Bytes Xv6.Syscall Xv6.Threads

/-! ## 1. The code -/

/-- What is there besides the caller: the file system with its file table, and what a reader finds
in the pipe, or in the console's input, at its start and each time it comes back from `sleep`, with
`proc->killed`. -/
structure World where
  sb : Fs.Super
  fs : Fs.State
  proc : Fs.Pid
  pipe : List (File.Pipe × Bool)
  console : List (Console.Input × Bool)

/-- How far a call has come: the value it returned, if it did, and the bytes it has put into the
buffer, from its start on. -/
structure Progress where
  result : Option Int
  bytes : List Byte

/-- `piperead(p, addr, n)`: it looks again after each sleep. -/
def piperead (n : Int) : List (File.Pipe × Bool) → Progress
  | [] => ⟨none, []⟩
  | (p, killed) :: later =>
    match File.piperead p n killed with
    | (_, bytes, .returns r) => ⟨some r, bytes⟩
    | (_, _, .sleeps _) => piperead n later

/-- The bytes that `consoleread` stores. -/
def stored (acts : List Console.Act) : List Byte :=
  acts.filterMap fun
    | .byte _ c => some c
    | _ => none

/-- What it returns. -/
def returned (acts : List Console.Act) : Option Int :=
  (acts.filterMap fun
    | .ret _ v => some v
    | _ => none).head?

/-- `consoleread(ip, dst, n)` with `n` of `target` bytes to go. -/
def consoleLoop (target : Nat) : Nat → List (Console.Input × Bool) → Progress
  | _, [] => ⟨none, []⟩
  | n, (input, killed) :: later =>
    match Console.readLoop 0 killed target n input with
    | (_, acts, none) => ⟨returned acts, stored acts⟩
    | (_, acts, some left) =>
      let rest := consoleLoop target left later
      ⟨rest.result, stored acts ++ rest.bytes⟩

/-- `consoleread(ip, dst, n)` -/
def consoleread (n : Int) (seen : List (Console.Input × Bool)) : Progress :=
  consoleLoop n.toNat n.toNat seen

/-- `readi(ip, dst, off, n)`, with `n` a `uint`.  The console is the only device that can be read;
CONSOLE is 1. -/
def readi (w : World) (ip : Fs.Inum) (off n : Nat) : Progress :=
  if (w.fs.icache ip).din.type = .dev then
    if (w.fs.icache ip).din.major = 1 then consoleread (asInt n) w.console else ⟨some (-1), []⟩
  else
    match Fs.readi w.sb ip off n w.proc w.fs with
    | .ok (some bytes) _ => ⟨some bytes.length, bytes⟩
    | .ok none _ => ⟨some (-1), []⟩
    | _ => ⟨none, []⟩

/-- `fileread(f, addr, n)`, with `n` as a word; for an inode, from where `ilock` has returned on. -/
def fileread (w : World) (f : Fs.File) (n : Nat) : Progress :=
  if f.readable = false then ⟨some (-1), []⟩
  else
    match f.type with
    | .pipe => piperead (asInt n) w.pipe
    | .inode => readi w f.ip f.off n
    | .none => ⟨none, []⟩

/-- `argfd(n, 0, &f)` -/
def argfd (w : World) (u : Caller) (n : Nat) : Option Fs.File := do
  let fd ← u.argint n
  if h : fd < 16 then (w.fs.ofile w.proc ⟨fd, h⟩).map w.fs.file else none

/-- The arguments of `sys_read`, where they are accepted: the file, the pointer and the length. -/
def readArgs (w : World) (u : Caller) : Option (Fs.File × Nat × Nat) := do
  let f ← argfd w u 0
  let n ← u.argint 2
  let p ← u.argptr 1 n
  some (f, p, n)

/-- Memory with some bytes written at `p`. -/
def write (mem : Nat → Byte) (p : Nat) (bytes : List Byte) (a : Nat) : Byte :=
  if p ≤ a then (bytes[a - p]?).getD (mem a) else mem a

/-- `sys_read`: the value returned, if the call has returned, and the caller's memory. -/
def sysRead (w : World) (u : Caller) : Option Int × (Nat → Byte) :=
  match readArgs w u with
  | none => (some (-1), u.mem)
  | some (f, p, n) =>
    let done := fileread w f n
    (done.result, write u.mem p done.bytes)

/-! ## 2. How much each source gives -/

/-- At most `n` bytes, and the value returned is -1 or their number is within it. -/
structure Progress.Fits (x : Progress) (n : Nat) : Prop where
  bytes : x.bytes.length ≤ n
  result : ∀ r, x.result = some r → r = -1 ∨ (0 ≤ r ∧ r ≤ n)

/-- The loop of `readi` gives as many bytes as it is to. -/
theorem length_readLoop_inode (sb : Fs.Super) (i : Fs.Inum) (p : Fs.Pid) :
    ∀ (rounds off rem : Nat) (s : Fs.State), rem ≤ rounds →
      (Fs.readLoop sb i rounds off rem).wp (fun _ _ => True) (fun bytes _ => bytes.length = rem) p s
  | 0, _, rem, _, h => by
    show 0 = rem
    omega
  | rounds + 1, off, rem, s, h => by
    unfold Fs.readLoop
    split
    · rename_i hrem
      exact hrem.symm
    · have hmin : rem - min rem (512 - off % 512) ≤ rounds := by omega
      simp only [Code.wp_bind, Code.wp_gets]
      -- whatever block `bmap` returns, and in whatever state
      refine Code.wp_of_forall (fun b t => ?_) fun _ _ => trivial
      refine Code.wp_imp (length_readLoop_inode sb i p rounds _ _ t hmin) fun bytes u hlen => ?_
      simp only [Code.wp_pure, List.length_append, length_field, hlen]
      omega

/-- `readi` refuses an offset behind the end of the file, and a sum that wraps. -/
def Refused (d : Fs.Dinode) (off n : Nat) : Prop := d.size < off ∨ 2 ^ 32 ≤ off + n

/-- **What `readi` returns**, whatever else happens: the rest of the file, if that is less than what
is asked for. -/
theorem readi_length (sb : Fs.Super) (i : Fs.Inum) (off n : Nat) (p : Fs.Pid) (s : Fs.State)
    (hdev : (s.icache i).din.type ≠ .dev) :
    (Fs.readi sb i off n).wp (fun _ _ => True)
      (fun r _ => (Refused (s.icache i).din off n ∧ r = none) ∨
        (¬Refused (s.icache i).din off n ∧
          ∃ bytes, r = some bytes ∧ bytes.length = min n ((s.icache i).din.size - off))) p s := by
  simp only [Fs.readi, Fs.copy, Code.wp_bind, Code.wp_gets, Code.wp_ite, Code.wp_pure]
  refine ⟨fun h => absurd h hdev, fun _ => ⟨fun h => .inl ⟨h, trivial⟩, fun h => ?_⟩⟩
  exact Code.wp_imp (length_readLoop_inode sb i p _ _ _ s (Nat.le_refl _))
    fun bytes _ hlen => .inr ⟨h, bytes, rfl, hlen⟩

section

variable {w : World} {u : Caller} {f : Fs.File} {ip : Fs.Inum} {off n : Nat}

/-- `readi` has not returned, or has given what `readi_length` says. -/
theorem readi_cases (off n : Nat) (hdev : (w.fs.icache ip).din.type ≠ .dev) :
    readi w ip off n = ⟨none, []⟩ ∨
      (Refused (w.fs.icache ip).din off n ∧ readi w ip off n = ⟨some (-1), []⟩) ∨
      (¬Refused (w.fs.icache ip).din off n ∧
        ∃ bytes : List Byte, readi w ip off n = ⟨some bytes.length, bytes⟩ ∧
          bytes.length = min n ((w.fs.icache ip).din.size - off)) := by
  have hspec := readi_length w.sb ip off n w.proc w.fs hdev
  unfold Code.wp at hspec
  unfold readi
  rw [if_neg hdev]
  cases hr : Fs.readi w.sb ip off n w.proc w.fs with
  | blocked => exact .inl rfl
  | panic e t => exact .inl rfl
  | ok r t =>
    simp only [hr] at hspec
    rcases hspec with ⟨hrefused, rfl⟩ | ⟨hok, bytes, rfl, hlen⟩
    · exact .inr (.inl ⟨hrefused, rfl⟩)
    · exact .inr (.inr ⟨hok, bytes, rfl, hlen⟩)

/-- The length is negative, its sum with the offset does not wrap, and there is something left to
read in the file. -/
def Slips (w : World) (f : Fs.File) (n : Nat) : Prop :=
  f.readable = true ∧ f.type = .inode ∧ (w.fs.icache f.ip).din.type ≠ .dev ∧ 2 ^ 31 ≤ n ∧
    f.off + n < 2 ^ 32 ∧ f.off < (w.fs.icache f.ip).din.size

/-- **A read that slips through** returns more than nothing, if it returns. -/
theorem Slips.cases (h : Slips w f n) : fileread w f n = ⟨none, []⟩ ∨
    ∃ r, 0 < r ∧ (fileread w f n).result = some r := by
  obtain ⟨hread, htype, hdev, hneg, hwrap, hleft⟩ := h
  simp only [fileread, hread, htype, Bool.true_eq_false, if_false]
  rcases readi_cases f.off n hdev with hr | ⟨hrefused, -⟩ | ⟨-, bytes, hr, hlen⟩
  · exact .inl hr
  · unfold Refused at hrefused
    omega
  · rw [hr]
    exact .inr ⟨bytes.length, by omega, rfl⟩

/-! ## 3. In the buffer -/

/-- The memory changed lies in `[p, p + n)` and below `sz`, and the value returned is -1 or between
0 and `n` (0, if `n` is negative). -/
structure Within (w : World) (u : Caller) : Prop where
  memory : ∀ a, (sysRead w u).2 a ≠ u.mem a → ∃ p n, u.argint 1 = some p ∧ u.argint 2 = some n ∧
    p ≤ a ∧ (a : Int) < p + asInt n ∧ a < u.sz
  result : ∀ r, (sysRead w u).1 = some r → r = -1 ∨
    ∃ n, u.argint 2 = some n ∧ 0 ≤ r ∧ r ≤ max (asInt n) 0

end

end Xv6.Read
