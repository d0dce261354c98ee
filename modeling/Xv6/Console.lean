/-
# The console's line discipline (console.c)

`consoleintr` puts what is typed into a ring of INPUT_BUF bytes with three free-running 32-bit
indices: readers take at `r`, a line is COMMITTED by moving `w`, and the line that is being typed
ends at `e`.  Backspace and ^U move `e` back, but never behind `w`.  `consoleread` takes committed
bytes one by one and sleeps where there are none.

All of it happens under `input.lock`, which a reader gives up only in `sleep`.  So a step is a whole
call of `consoleintr`, or a reader running from its start or from its `sleep` to its next `sleep`
or to its return.

What it is for is said without indices: an `Editor` has the bytes committed so far and the line that
is being typed.  The indices may start anywhere, near `2 ^ 32` too.
-/
import Xv6.Ring
import Xv6.Runs

namespace Xv6.Console

open Xv6.Ring

abbrev Byte := BitVec 8
abbrev Pid := Nat

/-! ## 1. The code -/

/-- `C('P')`, `C('U')`, `C('H')`, `'\x7f'` and `C('D')`. -/
def ctrlP : Byte := 16
def ctrlU : Byte := 21
def ctrlH : Byte := 8
def del : Byte := 127
def ctrlD : Byte := 4
def cr : Byte := 13
def nl : Byte := 10

/-- `struct input`, with INPUT_BUF = 128. -/
structure Input where
  buf : Fin 128 → Byte
  r : BitVec 32
  w : BitVec 32
  e : BitVec 32

namespace Input

variable (s : Input)

/-- `input.buf[i % INPUT_BUF]` -/
def char (i : BitVec 32) : Byte := s.buf (slot 128 i)

/-- `case C('U')`: the loop.  Every round takes a byte off the line, so `e - w` rounds are enough. -/
def kill : Nat → Input → Input
  | 0, s => s
  | rounds + 1, s =>
    if s.e ≠ s.w ∧ s.char (s.e - 1) ≠ nl then kill rounds { s with e := s.e - 1 } else s

/-- `input.buf[input.e++ % INPUT_BUF] = c;` and, if the line ends here, `input.w = input.e`. -/
def store (c : Byte) : Input :=
  let s' := { s with buf := Function.update s.buf (slot 128 s.e) c, e := s.e + 1 }
  if c = nl ∨ c = ctrlD ∨ s'.e = s'.r + 128 then { s' with w := s'.e } else s'

/-- The `switch` of `consoleintr`. -/
def type (c : Byte) : Input :=
  if c = ctrlP then s
  else if c = ctrlU then kill (s.e - s.w).toNat s
  else if c = ctrlH ∨ c = del then
    if s.e ≠ s.w then { s with e := s.e - 1 } else s
  else if c ≠ 0 ∧ s.e - s.r < 128 then s.store (if c = cr then nl else c)
  else s

/-- `consoleintr`, with all that `getc` returns before -1. -/
def consoleintr (cs : List Byte) : Input := cs.foldl type s

end Input

/-- What can be seen from outside: a byte typed, a byte put in a reader's buffer, an end of file
taken by a reader, and the value a call of `consoleread` returns. -/
inductive Act where
  | typed (c : Byte)
  | byte (p : Pid) (c : Byte)
  | eof (p : Pid)
  | ret (p : Pid) (v : Int)
deriving DecidableEq, Repr

/-- The loop of `consoleread` with `n` bytes to go, up to its return or to `sleep`.  The result has
the `n` with which it sleeps. -/
def readLoop (p : Pid) (killed : Bool) (target : Nat) : Nat → Input → Input × List Act × Option Nat
  | 0, s => (s, [.ret p target], none)
  | n + 1, s =>
    if s.r = s.w then
      if killed then (s, [.ret p (-1)], none) else (s, [], some (n + 1))
    else
      let c := s.char s.r
      let s' := { s with r := s.r + 1 }
      if c = ctrlD then
        if n + 1 < target then ({ s' with r := s'.r - 1 }, [.ret p (target - (n + 1))], none)
        else (s', [.eof p, .ret p (target - (n + 1))], none)
      else if c = nl then (s', [.byte p c, .ret p (target - n)], none)
      else
        let (s'', acts, left) := readLoop p killed target n s'
        (s'', .byte p c :: acts, left)

/-- The console, the readers asleep in `consoleread` with their `target` and `n`, and all that has
been seen so far. -/
structure State where
  input : Input
  killed : Pid → Bool
  asleep : Pid → Option (Nat × Nat)
  trace : List Act

inductive Event where
  /-- an interrupt, with the characters it finds -/
  | intr (cs : List Byte)
  /-- a process calls `consoleread` -/
  | read (p : Pid) (n : Int)
  /-- a reader comes back from `sleep` -/
  | wake (p : Pid)
  /-- `p->killed = 1` -/
  | kill (p : Pid)
deriving DecidableEq, Repr

/-- A reader runs with `n` of `target` bytes to go. -/
def State.go (s : State) (p : Pid) (target n : Nat) : State :=
  let (input, acts, left) := readLoop p (s.killed p) target n s.input
  { s with
    input := input
    asleep := Function.update s.asleep p (left.map fun n => (target, n))
    trace := s.trace ++ acts }

def step (s : State) : Event → Option State
  | .intr cs => some { s with input := s.input.consoleintr cs, trace := s.trace ++ cs.map .typed }
  | .read p n => if s.asleep p = none then some (s.go p n.toNat n.toNat) else none
  | .wake p => (s.asleep p).map fun (target, n) => s.go p target n
  | .kill p => some { s with killed := Function.update s.killed p true }

/-- No reader yet. -/
def start (input : Input) : State := ⟨input, fun _ => false, fun _ => none, []⟩

/-! ## 2. The ideal line editor -/

/-- The bytes committed so far, how many of them have been taken, and the line that is being
typed. -/
structure Editor where
  committed : List Byte
  taken : Nat
  line : List Byte
deriving DecidableEq, Repr

namespace Editor

variable (d : Editor)

/-- The bytes that nobody has taken. -/
def pending : Nat := d.committed.length - d.taken + d.line.length

/-- A character is added to the line, and may end it. -/
def add (c : Byte) : Editor :=
  if c = nl ∨ c = ctrlD ∨ d.pending + 1 = 128 then
    { d with committed := d.committed ++ (d.line ++ [c]), line := [] }
  else { d with line := d.line ++ [c] }

def type (c : Byte) : Editor :=
  if c = 0 ∨ c = ctrlP then d
  else if c = ctrlU then { d with line := [] }
  else if c = ctrlH ∨ c = del then { d with line := d.line.dropLast }
  else if d.pending < 128 then d.add (if c = cr then nl else c)
  else d

/-- The editor sees what is typed, and that something is taken. -/
def see : Act → Editor
  | .typed c => d.type c
  | .byte _ _ => { d with taken := d.taken + 1 }
  | .eof _ => { d with taken := d.taken + 1 }
  | .ret _ _ => d

end Editor

/-- What the readers got, with ^D for an end of file. -/
def delivered (trace : List Act) : List Byte :=
  trace.filterMap fun
    | .byte _ c => some c
    | .eof _ => some ctrlD
    | _ => none

/-! ## 3. The ring holds what the editor has -/

/-- The ring holds the bytes committed and not yet taken, and then the line.  `past` stands for what
went through the ring before: its length is where the indices started. -/
structure Rep (past : List Byte) (s : Input) (d : Editor) (done : List Byte) : Prop where
  ring : Represents s.buf s.r s.e (past ++ done) (past ++ (d.committed ++ d.line))
  w : s.w = BitVec.ofNat 32 (past ++ d.committed).length
  taken : d.taken = done.length
  order : done <+: d.committed
  plain : nl ∉ d.line

section

variable {past done : List Byte} {s : Input} {d : Editor}

theorem dvd_index : 128 ∣ 2 ^ 32 := by decide

theorem Rep.pending (h : Rep past s d done) : (s.e - s.r).toNat = d.pending := by
  have hlen := h.order.length_le
  rw [h.ring.toNat_sub (by decide), Editor.pending, h.taken]
  simp only [List.length_append]
  omega

theorem Rep.pending_le (h : Rep past s d done) : d.pending ≤ 128 := by
  rw [← h.pending]
  exact h.ring.toNat_sub_le (by decide)

/-- `r == w` says that all that is committed has been taken. -/
theorem Rep.r_eq_w_iff (h : Rep past s d done) : s.r = s.w ↔ done = d.committed := by
  have hlen := h.order.length_le
  have hroom := h.ring.room
  simp only [List.length_append] at hroom
  rw [h.ring.nread, h.w, ofNat_eq_iff (by simp only [List.length_append]; omega)
    (by simp only [List.length_append]; omega), List.length_append, List.length_append]
  refine ⟨fun he => h.order.eq_of_length (by omega), fun he => by rw [he]⟩

/-- `e == w` says that the line is empty. -/
theorem Rep.e_eq_w_iff (h : Rep past s d done) : s.e = s.w ↔ d.line = [] := by
  have hlen := h.order.length_le
  have hroom := h.ring.room
  simp only [List.length_append] at hroom
  rw [h.ring.nwrite, h.w, eq_comm, ofNat_eq_iff (by simp only [List.length_append]; omega)
    (by simp only [List.length_append]; omega), List.length_append, List.length_append,
    List.length_append, ← List.length_eq_zero_iff]
  omega

theorem Rep.length_line (h : Rep past s d done) : d.line.length = (s.e - s.w).toNat := by
  have hlen := h.order.length_le
  have hroom := h.ring.room
  simp only [List.length_append] at hroom
  rw [h.ring.nwrite, h.w, toNat_ofNat_sub (by simp only [List.length_append]; omega)
    (by simp only [List.length_append]; omega)]
  simp only [List.length_append]
  omega

/-- **The last byte of the line is taken back.** -/
theorem Rep.back {line : List Byte} {c : Byte} (h : Rep past s d done)
    (hline : d.line = line ++ [c]) :
    Rep past { s with e := s.e - 1 } { d with line := line } done := by
  have hlen := h.order.length_le
  have hring := h.ring
  rw [hline, ← List.append_assoc, ← List.append_assoc] at hring
  refine ⟨?_, h.w, h.taken, h.order, fun hm => h.plain ?_⟩
  · rw [← List.append_assoc]
    exact hring.retract (by simp only [List.length_append]; omega)
  · rw [hline]
    exact List.mem_append_left _ hm

/-- **^U**: the loop takes back the whole line. -/
theorem Rep.kill (h : Rep past s d done) (rounds : Nat) (hr : d.line.length ≤ rounds) :
    Rep past (Input.kill rounds s) { d with line := [] } done := by
  induction rounds generalizing s d with
  | zero =>
    have hline : d.line = [] := List.eq_nil_of_length_eq_zero (by omega)
    rw [Input.kill, ← hline]
    exact h
  | succ rounds ih =>
    rcases List.eq_nil_or_concat d.line with hline | ⟨line, c, hline⟩
    · rw [Input.kill, if_neg fun hc => hc.1 (h.e_eq_w_iff.mpr hline), ← hline]
      exact h
    · have hlen := h.order.length_le
      have hring := h.ring
      rw [hline, List.concat_eq_append, ← List.append_assoc, ← List.append_assoc] at hring
      have hlast : s.char (s.e - 1) = c :=
        hring.last_item dvd_index (by simp only [List.length_append]; omega)
      rw [List.concat_eq_append] at hline
      have hne : s.e ≠ s.w := fun he => by
        have := h.e_eq_w_iff.mp he
        rw [hline] at this
        simp at this
      have hplain : s.char (s.e - 1) ≠ nl := by
        rw [hlast]
        rintro rfl
        exact h.plain (by rw [hline]; simp)
      rw [Input.kill, if_pos ⟨hne, hplain⟩]
      rw [hline, List.length_append] at hr
      have hrest := ih (h.back hline) (Nat.le_of_succ_le_succ hr)
      exact hrest

/-- **A byte is stored**, and the line committed if it ends there. -/
theorem Rep.store (h : Rep past s d done) (hroom : d.pending < 128) (c : Byte) :
    Rep past (s.store c) (d.add c) done := by
  have hlen := h.order.length_le
  have hpending := h.pending
  have hfull : s.e ≠ s.r + BitVec.ofNat 32 128 := by
    intro he
    have := (h.ring.full_iff (by decide)).mp he
    rw [Editor.pending, h.taken] at hroom
    simp only [List.length_append] at this
    omega
  have hring := h.ring.push dvd_index (by decide) hfull c
  rw [List.append_assoc, List.append_assoc] at hring
  have hcommit : s.e + 1 = s.r + 128 ↔ d.pending + 1 = 128 := by
    have := hring.full_iff (by decide)
    rw [show (128 : BitVec 32) = BitVec.ofNat 32 128 from rfl, this, Editor.pending, h.taken]
    simp only [List.length_append, List.length_singleton]
    omega
  unfold Input.store Editor.add
  simp only [hcommit]
  split
  · -- the line ends
    refine ⟨?_, ?_, h.taken, h.order.trans (List.prefix_append _ _), List.not_mem_nil⟩
    · rw [List.append_nil]
      exact hring
    · exact hring.nwrite
  · rename_i hc
    refine ⟨hring, h.w, h.taken, h.order, fun hm => ?_⟩
    rcases List.mem_append.mp hm with hm | hm
    · exact h.plain hm
    · exact hc (.inl (List.mem_singleton.mp hm).symm)

/-- **One character.** -/
theorem Rep.type (h : Rep past s d done) (c : Byte) : Rep past (s.type c) (d.type c) done := by
  have hpending := h.pending
  unfold Input.type Editor.type
  by_cases hP : c = ctrlP
  · rw [if_pos hP, if_pos (.inr hP)]
    exact h
  by_cases hzero : c = 0
  · subst hzero
    rw [if_neg hP, if_neg (by decide), if_neg (by decide), if_neg fun hc => hc.1 rfl,
      if_pos (.inl rfl)]
    exact h
  rw [if_neg hP, if_neg (not_or.mpr ⟨hzero, hP⟩)]
  by_cases hU : c = ctrlU
  · rw [if_pos hU, if_pos hU]
    exact h.kill _ (Nat.le_of_eq h.length_line)
  rw [if_neg hU, if_neg hU]
  by_cases hH : c = ctrlH ∨ c = del
  · rw [if_pos hH, if_pos hH]
    rcases List.eq_nil_or_concat d.line with hline | ⟨line, b, hline⟩
    · rw [if_neg (not_not.mpr (h.e_eq_w_iff.mpr hline)), hline, List.dropLast_nil, ← hline]
      exact h
    · rw [List.concat_eq_append] at hline
      rw [if_pos fun he => ?_, hline, List.dropLast_concat]
      · exact h.back hline
      · have := h.e_eq_w_iff.mp he
        rw [hline] at this
        simp at this
  rw [if_neg hH, if_neg hH]
  have hlt : s.e - s.r < 128 ↔ d.pending < 128 := by
    rw [BitVec.lt_def, hpending]
    rfl
  by_cases hroom : d.pending < 128
  · rw [if_pos ⟨hzero, hlt.mpr hroom⟩, if_pos hroom]
    exact h.store hroom _
  · rw [if_neg fun hc => hroom (hlt.mp hc.2), if_neg hroom]
    exact h

/-- **A byte is taken.** -/
theorem Rep.take (h : Rep past s d done) (hne : s.r ≠ s.w) :
    Rep past { s with r := s.r + 1 } { d with taken := d.taken + 1 } (done ++ [s.char s.r]) := by
  have hlen : done.length < d.committed.length := by
    refine Nat.lt_of_le_of_ne h.order.length_le fun he => hne ?_
    exact h.r_eq_w_iff.mpr (h.order.eq_of_length he)
  have hre : s.r ≠ s.e := by
    rw [Ne, h.ring.empty_iff (by decide)]
    intro he
    have := congrArg List.length he
    simp only [List.length_append] at this
    omega
  have hring := h.ring.pop dvd_index hre
  rw [List.append_assoc] at hring
  refine ⟨hring, h.w, ?_, ?_, h.plain⟩
  · rw [List.length_append, List.length_singleton, h.taken]
  · have horder := List.prefix_of_prefix_length_le hring.order
      (show past ++ d.committed <+: past ++ (d.committed ++ d.line) by
        rw [← List.append_assoc]
        exact List.prefix_append _ _)
      (by simp only [List.length_append, List.length_singleton]; omega)
    exact (List.prefix_append_right_inj past).mp horder

/-- **A reader** takes bytes in order, until it returns or sleeps. -/
theorem Rep.readLoop (p : Pid) (killed : Bool) (target n : Nat) (h : Rep past s d done) :
    Rep past (readLoop p killed target n s).1
      ((readLoop p killed target n s).2.1.foldl Editor.see d)
      (done ++ delivered (readLoop p killed target n s).2.1) := by
  induction n generalizing s d done with
  | zero =>
    rw [Console.readLoop]
    simpa [delivered, Editor.see] using h
  | succ n ih =>
    rw [Console.readLoop]
    by_cases hrw : s.r = s.w
    · cases killed <;> simpa [hrw, delivered, Editor.see] using h
    · have htake := h.take hrw
      by_cases hD : s.char s.r = ctrlD
      · by_cases hsome : n + 1 < target
        · -- the ^D stays for the next call
          simpa [hrw, hD, hsome, BitVec.add_sub_cancel, delivered, Editor.see] using h
        · rw [hD] at htake
          simpa [hrw, hD, hsome, delivered, Editor.see] using htake
      · by_cases hnl : s.char s.r = nl
        · rw [hnl] at htake
          simpa [hrw, hnl, delivered, Editor.see, show nl ≠ ctrlD by decide] using htake
        · have hrest := ih htake
          simpa [hrw, hD, hnl, delivered, Editor.see] using hrest

end

/-! ## 4. Runs -/

/-- `r <= w <= e <= r + INPUT_BUF` in wrapping arithmetic. -/
def Input.Ordered (s : Input) : Prop :=
  (s.w - s.r).toNat ≤ (s.e - s.r).toNat ∧ (s.e - s.r).toNat ≤ 128

/-- `n` bytes of the ring from index `i` on. -/
def Input.bytes (s : Input) (i : BitVec 32) (n : Nat) : List Byte :=
  (List.range n).map fun k => s.char (i + BitVec.ofNat 32 k)

/-- The editor that a ring starts with. -/
def Input.editor (s : Input) : Editor :=
  ⟨s.bytes s.r (s.w - s.r).toNat, 0, s.bytes s.w (s.e - s.w).toNat⟩

/-- The bytes between `r` and `w` stay where they are. -/
def Kept (s t : Input) : Prop :=
  t.r = s.r ∧ (s.w - s.r).toNat ≤ (t.w - t.r).toNat ∧
    ∀ k, k < (s.w - s.r).toNat →
      t.char (s.r + BitVec.ofNat 32 k) = s.char (s.r + BitVec.ofNat 32 k)

/-- An end of file is a read that returns 0. -/
def EmptyReads : List Act → Prop
  | [] => True
  | .eof p :: acts => acts.head? = some (.ret p 0) ∧ EmptyReads acts
  | _ :: acts => EmptyReads acts

section

variable {past done : List Byte} {s t : Input} {d d' : Editor}

theorem delivered_append (l m : List Act) : delivered (l ++ m) = delivered l ++ delivered m :=
  List.filterMap_append ..

theorem Rep.unread (h : Rep past s d done) :
    (s.w - s.r).toNat = d.committed.length - done.length := by
  have hlen := h.order.length_le
  have hroom := h.ring.room
  simp only [List.length_append] at hroom
  rw [h.ring.nread, h.w, toNat_ofNat_sub (by simp only [List.length_append]; omega)
    (by simp only [List.length_append]; omega)]
  simp only [List.length_append]
  omega

theorem Rep.ordered (h : Rep past s d done) : s.Ordered := by
  have hle := h.pending_le
  rw [Input.Ordered, h.unread, h.pending]
  refine ⟨?_, hle⟩
  rw [Editor.pending, h.taken]
  omega

/-- The committed bytes, in the ring. -/
theorem Rep.char_eq (h : Rep past s d done) {k : Nat} (hk : k < (s.w - s.r).toNat) :
    some (s.char (s.r + BitVec.ofNat 32 k)) = d.committed[done.length + k]? := by
  rw [h.unread] at hk
  have hlt : (past ++ done).length + k < (past ++ (d.committed ++ d.line)).length := by
    simp only [List.length_append]
    omega
  have hbyte := h.ring.unread _ hlt (Nat.le_add_right _ _)
  rw [Input.char, h.ring.nread, ← BitVec.ofNat_add, slot_ofNat dvd_index, hbyte,
    ← List.getElem?_eq_getElem hlt, List.length_append, Nat.add_assoc,
    List.getElem?_append_right (Nat.le_add_right _ _), Nat.add_sub_cancel_left,
    List.getElem?_append_left (by omega)]

/-- **Bytes that stay committed stay where they are.** -/
theorem Rep.kept (h : Rep past s d done) (h' : Rep past t d' done)
    (hle : d.committed <+: d'.committed) : Kept s t := by
  have hr : t.r = s.r := h'.ring.nread.trans h.ring.nread.symm
  have hlen := hle.length_le
  have hunread : (s.w - s.r).toNat ≤ (t.w - t.r).toNat := by
    rw [h.unread, h'.unread]
    omega
  refine ⟨hr, hunread, fun k hk => Option.some.inj ?_⟩
  have hs := h.char_eq hk
  have ht := h'.char_eq (Nat.lt_of_lt_of_le hk hunread)
  rw [hr] at ht
  rw [h.unread] at hk
  rw [ht, hs]
  obtain ⟨rest, hrest⟩ := hle
  rw [← hrest, List.getElem?_append_left (by omega)]

theorem bytes_add (s : Input) (i : BitVec 32) (m n : Nat) :
    s.bytes i (m + n) = s.bytes i m ++ s.bytes (i + BitVec.ofNat 32 m) n := by
  simp [Input.bytes, List.range_add, Function.comp_def, BitVec.ofNat_add, BitVec.add_assoc]

/-- **The ring may start anywhere.** -/
theorem rep_start (h : s.Ordered) (hline : nl ∉ s.bytes s.w (s.e - s.w).toNat) :
    ∃ past, Rep past s s.editor [] := by
  obtain ⟨hwe, hroom⟩ := h
  have hofNat : ∀ x : BitVec 32, BitVec.ofNat 32 x.toNat = x := fun x => by
    rw [BitVec.ofNat_toNat, BitVec.setWidth_eq]
  have hw : s.w = s.r + BitVec.ofNat 32 (s.w - s.r).toNat := by
    rw [hofNat]
    bv_omega
  have hsum : (s.w - s.r).toNat + (s.e - s.w).toNat = (s.e - s.r).toNat := by
    bv_omega
  have hall : s.editor.committed ++ s.editor.line = s.bytes s.r (s.e - s.r).toNat := by
    rw [← hsum, bytes_add, ← hw]
    rfl
  have hlen : ∀ i n, (s.bytes i n).length = n := fun i n => by
    rw [Input.bytes, List.length_map, List.length_range]
  refine ⟨List.replicate s.r.toNat 0, ⟨?_, ?_, ?_, ?_, fun k hk hge => ?_⟩, ?_, rfl,
    List.nil_prefix, hline⟩
  · rw [List.append_nil, List.length_replicate, hofNat]
  · rw [hall, List.length_append, List.length_replicate, hlen, BitVec.ofNat_add, hofNat, hofNat]
    bv_omega
  · rw [List.append_nil]
    exact List.prefix_append _ _
  · rw [hall, List.append_nil, List.length_append, hlen]
    omega
  · rw [List.append_nil, List.length_replicate] at hge
    obtain ⟨j, rfl⟩ : ∃ j, k = s.r.toNat + j := ⟨k - s.r.toNat, by omega⟩
    have hj : j < (s.e - s.r).toNat := by
      rw [hall, List.length_append, List.length_replicate, hlen] at hk
      omega
    refine Option.some.inj ?_
    rw [← List.getElem?_eq_getElem hk, List.getElem?_append_right (by
      rw [List.length_replicate]
      omega), List.length_replicate, Nat.add_sub_cancel_left, hall, Input.bytes, List.getElem?_map,
      List.getElem?_range hj, Option.map_some, Input.char, ← slot_ofNat dvd_index,
      BitVec.ofNat_add, hofNat]
  · show s.w = BitVec.ofNat 32 (_ ++ s.bytes s.r _).length
    rw [List.length_append, List.length_replicate, hlen, BitVec.ofNat_add, hofNat]
    exact hw

theorem committed_add (d : Editor) (c : Byte) : d.committed <+: (d.add c).committed := by
  unfold Editor.add
  split
  · exact List.prefix_append _ _
  · exact List.prefix_refl _

/-- What is committed stays so. -/
theorem committed_type (d : Editor) (c : Byte) : d.committed <+: (d.type c).committed := by
  unfold Editor.type
  split
  · exact List.prefix_refl _
  split
  · exact List.prefix_refl _
  split
  · exact List.prefix_refl _
  split
  · exact committed_add d _
  · exact List.prefix_refl _

/-- **A whole interrupt.** -/
theorem Rep.consoleintr (h : Rep past s d done) (cs : List Byte) :
    Rep past (s.consoleintr cs) ((cs.map Act.typed).foldl Editor.see d) done ∧
      d.committed <+: ((cs.map Act.typed).foldl Editor.see d).committed := by
  induction cs generalizing s d with
  | nil => exact ⟨h, List.prefix_refl _⟩
  | cons c cs ih =>
    obtain ⟨hrep, hle⟩ := ih (h.type c)
    exact ⟨hrep, (committed_type d c).trans hle⟩

end

theorem EmptyReads.append {l m : List Act} (hl : EmptyReads l) (hm : EmptyReads m) :
    EmptyReads (l ++ m) := by
  induction l with
  | nil => exact hm
  | cons a l ih =>
    cases a with
    | eof p =>
      refine ⟨?_, ih hl.2⟩
      show (l ++ m).head? = _
      rw [List.head?_append, hl.1]
      rfl
    | typed c => exact ih hl
    | byte p c => exact ih hl
    | ret p v => exact ih hl

theorem emptyReads_typed (cs : List Byte) : EmptyReads (cs.map Act.typed) := by
  induction cs with
  | nil => trivial
  | cons c cs ih => exact ih

/-- A reader takes a ^D only if it has nothing yet, and then returns 0. -/
theorem emptyReads_readLoop (p : Pid) (killed : Bool) {target n : Nat} (hn : n ≤ target)
    (s : Input) : EmptyReads (readLoop p killed target n s).2.1 ∧
      ∀ m, (readLoop p killed target n s).2.2 = some m → m ≤ target := by
  induction n generalizing s with
  | zero => exact ⟨trivial, fun m hm => by cases hm⟩
  | succ n ih =>
    rw [readLoop]
    by_cases hrw : s.r = s.w
    · cases killed with
      | true => simp [hrw, EmptyReads]
      | false =>
        simp only [hrw, if_true, Bool.false_eq_true, if_false, Option.some.injEq]
        exact ⟨trivial, fun m hm => by omega⟩
    · by_cases hD : s.char s.r = ctrlD
      · by_cases hsome : n + 1 < target
        · simp [hrw, hD, hsome, EmptyReads]
        · have htarget : target = n + 1 := by omega
          simp [hrw, hD, htarget, EmptyReads]
      · by_cases hnl : s.char s.r = nl
        · simp [hrw, hnl, EmptyReads, show nl ≠ ctrlD by decide]
        · have hrest := ih (Nat.le_of_succ_le hn) { s with r := s.r + 1 }
          simpa [hrw, hD, hnl, EmptyReads] using hrest

/-- What holds along a run: the ring has what the editor has, ends of file are empty reads, and a
reader asleep has no more to go than it wanted. -/
structure Inv (past : List Byte) (d₀ : Editor) (m : State) : Prop where
  rep : Rep past m.input (m.trace.foldl Editor.see d₀) (delivered m.trace)
  empty : EmptyReads m.trace
  asleep : ∀ p target n, m.asleep p = some (target, n) → n ≤ target

section

variable {past : List Byte} {d₀ : Editor} {m m' : State}

theorem Inv.go (h : Inv past d₀ m) (p : Pid) {target n : Nat} (hn : n ≤ target) :
    Inv past d₀ (m.go p target n) := by
  obtain ⟨hempty, hleft⟩ := emptyReads_readLoop p (m.killed p) hn m.input
  refine ⟨?_, h.empty.append hempty, fun q target' n' hq => ?_⟩
  · simp only [State.go, List.foldl_append, delivered_append]
    exact h.rep.readLoop p (m.killed p) target n
  · simp only [State.go] at hq
    rcases eq_or_ne q p with rfl | hne
    · rw [Function.update_self, Option.map_eq_some_iff] at hq
      obtain ⟨k, hk, he⟩ := hq
      cases he
      exact hleft _ hk
    · rw [Function.update_of_ne hne] at hq
      exact h.asleep q _ _ hq

/-- **One event.** -/
theorem Inv.step (h : Inv past d₀ m) {ev : Event} (hs : step m ev = some m') : Inv past d₀ m' := by
  cases ev with
  | intr cs =>
    cases hs
    have hd : delivered (cs.map Act.typed) = [] := by
      rw [delivered, List.filterMap_map, List.filterMap_eq_nil_iff]
      exact fun _ _ => rfl
    refine ⟨?_, h.empty.append (emptyReads_typed cs), h.asleep⟩
    simp only [List.foldl_append, delivered_append, hd, List.append_nil]
    exact (h.rep.consoleintr cs).1
  | read p n =>
    simp only [Console.step] at hs
    split at hs
    · cases hs
      exact h.go p (Nat.le_refl _)
    · cases hs
  | wake p =>
    obtain ⟨⟨target, n⟩, hp, rfl⟩ := Option.map_eq_some_iff.mp hs
    exact h.go p (h.asleep p target n hp)
  | kill p =>
    cases hs
    exact ⟨h.rep, h.empty, h.asleep⟩

end

/-- **The line discipline.**  From indices anywhere, after any run: the indices are in order, an
interrupt leaves the bytes between `r` and `w` as they are, the readers got a first part of what the
editor has committed, and an end of file is a read that returns 0. -/
theorem console_line_discipline {input : Input} (h : input.Ordered)
    (hline : nl ∉ input.bytes input.w (input.e - input.w).toNat) {evs : List Event} {m : State}
    (hrun : Runs.run step (start input) evs = some m) :
    m.input.Ordered ∧ (∀ cs, Kept m.input (m.input.consoleintr cs)) ∧
      delivered m.trace <+: (m.trace.foldl Editor.see input.editor).committed ∧
      EmptyReads m.trace := by
  obtain ⟨past, hrep⟩ := rep_start h hline
  have hstart : Inv past input.editor (start input) :=
    ⟨hrep, trivial, fun _ _ _ hp => by cases hp⟩
  have hinv := Runs.run_always (fun _ _ _ hi hs => Inv.step hi hs) evs _ _ hstart hrun
  refine ⟨hinv.rep.ordered, fun cs => ?_, hinv.rep.order, hinv.empty⟩
  obtain ⟨hrep', hle⟩ := hinv.rep.consoleintr cs
  exact hinv.rep.kept hrep' hle

/-- A ring whose indices are about to wrap. -/
def nearWrap : Input := ⟨fun _ => 0, -2, -2, -2⟩

/-- `ax`, backspace, `b`, newline and ^D are typed, and read by a reader that wants 2 bytes and by
two that want 10. -/
def typing : List Event :=
  [.read 1 2, .intr [97, 120, 8], .intr [98, 10, 4], .wake 1, .read 2 10, .read 2 10]

theorem discipline_of_typing : nearWrap.Ordered ∧
    (Runs.run step (start nearWrap) typing).any (fun m => m.input.r == 2 &&
      delivered m.trace == [97, 98, 10, 4]) = true ∧
    ∀ m, Runs.run step (start nearWrap) typing = some m →
      delivered m.trace <+: (m.trace.foldl Editor.see nearWrap.editor).committed := by
  have ho : nearWrap.Ordered := by
    unfold Input.Ordered nearWrap
    decide
  exact ⟨ho, by decide +kernel,
    fun m hm => (console_line_discipline ho (by decide) hm).2.2.1⟩

end Xv6.Console
