/-
# The IDE driver (ide.c)

`iderw` puts a buffer at the end of a queue and sleeps until it is in sync with the disk; `ideintr`
takes the buffer at the front off the queue, whose command the disk has carried out, and starts the
command of the next one.  A command is started from EITHER side: by `iderw` if the queue was empty,
by `ideintr` if it is not yet.

The queue is the one in memory, `qnext` pointers included, and the loop that looks for its end is
followed pointer by pointer.  What runs under `idelock` is one step; a process that sleeps in `iderw`
may be woken at any time and looks again.  The disk carries out the command it was given, once, and
raises one interrupt for it.  `arrived`, `served` and `executed` are histories, read by no step: the
buffers of the calls of `iderw`, of the requests that are done, and of the commands that the disk has
carried out, each in order.

**What holds.**  Whatever the calls and their interleaving, as long as no buffer is in two of them
at once: the buffers that have arrived are those that have been served and then those in the queue,
and the command in progress is that of the first one (`Good`).

**What has to be added.**  Two buffers can be for the same sector of the disk.  If so, a request for
the other one can change the sector after a request is done and before `iderw` returns
(`read_is_overtaken_by_a_write`). -/
import Xv6.Chain
import Xv6.Runs

namespace Xv6.Ide

open Xv6.Runs

set_option linter.unusedSectionVars false

/-! ## 1. The driver and the disk -/

-- A process, a buffer and the contents of a sector can be anything.
variable {P B D : Type}

/-- `struct buf`, `flags` bit by bit. -/
structure Buf (B D : Type) where
  busy : Bool
  valid : Bool
  dirty : Bool
  dev : BitVec 32
  sector : BitVec 32
  data : D
  qnext : Option B

/-- `(b->flags & (B_VALID|B_DIRTY)) == B_VALID` -/
def Buf.synced (x : Buf B D) : Bool := x.valid && !x.dirty

/-- The sector that the registers of the disk can name: `b->dev&1`, and 28 bits of `b->sector`. -/
abbrev Key := BitVec 1 × BitVec 28

def Buf.key (x : Buf B D) : Key := (x.dev.setWidth 1, x.sector.setWidth 28)

/-- A command: read the sector, or write these data to it. -/
structure Cmd (B D : Type) where
  owner : B
  key : Key
  write : Option D

/-- Where a process is: outside, or in `iderw(b)`, asleep or about to look again.  The number is
that of its call. -/
inductive Pc (B : Type)
  | out
  | waiting (b : B) (call : Nat)
  deriving DecidableEq

/-- The buffer it waits for. -/
def Pc.on : Pc B → Option B
  | .out => none
  | .waiting b _ => some b

structure State (P B D : Type) where
  bufs : B → Buf B D
  idequeue : Option B
  /-- the command that has been started, until its interrupt has been handled -/
  cmd : Option (Cmd B D)
  /-- its interrupt has been raised, and this is what can be read from the port -/
  pending : Option D
  disk : Key → D
  pc : P → Pc B
  panicked : Bool
  arrived : List B
  served : List B
  executed : List B

section

variable [DecidableEq P] [DecidableEq B]

/-- The command for a buffer. -/
def command (bufs : B → Buf B D) (b : B) : Cmd B D :=
  ⟨b, (bufs b).key, if (bufs b).dirty then some (bufs b).data else none⟩

/-- `idestart(b)` -/
def idestart (s : State P B D) (b : Option B) : State P B D :=
  match b with
  | none => { s with panicked := true }
  | some b => { s with cmd := some (command s.bufs b) }

/-- `b->qnext = q` -/
def setQnext (bufs : B → Buf B D) (b : B) (q : Option B) : B → Buf B D :=
  Function.update bufs b { bufs b with qnext := q }

/-- Append `b` to `idequeue`; the loop takes at most so many rounds. -/
def append (s : State P B D) (b : B) (rounds : Nat) : Option (State P B D) :=
  let bufs := setQnext s.bufs b none
  match s.idequeue with
  | none => some { s with bufs, idequeue := some b }
  | some x => (Chain.last (fun y => (bufs y).qnext) rounds x).map fun t =>
      { s with bufs := setQnext bufs t (some b) }

/-- `iderw(b)`, up to its sleep. -/
def iderw (havedisk1 : Bool) (s : State P B D) (p : P) (b : B) (rounds : Nat) :
    Option (State P B D) :=
  if (s.bufs b).busy = false then some { s with panicked := true }
  else if (s.bufs b).synced = true then some { s with panicked := true }
  else if (s.bufs b).dev ≠ 0 ∧ havedisk1 = false then some { s with panicked := true }
  else
    (append s b rounds).map fun s =>
    let s := if s.idequeue = some b then idestart s (some b) else s
    { s with
      arrived := s.arrived ++ [b]
      pc := Function.update s.pc p (.waiting b s.arrived.length) }

/-- `ideintr()`; the port gives `d`. -/
def ideintr (s : State P B D) (d : D) : State P B D :=
  match s.idequeue with
  | none => { s with pending := none }
  | some b =>
    let x := s.bufs b
    let data := if x.dirty then x.data else d
    let s := { s with
      idequeue := x.qnext
      bufs := Function.update s.bufs b { x with data, valid := true, dirty := false }
      cmd := none
      pending := none
      served := s.served ++ [b] }
    if s.idequeue = none then s else idestart s s.idequeue

/-- The disk carries out its command. -/
def execute (s : State P B D) (c : Cmd B D) : State P B D :=
  let disk := match c.write with
    | some d => Function.update s.disk c.key d
    | none => s.disk
  { s with disk, pending := some (disk c.key), executed := s.executed ++ [c.owner] }

inductive Act (P B D : Type)
  /-- the process calls `iderw(b)` -/
  | call (p : P) (b : B) (rounds : Nat)
  /-- the disk is done and raises its interrupt -/
  | finish
  /-- the interrupt is handled -/
  | intr
  /-- the process wakes up and looks at its buffer again -/
  | retest (p : P)
  /-- whoever has the buffer, outside `iderw`, changes it -/
  | touch (b : B) (x : Buf B D)

/-- One step.  A kernel that has panicked takes none. -/
def step (havedisk1 : Bool) (s : State P B D) (a : Act P B D) : Option (State P B D) :=
  if s.panicked then none
  else
    match a with
    | .call p b rounds => if s.pc p = .out then iderw havedisk1 s p b rounds else none
    | .finish =>
      match s.cmd, s.pending with
      | some c, none => some (execute s c)
      | _, _ => none
    | .intr => s.pending.map (ideintr s)
    | .retest p =>
      match s.pc p with
      | .out => none
      | .waiting b _ =>
        if (s.bufs b).synced then some { s with pc := Function.update s.pc p .out } else some s
    | .touch b x =>
      some { s with bufs := Function.update s.bufs b { x with qnext := (s.bufs b).qnext } }

end

/-- No other call is on the buffer. -/
def Free (s : State P B D) (b : B) : Prop := ∀ q, (s.pc q).on ≠ some b

/-- Calls are on distinct buffers, and a buffer in `iderw` is left alone. -/
def Distinct (s : State P B D) : Act P B D → Prop
  | .call _ b _ => Free s b
  | .touch b _ => Free s b
  | _ => True

/-- And they are for distinct sectors. -/
def DistinctSectors (s : State P B D) : Act P B D → Prop
  | .call _ b _ => Free s b ∧ ∀ q b', (s.pc q).on = some b' → (s.bufs b').key ≠ (s.bufs b).key
  | .touch b _ => Free s b
  | _ => True

/-- Before the first call. -/
def State.init (bufs : B → Buf B D) (disk : Key → D) : State P B D :=
  ⟨bufs, none, none, none, disk, fun _ => .out, false, [], [], []⟩

/-! ## 2. The invariant -/

/-- The requests in the queue `q` are the unfinished ones, in the order of their arrival, and the
disk is busy with the first. -/
structure Good (s : State P B D) (q : List B) : Prop where
  chain : Chain (fun b => (s.bufs b).qnext) s.idequeue q
  order : s.arrived = s.served ++ q
  command : s.cmd = q.head?.map (command s.bufs)
  /-- every request that is done has been executed, once, and of the others at most the first -/
  executed : s.executed = s.served ++ if s.pending.isSome then q.head?.toList else []
  /-- what can be read from the port is the sector of the first one, after a write too -/
  pending : ∀ d, s.pending = some d → ∃ b, q.head? = some b ∧ d = s.disk (s.bufs b).key ∧
    ((s.bufs b).dirty = true → (s.bufs b).data = d)
  unsynced : ∀ b ∈ q, (s.bufs b).synced = false
  owner : ∀ b ∈ q, ∃ p, (s.pc p).on = some b
  waiting : ∀ p b i, s.pc p = .waiting b i → s.arrived[i]? = some b
  settled : ∀ p b, (s.pc p).on = some b → b ∉ q → (s.bufs b).synced = true
  sole : ∀ p p' b, (s.pc p).on = some b → (s.pc p').on = some b → p = p'

/-- What calls for distinct sectors add: a request that is done leaves the buffer equal to its
sector, up to the return of its `iderw`. -/
structure Apart (s : State P B D) (q : List B) : Prop where
  keys : ∀ p p' b b', (s.pc p).on = some b → (s.pc p').on = some b' →
    (s.bufs b).key = (s.bufs b').key → b = b'
  fresh : ∀ p b, (s.pc p).on = some b → b ∉ q → (s.bufs b).data = s.disk (s.bufs b).key

variable {s t : State P B D} {q : List B} {p : P} {b : B}

theorem Good.init (bufs : B → Buf B D) (disk : Key → D) :
    Good (.init bufs disk : State P B D) [] where
  chain := rfl
  order := rfl
  command := rfl
  executed := rfl
  pending := nofun
  unsynced := nofun
  owner := nofun
  waiting := nofun
  settled := nofun
  sole := nofun

theorem Apart.init (bufs : B → Buf B D) (disk : Key → D) :
    Apart (.init bufs disk : State P B D) [] where
  keys := nofun
  fresh := nofun

theorem Good.panic (h : Good s q) : Good { s with panicked := true } q := { h with }

theorem Apart.panic (h : Apart s q) : Apart { s with panicked := true } q := { h with }

theorem Good.free_not_mem (h : Good s q) (hfree : Free s b) : b ∉ q := fun hmem =>
  let ⟨p, hp⟩ := h.owner b hmem
  hfree p hp

/-! ## 3. The end of the queue -/

/-- The same buffers, up to their place in the queue. -/
def Relinked (bufs bufs' : B → Buf B D) : Prop :=
  ∀ c, ∃ l, bufs' c = { bufs c with qnext := l }

section

variable {bufs bufs' bufs'' : B → Buf B D}

theorem Relinked.trans (h : Relinked bufs bufs') (h' : Relinked bufs' bufs'') :
    Relinked bufs bufs'' := by
  intro c
  obtain ⟨l, hl⟩ := h c
  obtain ⟨l', hl'⟩ := h' c
  exact ⟨l', by rw [hl', hl]⟩

theorem Relinked.synced (h : Relinked bufs bufs') (c : B) : (bufs' c).synced = (bufs c).synced := by
  obtain ⟨l, hl⟩ := h c
  rw [hl]
  rfl

theorem Relinked.key (h : Relinked bufs bufs') (c : B) : (bufs' c).key = (bufs c).key := by
  obtain ⟨l, hl⟩ := h c
  rw [hl]
  rfl

theorem Relinked.dirty (h : Relinked bufs bufs') (c : B) : (bufs' c).dirty = (bufs c).dirty := by
  obtain ⟨l, hl⟩ := h c
  rw [hl]

theorem Relinked.data (h : Relinked bufs bufs') (c : B) : (bufs' c).data = (bufs c).data := by
  obtain ⟨l, hl⟩ := h c
  rw [hl]

theorem Relinked.command (h : Relinked bufs bufs') : command bufs' = command bufs := by
  funext c
  unfold Ide.command
  rw [h.key, h.dirty, h.data]

end

variable [DecidableEq P] [DecidableEq B]

theorem relinked_setQnext (bufs : B → Buf B D) (b : B) (l : Option B) :
    Relinked bufs (setQnext bufs b l) := by
  intro c
  by_cases hc : c = b
  · subst hc
    exact ⟨l, Function.update_self ..⟩
  · exact ⟨(bufs c).qnext, Function.update_of_ne hc ..⟩

theorem setQnext_self (bufs : B → Buf B D) (b : B) (l : Option B) :
    (setQnext bufs b l b).qnext = l := by
  rw [setQnext, Function.update_self]

theorem setQnext_of_ne {c : B} (hc : c ≠ b) (bufs : B → Buf B D) (l : Option B) :
    setQnext bufs b l c = bufs c :=
  Function.update_of_ne hc ..

/-- The loop of `iderw` finds the end of the queue, and the queue is one longer. -/
theorem Good.append {rounds : Nat} (h : Good s q) (hb : b ∉ q) (ht : append s b rounds = some t) :
    ∃ bufs, t = { s with bufs, idequeue := (q ++ [b]).head? } ∧ Relinked s.bufs bufs ∧
      Chain (fun c => (bufs c).qnext) (q ++ [b]).head? (q ++ [b]) := by
  have hoff : Chain (fun c => (setQnext s.bufs b none c).qnext) s.idequeue q :=
    h.chain.congr fun c hc => by rw [setQnext_of_ne (ne_of_mem_of_not_mem hc hb)]
  unfold Ide.append at ht
  cases hqueue : s.idequeue with
  | none =>
    rw [hqueue] at ht
    obtain rfl : q = [] := h.chain.eq_none_iff.mp hqueue
    exact ⟨_, (Option.some.inj ht).symm, relinked_setQnext _ _ _,
      .single (setQnext_self ..)⟩
  | some x =>
    rw [hqueue] at ht hoff
    obtain ⟨xs, y, rfl⟩ := (List.eq_nil_or_concat' q).resolve_left fun hnil =>
      nomatch hqueue.symm.trans (h.chain.eq_none_iff.mpr hnil)
    obtain ⟨z, hz, rfl⟩ := Option.map_eq_some_iff.mp ht
    obtain rfl : z = y := hoff.eq_of_last rfl hz
    have hzb : b ≠ z := fun hbz => hb (by simp [hbz])
    have hnodup := hoff.nodup
    have hhead : (xs ++ [z] ++ [b]).head? = some x := by
      rw [List.head?_append, ← hoff.head?]
      rfl
    refine ⟨_, by rw [hhead, ← hqueue], 
      (relinked_setQnext s.bufs b none).trans (relinked_setQnext _ z (some b)), ?_⟩
    rw [hhead]
    refine hoff.snoc ?_ (setQnext_self ..) fun c hc => ?_
    · rw [setQnext_of_ne hzb]
      exact setQnext_self ..
    · have hcz : c ≠ z := fun hcz => by
        rw [List.nodup_append] at hnodup
        exact hnodup.2.2 c hc z (List.mem_singleton_self z) hcz
      rw [setQnext_of_ne hcz]

/-- And enough rounds take it there. -/
theorem Good.append_enabled (h : Good s q) (hb : b ∉ q) :
    ∃ rounds t, Ide.append s b rounds = some t := by
  have hoff : Chain (fun c => (setQnext s.bufs b none c).qnext) s.idequeue q :=
    h.chain.congr fun c hc => by rw [setQnext_of_ne (ne_of_mem_of_not_mem hc hb)]
  unfold Ide.append
  cases hqueue : s.idequeue with
  | none => exact ⟨0, _, rfl⟩
  | some x =>
    rw [hqueue] at hoff
    obtain ⟨xs, y, rfl⟩ := (List.eq_nil_or_concat' q).resolve_left fun hnil =>
      nomatch hqueue.symm.trans (h.chain.eq_none_iff.mpr hnil)
    have hlast := hoff.last_eq rfl (Nat.lt_add_one xs.length)
    exact ⟨xs.length + 1, _, congrArg (Option.map _) hlast⟩

/-! ## 4. The steps -/

/-- The state after a call: one more buffer at the end of the queue, and a command in progress. -/
def arrive (s : State P B D) (bufs : B → Buf B D) (q : List B) (p : P) (b : B) : State P B D :=
  { s with
    bufs
    idequeue := (q ++ [b]).head?
    cmd := (q ++ [b]).head?.map (command bufs)
    arrived := s.arrived ++ [b]
    pc := Function.update s.pc p (.waiting b s.arrived.length) }

/-- What a call can do. -/
theorem Good.iderw_cases {havedisk1 : Bool} {rounds : Nat} (h : Good s q) (hb : b ∉ q)
    (ht : iderw havedisk1 s p b rounds = some t) :
    t = { s with panicked := true } ∨
      ∃ bufs, t = arrive s bufs q p b ∧ (s.bufs b).synced = false ∧ Relinked s.bufs bufs ∧
        Chain (fun c => (bufs c).qnext) (q ++ [b]).head? (q ++ [b]) := by
  unfold iderw at ht
  split at ht
  · exact .inl (Option.some.inj ht).symm
  split at ht
  · exact .inl (Option.some.inj ht).symm
  next hsynced =>
    split at ht
    · exact .inl (Option.some.inj ht).symm
    obtain ⟨u, hu, rfl⟩ := Option.map_eq_some_iff.mp ht
    obtain ⟨bufs, rfl, hrel, hchain⟩ := h.append hb hu
    refine .inr ⟨bufs, ?_, eq_false_of_ne_true hsynced, hrel, hchain⟩
    -- The command is started here if the buffer is alone, and was started before if it is not.
    cases q with
    | nil => simp [idestart, arrive]
    | cons x xs =>
      have hx : x ≠ b := fun hxb => hb (by simp [hxb])
      have hcmd := h.command
      simp [hx, arrive, hcmd, hrel.command]

theorem on_update (s : State P B D) (p p' : P) (c : Pc B) :
    (Function.update s.pc p c p').on = if p' = p then c.on else (s.pc p').on := by
  rw [Function.update_apply]
  split <;> rfl

theorem Good.arrive {bufs : B → Buf B D} (h : Good s q) (hout : s.pc p = .out) (hfree : Free s b)
    (hun : (s.bufs b).synced = false) (hrel : Relinked s.bufs bufs)
    (hchain : Chain (fun c => (bufs c).qnext) (q ++ [b]).head? (q ++ [b])) :
    Good (arrive s bufs q p b) (q ++ [b]) := by
  have hb := h.free_not_mem hfree
  refine ⟨hchain, ?_, rfl, ?_, ?_, ?_, ?_, ?_, ?_, ?_⟩
  · change s.arrived ++ [b] = s.served ++ (q ++ [b])
    rw [h.order, List.append_assoc]
  · change s.executed = s.served ++ if s.pending.isSome then (q ++ [b]).head?.toList else []
    rw [h.executed]
    cases hp : s.pending with
    | none => rfl
    | some d =>
      obtain ⟨c, hc, -⟩ := h.pending d hp
      rw [List.head?_append, hc]
      rfl
  · intro d hd
    obtain ⟨c, hc, hdisk, hdata⟩ := h.pending d hd
    refine ⟨c, by rw [List.head?_append, hc]; rfl, ?_⟩
    change d = s.disk (bufs c).key ∧ ((bufs c).dirty = true → (bufs c).data = d)
    rw [hrel.key, hrel.dirty, hrel.data]
    exact ⟨hdisk, hdata⟩
  · intro c hc
    change (bufs c).synced = false
    rw [hrel.synced]
    rcases List.mem_append.mp hc with hc | hc
    · exact h.unsynced c hc
    · rw [List.mem_singleton.mp hc]
      exact hun
  · intro c hc
    rcases List.mem_append.mp hc with hc | hc
    · obtain ⟨p', hp'⟩ := h.owner c hc
      refine ⟨p', (on_update ..).trans ?_⟩
      rw [if_neg, hp']
      rintro rfl
      exact nomatch hout ▸ hp'
    · refine ⟨p, (on_update ..).trans ?_⟩
      rw [if_pos rfl, List.mem_singleton.mp hc]
      rfl
  · intro p' c i hp'
    change Function.update s.pc p _ p' = _ at hp'
    change (s.arrived ++ [b])[i]? = some c
    by_cases hpp : p' = p
    · subst hpp
      rw [Function.update_self, Pc.waiting.injEq] at hp'
      rw [← hp'.1, ← hp'.2, List.getElem?_concat_length]
    · rw [Function.update_of_ne hpp] at hp'
      have hi := h.waiting p' c i hp'
      rw [List.getElem?_append_left (List.getElem?_eq_some_iff.mp hi).1]
      exact hi
  · intro p' c hp' hc
    change (Function.update s.pc p _ p').on = _ at hp'
    change (bufs c).synced = true
    rw [List.mem_append, not_or, List.mem_singleton] at hc
    rw [on_update] at hp'
    split at hp'
    · exact absurd (Option.some.inj hp').symm hc.2
    · rw [hrel.synced]
      exact h.settled p' c hp' hc.1
  · intro p₁ p₂ c h₁ h₂
    change (Function.update s.pc p _ _).on = _ at h₁ h₂
    rw [on_update] at h₁ h₂
    split at h₁ <;> split at h₂
    next e₁ e₂ => exact e₁.trans e₂.symm
    next => exact absurd (Option.some.inj h₁ ▸ h₂) (hfree p₂)
    next => exact absurd (Option.some.inj h₂ ▸ h₁) (hfree p₁)
    next => exact h.sole p₁ p₂ c h₁ h₂

theorem Good.execute {c : Cmd B D} (h : Good s q) (hcmd : s.cmd = some c) (hp : s.pending = none) :
    Good (execute s c) q := by
  have hhead := h.command.symm.trans hcmd
  obtain ⟨b, hb, rfl⟩ := Option.map_eq_some_iff.mp hhead
  refine { h with executed := ?_, pending := ?_ }
  · change s.executed ++ [b] = s.served ++ q.head?.toList
    rw [h.executed, hp, hb]
    simp
  · intro d hd
    refine ⟨b, hb, (Option.some.inj hd).symm, fun hdirty => ?_⟩
    rw [← Option.some.inj hd]
    change (s.bufs b).dirty = true at hdirty
    simp [Ide.execute, Ide.command, hdirty]

/-- The state after an interrupt: the first buffer is off the queue, in sync with the disk. -/
def complete (s : State P B D) (b : B) (q : List B) (d : D) : State P B D :=
  let bufs := Function.update s.bufs b
    { s.bufs b with
      data := if (s.bufs b).dirty then (s.bufs b).data else d
      valid := true
      dirty := false }
  { s with
    bufs
    idequeue := q.head?
    cmd := q.head?.map (command bufs)
    pending := none
    served := s.served ++ [b] }

/-- What an interrupt does. -/
theorem Good.ideintr_eq {d : D} (h : Good s q) (hd : s.pending = some d) :
    ∃ b q', q = b :: q' ∧ ideintr s d = complete s b q' d := by
  obtain ⟨b, hb, -⟩ := h.pending d hd
  obtain ⟨q', rfl⟩ := List.head?_eq_some_iff.mp hb
  refine ⟨b, q', rfl, ?_⟩
  have hqueue : s.idequeue = some b := h.chain.1
  have hnext : (s.bufs b).qnext = q'.head? := h.chain.2.head?
  unfold ideintr
  rw [hqueue]
  cases q' with
  | nil => simp [hnext, complete]
  | cons c q' => simp [hnext, complete, idestart]

theorem complete_synced (s : State P B D) (b : B) (q : List B) (d : D) :
    ((complete s b q d).bufs b).synced = true := by
  simp [complete, Buf.synced]

theorem complete_of_ne {c : B} (s : State P B D) (q : List B) (d : D) (hc : c ≠ b) :
    (complete s b q d).bufs c = s.bufs c := by
  simp [complete, hc]

theorem complete_key (s : State P B D) (b c : B) (q : List B) (d : D) :
    ((complete s b q d).bufs c).key = (s.bufs c).key := by
  by_cases hc : c = b
  · simp [complete, Buf.key, hc]
  · rw [complete_of_ne s q d hc]

/-- A request that is done leaves the buffer equal to its sector. -/
theorem Good.complete_data {d : D} (h : Good s (b :: q)) (hd : s.pending = some d) :
    ((complete s b q d).bufs b).data = s.disk ((complete s b q d).bufs b).key := by
  obtain ⟨c, hc, hdisk, hdata⟩ := h.pending d hd
  obtain rfl : b = c := Option.some.inj hc
  rw [complete_key, ← hdisk]
  simp only [complete, Function.update_self]
  split
  next hdirty => exact hdata hdirty
  next => rfl

theorem Good.complete {d : D} (h : Good s (b :: q)) (hd : s.pending = some d) :
    Good (complete s b q d) q := by
  have hb := (List.nodup_cons.mp h.chain.nodup).1
  have hoff : ∀ c ∈ q, (Ide.complete s b q d).bufs c = s.bufs c := fun c hc =>
    complete_of_ne s q d (ne_of_mem_of_not_mem hc hb)
  refine ⟨?_, ?_, rfl, ?_, nofun, ?_, ?_, h.waiting, ?_, h.sole⟩
  · have htail : Chain (fun c => (s.bufs c).qnext) q.head? q := h.chain.2.head? ▸ h.chain.2
    exact htail.congr fun c hc => by rw [hoff c hc]
  · change s.arrived = s.served ++ [b] ++ q
    rw [h.order, List.append_assoc]
    rfl
  · change s.executed = s.served ++ [b] ++ []
    rw [h.executed, hd, List.append_nil]
    rfl
  · intro c hc
    rw [hoff c hc]
    exact h.unsynced c (List.mem_cons_of_mem b hc)
  · exact fun c hc => h.owner c (List.mem_cons_of_mem b hc)
  · intro p c hp hc
    by_cases hcb : c = b
    · subst hcb
      exact complete_synced ..
    · rw [complete_of_ne s q d hcb]
      exact h.settled p c hp (List.not_mem_cons_of_ne_of_not_mem hcb hc)

/-- Whoever still waits waited before. -/
theorem on_of_left {p' : P} (hp' : (Function.update s.pc p .out p').on = some b) :
    (s.pc p').on = some b ∧ p' ≠ p := by
  rw [on_update] at hp'
  split at hp'
  · exact nomatch hp'
  next hne => exact ⟨hp', hne⟩

theorem Good.leave (h : Good s q) (hp : (s.pc p).on = some b) (hsynced : (s.bufs b).synced = true) :
    Good { s with pc := Function.update s.pc p .out } q := by
  refine { h with owner := ?_, waiting := ?_, settled := ?_, sole := ?_ }
  · intro c hc
    obtain ⟨p', hp'⟩ := h.owner c hc
    refine ⟨p', (on_update ..).trans ?_⟩
    rw [if_neg, hp']
    -- A buffer in the queue is not in sync yet, so nobody returns for it.
    rintro rfl
    obtain rfl : c = b := Option.some.inj (hp'.symm.trans hp)
    exact nomatch (h.unsynced c hc).symm.trans hsynced
  · intro p' c i hp'
    change Function.update s.pc p .out p' = _ at hp'
    rw [Function.update_apply] at hp'
    split at hp'
    · exact nomatch hp'
    · exact h.waiting p' c i hp'
  · exact fun p' c hp' => h.settled p' c (on_of_left hp').1
  · exact fun p₁ p₂ c h₁ h₂ => h.sole p₁ p₂ c (on_of_left h₁).1 (on_of_left h₂).1

/-- The state after a buffer outside the queue has changed. -/
def touched (s : State P B D) (b : B) (x : Buf B D) : State P B D :=
  { s with bufs := Function.update s.bufs b { x with qnext := (s.bufs b).qnext } }

theorem touched_of_on {c : B} (hfree : Free s b) (x : Buf B D) (hp : (s.pc p).on = some c) :
    (touched s b x).bufs c = s.bufs c :=
  Function.update_of_ne (fun hcb : c = b => hfree p (hcb ▸ hp)) ..

theorem Good.touched (h : Good s q) (hfree : Free s b) (x : Buf B D) : Good (touched s b x) q := by
  have hoff : ∀ c ∈ q, (Ide.touched s b x).bufs c = s.bufs c := by
    intro c hc
    obtain ⟨p, hp⟩ := h.owner c hc
    exact touched_of_on hfree x hp
  refine { h with chain := ?_, command := ?_, pending := ?_, unsynced := ?_, settled := ?_ }
  · exact h.chain.congr fun c hc => by rw [hoff c hc]
  · change s.cmd = _
    rw [h.command]
    cases q with
    | nil => rfl
    | cons c q =>
      simp only [List.head?_cons, Option.map_some, Ide.command]
      rw [hoff c List.mem_cons_self]
  · intro d hd
    obtain ⟨c, hc, hdata⟩ := h.pending d hd
    refine ⟨c, hc, ?_⟩
    rw [hoff c (List.mem_of_head? hc)]
    exact hdata
  · intro c hc
    rw [hoff c hc]
    exact h.unsynced c hc
  · intro p c hp hc
    rw [touched_of_on hfree x hp]
    exact h.settled p c hp hc

/-! ## 5. Sectors of their own -/

theorem Apart.arrive {bufs : B → Buf B D} (h : Apart s q) (hrel : Relinked s.bufs bufs)
    (hown : ∀ p' b', (s.pc p').on = some b' → (s.bufs b').key ≠ (s.bufs b).key) :
    Apart (arrive s bufs q p b) (q ++ [b]) := by
  refine ⟨?_, ?_⟩
  · intro p₁ p₂ b₁ b₂ h₁ h₂ hkey
    change (Function.update s.pc p _ _).on = _ at h₁ h₂
    change (bufs b₁).key = (bufs b₂).key at hkey
    rw [hrel.key, hrel.key] at hkey
    rw [on_update] at h₁ h₂
    split at h₁ <;> split at h₂
    next => exact (Option.some.inj h₁).symm.trans (Option.some.inj h₂)
    next =>
      obtain rfl : b = b₁ := Option.some.inj h₁
      exact absurd hkey.symm (hown p₂ b₂ h₂)
    next =>
      obtain rfl : b = b₂ := Option.some.inj h₂
      exact absurd hkey (hown p₁ b₁ h₁)
    next => exact h.keys p₁ p₂ b₁ b₂ h₁ h₂ hkey
  · intro p' c hp' hc
    change (Function.update s.pc p _ _).on = _ at hp'
    change (bufs c).data = s.disk (bufs c).key
    rw [List.mem_append, not_or, List.mem_singleton] at hc
    rw [on_update] at hp'
    split at hp'
    next => exact absurd (Option.some.inj hp').symm hc.2
    next =>
      rw [hrel.data, hrel.key]
      exact h.fresh p' c hp' hc.1

/-- The disk writes to the sector of the first buffer only, and no buffer that is done is for it. -/
theorem Apart.execute {c : Cmd B D} (h : Apart s q) (hgood : Good s q) (hcmd : s.cmd = some c) :
    Apart (execute s c) q := by
  obtain ⟨x, hx, rfl⟩ := Option.map_eq_some_iff.mp (hgood.command.symm.trans hcmd)
  have hmem := List.mem_of_head? hx
  obtain ⟨px, hpx⟩ := hgood.owner x hmem
  refine { h with fresh := fun p b hp hb => ?_ }
  have hkey : (s.bufs b).key ≠ (s.bufs x).key := fun hkey =>
    hb (h.keys p px b x hp hpx hkey ▸ hmem)
  change (s.bufs b).data = (Ide.execute s (command s.bufs x)).disk (s.bufs b).key
  rw [h.fresh p b hp hb]
  cases hdirty : (s.bufs x).dirty with
  | false => simp [Ide.execute, Ide.command, hdirty]
  | true => simp [Ide.execute, Ide.command, hdirty, hkey]

theorem Apart.complete {d : D} (h : Apart s (b :: q)) (hgood : Good s (b :: q))
    (hd : s.pending = some d) : Apart (complete s b q d) q := by
  refine ⟨fun p₁ p₂ b₁ b₂ h₁ h₂ hkey => ?_, fun p c hp hc => ?_⟩
  · rw [complete_key, complete_key] at hkey
    exact h.keys p₁ p₂ b₁ b₂ h₁ h₂ hkey
  · by_cases hcb : c = b
    · subst hcb
      exact hgood.complete_data hd
    · rw [complete_of_ne s q d hcb]
      exact h.fresh p c hp (List.not_mem_cons_of_ne_of_not_mem hcb hc)

theorem Apart.leave (h : Apart s q) : Apart { s with pc := Function.update s.pc p .out } q where
  keys p₁ p₂ b₁ b₂ h₁ h₂ := h.keys p₁ p₂ b₁ b₂ (on_of_left h₁).1 (on_of_left h₂).1
  fresh p' c hp' := h.fresh p' c (on_of_left hp').1

theorem Apart.touched (h : Apart s q) (hfree : Free s b) (x : Buf B D) : Apart (touched s b x) q := by
  refine ⟨fun p₁ p₂ b₁ b₂ h₁ h₂ hkey => ?_, fun p c hp hc => ?_⟩
  · rw [touched_of_on hfree x h₁, touched_of_on hfree x h₂] at hkey
    exact h.keys p₁ p₂ b₁ b₂ h₁ h₂ hkey
  · rw [touched_of_on hfree x hp]
    exact h.fresh p c hp hc

/-! ## 6. Every run -/

/-- A call that is for a sector of its own is on a buffer of its own. -/
theorem distinct_of_distinctSectors {a : Act P B D} (h : DistinctSectors s a) : Distinct s a := by
  cases a with
  | call p b rounds => exact h.1
  | touch b x => exact h
  | _ => trivial

/-- Everything a step can do. -/
theorem Good.step_cases {havedisk1 : Bool} {a : Act P B D} (h : Good s q) (hdist : Distinct s a)
    (ht : step havedisk1 s a = some t) :
    (t = { s with panicked := true }) ∨
    (∃ p b bufs rounds, a = .call p b rounds ∧ t = Ide.arrive s bufs q p b ∧ s.pc p = .out ∧
      Free s b ∧ (s.bufs b).synced = false ∧ Relinked s.bufs bufs ∧
      Chain (fun c => (bufs c).qnext) (q ++ [b]).head? (q ++ [b])) ∨
    (∃ c, a = .finish ∧ t = Ide.execute s c ∧ s.cmd = some c ∧ s.pending = none) ∨
    (∃ b q' d, a = .intr ∧ q = b :: q' ∧ t = Ide.complete s b q' d ∧ s.pending = some d) ∨
    (∃ p b, a = .retest p ∧ (s.pc p).on = some b ∧
      (t = s ∨ (s.bufs b).synced = true ∧ t = { s with pc := Function.update s.pc p .out })) ∨
    (∃ b x, a = .touch b x ∧ Free s b ∧ t = Ide.touched s b x) := by
  unfold step at ht
  split at ht
  · exact nomatch ht
  cases a with
  | call p b rounds =>
    dsimp only at ht
    split at ht
    next hout =>
      rcases h.iderw_cases (h.free_not_mem hdist) ht with rfl | ⟨bufs, rfl, hun, hrel, hchain⟩
      · exact .inl rfl
      · exact .inr (.inl ⟨p, b, bufs, rounds, rfl, rfl, hout, hdist, hun, hrel, hchain⟩)
    next => exact nomatch ht
  | finish =>
    dsimp only at ht
    split at ht
    next c hcmd hp =>
      exact .inr (.inr (.inl ⟨c, rfl, (Option.some.inj ht).symm, hcmd, hp⟩))
    next => exact nomatch ht
  | intr =>
    obtain ⟨d, hd, rfl⟩ := Option.map_eq_some_iff.mp ht
    obtain ⟨b, q', rfl, heq⟩ := h.ideintr_eq hd
    exact .inr (.inr (.inr (.inl ⟨b, q', d, rfl, rfl, heq, hd⟩)))
  | retest p =>
    dsimp only at ht
    split at ht
    next => exact nomatch ht
    next b i hp =>
      refine .inr (.inr (.inr (.inr (.inl ⟨p, b, rfl, by rw [hp]; rfl, ?_⟩))))
      split at ht
      next hsynced => exact .inr ⟨hsynced, (Option.some.inj ht).symm⟩
      next => exact .inl (Option.some.inj ht).symm
  | touch b x =>
    exact .inr (.inr (.inr (.inr (.inr ⟨b, x, rfl, hdist, (Option.some.inj ht).symm⟩))))

theorem Good.step {havedisk1 : Bool} {a : Act P B D} (h : Good s q) (hdist : Distinct s a)
    (ht : step havedisk1 s a = some t) : ∃ q', Good t q' := by
  rcases h.step_cases hdist ht with rfl |
    ⟨p, b, bufs, rounds, -, rfl, hout, hfree, hun, hrel, hchain⟩ |
    ⟨c, -, rfl, hcmd, hp⟩ | ⟨b, q', d, -, rfl, rfl, hd⟩ | ⟨p, b, -, hp, rfl | ⟨hsynced, rfl⟩⟩ |
    ⟨b, x, -, hfree, rfl⟩
  · exact ⟨q, h.panic⟩
  · exact ⟨_, h.arrive hout hfree hun hrel hchain⟩
  · exact ⟨q, h.execute hcmd hp⟩
  · exact ⟨q', h.complete hd⟩
  · exact ⟨q, h⟩
  · exact ⟨q, h.leave hp hsynced⟩
  · exact ⟨q, h.touched hfree x⟩

theorem Apart.step {havedisk1 : Bool} {a : Act P B D} (h : Apart s q) (hgood : Good s q)
    (hdist : DistinctSectors s a) (ht : step havedisk1 s a = some t) :
    ∃ q', Good t q' ∧ Apart t q' := by
  rcases hgood.step_cases (distinct_of_distinctSectors hdist) ht with rfl |
    ⟨p, b, bufs, rounds, rfl, rfl, hout, hfree, hun, hrel, hchain⟩ |
    ⟨c, -, rfl, hcmd, hp⟩ | ⟨b, q', d, -, rfl, rfl, hd⟩ | ⟨p, b, -, hp, rfl | ⟨hsynced, rfl⟩⟩ |
    ⟨b, x, -, hfree, rfl⟩
  · exact ⟨q, hgood.panic, h.panic⟩
  · exact ⟨_, hgood.arrive hout hfree hun hrel hchain, h.arrive hrel hdist.2⟩
  · exact ⟨q, hgood.execute hcmd hp, h.execute hgood hcmd⟩
  · exact ⟨q', hgood.complete hd, h.complete hgood hd⟩
  · exact ⟨q, hgood, h⟩
  · exact ⟨q, hgood.leave hp hsynced, h.leave⟩
  · exact ⟨q, hgood.touched hfree x, h.touched hfree x⟩

theorem good_run {havedisk1 : Bool} {bufs : B → Buf B D} {disk : Key → D} {as : List (Act P B D)}
    (hdist : Along Distinct (step havedisk1) (.init bufs disk) as)
    (hrun : run (step havedisk1) (.init bufs disk) as = some s) : ∃ q, Good s q :=
  run_invariant (P := fun s => ∃ q, Good s q) (fun _ _ _ ⟨_, h⟩ hdist ht => h.step hdist ht)
    as _ s ⟨[], .init bufs disk⟩ hdist hrun

theorem apart_run {havedisk1 : Bool} {bufs : B → Buf B D} {disk : Key → D} {as : List (Act P B D)}
    (hdist : Along DistinctSectors (step havedisk1) (.init bufs disk) as)
    (hrun : run (step havedisk1) (.init bufs disk) as = some s) : ∃ q, Good s q ∧ Apart s q :=
  run_invariant (P := fun s => ∃ q, Good s q ∧ Apart s q)
    (fun _ _ _ ⟨_, hgood, h⟩ hdist ht => h.step hgood hdist ht)
    as _ s ⟨[], .init bufs disk, .init bufs disk⟩ hdist hrun

/-- A process that has found its buffer in sync: its request is one of those that are done. -/
theorem Good.served_of_synced {i : Nat} (h : Good s q) (hp : s.pc p = .waiting b i)
    (hsynced : (s.bufs b).synced = true) : s.served[i]? = some b ∧ b ∉ q := by
  have hb : b ∉ q := fun hmem => nomatch (h.unsynced b hmem).symm.trans hsynced
  refine ⟨?_, hb⟩
  have hi := h.waiting p b i hp
  rw [h.order] at hi
  by_cases hlt : i < s.served.length
  · rw [List.getElem?_append_left hlt] at hi
    exact hi
  · rw [List.getElem?_append_right (Nat.le_of_not_lt hlt)] at hi
    exact absurd (List.mem_of_getElem? hi) hb

/-- An interrupt ends the request of the first buffer. -/
theorem Good.served_by_intr {havedisk1 : Bool} (h : Good s q)
    (ht : Ide.step havedisk1 s .intr = some t) :
    ∃ b, q.head? = some b ∧ t.served = s.served ++ [b] ∧ (t.bufs b).synced = true ∧
      (t.bufs b).data = t.disk (t.bufs b).key := by
  unfold Ide.step at ht
  split at ht
  · exact nomatch ht
  obtain ⟨d, hd, rfl⟩ := Option.map_eq_some_iff.mp ht
  obtain ⟨b, q', rfl, heq⟩ := h.ideintr_eq hd
  rw [heq]
  exact ⟨b, rfl, rfl, complete_synced .., h.complete_data hd⟩

theorem Good.call_enabled (h : Good s q) (havedisk1 : Bool) (hpanic : s.panicked = false)
    (hout : s.pc p = .out) (hfree : Free s b) :
    ∃ rounds t, Ide.step havedisk1 s (.call p b rounds) = some t := by
  obtain ⟨rounds, u, hu⟩ := h.append_enabled (h.free_not_mem hfree)
  refine ⟨rounds, ?_⟩
  simp only [Ide.step, hpanic, hout, iderw, hu, if_true, Bool.false_eq_true, if_false]
  split
  · exact ⟨_, rfl⟩
  split
  · exact ⟨_, rfl⟩
  split
  · exact ⟨_, rfl⟩
  · exact ⟨_, rfl⟩

/-- The call of `iderw` returns. -/
def Returns (havedisk1 : Bool) (s : State P B D) (p : P) : Prop :=
  ∃ t, step havedisk1 s (.retest p) = some t ∧ t.pc p = .out

theorem Returns.synced {havedisk1 : Bool} {i : Nat} (h : Returns havedisk1 s p)
    (hp : s.pc p = .waiting b i) : (s.bufs b).synced = true := by
  obtain ⟨t, ht, hout⟩ := h
  unfold step at ht
  split at ht
  · exact nomatch ht
  dsimp only at ht
  rw [hp] at ht
  dsimp only at ht
  split at ht
  next hsynced => exact hsynced
  next =>
    obtain rfl := Option.some.inj ht
    exact nomatch hp.symm.trans hout

/-- **Requests are served once, in order.**  In every state of every run whose calls are on distinct
buffers, `idequeue` is a list without cycles of exactly the requests that are not done, in the order
of their arrival; the disk has the command of its first one, and none if there is none; every
request that is done has been executed once; an interrupt leaves the buffer equal to its sector; a
call of `iderw` is never stuck in its loop, and it returns only when its own request is done.  If
the calls in progress were for distinct sectors throughout, the buffer equals its sector also then.
-/
theorem iderw_serves_once_in_order (havedisk1 : Bool) (bufs : B → Buf B D) (disk : Key → D)
    (as : List (Act P B D)) (s : State P B D)
    (hdist : Along Distinct (step havedisk1) (.init bufs disk) as)
    (hrun : run (step havedisk1) (.init bufs disk) as = some s) :
    ∃ q, Chain (fun b => (s.bufs b).qnext) s.idequeue q ∧ q.Nodup ∧ s.arrived = s.served ++ q ∧
      (∀ b ∈ q, (s.bufs b).synced = false) ∧
      s.cmd = q.head?.map (command s.bufs) ∧
      s.executed = s.served ++ (if s.pending.isSome then q.head?.toList else []) ∧
      (∀ t, step havedisk1 s .intr = some t → ∃ b, q.head? = some b ∧
        t.served = s.served ++ [b] ∧ (t.bufs b).synced = true ∧
        (t.bufs b).data = t.disk (t.bufs b).key) ∧
      (∀ p b, s.panicked = false → s.pc p = .out → Free s b →
        ∃ rounds t, step havedisk1 s (.call p b rounds) = some t) ∧
      ∀ p b i, s.pc p = .waiting b i → Returns havedisk1 s p →
        s.served[i]? = some b ∧ (s.bufs b).valid = true ∧ (s.bufs b).dirty = false ∧
        (Along DistinctSectors (step havedisk1) (.init bufs disk) as →
          (s.bufs b).data = s.disk (s.bufs b).key) := by
  obtain ⟨q, h⟩ := good_run hdist hrun
  refine ⟨q, h.chain, h.chain.nodup, h.order, h.unsynced, h.command, h.executed,
    fun t ht => h.served_by_intr ht,
    fun p b hpanic hout hfree => h.call_enabled havedisk1 hpanic hout hfree,
    fun p b i hp hret => ?_⟩
  have hsynced := hret.synced hp
  obtain ⟨hserved, -⟩ := h.served_of_synced hp hsynced
  have hflags : (s.bufs b).valid = true ∧ (s.bufs b).dirty = false := by
    simpa [Buf.synced] using hsynced
  refine ⟨hserved, hflags.1, hflags.2, fun hsect => ?_⟩
  obtain ⟨q', hgood, hapart⟩ := apart_run hsect hrun
  exact hapart.fresh p b (by rw [hp]; rfl) (hgood.served_of_synced hp hsynced).2

/-! ## 7. Two buffers -/

instance decidableDistinct (s : State Bool Bool Nat) : ∀ a, Decidable (Distinct s a)
  | .call _ b _ => inferInstanceAs (Decidable (∀ q, (s.pc q).on ≠ some b))
  | .touch b _ => inferInstanceAs (Decidable (∀ q, (s.pc q).on ≠ some b))
  | .finish => isTrue trivial
  | .intr => isTrue trivial
  | .retest _ => isTrue trivial

instance decidableDistinctSectors (s : State Bool Bool Nat) : ∀ a, Decidable (DistinctSectors s a)
  | .call _ b _ => inferInstanceAs (Decidable ((∀ q, (s.pc q).on ≠ some b) ∧
      ∀ q b', (s.pc q).on = some b' → (s.bufs b').key ≠ (s.bufs b).key))
  | .touch b _ => inferInstanceAs (Decidable (∀ q, (s.pc q).on ≠ some b))
  | .finish => isTrue trivial
  | .intr => isTrue trivial
  | .retest _ => isTrue trivial

/-- One buffer to be read from the sector `5`, and one to be written to `sector`. -/
def pair (sector : BitVec 32) (b : Bool) : Buf Bool Nat :=
  if b then ⟨true, false, true, 0, sector, 7, none⟩ else ⟨true, false, false, 0, 5, 0, none⟩

/-- Both are asked for, and both requests are done before either process looks again. -/
def bothDone : List (Act Bool Bool Nat) :=
  [.call false false 0, .call true true 1, .finish, .retest true, .intr, .finish, .intr]

theorem two_requests_are_served : ∃ s : State Bool Bool Nat,
    run (step false) (.init (pair 6) fun _ => 3) bothDone = some s ∧
    s.pc false = .waiting false 0 ∧ s.served[0]? = some false ∧
    (s.bufs false).data = s.disk (s.bufs false).key := by
  refine ⟨_, rfl, rfl, ?_⟩
  obtain ⟨q, -, -, -, -, -, -, -, -, hreturns⟩ := iderw_serves_once_in_order false (pair 6)
    (fun _ => 3) bothDone _ (by decide +kernel) rfl
  obtain ⟨hserved, -, -, hdata⟩ := hreturns false false 0 rfl ⟨_, rfl, rfl⟩
  exact ⟨hserved, hdata (by decide +kernel)⟩

/-- **A request is done, and then its sector is not what was read.**  The process that asked for the
read has not looked yet when the write to the same sector is done, from the other buffer. -/
theorem read_is_overtaken_by_a_write : ∃ s : State Bool Bool Nat,
    Along Distinct (step false) (.init (pair 5) fun _ => 3) bothDone ∧
    run (step false) (.init (pair 5) fun _ => 3) bothDone = some s ∧
    s.pc false = .waiting false 0 ∧ Returns false s false ∧
    (s.bufs false).data ≠ s.disk (s.bufs false).key := by
  refine ⟨_, by decide +kernel, rfl, rfl, ⟨_, rfl, rfl⟩, ?_⟩
  decide +kernel

end Xv6.Ide
