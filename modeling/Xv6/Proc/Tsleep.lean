/-
# `tsleep`, and what ends it

`tsleep` goes to sleep on the address of the caller's OWN slot.  `twakeup(tid)` calls `wakeup1`
with the address of the slot that has the pid `tid`, and `kill` sets the state itself.  But the
address of a slot is the channel of `wait` as well: whoever exits calls `wakeup1(proc->parent)`,
and `exit` calls `wakeup1(initproc)` for every zombie it passes on.  `wakeup1` cannot tell a
parent in `wait` from a parent in `tsleep`; `wait` looks at the table again when it is woken,
`tsleep` has nothing to look at and returns (`child_exit_ends_tsleep`).

Nothing else ends a `tsleep` (`undisturbed_step`).  That rests on two things that hold in every
run: a slot's address is nobody's channel but its own process's (`OwnChannels`), so the `wakeup1`
of a `twakeup` reaches one process at most; and the slots that `fork` and `clone` make `RUNNABLE`
are still `EMBRYO` by then (`Kernel.Unborn`).
-/
import Xv6.Proc.Kill

namespace Xv6.Ptable

open Xv6.Runs

/-! ## 1. What holds in every run -/

/-- The address of a slot is the channel of the process in that slot only. -/
def OwnChannels (proc : Slot → Proc) : Prop := ∀ p q, (proc p).chan = some (.proc q) → q = p

/-- A mark without its flag. -/
def Mark.unflagged (x : Mark) : Mark := { x with killed := false }

/-- The slots being filled in are `EMBRYO`, each in the hands of one process, whoever has been
killed. -/
def Kernel.Unborn (k : Kernel) : Prop := Unmarked (fun p => (k.marks p).unflagged) k.filling

section

variable {k k' : Kernel} {p t : Slot}

theorem unflagged_update (m : Slot → Mark) (np : Slot) (x : Mark) :
    (fun p => (Function.update m np x p).unflagged) =
      Function.update (fun p => (m p).unflagged) np x.unflagged := by
  funext p
  rcases eq_or_ne p np with rfl | hne
  · rw [Function.update_self, Function.update_self]
  · rw [Function.update_of_ne hne, Function.update_of_ne hne]

/-- What a move makes of the marks it makes of the marks without their flags. -/
theorem Lives.unflagged {m m' : Slot → Mark} {filling filling' : Slot → Option Slot}
    (h : Lives m filling m' filling') :
    Lives (fun p => (m p).unflagged) filling (fun p => (m' p).unflagged) filling' := by
  cases h with
  | same => exact .same
  | takes p np born pid hnp hp =>
    rw [unflagged_update]
    exact .takes p np born pid hnp hp
  | drops np phase born pid hnp hphase =>
    rw [unflagged_update]
    exact .drops np phase born pid hnp hphase
  | settles p np phase hp =>
    rw [unflagged_update]
    exact .settles p np phase hp
  | loses p => exact .loses p
  | dies p hp =>
    rw [unflagged_update]
    exact .dies p hp
  | reaped q hq =>
    rw [unflagged_update]
    exact .reaped q hq

theorem unborn_step (k : Kernel) (a : Act) (k' : Kernel) (h : k.Unborn)
    (hs : step k a = some k') : k'.Unborn := by
  by_cases ha : ∀ p pid, a ≠ .kill p pid
  · exact h.lives (lives_step ha hs).unflagged
  · -- `kill` changes flags, and makes a sleeper `RUNNABLE`, which is the same phase
    simp only [not_forall, not_not] at ha
    obtain ⟨q, pid, rfl⟩ := ha
    simp only [step, Option.ite_none_right_eq_some, Option.some.injEq] at hs
    obtain ⟨-, rfl⟩ := hs
    unfold kill
    split
    · exact h
    · rename_i p _
      have hsame : ∀ x : Proc, ({ x with
          killed := true
          state := if x.state = .sleeping then .runnable else x.state } : Proc).mark.unflagged =
            x.mark.unflagged := by
        intro x
        rcases eq_or_ne x.state .sleeping with e | e <;>
          simp [Proc.mark, Mark.unflagged, ProcState.phase, e]
      rw [Kernel.Unborn, marks_upd, unflagged_update, hsame, filling_upd,
        show (k.proc p).mark.unflagged = (fun p => (k.marks p).unflagged) p from rfl,
        Function.update_eq_self]
      exact h

/-- A slot that is being filled in is not that of a sleeper. -/
theorem Kernel.Unborn.ne {np : Slot} (h : k.Unborn) (hfill : k.filling p = some np)
    (ht : (k.proc t).state = .sleeping) : t ≠ np := by
  rintro rfl
  have hphase : (k.proc t).state.phase = .embryo := h.embryo p t hfill
  rw [ht] at hphase
  cases hphase

/-- The table after `exit` has passed the children of `p` to `init`, before the wakeup. -/
def handOver (k : Kernel) (p : Slot) : Kernel := k.mapProcs fun _ x =>
  if x.parent = some p then
    { x with parent := some k.initproc, guardian := (k.proc k.initproc).born }
  else x

theorem reparent_eq (k : Kernel) (p : Slot) :
    reparent k p = if ∃ q, (k.proc q).parent = some p ∧ (k.proc q).state = .zombie then
      wakeup1 (handOver k p) (some (.proc k.initproc)) else handOver k p := rfl

/-- Only the parent changes, and whose life that is. -/
theorem handOver_proc (k : Kernel) (p q : Slot) : ∃ par g,
    (handOver k p).proc q = { k.proc q with parent := par, guardian := g } := by
  rw [handOver, mapProcs_proc]
  split
  · exact ⟨_, _, rfl⟩
  · exact ⟨_, _, rfl⟩

/-! Which channel a move gives a process. -/

theorem OwnChannels.of_chan {f g : Slot → Proc} (h : OwnChannels f)
    (hc : ∀ q, (g q).chan = (f q).chan) : OwnChannels g := fun p q hq => h p q (hc p ▸ hq)

theorem OwnChannels.update {f : Slot → Proc} {x : Proc} (h : OwnChannels f)
    (hx : ∀ q, x.chan = some (.proc q) → q = p) : OwnChannels (Function.update f p x) := by
  intro r q hq
  rcases eq_or_ne r p with rfl | hne
  · rw [Function.update_self] at hq
    exact hx q hq
  · rw [Function.update_of_ne hne] at hq
    exact h r q hq

theorem OwnChannels.keep {f : Slot → Proc} {x : Proc} (h : OwnChannels f)
    (hx : x.chan = (f p).chan) : OwnChannels (Function.update f p x) :=
  h.update fun q hq => h p q (hx ▸ hq)

theorem OwnChannels.wakeup1 (h : OwnChannels k.proc) (c : Option Chan) :
    OwnChannels (wakeup1 k c).proc := h.of_chan fun q => by
  obtain ⟨st, e⟩ := wakeup1_proc k c q
  rw [e]

theorem OwnChannels.twakeup (h : OwnChannels k.proc) (tid : Nat) :
    OwnChannels (twakeup k tid).proc := by
  unfold Ptable.twakeup
  generalize List.finRange NPROC = l
  induction l generalizing k with
  | nil => exact h
  | cons p l ih =>
    rw [List.foldl_cons]
    split
    · exact ih (h.wakeup1 _)
    · exact ih h

theorem OwnChannels.reparent (h : OwnChannels k.proc) (p : Slot) :
    OwnChannels (reparent k p).proc := by
  have hpass : OwnChannels (handOver k p).proc := h.of_chan fun q => by
    obtain ⟨par, g, e⟩ := handOver_proc k p q
    rw [e]
  rw [reparent_eq]
  split
  · exact hpass.wakeup1 _
  · exact hpass

theorem OwnChannels.allocproc (h : OwnChannels k.proc) (kallocOk : Bool) :
    OwnChannels (allocproc k kallocOk).2.proc := by
  rcases allocproc_cases k kallocOk with e | ⟨np, -, e⟩
  · rw [e]
    exact h
  · rw [e]
    cases kallocOk <;> exact h.keep rfl

theorem ownChannels_step (k : Kernel) (a : Act) (k' : Kernel) (h : OwnChannels k.proc)
    (hs : step k a = some k') : OwnChannels k'.proc := by
  cases a with
  | schedule p | sleep p c | tsleep p =>
    simp only [step, Option.ite_none_right_eq_some, Option.some.injEq] at hs
    obtain ⟨-, rfl⟩ := hs
    exact h.update fun q hq => by cases hq; try rfl
  | yield p =>
    simp only [step, Option.ite_none_right_eq_some, Option.some.injEq] at hs
    obtain ⟨-, rfl⟩ := hs
    exact h.keep rfl
  | wakeup c =>
    obtain rfl : _ = k' := Option.some.inj hs
    exact h.wakeup1 _
  | twakeup p tid =>
    simp only [step, Option.ite_none_right_eq_some, Option.some.injEq] at hs
    obtain ⟨-, rfl⟩ := hs
    exact h.twakeup tid
  | forkAlloc p kallocOk =>
    obtain ⟨-, hal | ⟨np, k₁, hal, rfl⟩⟩ := step_forkAlloc hs
    · exact (hal ▸ h.allocproc kallocOk :)
    · exact (hal ▸ h.allocproc kallocOk : OwnChannels (some np, k₁).2.proc)
  | forkCopy p o =>
    obtain ⟨np, -, rfl⟩ := step_forkCopy hs
    cases o <;> exact h.keep rfl
  | cloneAlloc p kallocOk stack routine =>
    obtain ⟨-, hal | ⟨np, k₁, hal, rfl⟩⟩ := step_cloneAlloc hs
    · exact (hal ▸ h.allocproc kallocOk :)
    · have hnew : OwnChannels (some np, k₁).2.proc := hal ▸ h.allocproc kallocOk
      unfold clone
      split
      · exact hnew
      · exact hnew.keep rfl
  | cloneLoop p =>
    obtain ⟨np, pp, -, hloop⟩ := step_cloneLoop hs
    unfold cloneLoop at hloop
    split at hloop
    · obtain ⟨q, -, rfl⟩ := Option.map_eq_some_iff.mp hloop
      exact h
    · obtain rfl := Option.some.inj hloop
      exact h.keep rfl
  | cloneFinish p copyoutOk =>
    obtain ⟨np, -, rfl⟩ := step_cloneFinish hs
    cases copyoutOk
    · exact h
    · exact h.keep rfl
  | exit p =>
    obtain ⟨-, -, rfl⟩ := step_exit hs
    exact ((h.wakeup1 _).reparent p).keep rfl
  | texit p =>
    obtain ⟨-, -, rfl⟩ := step_texit hs
    exact (h.wakeup1 _).keep rfl
  | wait p =>
    obtain ⟨-, -, rfl⟩ := step_wait hs
    unfold wait
    split
    · unfold reap
      split <;> exact h.keep rfl
    · split
      · exact h
      · exact h.update fun q hq => by cases hq; rfl
  | kill p pid =>
    simp only [step, Option.ite_none_right_eq_some, Option.some.injEq] at hs
    obtain ⟨-, rfl⟩ := hs
    unfold kill
    split
    · exact h
    · exact h.keep rfl
  | execBuild p o =>
    obtain ⟨-, rfl⟩ := step_execBuild hs
    cases o <;> exact h
  | execCommit p =>
    obtain ⟨d, -, -, rfl⟩ := step_execCommit hs
    exact h.keep rfl
  | execBad p =>
    obtain ⟨d, -, rfl⟩ := step_execBad hs
    exact h

/-! ## 2. What a move leaves alone -/

/-- The move from `k` to `k'` leaves the sleep of `t` alone. -/
structure Undisturbed (t : Slot) (k k' : Kernel) : Prop where
  state : (k'.proc t).state = (k.proc t).state
  chan : (k'.proc t).chan = (k.proc t).chan
  pid : (k'.proc t).pid = (k.proc t).pid
  call : k'.call t = k.call t

namespace Undisturbed

theorem trans {k'' : Kernel} (h : Undisturbed t k k') (h' : Undisturbed t k' k'') :
    Undisturbed t k k'' :=
  ⟨h'.state.trans h.state, h'.chan.trans h.chan, h'.pid.trans h.pid, h'.call.trans h.call⟩

theorem of_eq (hproc : k'.proc t = k.proc t) (hcall : k'.call t = k.call t) :
    Undisturbed t k k' := by
  refine ⟨?_, ?_, ?_, hcall⟩ <;> rw [hproc]

theorem refl (t : Slot) (k : Kernel) : Undisturbed t k k := of_eq rfl rfl

theorem upd {f : Proc → Proc} (h : t ≠ p) : Undisturbed t k (k.upd p f) :=
  of_eq (upd_proc_ne k f h) rfl

theorem setCall {c : Call} (h : t ≠ p) : Undisturbed t k (k.setCall p c) :=
  of_eq rfl (Function.update_of_ne h ..)

theorem wakeup1 {c : Option Chan} (h : (k.proc t).chan ≠ c) : Undisturbed t k (wakeup1 k c) :=
  of_eq (if_neg fun e => h e.2) rfl

/-- `twakeup` changes nothing for who has another pid. -/
theorem twakeup {tid : Nat} (hown : OwnChannels k.proc) (h : (k.proc t).pid ≠ tid) :
    Undisturbed t k (twakeup k tid) := by
  unfold Ptable.twakeup
  generalize List.finRange NPROC = l
  induction l generalizing k with
  | nil => exact refl t k
  | cons p l ih =>
    rw [List.foldl_cons]
    split
    · rename_i hp
      have hwake : Undisturbed t k (Ptable.wakeup1 k (some (.proc p))) := wakeup1 fun e =>
        h (hown t p e ▸ hp.2.1)
      exact hwake.trans (ih (hown.wakeup1 _) (by rwa [hwake.pid]))
    · exact ih hown h

theorem allocproc (kallocOk : Bool) (h : (k.proc t).state ≠ .unused) :
    Undisturbed t k (allocproc k kallocOk).2 := by
  rcases allocproc_cases k kallocOk with e | ⟨np, hnp, e⟩
  · rw [e]
    exact refl t k
  · have hne : t ≠ np := by
      rintro rfl
      exact h hnp
    rw [e]
    cases kallocOk <;> exact of_eq (Function.update_of_ne hne ..) rfl

theorem handOver (k : Kernel) (p : Slot) : Undisturbed t k (handOver k p) := by
  obtain ⟨par, g, e⟩ := handOver_proc k p t
  refine ⟨?_, ?_, ?_, rfl⟩ <;> rw [e]

theorem reparent (h : (k.proc t).chan = some (.proc k.initproc) →
      ¬∃ q, (k.proc q).parent = some p ∧ (k.proc q).state = .zombie) :
    Undisturbed t k (reparent k p) := by
  rw [reparent_eq]
  split
  · rename_i hz
    exact (handOver k p).trans (wakeup1 fun e => h ((handOver k p).chan.symm.trans e) hz)
  · exact handOver k p

end Undisturbed

/-! ## 3. What ends a `tsleep` -/

/-- The process is asleep in `tsleep`. -/
structure Kernel.InTsleep (k : Kernel) (t : Slot) : Prop where
  state : (k.proc t).state = .sleeping
  chan : (k.proc t).chan = some (.proc t)
  call : k.call t = .user

instance (k : Kernel) (t : Slot) : Decidable (k.InTsleep t) :=
  decidable_of_iff
    ((k.proc t).state = .sleeping ∧ (k.proc t).chan = some (.proc t) ∧ k.call t = .user)
    ⟨fun h => ⟨h.1, h.2.1, h.2.2⟩, fun h => ⟨h.state, h.chan, h.call⟩⟩

theorem inTsleep_tsleep (h : step k (.tsleep t) = some k') : k'.InTsleep t := by
  simp only [step, Option.ite_none_right_eq_some, Option.some.injEq] at h
  obtain ⟨hf, rfl⟩ := h
  refine ⟨?_, ?_, hf.2⟩ <;> rw [upd_proc_same]

theorem Kernel.InTsleep.keep (h : k.InTsleep t) (hu : Undisturbed t k k') : k'.InTsleep t :=
  ⟨hu.state.trans h.state, hu.chan.trans h.chan, hu.call.trans h.call⟩

theorem Kernel.InTsleep.ne (h : k.InTsleep t) {st : ProcState} (hp : (k.proc p).state = st)
    (hst : st ≠ .sleeping) : t ≠ p := by
  rintro rfl
  exact hst (hp.symm.trans h.state)

theorem Kernel.InTsleep.ne_of_call (h : k.InTsleep t) {c : Call} (hp : k.call p = c)
    (hc : c ≠ .user) : t ≠ p := by
  rintro rfl
  exact hc (hp.symm.trans h.call)

/-- A `twakeup` or a `kill` with this pid. -/
def CalledFor (pid : Nat) : Act → Prop
  | .twakeup _ tid => tid = pid
  | .kill _ pid' => pid' = pid
  | _ => False

/-- **The wakeups that are not meant for `tsleep`**: `t` is the parent of who exits, or it is
`init` and is passed a zombie. -/
def Rouses (k : Kernel) (t : Slot) : Act → Prop
  | .exit p => (k.proc p).parent = some t ∨
      t = k.initproc ∧ ∃ q, (k.proc q).parent = some p ∧ (k.proc q).state = .zombie
  | .texit p => (k.proc p).parent = some t
  | _ => False

theorem wakeup1_zombie {c : Option Chan} {q : Slot} :
    ((wakeup1 k c).proc q).state = .zombie ↔ (k.proc q).state = .zombie := by
  simp only [wakeup1, mapProcs_proc]
  split
  · rename_i e
    exact ⟨fun hr => (by cases hr), fun hz => by rw [hz] at e; cases e.1⟩
  · rfl

/-- Who exits wakes its parent and nobody else, by the first of its two wakeups. -/
theorem wakeup1_parent (h : k.InTsleep t) (hpar : (k.proc p).parent ≠ some t) :
    Undisturbed t k (wakeup1 k ((k.proc p).parent.map .proc)) := by
  refine .wakeup1 fun e => ?_
  rw [h.chan] at e
  obtain ⟨q, hq, heq⟩ := Option.map_eq_some_iff.mp e.symm
  cases heq
  exact hpar hq

/-- **Nothing but a `twakeup` or a `kill` with its pid, or the exit of a child, ends a `tsleep`.** -/
theorem undisturbed_step {a : Act} (hown : OwnChannels k.proc) (hborn : k.Unborn)
    (h : k.InTsleep t) (hcall : ¬CalledFor (k.proc t).pid a) (hrouse : ¬Rouses k t a)
    (hs : step k a = some k') : Undisturbed t k k' := by
  have hused : (k.proc t).state ≠ .unused := by rw [h.state]; decide
  cases a with
  | schedule p | yield p | sleep p c =>
    simp only [step, Option.ite_none_right_eq_some, Option.some.injEq] at hs
    obtain ⟨hp, rfl⟩ := hs
    exact .upd (h.ne hp (by decide))
  | tsleep p =>
    simp only [step, Option.ite_none_right_eq_some, Option.some.injEq] at hs
    obtain ⟨hp, rfl⟩ := hs
    exact .upd (h.ne hp.1 (by decide))
  | wakeup c =>
    obtain rfl : _ = k' := Option.some.inj hs
    exact .wakeup1 (by rw [h.chan]; rintro ⟨⟩)
  | twakeup p tid =>
    simp only [step, Option.ite_none_right_eq_some, Option.some.injEq] at hs
    obtain ⟨-, rfl⟩ := hs
    exact .twakeup hown (Ne.symm hcall)
  | forkAlloc p kallocOk =>
    obtain ⟨hf, hal | ⟨np, k₁, hal, rfl⟩⟩ := step_forkAlloc hs
    · exact (hal ▸ Undisturbed.allocproc kallocOk hused :)
    · have hnew : Undisturbed t k (some np, k₁).2 := hal ▸ .allocproc kallocOk hused
      exact hnew.trans (.setCall (h.ne hf.1 (by decide)))
  | forkCopy p o =>
    obtain ⟨np, hc, rfl⟩ := step_forkCopy hs
    have hnp : t ≠ np := hborn.ne (p := p) (by rw [Kernel.filling, hc]; rfl) h.state
    have hp : t ≠ p := h.ne_of_call hc (by rintro ⟨⟩)
    cases o <;> exact .of_eq (Function.update_of_ne hnp ..) (Function.update_of_ne hp ..)
  | cloneAlloc p kallocOk stack routine =>
    obtain ⟨hf, hal | ⟨np, k₁, hal, rfl⟩⟩ := step_cloneAlloc hs
    · exact (hal ▸ Undisturbed.allocproc kallocOk hused :)
    · have hnew : Undisturbed t k (some np, k₁).2 := hal ▸ .allocproc kallocOk hused
      have hp : t ≠ p := h.ne hf.1 (by decide)
      have hnp : t ≠ np := by
        rintro rfl
        have hphase := (marks_allocproc hal).1
        rw [Kernel.marks, Proc.mark, h.state] at hphase
        cases hphase
      refine hnew.trans ?_
      unfold clone
      split
      · exact .refl t k₁
      · exact .of_eq (Function.update_of_ne hnp ..) (Function.update_of_ne hp ..)
  | cloneLoop p =>
    obtain ⟨np, pp, hc, hloop⟩ := step_cloneLoop hs
    have hnp : t ≠ np := hborn.ne (p := p) (by rw [Kernel.filling, hc]; rfl) h.state
    have hp : t ≠ p := h.ne_of_call hc (by rintro ⟨⟩)
    unfold cloneLoop at hloop
    split at hloop
    · obtain ⟨q, -, rfl⟩ := Option.map_eq_some_iff.mp hloop
      exact .setCall hp
    · obtain rfl := Option.some.inj hloop
      exact .of_eq (Function.update_of_ne hnp ..) (Function.update_of_ne hp ..)
  | cloneFinish p copyoutOk =>
    obtain ⟨np, hc, rfl⟩ := step_cloneFinish hs
    have hnp : t ≠ np := hborn.ne (p := p) (by rw [Kernel.filling, hc]; rfl) h.state
    have hp : t ≠ p := h.ne_of_call hc (by rintro ⟨⟩)
    cases copyoutOk
    · exact .setCall hp
    · exact .of_eq (Function.update_of_ne hnp ..) (Function.update_of_ne hp ..)
  | exit p =>
    obtain ⟨hf, -, rfl⟩ := step_exit hs
    have hwake := wakeup1_parent h fun e => hrouse (.inl e)
    have hpass : Undisturbed t (wakeup1 k ((k.proc p).parent.map .proc))
        (reparent (wakeup1 k ((k.proc p).parent.map .proc)) p) := by
      refine .reparent fun hinit => ?_
      -- asleep on the slot of `init`, so `init` itself
      rw [hwake.chan, h.chan, Option.some.injEq, Chan.proc.injEq] at hinit
      rintro ⟨q, hpar, hz⟩
      obtain ⟨st, e⟩ := wakeup1_proc k ((k.proc p).parent.map .proc) q
      rw [wakeup1_zombie] at hz
      exact hrouse (.inr ⟨hinit, q, by rwa [e] at hpar, hz⟩)
    exact (hwake.trans hpass).trans (.upd (h.ne hf.1 (by decide)))
  | texit p =>
    obtain ⟨hf, -, rfl⟩ := step_texit hs
    exact (wakeup1_parent h hrouse).trans (.upd (h.ne hf.1 (by decide)))
  | wait p =>
    obtain ⟨hr, -, rfl⟩ := step_wait hs
    have hp : t ≠ p := h.ne hr (by decide)
    unfold wait
    split
    · rename_i q hq
      have hne : t ≠ q := h.ne (reaps_spec hq).2 (by decide)
      unfold reap
      split <;> exact .of_eq (Function.update_of_ne hne ..) (Function.update_of_ne hp ..)
    · split
      · exact .setCall hp
      · exact .of_eq (Function.update_of_ne hp ..) (Function.update_of_ne hp ..)
  | kill p pid =>
    simp only [step, Option.ite_none_right_eq_some, Option.some.injEq] at hs
    obtain ⟨-, rfl⟩ := hs
    rw [kill_eq]
    cases hfound : killed k pid with
    | none => exact .refl t k
    | some q =>
      refine .upd ?_
      rintro rfl
      exact hcall (killed_pid hfound).symm
  | execBuild p o =>
    obtain ⟨hf, rfl⟩ := step_execBuild hs
    cases o with
    | ok => exact .of_eq rfl (Function.update_of_ne (h.ne hf.1 (by decide)) ..)
    | noPage | halfBuilt | bad => exact .of_eq rfl rfl
  | execCommit p =>
    obtain ⟨d, -, hr, rfl⟩ := step_execCommit hs
    have hp : t ≠ p := h.ne hr (by decide)
    exact .of_eq (Function.update_of_ne hp ..) (Function.update_of_ne hp ..)
  | execBad p =>
    obtain ⟨d, hc, rfl⟩ := step_execBad hs
    exact .of_eq rfl (Function.update_of_ne (h.ne_of_call hc (by rintro ⟨⟩)) ..)

/-- Whoever sleeps on the channel is woken. -/
theorem state_wakeup1 {c : Option Chan} (hs : (k.proc t).state = .sleeping)
    (hc : (k.proc t).chan = c) : ((wakeup1 k c).proc t).state = .runnable := by
  rw [wakeup1, mapProcs_proc, if_pos ⟨hs, hc⟩]

theorem runnable_wakeup1 {c : Option Chan} (hs : (k.proc t).state = .runnable) :
    ((wakeup1 k c).proc t).state = .runnable := by
  rw [wakeup1, mapProcs_proc, if_neg (by rw [hs]; rintro ⟨⟨⟩, -⟩), hs]

theorem runnable_reparent (hs : (k.proc t).state = .runnable) :
    ((reparent k p).proc t).state = .runnable := by
  have hpass : ((handOver k p).proc t).state = .runnable :=
    (Undisturbed.handOver k p).state.trans hs
  rw [reparent_eq]
  split
  · exact runnable_wakeup1 hpass
  · exact hpass

theorem state_reparent (hs : (k.proc t).state = .sleeping)
    (hc : (k.proc t).chan = some (.proc k.initproc))
    (hz : ∃ q, (k.proc q).parent = some p ∧ (k.proc q).state = .zombie) :
    ((reparent k p).proc t).state = .runnable := by
  have hpass := Undisturbed.handOver (t := t) k p
  rw [reparent_eq, if_pos hz]
  exact state_wakeup1 (hpass.state.trans hs) (hpass.chan.trans hc)

/-- **The exit of a child does end it.** -/
theorem runnable_of_rouses {a : Act} (h : k.InTsleep t) (hrouse : Rouses k t a)
    (hs : step k a = some k') : (k'.proc t).state = .runnable := by
  cases a with
  | exit p =>
    obtain ⟨hf, -, rfl⟩ := step_exit hs
    rw [exit, upd_proc_ne _ _ (h.ne hf.1 (by decide))]
    by_cases hpar : (k.proc p).parent = some t
    · exact runnable_reparent (state_wakeup1 h.state (by rw [h.chan, hpar]; rfl))
    · obtain ⟨rfl, q, hq, hz⟩ := hrouse.resolve_left hpar
      have hwake := wakeup1_parent h hpar
      obtain ⟨st, e⟩ := wakeup1_proc k ((k.proc p).parent.map .proc) q
      exact state_reparent (hwake.state.trans h.state) (hwake.chan.trans h.chan)
        ⟨q, by rw [e]; exact hq, wakeup1_zombie.mpr hz⟩
  | texit p =>
    obtain ⟨hf, -, rfl⟩ := step_texit hs
    rw [texit, upd_proc_ne _ _ (h.ne hf.1 (by decide))]
    exact state_wakeup1 h.state (by rw [h.chan, show (k.proc p).parent = some t from hrouse]; rfl)
  | _ => exact hrouse.elim

/-- **A whole run**, as long as no child of the sleeper exits. -/
theorem tsleep_run (hown : OwnChannels k.proc) (hborn : k.Unborn) (h : k.InTsleep t)
    (bs : List Act) (k' : Kernel) (hgood : Along (fun k a => k.InTsleep t → ¬Rouses k t a) step k bs)
    (hr : run step k bs = some k') :
    k'.InTsleep t ∨ ∃ a ∈ bs, CalledFor (k.proc t).pid a := by
  induction bs generalizing k with
  | nil =>
    obtain rfl : k = k' := Option.some.inj hr
    exact .inl h
  | cons a bs ih =>
    obtain ⟨k₁, hs, hrest⟩ := run_cons_iff.mp hr
    by_cases hcall : CalledFor (k.proc t).pid a
    · exact .inr ⟨a, List.mem_cons_self, hcall⟩
    · have hsame := undisturbed_step hown hborn h hcall (hgood.1 h) hs
      rcases ih (ownChannels_step k a k₁ hown hs) (unborn_step k a k₁ hborn hs) (h.keep hsame)
        (hgood.2 k₁ hs) hrest with hin | ⟨b, hb, hcalled⟩
      · exact .inl hin
      · exact .inr ⟨b, List.mem_cons_of_mem a hb, hsame.pid ▸ hcalled⟩

end

/-! ## 4. Runs -/

theorem ownChannels_boot : OwnChannels boot.proc := fun p q hq => by
  by_cases hp : p = 0 <;> simp [boot, hp, Proc.zero] at hq

theorem unborn_boot : boot.Unborn :=
  ⟨fun _ _ => rfl, fun p np hp => (by cases hp), fun p q np hp => (by cases hp)⟩

/-- **What ends a `tsleep`.**  In every state a run comes to: `twakeup` makes nobody `RUNNABLE` who
has another pid.  Who calls `tsleep` is asleep in it.  A move that makes a process in `tsleep` `RUNNABLE` is a `twakeup` or a `kill` with
its pid, unless it is the exit of a child (or one that passes `init` a zombie), and such an exit
always does.  So in every further run without such an exit, the process is in `tsleep` until there
is a `twakeup` or a `kill` with its pid. -/
theorem tsleep_ends_iff_no_child_exits (as : List Act) (k : Kernel)
    (hr : run step boot as = some k) :
    (∀ tid q, (k.proc q).state ≠ .runnable → ((twakeup k tid).proc q).state = .runnable →
      (k.proc q).pid = tid) ∧
    (∀ t k', step k (.tsleep t) = some k' → k'.InTsleep t) ∧
    ∀ t, k.InTsleep t →
      (∀ a k', step k a = some k' →
        (((k'.proc t).state = .runnable → CalledFor (k.proc t).pid a) ↔ ¬Rouses k t a)) ∧
      ∀ bs k', Along (fun k a => k.InTsleep t → ¬Rouses k t a) step k bs →
        run step k bs = some k' → k'.InTsleep t ∨ ∃ a ∈ bs, CalledFor (k.proc t).pid a := by
  have hown : OwnChannels k.proc :=
    run_always (P := fun k => OwnChannels k.proc) ownChannels_step as boot k ownChannels_boot hr
  have hborn : k.Unborn := run_always (P := Kernel.Unborn) unborn_step as boot k unborn_boot hr
  refine ⟨fun tid q hq hrun => ?_, fun t k' => inTsleep_tsleep, fun t ht => ⟨fun a k' hs => ⟨fun hcalled hrouse => ?_,
    fun hno hrun => ?_⟩, fun bs k' => tsleep_run hown hborn ht bs k'⟩⟩
  · by_contra hne
    exact hq ((Undisturbed.twakeup hown hne).state.symm.trans hrun)
  · have hcall := hcalled (runnable_of_rouses ht hrouse hs)
    cases a <;> first | exact hcall | exact hrouse
  · by_contra hcall
    have hstate := (undisturbed_step hown hborn ht hcall hno hs).state
    rw [hrun, ht.state] at hstate
    cases hstate

/-- Init's child makes a thread, and the thread goes to sleep. -/
def sleepingThread : List Act :=
  [.schedule 0, .forkAlloc 0 true, .forkCopy 0 .ok, .schedule 1, .cloneAlloc 1 true 4096 64,
    .cloneLoop 1, .cloneFinish 1 true, .schedule 2, .tsleep 2]

theorem tsleep_ends_in_sleepingThread :
    ∃ k, run step boot sleepingThread = some k ∧ k.InTsleep 2 ∧
      ∀ a k', step k a = some k' →
        (((k'.proc 2).state = .runnable → CalledFor (k.proc 2).pid a) ↔ ¬Rouses k 2 a) := by
  have hrun : (run step boot sleepingThread).any (fun k => k.InTsleep 2) = true := by
    decide +kernel
  obtain ⟨k, hk, hin⟩ := (Option.any_eq_true _ _).mp hrun
  have hasleep : k.InTsleep 2 := of_decide_eq_true hin
  exact ⟨k, hk, hasleep, ((tsleep_ends_iff_no_child_exits sleepingThread k hk).2.2 2 hasleep).1⟩

/-- The same, but the thread forks before it goes to sleep, and its child gets to run. -/
def sleepingParent : List Act :=
  [.schedule 0, .forkAlloc 0 true, .forkCopy 0 .ok, .schedule 1, .cloneAlloc 1 true 4096 64,
    .cloneLoop 1, .cloneFinish 1 true, .schedule 2, .forkAlloc 2 true, .forkCopy 2 .ok, .tsleep 2,
    .schedule 3]

/-- **The exit of a child ends a `tsleep`**: the child of the sleeping thread exits, and the thread
is `RUNNABLE`. -/
theorem child_exit_ends_tsleep :
    ∃ k k', run step boot sleepingParent = some k ∧ k.InTsleep 2 ∧ step k (.exit 3) = some k' ∧
      (k'.proc 2).state = .runnable ∧ ¬CalledFor (k.proc 2).pid (.exit 3) := by
  have hrun : (run step boot sleepingParent).any (fun k => k.InTsleep 2 ∧
      (step k (.exit 3)).any (fun k' => (k'.proc 2).state = .runnable)) = true := by
    decide +kernel
  obtain ⟨k, hk, hend⟩ := (Option.any_eq_true _ _).mp hrun
  obtain ⟨hin, hexit⟩ := of_decide_eq_true hend
  obtain ⟨k', hk', hwoken⟩ := (Option.any_eq_true _ _).mp hexit
  exact ⟨k, k', hk, hin, hk', of_decide_eq_true hwoken, nofun⟩

end Xv6.Ptable
