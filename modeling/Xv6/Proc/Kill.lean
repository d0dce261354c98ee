/-
# `kill`, and whose flag it sets

`kill` marks the first slot of the table that has the pid it is given, WHATEVER the state of that
slot.  A slot that nobody uses still has a pid: 0 if `wait` gave it back or nobody ever had it, and
the pid of the process that was not to be if `fork` or `allocproc` gave it back.  And nothing but
`wait` clears the flag.  So `kill(0)` finds somebody where nobody is, and the process that is given
the slot later starts its life killed (`kill_zero_marks_the_next_child`).  A child that is still
`EMBRYO` has its pid already and can be hit before its parent has made it `RUNNABLE`.

The runs in which neither happens are those in which the slot found by each `kill` is that of a
process that has been started.  There `kill` does what its comment says (`kill_hits_the_living`).
The only thing besides `kill` that sets the flag is the trap handler, for a process that has
faulted; that move is added here to the moves of `proc.c`.
-/
import Xv6.Proc.Forest

namespace Xv6.Ptable

open Xv6.Runs

/-! ## 1. Marks -/

/-- A slot, as far as `kill` is concerned. -/
structure Mark where
  phase : Phase
  born : Nat
  pid : Nat
  killed : Bool

def Proc.mark (x : Proc) : Mark := ⟨x.state.phase, x.born, x.pid, x.killed⟩

def Kernel.marks (k : Kernel) (p : Slot) : Mark := (k.proc p).mark

/-- The slot that each process is filling in. -/
def Kernel.filling (k : Kernel) (p : Slot) : Option Slot := (k.call p).np

section

variable {k : Kernel} {p : Slot}

theorem marks_upd (k : Kernel) (p : Slot) (f : Proc → Proc) :
    (k.upd p f).marks = Function.update k.marks p (f (k.proc p)).mark := by
  funext q
  rcases eq_or_ne q p with rfl | hq
  · simp [Kernel.marks]
  · simp [Kernel.marks, hq]

@[simp] theorem marks_setCall (k : Kernel) (p : Slot) (c : Call) :
    (k.setCall p c).marks = k.marks := rfl

@[simp] theorem marks_newDir (k : Kernel) : k.newDir.marks = k.marks := rfl
@[simp] theorem marks_freevm (k : Kernel) (d : Option Nat) : (k.freevm d).marks = k.marks := rfl

@[simp] theorem filling_upd (k : Kernel) (p : Slot) (f : Proc → Proc) :
    (k.upd p f).filling = k.filling := rfl

@[simp] theorem filling_newDir (k : Kernel) : k.newDir.filling = k.filling := rfl
@[simp] theorem filling_freevm (k : Kernel) (d : Option Nat) :
    (k.freevm d).filling = k.filling := rfl

theorem marks_upd_same {f : Proc → Proc} (h : (f (k.proc p)).mark = (k.proc p).mark) :
    (k.upd p f).marks = k.marks := by
  rw [marks_upd, h]
  exact Function.update_eq_self ..

theorem marks_mapProcs {g : Slot → Proc → Proc} (h : ∀ p x, (g p x).mark = x.mark) :
    (k.mapProcs g).marks = k.marks := funext fun p => h p (k.proc p)

theorem marks_wakeup1 (k : Kernel) (c : Option Chan) : (wakeup1 k c).marks = k.marks := by
  refine marks_mapProcs fun p x => ?_
  split
  · rename_i h
    simp [Proc.mark, ProcState.phase, h.1]
  · rfl

theorem marks_twakeup (k : Kernel) (tid : Nat) : (twakeup k tid).marks = k.marks := by
  unfold twakeup
  generalize List.finRange NPROC = l
  induction l generalizing k with
  | nil => rfl
  | cons p l ih =>
    rw [List.foldl_cons, ih]
    split
    · exact marks_wakeup1 k _
    · rfl

theorem call_twakeup (k : Kernel) (tid : Nat) : (twakeup k tid).call = k.call := by
  unfold twakeup
  generalize List.finRange NPROC = l
  induction l generalizing k with
  | nil => rfl
  | cons p l ih =>
    rw [List.foldl_cons, ih]
    split <;> rfl

theorem marks_reparent (k : Kernel) (p : Slot) : (reparent k p).marks = k.marks := by
  have hmap : (k.mapProcs fun _ x =>
      if x.parent = some p then
        { x with parent := some k.initproc, guardian := (k.proc k.initproc).born }
      else x).marks = k.marks := by
    refine marks_mapProcs fun q x => ?_
    split <;> rfl
  unfold reparent
  simp only
  split
  · rw [marks_wakeup1, hmap]
  · exact hmap

theorem filling_setCall (k : Kernel) (p : Slot) (c : Call) :
    (k.setCall p c).filling = Function.update k.filling p c.np := by
  funext q
  rcases eq_or_ne q p with rfl | hq
  · simp [Kernel.filling]
  · simp [Kernel.filling, hq]

/-- A call that fills in no slot is followed by another one. -/
theorem filling_setCall_same {c : Call} (h : (k.call p).np = none) (hc : c.np = none) :
    (k.setCall p c).filling = k.filling := by
  rw [filling_setCall, hc, ← h]
  exact Function.update_eq_self ..

end

/-! ## 2. What a move does to the marks -/

/-- What a move other than `kill` makes of the marks `m` and of the slots being filled in. -/
inductive Lives (m : Slot → Mark) (filling : Slot → Option Slot) :
    (Slot → Mark) → (Slot → Option Slot) → Prop
  /-- nothing -/
  | same : Lives m filling m filling
  /-- `allocproc` gives `p` a slot to fill in -/
  | takes (p np : Slot) (born pid : Nat) (hnp : (m np).phase = .unused) (hp : filling p = none) :
      Lives m filling (Function.update m np ⟨.embryo, born, pid, (m np).killed⟩)
        (Function.update filling p (some np))
  /-- `allocproc` gives the slot back at once, or `clone` forgets about it -/
  | drops (np : Slot) (phase : Phase) (born pid : Nat) (hnp : (m np).phase = .unused)
      (hphase : phase = .unused ∨ phase = .embryo) :
      Lives m filling (Function.update m np ⟨phase, born, pid, (m np).killed⟩) filling
  /-- the slot `p` is filling in becomes a process, or is given back -/
  | settles (p np : Slot) (phase : Phase) (hp : filling p = some np) :
      Lives m filling (Function.update m np { m np with phase := phase })
        (Function.update filling p none)
  /-- `clone` fails and leaves the slot as it is -/
  | loses (p : Slot) : Lives m filling m (Function.update filling p none)
  /-- `exit`, `texit` -/
  | dies (p : Slot) (hp : (m p).phase = .active) :
      Lives m filling (Function.update m p { m p with phase := .zombie }) filling
  /-- `wait` -/
  | reaped (q : Slot) (hq : (m q).phase = .zombie) :
      Lives m filling (Function.update m q ⟨.unused, (m q).born, 0, false⟩) filling

section

variable {k k' : Kernel} {p : Slot}

theorem Kernel.Free.filling (h : k.Free p) : k.filling p = none := by
  rw [Kernel.filling, h.2]
  rfl

theorem lives_allocproc_none {kallocOk : Bool} (h : allocproc k kallocOk = (none, k')) :
    Lives k.marks k.filling k'.marks k'.filling := by
  rcases allocproc_cases k kallocOk with hal | ⟨np, hnp, hal⟩
  · rw [hal, Prod.mk.injEq] at h
    obtain ⟨-, rfl⟩ := h
    exact .same
  · rw [hal] at h
    cases kallocOk with
    | true => simp at h
    | false =>
      simp only [Bool.false_eq_true, if_false, Prod.mk.injEq, true_and] at h
      have hmarks := marks_upd k np fun x =>
        { x with state := .unused, pid := k.nextpid % 2 ^ 32, born := k.nextpid, built := false }
      have hunused : (k.marks np).phase = .unused := by
        rw [Kernel.marks, Proc.mark, hnp]
        rfl
      subst h
      exact hmarks ▸ .drops np .unused _ _ hunused (.inl rfl)

/-- `allocproc` has found a slot: it was `UNUSED` and is `EMBRYO`, with its old flag. -/
theorem marks_allocproc {kallocOk : Bool} {np : Slot} (h : allocproc k kallocOk = (some np, k')) :
    (k.marks np).phase = .unused ∧ k'.filling = k.filling ∧
      k'.marks = Function.update k.marks np
        ⟨.embryo, k.nextpid, k.nextpid % 2 ^ 32, (k.marks np).killed⟩ := by
  rcases allocproc_cases k kallocOk with hal | ⟨q, hq, hal⟩
  · rw [hal, Prod.mk.injEq] at h
    cases h.1
  · rw [hal] at h
    cases kallocOk with
    | false => simp at h
    | true =>
      simp only [if_true, Prod.mk.injEq, Option.some.injEq] at h
      obtain ⟨rfl, rfl⟩ := h
      refine ⟨by rw [Kernel.marks, Proc.mark, hq]; rfl, rfl, ?_⟩
      have hmarks := marks_upd k q fun x =>
        { x with
          state := .embryo, pid := k.nextpid % 2 ^ 32, born := k.nextpid, built := false,
          kstack := true }
      exact hmarks

theorem lives_fork {np : Slot} (hc : k.call p = .forking np) (o : Outcome) :
    Lives k.marks k.filling (fork k p np o).marks (fork k p np o).filling := by
  have hp : k.filling p = some np := by
    rw [Kernel.filling, hc]
    rfl
  cases o with
  | ok =>
    simp only [fork, filling_setCall, marks_setCall, marks_upd, marks_newDir, filling_upd,
      filling_newDir]
    exact .settles p np .active hp
  | noPage | halfBuilt | bad =>
    simp only [fork, filling_setCall, marks_setCall, marks_upd, marks_newDir, marks_freevm,
      filling_upd, filling_newDir, filling_freevm]
    exact .settles p np .unused hp

theorem lives_clone {kallocOk : Bool} {np : Slot} (hf : k.Free p) {stack routine : Nat}
    (h : allocproc k kallocOk = (some np, k')) :
    Lives k.marks k.filling (clone k' p np stack routine).marks
      (clone k' p np stack routine).filling := by
  obtain ⟨hnp, hfill, hmarks⟩ := marks_allocproc h
  unfold clone
  split
  · rw [hmarks, hfill]
    exact .drops np .embryo _ _ hnp (.inr rfl)
  · rw [filling_setCall, marks_setCall, marks_upd_same rfl, filling_upd, hmarks, hfill]
    exact .takes p np _ _ hnp hf.filling

theorem lives_cloneLoop {np pp : Slot} (hc : k.call p = .cloning np pp)
    (h : cloneLoop k p np pp = some k') : Lives k.marks k.filling k'.marks k'.filling := by
  have hsame : Function.update k.filling p (some np) = k.filling := by
    have hp : k.filling p = some np := by
      rw [Kernel.filling, hc]
      rfl
    rw [← hp]
    exact Function.update_eq_self ..
  unfold cloneLoop at h
  split at h
  · obtain ⟨q, -, rfl⟩ := Option.map_eq_some_iff.mp h
    rw [filling_setCall, marks_setCall, show (Call.cloning np q).np = some np from rfl, hsame]
    exact .same
  · obtain rfl := Option.some.inj h
    rw [filling_setCall, marks_setCall, marks_upd_same rfl, filling_upd,
      show (Call.adopted np).np = some np from rfl, hsame]
    exact .same

theorem lives_cloneFinish {np : Slot} (hc : k.call p = .adopted np) (copyoutOk : Bool) :
    Lives k.marks k.filling (cloneFinish k p np copyoutOk).marks
      (cloneFinish k p np copyoutOk).filling := by
  have hp : k.filling p = some np := by
    rw [Kernel.filling, hc]
    rfl
  cases copyoutOk with
  | true =>
    simp only [cloneFinish, if_true, filling_setCall, marks_setCall, marks_upd, filling_upd]
    exact .settles p np .active hp
  | false =>
    simp only [cloneFinish, Bool.false_eq_true, if_false, filling_setCall, marks_setCall]
    exact .loses p

/-- A process that runs becomes a zombie; nobody else's mark has changed. -/
theorem lives_dies (hf : k.Free p) (hmarks : k'.marks = k.marks) (hfill : k'.filling = k.filling) :
    Lives k.marks k.filling (k'.upd p fun x => { x with state := .zombie }).marks
      (k'.upd p fun x => { x with state := .zombie }).filling := by
  have hmark : ({ k'.proc p with state := .zombie } : Proc).mark =
      { k.marks p with phase := .zombie } := by
    rw [← hmarks]
    rfl
  rw [filling_upd, hfill, marks_upd, hmark, hmarks]
  exact .dies p (by rw [Kernel.marks, Proc.mark, hf.1]; rfl)

theorem lives_wait (hrun : (k.proc p).state = .running)
    (hp : k.call p = .user ∨ k.call p = .waiting) :
    Lives k.marks k.filling (wait k p).marks (wait k p).filling := by
  have hnone : (k.call p).np = none := by rcases hp with e | e <;> rw [e] <;> rfl
  unfold wait
  split
  · rename_i q hq
    obtain ⟨-, hz⟩ := reaps_spec hq
    have hcall : (reap k q).call = k.call := by
      unfold reap
      split <;> rfl
    have hfill : (reap k q).filling = k.filling := by
      funext r
      rw [Kernel.filling, Kernel.filling, hcall]
    have hmarks : (reap k q).marks =
        Function.update k.marks q ⟨.unused, (k.marks q).born, 0, false⟩ := by
      unfold reap
      split <;> exact marks_upd _ q _
    rw [filling_setCall_same (by rw [hcall]; exact hnone) rfl, marks_setCall, hfill, hmarks]
    exact .reaped q (by rw [Kernel.marks, Proc.mark, hz]; rfl)
  · split
    · rw [filling_setCall_same hnone rfl]
      exact .same
    · rw [filling_setCall_same (k := k.upd p _) hnone rfl, marks_setCall, filling_upd,
        marks_upd_same (by simp [Proc.mark, ProcState.phase, hrun])]
      exact .same

/-- **What a move that is not a `kill` does to the marks.** -/
theorem lives_step {a : Act} (ha : ∀ p pid, a ≠ .kill p pid) (hs : step k a = some k') :
    Lives k.marks k.filling k'.marks k'.filling := by
  cases a with
  | schedule p | yield p | sleep p c =>
    simp only [step, Option.ite_none_right_eq_some, Option.some.injEq] at hs
    obtain ⟨hr, rfl⟩ := hs
    rw [marks_upd_same (by simp [Proc.mark, ProcState.phase, hr])]
    exact .same
  | tsleep p =>
    simp only [step, Option.ite_none_right_eq_some, Option.some.injEq] at hs
    obtain ⟨hr, rfl⟩ := hs
    rw [marks_upd_same (by simp [Proc.mark, ProcState.phase, hr.1])]
    exact .same
  | wakeup c =>
    obtain rfl : _ = k' := Option.some.inj hs
    rw [marks_wakeup1]
    exact .same
  | twakeup p tid =>
    simp only [step, Option.ite_none_right_eq_some, Option.some.injEq] at hs
    obtain ⟨-, rfl⟩ := hs
    have hfill : (twakeup k tid).filling = k.filling := by
      funext q
      rw [Kernel.filling, Kernel.filling, call_twakeup]
    rw [marks_twakeup, hfill]
    exact .same
  | forkAlloc p kallocOk =>
    obtain ⟨hf, hal | ⟨np, k₁, hal, rfl⟩⟩ := step_forkAlloc hs
    · exact lives_allocproc_none hal
    · obtain ⟨hnp, hfill, hmarks⟩ := marks_allocproc hal
      rw [marks_setCall, filling_setCall, hmarks, hfill]
      exact .takes p np _ _ hnp hf.filling
  | forkCopy p o =>
    obtain ⟨np, hc, rfl⟩ := step_forkCopy hs
    exact lives_fork hc o
  | cloneAlloc p kallocOk stack routine =>
    obtain ⟨hf, hal | ⟨np, k₁, hal, rfl⟩⟩ := step_cloneAlloc hs
    · exact lives_allocproc_none hal
    · exact lives_clone hf hal
  | cloneLoop p =>
    obtain ⟨np, pp, hc, hloop⟩ := step_cloneLoop hs
    exact lives_cloneLoop hc hloop
  | cloneFinish p copyoutOk =>
    obtain ⟨np, hc, rfl⟩ := step_cloneFinish hs
    exact lives_cloneFinish hc copyoutOk
  | exit p =>
    obtain ⟨hf, -, rfl⟩ := step_exit hs
    refine lives_dies hf (by rw [marks_reparent, marks_wakeup1]) ?_
    unfold reparent
    simp only
    split <;> rfl
  | texit p =>
    obtain ⟨hf, -, rfl⟩ := step_texit hs
    exact lives_dies hf (marks_wakeup1 k _) rfl
  | wait p =>
    obtain ⟨hr, hc, rfl⟩ := step_wait hs
    exact lives_wait hr hc
  | kill p pid => exact absurd rfl (ha p pid)
  | execBuild p o =>
    obtain ⟨hf, rfl⟩ := step_execBuild hs
    cases o with
    | ok =>
      rw [execBuild, filling_setCall_same (k := k.newDir) hf.filling rfl]
      exact .same
    | noPage | halfBuilt | bad => exact .same
  | execCommit p =>
    obtain ⟨d, hc, -, rfl⟩ := step_execCommit hs
    have hnone : (k.call p).np = none := by rw [hc]; rfl
    rw [execCommit, marks_setCall, marks_freevm, marks_upd_same rfl,
      filling_setCall_same (k := (k.upd p _).freevm _) hnone rfl]
    exact .same
  | execBad p =>
    obtain ⟨d, hc, rfl⟩ := step_execBad hs
    have hnone : (k.call p).np = none := by rw [hc]; rfl
    rw [marks_setCall, marks_freevm, filling_setCall_same (k := k.freevm _) hnone rfl]
    exact .same

end

/-! ## 3. Nobody is killed before being born -/

/-- **The invariant**: a slot that is not that of a started process does not have the flag, and
the slots being filled in are `EMBRYO`, each in the hands of one process. -/
structure Unmarked (m : Slot → Mark) (filling : Slot → Option Slot) : Prop where
  clean : ∀ p, (m p).phase = .unused ∨ (m p).phase = .embryo → (m p).killed = false
  embryo : ∀ p np, filling p = some np → (m np).phase = .embryo
  sole : ∀ p q np, filling p = some np → filling q = some np → p = q

namespace Unmarked

variable {m m' : Slot → Mark} {filling filling' : Slot → Option Slot} {p np : Slot} {x : Mark}

/-- A slot gets another mark. -/
theorem upd (h : Unmarked m filling)
    (hclean : x.phase = .unused ∨ x.phase = .embryo → x.killed = false)
    (hembryo : (∃ q, filling q = some np) → x.phase = .embryo) :
    Unmarked (Function.update m np x) filling := by
  refine ⟨fun q => ?_, fun q r hr => ?_, h.sole⟩
  · rcases eq_or_ne q np with rfl | hq
    · rw [Function.update_self]
      exact hclean
    · rw [Function.update_of_ne hq]
      exact h.clean q
  · rcases eq_or_ne r np with rfl | hne
    · rw [Function.update_self]
      exact hembryo ⟨q, hr⟩
    · rw [Function.update_of_ne hne]
      exact h.embryo q r hr

/-- A process takes a slot in hand that nobody else has. -/
theorem fill (h : Unmarked m filling) (hnp : (m np).phase = .embryo)
    (hfree : ∀ q, filling q ≠ some np) : Unmarked m (Function.update filling p (some np)) := by
  have hcases : ∀ q r, Function.update filling p (some np) q = some r →
      (q = p ∧ r = np) ∨ (q ≠ p ∧ filling q = some r) := by
    intro q r hq
    rcases eq_or_ne q p with rfl | hne
    · rw [Function.update_self, Option.some.injEq] at hq
      exact .inl ⟨rfl, hq.symm⟩
    · rw [Function.update_of_ne hne] at hq
      exact .inr ⟨hne, hq⟩
  refine ⟨h.clean, fun q r hq => ?_, fun q q' r hq hq' => ?_⟩
  · rcases hcases q r hq with ⟨-, rfl⟩ | ⟨-, hq⟩
    · exact hnp
    · exact h.embryo q r hq
  · rcases hcases q r hq with ⟨rfl, rfl⟩ | ⟨-, h₁⟩ <;>
      rcases hcases q' _ hq' with ⟨rfl, hr⟩ | ⟨-, h₂⟩
    · rfl
    · exact absurd h₂ (hfree q')
    · exact absurd (hr ▸ h₁) (hfree q)
    · exact h.sole q q' r h₁ h₂

/-- A process lets go of the slot it has in hand. -/
theorem leave (h : Unmarked m filling) : Unmarked m (Function.update filling p none) := by
  have hcases : ∀ q r, Function.update filling p none q = some r → filling q = some r := by
    intro q r hq
    rcases eq_or_ne q p with rfl | hne
    · rw [Function.update_self] at hq
      cases hq
    · rwa [Function.update_of_ne hne] at hq
  exact ⟨h.clean, fun q r hq => h.embryo q r (hcases q r hq),
    fun q q' r hq hq' => h.sole q q' r (hcases q r hq) (hcases q' r hq')⟩

/-- Nobody has a slot in hand that is not `EMBRYO`. -/
theorem not_filling (h : Unmarked m filling) (np : Slot) (hnp : (m np).phase ≠ .embryo)
    (q : Slot) : filling q ≠ some np := fun hq => hnp (h.embryo q np hq)

/-- **A move that is not a `kill` keeps the invariant.** -/
theorem lives (h : Unmarked m filling) (hl : Lives m filling m' filling') :
    Unmarked m' filling' := by
  cases hl with
  | same => exact h
  | takes p np born pid hnp hp =>
    have hnot := h.not_filling np (by rw [hnp]; decide)
    have hupd : Unmarked (Function.update m np ⟨.embryo, born, pid, (m np).killed⟩) filling :=
      h.upd (fun _ => h.clean np (.inl hnp)) (fun _ => rfl)
    exact hupd.fill (by rw [Function.update_self]) hnot
  | drops np phase born pid hnp hphase =>
    have hnot := h.not_filling np (by rw [hnp]; decide)
    exact h.upd (fun _ => h.clean np (.inl hnp)) fun ⟨q, hq⟩ => absurd hq (hnot q)
  | settles p np phase hp =>
    have hleft := h.leave (p := p)
    refine hleft.upd (fun _ => h.clean np (.inr (h.embryo p np hp))) fun ⟨q, hq⟩ => ?_
    -- nobody but `p` had it in hand
    rcases eq_or_ne q p with rfl | hne
    · rw [Function.update_self] at hq
      cases hq
    · rw [Function.update_of_ne hne] at hq
      exact absurd (h.sole q p np hq hp) hne
  | loses p => exact h.leave
  | dies p hp =>
    have hnot := h.not_filling p (by rw [hp]; decide)
    refine h.upd (fun hx => ?_) fun ⟨q, hq⟩ => absurd hq (hnot q)
    rcases hx with e | e <;> cases e
  | reaped q hq =>
    have hnot := h.not_filling q (by rw [hq]; decide)
    exact h.upd (fun _ => rfl) fun ⟨r, hr⟩ => absurd hr (hnot r)

end Unmarked

/-- **Only a `kill` sets the flag**, among the moves of `proc.c`: whoever has it after another move
had it before, in the same life. -/
theorem Lives.killed {m m' : Slot → Mark} {filling filling' : Slot → Option Slot}
    (hl : Lives m filling m' filling') (h : Unmarked m filling) {p : Slot}
    (hp : (m' p).killed = true) : (m p).killed = true ∧ (m' p).born = (m p).born := by
  have hupd : ∀ np (x : Mark), (x.killed = true → (m np).killed = true ∧ x.born = (m np).born) →
      (Function.update m np x p).killed = true →
      (m p).killed = true ∧ (Function.update m np x p).born = (m p).born := by
    intro np x hx
    rcases eq_or_ne p np with rfl | hne
    · rw [Function.update_self]
      exact hx
    · rw [Function.update_of_ne hne]
      exact fun hk => ⟨hk, rfl⟩
  cases hl with
  | same | loses => exact ⟨hp, rfl⟩
  | takes p np born pid hnp hp' =>
    refine hupd np _ (fun hk => ?_) hp
    rw [h.clean np (.inl hnp)] at hk
    cases hk
  | drops np phase born pid hnp hphase =>
    refine hupd np _ (fun hk => ?_) hp
    rw [h.clean np (.inl hnp)] at hk
    cases hk
  | settles p np phase hp' => exact hupd np _ (fun hk => ⟨hk, rfl⟩) hp
  | dies p hp' => exact hupd p _ (fun hk => ⟨hk, rfl⟩) hp
  | reaped q hq => exact hupd q _ (fun hk => by cases hk) hp

/-! ## 4. Runs with faults -/

/-- A move of `proc.c`, or a fault of a process in user mode, for which `trap` sets the flag. -/
inductive Happening
  | move (a : Act)
  | fault (p : Slot)
  deriving DecidableEq, Repr

/-- What it does. -/
def happens (k : Kernel) : Happening → Option Kernel
  | .move a => step k a
  | .fault p => if k.Free p then some (k.upd p fun x => { x with killed := true }) else none

/-- The slot that `kill(pid)` finds. -/
def killed (k : Kernel) (pid : Nat) : Option Slot :=
  (List.finRange NPROC).find? fun p => (k.proc p).pid = pid

/-- What `kill(pid)` returns. -/
def killReturns (k : Kernel) (pid : Nat) : Int := if (killed k pid).isSome then 0 else -1

/-- `kill(pid)` finds nobody, or a process that has been started. -/
def FindsStarted (k : Kernel) (pid : Nat) : Prop :=
  ∀ p, killed k pid = some p → (k.proc p).state ≠ .unused ∧ (k.proc p).state ≠ .embryo

instance (k : Kernel) (pid : Nat) : Decidable (FindsStarted k pid) :=
  inferInstanceAs (Decidable (∀ p, killed k pid = some p → _))

/-- Every `kill` of the run finds nobody, or a process that has been started. -/
def KillsStarted (k : Kernel) : Happening → Prop
  | .move (.kill _ pid) => FindsStarted k pid
  | _ => True

instance (k : Kernel) (e : Happening) : Decidable (KillsStarted k e) := by
  unfold KillsStarted
  split <;> infer_instance

section

variable {k k' : Kernel}

/-- A slot is marked: by its own fault, or by a `kill` of its own pid while it is in use. -/
def Cause (k : Kernel) (p : Slot) (e : Happening) : Prop :=
  (k.proc p).state ≠ .unused ∧
    (e = .fault p ∨ ∃ q, e = .move (.kill q (k.proc p).pid))

theorem killed_pid {pid : Nat} {p : Slot} (h : killed k pid = some p) : (k.proc p).pid = pid := by
  simpa using List.find?_some h

theorem kill_eq {pid : Nat} : kill k pid = match killed k pid with
    | none => k
    | some p => k.upd p fun x =>
        { x with killed := true, state := if x.state = .sleeping then .runnable else x.state } :=
  rfl

/-- What a process that has been started looks like after it was marked. -/
theorem marked {p : Slot} {f : Proc → Proc} (h : Unmarked k.marks k.filling)
    (hp : (k.proc p).state ≠ .unused ∧ (k.proc p).state ≠ .embryo)
    (hphase : (f (k.proc p)).state.phase = (k.proc p).state.phase)
    (hborn : (f (k.proc p)).born = (k.proc p).born) :
    Unmarked (k.upd p f).marks (k.upd p f).filling ∧
      ∀ q, ((k.upd p f).marks q).killed = true →
        (k.marks q).killed = true ∧ ((k.upd p f).marks q).born = (k.marks q).born ∨
        q = p ∧ ((k.upd p f).marks q).born = (k.marks q).born := by
  have hstarted : (k.proc p).state.phase ≠ .unused ∧ (k.proc p).state.phase ≠ .embryo := by
    cases hs : (k.proc p).state <;> simp_all [ProcState.phase]
  have hnot := h.not_filling p hstarted.2
  rw [filling_upd, marks_upd]
  refine ⟨h.upd (fun hx => ?_) fun hex => hex.elim fun q hq => absurd hq (hnot q), fun q hq => ?_⟩
  · rw [show ((f (k.proc p)).mark).phase = (k.proc p).state.phase from hphase] at hx
    exact absurd hx (by simp [hstarted])
  · rcases eq_or_ne q p with rfl | hne
    · rw [Function.update_self]
      exact .inr ⟨rfl, hborn⟩
    · rw [Function.update_of_ne hne] at hq ⊢
      exact .inl ⟨hq, rfl⟩

/-- **One move of a run**: the invariant is kept, and a mark is old or has its cause in the move. -/
theorem unmarked_happens {e : Happening} (h : Unmarked k.marks k.filling) (he : KillsStarted k e)
    (hs : happens k e = some k') :
    Unmarked k'.marks k'.filling ∧ ∀ p, (k'.marks p).killed = true →
      (k'.marks p).born = (k.marks p).born ∧ ((k.marks p).killed = true ∨ Cause k p e) := by
  have hplain : ∀ a, (∀ p pid, a ≠ .kill p pid) → step k a = some k' →
      Unmarked k'.marks k'.filling ∧ ∀ p, (k'.marks p).killed = true →
        (k'.marks p).born = (k.marks p).born ∧ ((k.marks p).killed = true ∨ Cause k p e) := by
    intro a ha hstep
    have hl := lives_step ha hstep
    refine ⟨h.lives hl, fun p hp => ?_⟩
    obtain ⟨hk, hb⟩ := hl.killed h hp
    exact ⟨hb, .inl hk⟩
  cases e with
  | fault p =>
    simp only [happens, Option.ite_none_right_eq_some, Option.some.injEq] at hs
    obtain ⟨hf, rfl⟩ := hs
    obtain ⟨hun, hold⟩ := marked h (p := p) (f := fun x => { x with killed := true })
      (by rw [hf.1]; decide) rfl rfl
    refine ⟨hun, fun q hq => ?_⟩
    rcases hold q hq with ⟨hk, hb⟩ | ⟨rfl, hb⟩
    · exact ⟨hb, .inl hk⟩
    · exact ⟨hb, .inr ⟨by rw [hf.1]; decide, .inl rfl⟩⟩
  | move a =>
    by_cases ha : ∀ p pid, a ≠ .kill p pid
    · exact hplain a ha hs
    simp only [not_forall, not_not] at ha
    obtain ⟨q, pid, rfl⟩ := ha
    simp only [happens, step, Option.ite_none_right_eq_some, Option.some.injEq] at hs
    obtain ⟨-, rfl⟩ := hs
    rw [kill_eq]
    cases hfound : killed k pid with
    | none => exact ⟨h, fun p hp => ⟨rfl, .inl hp⟩⟩
    | some p =>
      obtain ⟨hused, hborn⟩ := he p hfound
      have hphase : (if (k.proc p).state = .sleeping then .runnable else (k.proc p).state).phase =
          (k.proc p).state.phase := by
        split
        · rename_i hsl
          rw [hsl]
          rfl
        · rfl
      obtain ⟨hun, hold⟩ := marked h (p := p)
        (f := fun x =>
          { x with killed := true, state := if x.state = .sleeping then .runnable else x.state })
        ⟨hused, hborn⟩ hphase rfl
      refine ⟨hun, fun r hr => ?_⟩
      rcases hold r hr with ⟨hk, hb⟩ | ⟨rfl, hb⟩
      · exact ⟨hb, .inl hk⟩
      · exact ⟨hb, .inr ⟨hused, .inr ⟨q, by rw [killed_pid hfound]⟩⟩⟩

theorem unmarked_boot : Unmarked boot.marks boot.filling := by
  refine ⟨fun p _ => ?_, fun p np hp => (by cases hp), fun p q np hp => (by cases hp)⟩
  by_cases hp : p = 0 <;> simp [Kernel.marks, Proc.mark, boot, hp, Proc.zero]

theorem unmarked_run (es : List Happening) (k k' : Kernel) (h : Unmarked k.marks k.filling)
    (hk : Along KillsStarted happens k es) (hr : run happens k es = some k') :
    Unmarked k'.marks k'.filling :=
  run_invariant (P := fun k => Unmarked k.marks k.filling)
    (fun _ _ _ h he hs => (unmarked_happens h he hs).1) es k k' h hk hr

/-- **A mark has its cause in the run**, unless it was there at its start. -/
theorem cause_run (es : List Happening) (k k' : Kernel) (h : Unmarked k.marks k.filling)
    (hk : Along KillsStarted happens k es) (hr : run happens k es = some k') (p : Slot)
    (hp : (k'.marks p).killed = true) :
    ((k.marks p).killed = true ∧ (k'.marks p).born = (k.marks p).born) ∨
      ∃ es₁ e es₂ k₁, es = es₁ ++ e :: es₂ ∧ run happens k es₁ = some k₁ ∧
        (k₁.marks p).born = (k'.marks p).born ∧ Cause k₁ p e := by
  induction es generalizing k with
  | nil =>
    obtain rfl : k = k' := Option.some.inj hr
    exact .inl ⟨hp, rfl⟩
  | cons e es ih =>
    obtain ⟨k₀, hstep, hrest⟩ := run_cons_iff.mp hr
    obtain ⟨hun, hmark⟩ := unmarked_happens h hk.1 hstep
    rcases ih k₀ hun (hk.2 k₀ hstep) hrest with ⟨hp₀, hb₀⟩ | ⟨es₁, e', es₂, k₁, rfl, hrun, hb, hc⟩
    · obtain ⟨hb, hold | hcause⟩ := hmark p hp₀
      · exact .inl ⟨hold, hb₀.trans hb⟩
      · exact .inr ⟨[], e, es, k, rfl, rfl, (hb₀.trans hb).symm, hcause⟩
    · exact .inr ⟨e :: es₁, e', es₂, k₁, rfl, run_cons_iff.mpr ⟨k₀, hstep, hrun⟩, hb, hc⟩

/-- What `kill` is for, in the state `k` that the run `es` leads to. -/
structure HitsTheLiving (es : List Happening) (k : Kernel) : Prop where
  /-- it returns 0 exactly when some process has that pid -/
  returns : ∀ pid, FindsStarted k pid →
    (killReturns k pid = 0 ↔ ∃ p, (k.proc p).state ≠ .unused ∧ (k.proc p).pid = pid)
  /-- who is made `RUNNABLE` by `fork` or `clone` does not have the flag -/
  starts : ∀ e k' np, happens k e = some k' → (k.proc np).state = .embryo →
    (k'.proc np).state = .runnable → (k'.proc np).killed = false
  /-- who has the flag has been hit by a `kill` of its own pid in this life, or has faulted -/
  cause : ∀ p, (k.proc p).killed = true → (k.proc p).state ≠ .unused ∧
    ∃ es₁ e es₂ k₁, es = es₁ ++ e :: es₂ ∧ run happens boot es₁ = some k₁ ∧
      (k₁.proc p).born = (k.proc p).born ∧ Cause k₁ p e

theorem starts_unmarked (h : Unmarked k.marks k.filling) {e : Happening} {np : Slot}
    (hs : happens k e = some k') (hemb : (k.proc np).state = .embryo)
    (hrun : (k'.proc np).state = .runnable) : (k'.proc np).killed = false := by
  have hfalse : (k.marks np).killed = false :=
    h.clean np (.inr (by rw [Kernel.marks, Proc.mark, hemb]; rfl))
  have hplain : ∀ a, (∀ p pid, a ≠ .kill p pid) → step k a = some k' →
      (k'.proc np).killed = false := by
    intro a ha hstep
    by_contra hk
    have hk' : (k'.marks np).killed = true := eq_true_of_ne_false hk
    rw [((lives_step ha hstep).killed h hk').1] at hfalse
    cases hfalse
  -- neither a fault nor a `kill` changes what is `EMBRYO`
  cases e with
  | fault p =>
    simp only [happens, Option.ite_none_right_eq_some, Option.some.injEq] at hs
    obtain ⟨hf, rfl⟩ := hs
    have hne : np ≠ p := by
      rintro rfl
      rw [hf.1] at hemb
      cases hemb
    rw [upd_proc_ne _ _ hne, hemb] at hrun
    cases hrun
  | move a =>
    by_cases ha : ∀ p pid, a ≠ .kill p pid
    · exact hplain a ha hs
    simp only [not_forall, not_not] at ha
    obtain ⟨q, pid, rfl⟩ := ha
    simp only [happens, step, Option.ite_none_right_eq_some, Option.some.injEq] at hs
    obtain ⟨-, rfl⟩ := hs
    rw [kill_eq] at hrun
    cases hfound : killed k pid with
    | none =>
      rw [hfound, hemb] at hrun
      cases hrun
    | some p =>
      rw [hfound] at hrun
      by_cases hp : np = p
      · subst hp
        simp [hemb] at hrun
      · simp only [upd_proc_ne _ _ hp, hemb] at hrun
        cases hrun

theorem killReturns_iff (pid : Nat) (h : FindsStarted k pid) :
    killReturns k pid = 0 ↔ ∃ p, (k.proc p).state ≠ .unused ∧ (k.proc p).pid = pid := by
  unfold killReturns
  cases hfound : killed k pid with
  | none =>
    refine ⟨fun hf => (by simp at hf), fun ⟨p, _, hp⟩ => ?_⟩
    have := List.find?_eq_none.mp hfound p (List.mem_finRange p)
    simp [hp] at this
  | some p => exact ⟨fun _ => ⟨p, (h p hfound).1, killed_pid hfound⟩, fun _ => rfl⟩

end

/-- **`kill` hits the process it names, and nobody else**, in every run in which no `kill` finds a
slot that is `UNUSED` or `EMBRYO`. -/
theorem kill_hits_the_living (es : List Happening) (k : Kernel)
    (hk : Along KillsStarted happens boot es) (hr : run happens boot es = some k) :
    HitsTheLiving es k := by
  have hun := unmarked_run es boot k unmarked_boot hk hr
  refine ⟨fun pid => killReturns_iff pid, fun e k' np => starts_unmarked hun, fun p hp => ⟨?_, ?_⟩⟩
  · intro hunused
    have hfalse := hun.clean p (.inl (by rw [Kernel.marks, Proc.mark, hunused]; rfl))
    rw [Kernel.marks, Proc.mark, hp] at hfalse
    cases hfalse
  · rcases cause_run es boot k unmarked_boot hk hr p hp with ⟨hboot, -⟩ | hcause
    · by_cases h0 : p = 0 <;> simp [Kernel.marks, Proc.mark, boot, h0, Proc.zero] at hboot
    · exact hcause

/-- Init forks; the child is killed in its sleep and exits; init waits and forks again. -/
def killedAsleep : List Happening :=
  [.move (.schedule 0), .move (.forkAlloc 0 true), .move (.forkCopy 0 .ok), .move (.schedule 1),
    .move (.sleep 1 7), .move (.kill 0 2), .move (.schedule 1), .move (.exit 1), .move (.wait 0),
    .move (.forkAlloc 0 true), .move (.forkCopy 0 .ok)]

theorem kill_hits_the_living_in_killedAsleep :
    ∃ k, run happens boot killedAsleep = some k ∧ HitsTheLiving killedAsleep k ∧
      (k.proc 1).pid = 3 ∧ (k.proc 1).killed = false := by
  have hrun : (run happens boot killedAsleep).any
      (fun k => (k.proc 1).pid = 3 ∧ (k.proc 1).killed = false) = true := by decide +kernel
  obtain ⟨k, hk, hend⟩ := (Option.any_eq_true _ _).mp hrun
  exact ⟨k, hk, kill_hits_the_living killedAsleep k (by decide +kernel) hk,
    of_decide_eq_true hend⟩

/-- Init calls `kill(0)` and forks. -/
def killsNobody : List Happening :=
  [.move (.schedule 0), .move (.kill 0 0), .move (.forkAlloc 0 true), .move (.forkCopy 0 .ok)]

/-- **`kill(0)` returns 0 although no process has pid 0, and the next child starts killed.** -/
theorem kill_zero_marks_the_next_child :
    (∃ k, run happens boot (killsNobody.take 1) = some k ∧ killReturns k 0 = 0 ∧
      ∀ p, (k.proc p).state ≠ .unused → (k.proc p).pid ≠ 0) ∧
    ∃ k, run happens boot killsNobody = some k ∧ (k.proc 1).state = .runnable ∧
      (k.proc 1).pid = 2 ∧ (k.proc 1).killed = true :=
  ⟨⟨_, rfl, rfl, by decide +kernel⟩, _, rfl, rfl, rfl, rfl⟩

end Xv6.Ptable
