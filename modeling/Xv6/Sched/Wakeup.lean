/-
# No wakeup is lost

A process that sleeps on `cond n` while condition `n` is true is OWED a wakeup: some thread still has
a `waking n ps` to execute, with the process among the slots `ps` it has yet to look at.

What makes this an invariant is the hand-over from `lk` to `ptable.lock` in `sleep`.  A process on its
way to sleep is in one of four stages (`Stage`).  In the first two it still holds `lk`, so the
condition, which it has found false, is false: nobody else can set it.  In the last two it holds
`ptable.lock`: the condition may become true, but whoever sets it then owes a wakeup, and cannot begin
to wake anybody before the process is asleep and the CPU's next thread has released the lock.

Interrupts cannot come in between, because the stages hold a lock; and code that a thread comes back
to later has no stage in it (`Tidy`).

Results: `no_lost_wakeup`.
-/
import Xv6.Sched.Exclusive

namespace Xv6.Sched

open Xv6.Ptable (Slot ProcState)

/-! ## 1. The way to sleep -/

def Stmt.setsChan : Stmt → Bool
  | .setChan (some _) => true
  | _ => false

/-- What may stand in code that a thread has not begun to execute: `proc->state = SLEEPING` only right
after `proc->chan` has been set (`b`), and no sleeping on a condition. -/
def Stmt.Tidy (b : Bool) : Stmt → Prop
  | .leave .sleeping => b = true
  | .setChan (some (.cond _)) => False
  | _ => True

def Tidy (b : Bool) : List Stmt → Prop
  | [] => True
  | st :: k => st.Tidy b ∧ Tidy st.setsChan k

/-- Somebody has yet to execute the body of a `wakeup1` loop for `p` and condition `n`. -/
def Owed {ι : Type} (s : Machine ι) (n : Nat) (p : Slot) : Prop :=
  ∃ t ps, Stmt.waking n ps ∈ s.code t ∧ p ∈ ps

/-- **The stages of `sleep`.** -/
inductive Stage {ι : Type} (guard : Nat → Lock) (s : Machine ι) (p : Slot) : List Stmt → Prop
  /-- not on the way to sleep on a condition -/
  | plain {k : List Stmt} (h : Tidy false k) : Stage guard s p k
  /-- `acquire(&ptable.lock)` comes next -/
  | first {k : List Stmt} (n : Nat) (hcond : s.cond n = false) (hne : guard n ≠ .ptable)
      (h : Tidy false k) : Stage guard s p
        (.acquire .ptable :: .release (guard n) :: .setChan (some (.cond n)) :: .leave .sleeping :: k)
  /-- `release(lk)` comes next -/
  | second {k : List Stmt} (n : Nat) (hcond : s.cond n = false) (h : Tidy false k) :
      Stage guard s p (.release (guard n) :: .setChan (some (.cond n)) :: .leave .sleeping :: k)
  /-- `proc->chan = chan` comes next -/
  | third {k : List Stmt} (n : Nat) (howed : s.cond n = true → Owed s n p) (h : Tidy false k) :
      Stage guard s p (.setChan (some (.cond n)) :: .leave .sleeping :: k)
  /-- `proc->state = SLEEPING` comes next -/
  | fourth {k : List Stmt}
      (howed : ∀ n, s.chan p = some (.cond n) → s.cond n = true → Owed s n p)
      (h : Tidy false k) : Stage guard s p (.leave .sleeping :: k)

/-- **No wakeup is lost.** -/
structure Wakes {ι : Type} (guard : Nat → Lock) (s : Machine ι) : Prop where
  stage : ∀ p, Stage guard s p (s.code (.proc p))
  parked : ∀ p, (∀ c, s.cur c ≠ .proc p) → Tidy false (s.code (.proc p))
  asleep : ∀ p n, s.state p = .sleeping → s.chan p = some (.cond n) → s.cond n = true → Owed s n p
  awake : ∀ p, Calm (s.code (.proc p)) ∨ s.state p = .running ∨ s.state p = .runnable

variable {ι : Type} {guard : Nat → Lock} {s s' : Machine ι} {c : ι} {st : Stmt} {k k' : List Stmt}
  {p : Slot} {n : Nat}

theorem Tidy.tail {b : Bool} (h : Tidy b (st :: k)) (hst : st.setsChan = false) : Tidy false k := by
  rw [← hst]
  exact h.2

theorem held_first (hne : guard n ≠ .ptable) (k : List Stmt) :
    guard n ∈ held guard (.acquire .ptable :: .release (guard n) :: k) :=
  List.mem_filter.mpr ⟨List.mem_cons_self, by simpa using hne⟩

theorem held_leave {x : ProcState} (h : Wf guard (.leave x :: k)) :
    Lock.ptable ∈ held guard (.leave x :: k) := by
  have hk : held guard (.leave x :: k) = [Lock.ptable] := h.ok.2.1
  rw [hk]
  exact List.mem_singleton_self _

/-- On the way to sleep a process holds a lock. -/
theorem Stage.tidy (h : Stage guard s p k) (hwf : Wf guard k) (hk : held guard k = []) :
    Tidy false k := by
  have hnot : ∀ lk, lk ∉ held guard k := fun lk hlk => by
    rw [hk] at hlk
    cases hlk
  cases h with
  | plain h => exact h
  | first n hcond hne => exact absurd (held_first hne _) (hnot _)
  | second n => exact absurd List.mem_cons_self (hnot (guard n))
  | third n => exact absurd hwf.ok (hnot .ptable)
  | fourth => exact absurd (held_leave hwf) (hnot .ptable)

/-- Two CPUs do not hold the same lock. -/
theorem Locks.exclusive (h : Locks guard s) {c c' : ι} {lk : Lock}
    (h₁ : lk ∈ held guard (s.code (s.cur c))) (h₂ : lk ∈ held guard (s.code (s.cur c'))) :
    c = c' := by
  have e₁ := (h.holder c lk).mpr h₁
  have e₂ := (h.holder c' lk).mpr h₂
  exact Option.some.inj (e₁.symm.trans e₂)

/-! ## 2. One step -/

/-- **What a statement that CPU `c` executes may do.** -/
structure Effect (guard : Nat → Lock) (c : ι) (s s' : Machine ι) : Prop where
  others : ∀ t, t ≠ s.cur c → s'.code t = s.code t ∨ (s'.code t = forkret ∧ Calm (s.code t))
  stage : ∀ p, s.cur c = .proc p → Stage guard s' p (s'.code (.proc p))
  parked : ∀ p, s.cur c = .proc p → (∀ c', s'.cur c' ≠ .proc p) → Tidy false (s'.code (.proc p))
  leaves : ∀ p c', c' ≠ c → s.cur c' = .proc p → s'.cur c' = .proc p
  owed : ∀ n p, Owed s n p → Owed s' n p ∨ (Lock.ptable ∈ held guard (s.code (s.cur c)) ∧
    ¬(s'.state p = .sleeping ∧ s'.chan p = some (.cond n)))
  cond : ∀ n, s'.cond n = true → s.cond n = true ∨
    ((∀ p, Owed s' n p) ∧ guard n ∈ held guard (s.code (s.cur c)))
  chan : ∀ p, s'.chan p = s.chan p ∨ (s.cur c = .proc p ∧ s.state p ≠ .sleeping)
  sleeps : ∀ p, s'.state p = .sleeping → s.state p = .sleeping ∨
    (s.cur c = .proc p ∧ ∀ n, s'.chan p = some (.cond n) → s'.cond n = true → Owed s' n p)
  awake : ∀ p, s.cur c ≠ .proc p → s.state p = .running ∨ s.state p = .runnable →
    s'.state p = .running ∨ s'.state p = .runnable
  self : ∀ p, s.cur c = .proc p →
    Calm (s'.code (.proc p)) ∨ s'.state p = .running ∨ s'.state p = .runnable

theorem tidy_forkret : Tidy false forkret := ⟨trivial, trivial⟩

theorem calm_forkret : Calm forkret := by simp [Calm, forkret, Stmt.isWaking]

/-- The stage of a process that another CPU is on. -/
theorem Effect.stage_other (he : Effect guard c s s') (hg : Good guard s) (hw : Wakes guard s)
    (hp : s.cur c ≠ .proc p) : Stage guard s' p (s.code (.proc p)) := by
  have hwf := hg.locks.wf (.proc p)
  by_cases hparked : ∀ c', s.cur c' ≠ .proc p
  · exact .plain (hw.parked p hparked)
  · obtain ⟨c', hc'⟩ := not_forall_not.mp hparked
    have hcc : c' ≠ c := by
      rintro rfl
      exact hp hc'
    -- what the process holds, CPU `c` does not
    have hexcl : ∀ lk, lk ∈ held guard (s.code (.proc p)) →
        lk ∉ held guard (s.code (s.cur c)) := fun lk h₁ h₂ =>
      hcc (hg.locks.exclusive (show lk ∈ _ by rw [hc']; exact h₁) h₂)
    have hchan : s'.chan p = s.chan p := (he.chan p).resolve_right fun h => hp h.1
    have hfalse : ∀ m, s.cond m = false → guard m ∈ held guard (s.code (.proc p)) →
        s'.cond m = false := by
      intro m hm hheld
      refine Bool.eq_false_iff.mpr fun hm' => ?_
      rcases he.cond m hm' with h | ⟨-, h⟩
      · rw [hm] at h
        cases h
      · exact hexcl _ hheld h
    have howed : Lock.ptable ∈ held guard (s.code (.proc p)) → ∀ m,
        (s.cond m = true → Owed s m p) → s'.cond m = true → Owed s' m p := by
      intro hheld m hm hm'
      rcases he.cond m hm' with h | ⟨h, -⟩
      · rcases he.owed m p (hm h) with h | ⟨h, -⟩
        · exact h
        · exact absurd h (hexcl _ hheld)
      · exact h p
    have hst := hw.stage p
    generalize s.code (.proc p) = k₀ at hst hexcl hfalse howed hwf
    cases hst with
    | plain h => exact .plain h
    | first m hcond hne h => exact .first m (hfalse m hcond (held_first hne _)) hne h
    | second m hcond h => exact .second m (hfalse m hcond List.mem_cons_self) h
    | third m hm h => exact .third m (howed hwf.ok m hm) h
    | fourth hm h =>
      exact .fourth (fun m hc => howed (held_leave hwf) m (hm m (hchan ▸ hc))) h

/-- **One step keeps the invariant.** -/
theorem Wakes.step_of (hw : Wakes guard s) (hg : Good guard s) (he : Effect guard c s s') :
    Wakes guard s' where
  stage p := by
    by_cases hp : s.cur c = .proc p
    · exact he.stage p hp
    · rcases he.others (.proc p) (Ne.symm hp) with h | ⟨h, -⟩
      · rw [h]
        exact he.stage_other hg hw hp
      · rw [h]
        exact .plain tidy_forkret
  parked p hparked := by
    by_cases hp : s.cur c = .proc p
    · exact he.parked p hp hparked
    · rcases he.others (.proc p) (Ne.symm hp) with h | ⟨h, -⟩
      · rw [h]
        refine hw.parked p fun c' hc' => hparked c' (he.leaves p c' ?_ hc')
        rintro rfl
        exact hp hc'
      · rw [h]
        exact tidy_forkret
  asleep p m hsleep hchan hcond := by
    rcases he.sleeps p hsleep with hs | ⟨-, h⟩
    · have hchan' : s.chan p = some (.cond m) := by
        rcases he.chan p with h | ⟨-, h⟩
        · exact h ▸ hchan
        · exact absurd hs h
      rcases he.cond m hcond with h | ⟨h, -⟩
      · rcases he.owed m p (hw.asleep p m hs hchan' h) with h | ⟨-, h⟩
        · exact h
        · exact absurd ⟨hsleep, hchan⟩ h
      · exact h p
    · exact h m hchan hcond
  awake p := by
    by_cases hp : s.cur c = .proc p
    · exact he.self p hp
    · rcases he.others (.proc p) (Ne.symm hp) with h | ⟨h, -⟩
      · rw [h]
        exact (hw.awake p).imp_right (he.awake p hp)
      · rw [h]
        exact Or.inl calm_forkret

/-! ## 3. The statements -/

/-- A process that is on a CPU and not in the middle of `sched` is RUNNING. -/
theorem Good.running (hg : Good guard s) (hc : s.cur c = .proc p)
    (hhead : ∀ x ∈ (s.code (s.cur c)).head?, x ≠ .sched) : s.state p = .running := by
  have hphase : s.abs.phase c = .on p := by
    show phase (s.cur c) (s.code (s.cur c)) = _
    cases hk : s.code (s.cur c) with
    | nil =>
      rw [hc]
      rfl
    | cons x k =>
      have hx : x ≠ .sched := hhead x (by rw [hk]; rfl)
      rw [hc]
      cases x <;> first | rfl | exact absurd rfl hx
  have hs := hg.cpus.stands c
  rw [hphase] at hs
  exact hs.2

/-- Wakeups are still owed if no statement is lost. -/
theorem Owed.of (h : Owed s n p) {t₀ : Thread ι}
    (hothers : ∀ t, t ≠ t₀ → s'.code t = s.code t ∨ (s'.code t = forkret ∧ Calm (s.code t)))
    (hself : ∀ ps, .waking n ps ∈ s.code t₀ → .waking n ps ∈ s'.code t₀) : Owed s' n p := by
  obtain ⟨t, ps, hmem, hp⟩ := h
  by_cases ht : t = t₀
  · exact ⟨t₀, ps, hself ps (ht ▸ hmem), hp⟩
  · rcases hothers t ht with h | ⟨-, h⟩
    · exact ⟨t, ps, h ▸ hmem, hp⟩
    · cases h _ hmem

/-- A statement that neither switches nor touches a channel. -/
theorem effect_stay (hrun : ∀ p, s.cur c = .proc p → s.state p = .running)
    (hothers : ∀ t, t ≠ s.cur c → s'.code t = s.code t ∨ (s'.code t = forkret ∧ Calm (s.code t)))
    (hcur : s'.cur = s.cur) (hchan : s'.chan = s.chan)
    (hstage : ∀ p, s.cur c = .proc p → Stage guard s' p (s'.code (.proc p)))
    (howed : ∀ n p, Owed s n p → Owed s' n p ∨ (Lock.ptable ∈ held guard (s.code (s.cur c)) ∧
      ¬(s'.state p = .sleeping ∧ s'.chan p = some (.cond n))))
    (hcond : ∀ n, s'.cond n = true → s.cond n = true ∨
      ((∀ p, Owed s' n p) ∧ guard n ∈ held guard (s.code (s.cur c))))
    (hsleep : ∀ p, s'.state p = .sleeping → s.state p = .sleeping)
    (hawake : ∀ p, s.state p = .running ∨ s.state p = .runnable →
      s'.state p = .running ∨ s'.state p = .runnable) : Effect guard c s s' where
  others := hothers
  stage := hstage
  parked p hp hparked := absurd (by rw [hcur]; exact hp) (hparked c)
  leaves p c' _ hc' := by rw [hcur]; exact hc'
  owed := howed
  cond := hcond
  chan p := Or.inl (by rw [hchan])
  sleeps p hp := Or.inl (hsleep p hp)
  awake p _ := hawake p
  self p hp := Or.inr (hawake p (Or.inl (hrun p hp)))

/-- The statements of the stages. -/
def Stmt.inStage : Stmt → Bool
  | .acquire _ | .release _ | .setChan _ | .leave _ => true
  | _ => false

theorem Stage.plain_of (h : Stage guard s p (st :: k)) (hst : st.inStage = false) :
    Tidy false (st :: k) := by
  cases h <;> first | assumption | cases hst

/-- The statements that have nothing to do with sleeping. -/
def Stmt.ordinary : Stmt → Bool
  | .acquire _ | .release _ | .setChan _ | .leave _ | .sched | .waking _ _ => false
  | _ => true

theorem Stmt.ordinary_spec (h : st.ordinary = true) : st.Tidy false ∧ st.setsChan = false ∧
    st.isWaking = false ∧ st.inStage = false ∧ st ≠ .sched := by
  cases st <;> first | cases h; done | exact ⟨trivial, rfl, rfl, rfl, by simp⟩

/-- What may happen to the states of processes. -/
structure Rests (s s' : Machine ι) : Prop where
  sleeping : ∀ p, s'.state p = .sleeping → s.state p = .sleeping
  awake : ∀ p, s.state p = .running ∨ s.state p = .runnable →
    s'.state p = .running ∨ s'.state p = .runnable

theorem Rests.same (h : s'.state = s.state) : Rests s s' := by
  constructor <;> rw [h] <;> exact fun _ h => h

theorem Rests.update {q : Slot} {x : ProcState} (h : s'.state = Function.update s.state q x)
    (hx : x ≠ .sleeping)
    (hq : (x = .running ∨ x = .runnable) ∨ (s.state q ≠ .running ∧ s.state q ≠ .runnable)) :
    Rests s s' := by
  constructor
  · intro p hp
    rw [h] at hp
    rcases eq_or_ne p q with rfl | hne
    · rw [Function.update_self] at hp
      exact absurd hp hx
    · rwa [Function.update_of_ne hne] at hp
  · intro p hp
    rw [h]
    rcases eq_or_ne p q with rfl | hne
    · rw [Function.update_self]
      rcases hq with hq | ⟨h₁, h₂⟩
      · exact hq
      · exact absurd hp (by simp [h₁, h₂])
    · rwa [Function.update_of_ne hne]

/-- Nothing changes that has to do with sleeping. -/
structure Apart (s s' : Machine ι) : Prop where
  rests : Rests s s'
  cur : s'.cur = s.cur
  chan : s'.chan = s.chan
  cond : s'.cond = s.cond

/-- **A statement that has nothing to do with sleeping**, up to conditions. -/
theorem effect_ordinary (hg : Good guard s) (hw : Wakes guard s) (hcode : s.code (s.cur c) = st :: k)
    (hst : st.ordinary = true)
    (hothers : ∀ t, t ≠ s.cur c → s'.code t = s.code t ∨ (s'.code t = forkret ∧ Calm (s.code t)))
    (hself : s'.code (s.cur c) = k') (hcur : s'.cur = s.cur) (hchan : s'.chan = s.chan)
    (hcond : ∀ n, s'.cond n = true → s.cond n = true ∨
      ((∀ p, Owed s' n p) ∧ guard n ∈ held guard (s.code (s.cur c))))
    (hkeep : ∀ x ∈ k, x ∈ k') (hstates : Rests s s')
    (hstage : ∀ p, s.cur c = .proc p → Tidy false k → Stage guard s' p k') :
    Effect guard c s s' := by
  obtain ⟨-, hset, hwaking, hstage', hsched⟩ := Stmt.ordinary_spec hst
  refine effect_stay (fun p hp => hg.running hp ?_) hothers hcur hchan (fun p hp => ?_)
    (fun n p h => Or.inl (h.of hothers fun ps hmem => ?_)) hcond hstates.sleeping hstates.awake
  · rw [hcode]
    intro x hx
    cases hx
    exact hsched
  · have hold := hw.stage p
    rw [← hp, hcode] at hold
    rw [← hp, hself]
    exact hstage p hp ((hold.plain_of hstage').tail hset)
  · rw [hcode] at hmem
    rw [hself]
    rcases List.mem_cons.mp hmem with rfl | hmem
    · cases hwaking
    · exact hkeep _ hmem

theorem wakeIf_frame (ch : Option Chan) (q : Slot) :
    (s.wakeIf ch q).cur = s.cur ∧ (s.wakeIf ch q).chan = s.chan ∧
      (s.wakeIf ch q).cond = s.cond := by
  unfold Machine.wakeIf
  split <;> exact ⟨rfl, rfl, rfl⟩

section Exec

variable [DecidableEq ι] {ok : Bool}

/-- One that puts the statements `l` in front of what is left. -/
theorem effect_goto (hg : Good guard s) (hw : Wakes guard s) (hcode : s.code (s.cur c) = st :: k)
    (hst : st.ordinary = true) (ha : Apart s s') {l : List Stmt}
    (hcode' : s'.code = Function.update s.code (s.cur c) (l ++ k))
    (htidy : Tidy false k → Tidy false (l ++ k)) : Effect guard c s s' :=
  effect_ordinary hg hw hcode hst (fun t ht => Or.inl (by rw [hcode', Function.update_of_ne ht]))
    (by rw [hcode', Function.update_self]) ha.cur ha.chan
    (fun n hn => Or.inl (by rw [← ha.cond]; exact hn)) (fun _ h => List.mem_append_right _ h) ha.rests
    fun p _ h => .plain (htidy h)

/-- One that goes on to what is left. -/
theorem effect_drop (hg : Good guard s) (hw : Wakes guard s) (hcode : s.code (s.cur c) = st :: k)
    (hst : st.ordinary = true) (ha : Apart s s')
    (hcode' : s'.code = Function.update s.code (s.cur c) k) : Effect guard c s s' :=
  effect_goto (l := []) hg hw hcode hst ha hcode' id

/-- One that goes on to another such statement. -/
theorem effect_replace (hg : Good guard s) (hw : Wakes guard s)
    (hcode : s.code (s.cur c) = st :: k) (hst : st.ordinary = true) {x : Stmt}
    (hx : x.ordinary = true) (ha : Apart s s')
    (hcode' : s'.code = Function.update s.code (s.cur c) (x :: k)) : Effect guard c s s' := by
  obtain ⟨htidy, hset, -⟩ := Stmt.ordinary_spec hx
  refine effect_goto (l := [x]) hg hw hcode hst ha hcode' fun h => ⟨htidy, ?_⟩
  rw [hset]
  exact h

theorem rests_wakeIf (ch : Option Chan) (q : Slot) (t : Thread ι) (k : List Stmt) :
    Rests s (Machine.goto t k (s.wakeIf ch q)) := by
  unfold Machine.wakeIf
  split
  · exact .update rfl (by simp) (Or.inl (Or.inr rfl))
  · exact .same rfl

theorem effect_wakeup1 (hg : Good guard s) (hw : Wakes guard s) {ch : Option Chan} {ps : List Slot}
    (hcode : s.code (s.cur c) = .wakeup1 ch ps :: k)
    (he : s.exec guard c (s.cur c) ok k (.wakeup1 ch ps) = some s') : Effect guard c s s' := by
  cases ps with
  | nil =>
    cases he
    exact effect_drop hg hw hcode rfl ⟨.same rfl, rfl, rfl, rfl⟩ rfl
  | cons q ps =>
    cases he
    obtain ⟨h₁, h₂, h₃⟩ := wakeIf_frame (s := s) ch q
    exact effect_replace hg hw hcode rfl rfl ⟨rests_wakeIf ch q _ _, h₁, h₂, h₃⟩ (code_wakeIf ch q)

/-- **The loop that is owed.**  The slot it looks at is not owed any more, and is not asleep. -/
theorem effect_waking (hg : Good guard s) (hw : Wakes guard s) {ps : List Slot}
    (hcode : s.code (s.cur c) = .waking n ps :: k)
    (he : s.exec guard c (s.cur c) ok k (.waking n ps) = some s') : Effect guard c s s' := by
  have hok : Lock.ptable ∈ held guard k := (hcode ▸ hg.locks.wf (s.cur c)).ok
  have hlock : Lock.ptable ∈ held guard (s.code (s.cur c)) := by
    rw [hcode]
    exact hok
  have hrun : ∀ p, s.cur c = .proc p → s.state p = .running := fun p hp =>
    hg.running hp (by rw [hcode]; simp)
  have hplain : ∀ p, s.cur c = .proc p → Tidy false (.waking n ps :: k) := by
    intro p hp
    have hold := hw.stage p
    rw [← hp, hcode] at hold
    exact hold.plain_of rfl
  cases ps with
  | nil =>
    cases he
    have hself : (s.goto (s.cur c) k).code (s.cur c) = k := Function.update_self ..
    have hothers : ∀ t, t ≠ s.cur c → (s.goto (s.cur c) k).code t = s.code t :=
      fun t ht => Function.update_of_ne ht ..
    refine effect_stay hrun (fun t ht => Or.inl (hothers t ht)) rfl rfl (fun p hp => ?_)
      (fun m p h => Or.inl ?_) (fun m hm => Or.inl hm) (fun _ h => h) fun _ h => h
    · rw [← hp, hself]
      exact .plain (hplain p hp).2
    · -- a loop that has come to its end owes nothing
      obtain ⟨t, qs, hmem, hp⟩ := h
      by_cases ht : t = s.cur c
      · rw [ht, hcode] at hmem
        rcases List.mem_cons.mp hmem with h | h
        · cases h
          cases hp
        · exact ⟨s.cur c, qs, by rw [hself]; exact h, hp⟩
      · exact ⟨t, qs, by rw [hothers t ht]; exact hmem, hp⟩
  | cons q ps =>
    cases he
    obtain ⟨h₁, h₂, h₃⟩ := wakeIf_frame (s := s) (some (.cond n)) q
    have hcode' := code_wakeIf (s := s) (t := s.cur c) (k := .waking n ps :: k) (some (.cond n)) q
    generalize hs' : Machine.goto (s.cur c) (.waking n ps :: k) (s.wakeIf (some (.cond n)) q) = s'
      at hcode'
    have hcur' : s'.cur = s.cur := hs' ▸ h₁
    have hchan' : s'.chan = s.chan := hs' ▸ h₂
    have hself : s'.code (s.cur c) = .waking n ps :: k := by rw [hcode', Function.update_self]
    have hothers : ∀ t, t ≠ s.cur c → s'.code t = s.code t := fun t ht => by
      rw [hcode', Function.update_of_ne ht]
    have hrests : Rests s s' := hs' ▸ rests_wakeIf (some (.cond n)) q _ _
    refine effect_stay hrun (fun t ht => Or.inl (hothers t ht)) hcur' hchan' (fun p hp => ?_)
      (fun m p h => ?_) (fun m hm => Or.inl ?_) hrests.sleeping hrests.awake
    · rw [← hp, hself]
      exact .plain (hplain p hp)
    · by_cases hmp : m = n ∧ p = q
      · right
        obtain ⟨rfl, rfl⟩ := hmp
        refine ⟨hlock, ?_⟩
        rintro ⟨hsl, hch⟩
        have hwoken : s'.state p = .runnable := by
          rw [← hs', Machine.wakeIf, if_pos ⟨hrests.sleeping p hsl, hchan' ▸ hch⟩]
          exact Function.update_self ..
        cases hwoken.symm.trans hsl
      · left
        obtain ⟨t, qs, hmem, hp⟩ := h
        by_cases ht : t = s.cur c
        · rw [ht, hcode] at hmem
          rcases List.mem_cons.mp hmem with h | h
          · cases h
            refine ⟨s.cur c, ps, by rw [hself]; exact List.mem_cons_self, ?_⟩
            rcases List.mem_cons.mp hp with rfl | hp
            · exact absurd ⟨rfl, rfl⟩ hmp
            · exact hp
          · exact ⟨s.cur c, qs, by rw [hself]; exact List.mem_cons_of_mem _ h, hp⟩
        · exact ⟨t, qs, by rw [hothers t ht]; exact hmem, hp⟩
    · have hc : s'.cond = s.cond := hs' ▸ h₃
      rw [← hc]
      exact hm

theorem effect_test (hg : Good guard s) (hw : Wakes guard s) {consume : Bool}
    (hcode : s.code (s.cur c) = .test n consume :: k)
    (he : s.exec guard c (s.cur c) ok k (.test n consume) = some s') : Effect guard c s s' := by
  simp only [Machine.exec] at he
  split at he <;> cases he
  · refine effect_ordinary hg hw hcode rfl
      (fun t ht => Or.inl (Function.update_of_ne ht ..)) (Function.update_self ..) rfl rfl
      (fun m hm => Or.inl ?_) (fun x hx => List.mem_cons_of_mem _ hx) (.same rfl)
      fun p _ h => .plain ⟨trivial, h⟩
    rename_i htrue
    by_cases hmn : m = n
    · exact hmn ▸ htrue
    · exact (Function.update_of_ne hmn ..).symm.trans hm
  · rename_i hfalse
    have hcond : s.cond n = false := by simpa using hfalse
    refine effect_ordinary hg hw hcode rfl
      (fun t ht => Or.inl (Function.update_of_ne ht ..)) (Function.update_self ..) rfl rfl
      (fun m hm => Or.inl hm)
      (fun x hx => List.mem_append_right _ (List.mem_cons_of_mem _ hx)) (.same rfl)
      fun p _ h => ?_
    -- the process holds `guard n`: the first stage, or the third if that is `ptable.lock`
    unfold sleep
    split
    · refine .third n (fun htrue => ?_) ⟨trivial, trivial, h⟩
      exact absurd (hcond.symm.trans htrue) (by simp)
    · rename_i hne
      exact .first n hcond hne ⟨trivial, trivial, trivial, trivial, h⟩

theorem effect_setCond (hg : Good guard s) (hw : Wakes guard s) {early : Bool}
    (hcode : s.code (s.cur c) = .setCond n early :: k)
    (he : s.exec guard c (s.cur c) ok k (.setCond n early) = some s') : Effect guard c s s' := by
  cases he
  have hself : (Machine.goto (s.cur c) (afterSet guard n early ++ k)
      { s with cond := Function.update s.cond n true }).code (s.cur c) =
      afterSet guard n early ++ k := Function.update_self ..
  refine effect_ordinary hg hw hcode rfl
    (fun t ht => Or.inl (Function.update_of_ne ht ..)) hself rfl rfl
    (fun m hm => ?_) (fun x hx => List.mem_append_right _ hx) (.same rfl) fun p _ h => ?_
  · by_cases hmn : m = n
    · -- from here on everybody is owed a wakeup
      right
      refine ⟨fun p => ⟨s.cur c, slots, ?_, List.mem_finRange p⟩, ?_⟩
      · rw [hself, hmn]
        refine List.mem_append_left _ ?_
        unfold afterSet
        split
        · split <;> simp
        · simp
      · rw [hcode, hmn]
        exact List.mem_cons_self
    · exact Or.inl ((Function.update_of_ne hmn ..).symm.trans hm)
  · refine .plain ?_
    unfold afterSet
    split
    · split
      · exact ⟨trivial, trivial, h⟩
      · exact ⟨trivial, trivial, trivial, trivial, h⟩
    · exact ⟨trivial, trivial, trivial, trivial, h⟩

/-- A lock changes hands. -/
theorem effect_locking (hg : Good guard s) (hcode : s.code (s.cur c) = st :: k)
    (hsched : st ≠ .sched) (hwaking : st.isWaking = false) {lk : Lock} {o : Option ι} {m : Nat}
    (hstage : ∀ p, s.cur c = .proc p → Stage guard (s.locking c k lk o m) p k) :
    Effect guard c s (s.locking c k lk o m) := by
  have hself : (s.locking c k lk o m).code (s.cur c) = k := Function.update_self ..
  have hothers : ∀ t, t ≠ s.cur c → (s.locking c k lk o m).code t = s.code t :=
    fun t ht => Function.update_of_ne ht ..
  refine effect_stay (fun p hp => hg.running hp ?_) (fun t ht => Or.inl (hothers t ht)) rfl rfl
    (fun p hp => ?_) (fun n p h => Or.inl (h.of (fun t ht => Or.inl (hothers t ht)) fun ps hmem => ?_))
    (fun _ h => Or.inl h) (fun _ h => h) fun _ h => h
  · rw [hcode]
    intro x hx
    cases hx
    exact hsched
  · rw [← hp, hself]
    exact hstage p hp
  · rw [hcode] at hmem
    rw [hself]
    rcases List.mem_cons.mp hmem with rfl | hmem
    · cases hwaking
    · exact hmem

theorem effect_acquire (hg : Good guard s) (hw : Wakes guard s) {lk : Lock}
    (hcode : s.code (s.cur c) = .acquire lk :: k)
    (he : s.exec guard c (s.cur c) ok k (.acquire lk) = some s') : Effect guard c s s' := by
  simp only [Machine.exec, Option.ite_none_right_eq_some, Option.some.injEq] at he
  obtain rfl : s.locking c k lk (some c) (s.ncli c + 1) = s' := he.2
  refine effect_locking hg hcode (by simp) rfl fun p hp => ?_
  have hold := hw.stage p
  rw [← hp, hcode] at hold
  cases hold with
  | plain h => exact .plain h.2
  | first m hcond hne h => exact .second m hcond h

theorem effect_release (hg : Good guard s) (hw : Wakes guard s) {lk : Lock}
    (hcode : s.code (s.cur c) = .release lk :: k)
    (he : s.exec guard c (s.cur c) ok k (.release lk) = some s') : Effect guard c s s' := by
  simp only [Machine.exec, Option.ite_none_right_eq_some, Option.some.injEq] at he
  obtain rfl : s.locking c k lk none (s.ncli c - 1) = s' := he.2
  refine effect_locking hg hcode (by simp) rfl fun p hp => ?_
  have hold := hw.stage p
  rw [← hp, hcode] at hold
  cases hold with
  | plain h => exact .plain h.2
  | second m hcond h =>
    refine .third m (fun htrue => ?_) h
    exact absurd (hcond.symm.trans htrue) (by simp)

/-- Right after `proc->chan` has been set. -/
theorem Tidy.after_setChan (h : Tidy true k) :
    Tidy false k ∨ ∃ k', k = .leave .sleeping :: k' ∧ Tidy false k' := by
  cases k with
  | nil => exact Or.inl trivial
  | cons x k =>
    by_cases hx : x = .leave .sleeping
    · subst hx
      exact Or.inr ⟨k, rfl, h.2⟩
    · refine Or.inl ⟨?_, h.2⟩
      have h₁ := h.1
      cases x with
      | leave y => cases y <;> trivial
      | setChan ch =>
        rcases ch with _ | ch
        · trivial
        · cases ch <;> exact h₁
      | _ => exact h₁

theorem effect_setChan (hg : Good guard s) (hw : Wakes guard s) {ch : Option Chan}
    (hcode : s.code (s.cur c) = .setChan ch :: k)
    (he : s.exec guard c (s.cur c) ok k (.setChan ch) = some s') : Effect guard c s s' := by
  obtain ⟨p, hp⟩ := hg.is_proc hcode rfl rfl
  simp only [Machine.exec, hg.proc_eq hp, Option.map_some, Option.some.injEq] at he
  have hrun : s.state p = .running := hg.running hp (by rw [hcode]; simp)
  have hchan : s'.chan = Function.update s.chan p ch := he ▸ rfl
  have hstate : s'.state = s.state := he ▸ rfl
  have hcond : s'.cond = s.cond := he ▸ rfl
  have hcur : s'.cur = s.cur := he ▸ rfl
  have hcode' : s'.code = Function.update s.code (s.cur c) k := he ▸ rfl
  have hself : s'.code (.proc p) = k := by rw [hcode', hp, Function.update_self]
  have hothers : ∀ t, t ≠ s.cur c → s'.code t = s.code t ∨ (s'.code t = forkret ∧ Calm (s.code t)) :=
    fun t ht => Or.inl (by rw [hcode', Function.update_of_ne ht])
  have howed : ∀ n q, Owed s n q → Owed s' n q := fun n q h => h.of hothers fun ps hmem => by
    rw [hcode] at hmem
    rw [hp, hself]
    rcases List.mem_cons.mp hmem with h | h
    · cases h
    · exact h
  have hold := hw.stage p
  rw [← hp, hcode] at hold
  have hother : ∀ q, q ≠ p → s'.chan q = s.chan q := fun q hq => by
    rw [hchan, Function.update_of_ne hq]
  refine ⟨hothers, fun q hq => ?_, fun q hq hparked => ?_, fun q c' _ hc' => by rw [hcur]; exact hc',
    fun n q h => Or.inl (howed n q h), fun n hn => Or.inl (hcond ▸ hn), fun q => ?_, fun q hq => ?_,
    fun q _ h => by rw [hstate]; exact h, fun q hq => ?_⟩
  · cases hp.symm.trans hq
    rw [hself]
    -- the channel is not a condition's, or it is the one of the third stage
    cases hold with
    | plain h =>
      cases ch with
      | none => exact .plain h.2
      | some ch =>
        rcases h.2.after_setChan with h' | ⟨k', rfl, h'⟩
        · exact .plain h'
        · refine .fourth (fun m hm _ => ?_) h'
          rw [hchan, Function.update_self, Option.some.injEq] at hm
          subst hm
          exact h.1.elim
    | third n hn h =>
      refine .fourth (fun m hm hm' => ?_) h
      rw [hchan, Function.update_self, Option.some.injEq, Chan.cond.injEq] at hm
      subst hm
      exact howed _ _ (hn (hcond ▸ hm'))
  · rw [← hcur] at hq
    exact absurd hq (hparked c)
  · rcases eq_or_ne q p with rfl | hne
    · exact Or.inr ⟨hp, by rw [hrun]; simp⟩
    · exact Or.inl (hother q hne)
  · rw [hstate] at hq
    exact Or.inl hq
  · cases hp.symm.trans hq
    rw [hstate]
    exact Or.inr (Or.inl hrun)

/-- The process gives up its state. -/
theorem effect_leave (hg : Good guard s) (hw : Wakes guard s) {x : ProcState}
    (hcode : s.code (s.cur c) = .leave x :: k)
    (he : s.exec guard c (s.cur c) ok k (.leave x) = some s') : Effect guard c s s' := by
  have hwf := hg.locks.wf (s.cur c)
  rw [hcode] at hwf
  obtain ⟨-, -, hcalm⟩ := hwf.ok
  obtain ⟨p, hp⟩ := hg.is_proc hcode rfl rfl
  simp only [Machine.exec, hg.proc_eq hp, Option.map_some, Option.some.injEq] at he
  have hstate : s'.state = Function.update s.state p x := he ▸ rfl
  have hchan : s'.chan = s.chan := he ▸ rfl
  have hcond : s'.cond = s.cond := he ▸ rfl
  have hcur : s'.cur = s.cur := he ▸ rfl
  have hcode' : s'.code = Function.update s.code (s.cur c) (.sched :: k) := he ▸ rfl
  have hself : s'.code (.proc p) = .sched :: k := by rw [hcode', hp, Function.update_self]
  have hothers : ∀ t, t ≠ s.cur c → s'.code t = s.code t ∨ (s'.code t = forkret ∧ Calm (s.code t)) :=
    fun t ht => Or.inl (by rw [hcode', Function.update_of_ne ht])
  have howed : ∀ n q, Owed s n q → Owed s' n q := fun n q h => h.of hothers fun ps hmem => by
    rw [hcode] at hmem
    rw [hp, hself]
    rcases List.mem_cons.mp hmem with h | h
    · cases h
    · exact List.mem_cons_of_mem _ h
  have hold := hw.stage p
  rw [← hp, hcode] at hold
  have htidy : Tidy false k := by
    cases hold with
    | plain h => exact h.2
    | fourth _ h => exact h
  refine ⟨hothers, fun q hq => ?_, fun q hq hparked => ?_, fun q c' _ hc' => by rw [hcur]; exact hc',
    fun n q h => Or.inl (howed n q h), fun n hn => Or.inl (hcond ▸ hn),
    fun q => Or.inl (by rw [hchan]), fun q hq => ?_, fun q hq h => ?_, fun q hq => ?_⟩
  · cases hp.symm.trans hq
    rw [hself]
    exact .plain ⟨trivial, htidy⟩
  · rw [← hcur] at hq
    exact absurd hq (hparked c)
  · rcases eq_or_ne q p with rfl | hne
    · -- a process that falls asleep is in the fourth stage
      refine Or.inr ⟨hp, fun n hn hn' => ?_⟩
      rw [hstate, Function.update_self] at hq
      subst hq
      cases hold with
      | plain h => cases h.1
      | fourth h _ => exact howed n q (h n (hchan ▸ hn) (hcond ▸ hn'))
    · rw [hstate, Function.update_of_ne hne] at hq
      exact Or.inl hq
  · have hne : q ≠ p := by
      rintro rfl
      exact hq hp
    rw [hstate, Function.update_of_ne hne]
    exact h
  · cases hp.symm.trans hq
    rcases hcalm with rfl | hcalm
    · rw [hstate, Function.update_self]
      exact Or.inr (Or.inr rfl)
    · rw [hself]
      exact Or.inl (hcalm.cons _ rfl)

/-- A CPU goes over to another thread. -/
theorem effect_switch (hcode : s.code (s.cur c) = st :: k) {t' : Thread ι}
    (hkeep : ∀ m ps, .waking m ps ∈ st :: k → .waking m ps ∈ k')
    (hself : ∀ p, s.cur c = .proc p → Tidy false k' ∧
      (Calm k' ∨ s.state p = .running ∨ s.state p = .runnable)) :
    Effect guard c s (s.switch c t' k') := by
  have hcode' : (s.switch c t' k').code (s.cur c) = k' := Function.update_self ..
  have hothers : ∀ t, t ≠ s.cur c → (s.switch c t' k').code t = s.code t ∨
      ((s.switch c t' k').code t = forkret ∧ Calm (s.code t)) :=
    fun t ht => Or.inl (Function.update_of_ne ht ..)
  refine ⟨hothers, fun p hp => ?_, fun p hp _ => ?_, fun p c' hne hc' => ?_,
    fun n p h => Or.inl (h.of hothers fun ps hmem => ?_), fun _ h => Or.inl h, fun _ => Or.inl rfl,
    fun _ h => Or.inl h, fun _ _ h => h, fun p hp => ?_⟩
  · rw [← hp, hcode']
    exact .plain (hself p hp).1
  · rw [← hp, hcode']
    exact (hself p hp).1
  · exact (Function.update_of_ne hne ..).trans hc'
  · rw [hcode']
    exact hkeep n ps (hcode ▸ hmem)
  · rw [← hp, hcode']
    exact (hself p hp).2

theorem effect_sched (hw : Wakes guard s)
    (hcode : s.code (s.cur c) = .sched :: k)
    (he : s.exec guard c (s.cur c) ok k .sched = some s') : Effect guard c s s' := by
  simp only [Machine.exec, Option.ite_none_right_eq_some, Option.some.injEq] at he
  obtain rfl : s.switch c (.scheduler c) k = s' := he.2
  refine effect_switch hcode (fun m ps hmem => ?_) fun p hp => ?_
  · rcases List.mem_cons.mp hmem with h | h
    · cases h
    · exact h
  · have hold := hw.stage p
    have hawake := hw.awake p
    rw [← hp, hcode] at hold hawake
    refine ⟨(hold.plain_of rfl).2, hawake.imp_left fun h x hx => h x (List.mem_cons_of_mem _ hx)⟩

theorem effect_swtch (hg : Good guard s) {q : Slot} (hcode : s.code (s.cur c) = .swtch q :: k)
    (he : s.exec guard c (s.cur c) ok k (.swtch q) = some s') : Effect guard c s s' := by
  obtain rfl : s.switch c (.proc q) (.back :: k) = s' := Option.some.inj he
  have hscheduler := hg.is_scheduler hcode rfl
  refine effect_switch hcode (fun m ps hmem => ?_) fun p hp => ?_
  · rcases List.mem_cons.mp hmem with h | h
    · cases h
    · exact List.mem_cons_of_mem _ h
  · cases hscheduler.symm.trans hp

/-- The new process starts in `forkret`; before, it had nothing to do. -/
theorem effect_kalloc (hg : Good guard s) (hw : Wakes guard s) {kind : Kind} {np : Slot}
    (hcode : s.code (s.cur c) = .kalloc kind np :: k)
    (he : s.exec guard c (s.cur c) ok k (.kalloc kind np) = some s') : Effect guard c s s' := by
  have hembryo : s.state np = .embryo := by
    refine hg.makes.embryo (s.cur c) np ?_
    rw [hcode]
    exact List.mem_cons_self
  simp only [Machine.exec] at he
  split at he <;> cases he
  · refine effect_ordinary hg hw hcode rfl (fun t ht => ?_) (Function.update_self ..) rfl rfl
      (fun _ h => Or.inl h) (fun _ h => List.mem_cons_of_mem _ h) (.same rfl) fun p _ h => .plain ?_
    · have hup : ∀ k', (Machine.goto (s.cur c) k' (s.build np)).code t =
          Function.update s.code (.proc np) forkret t := fun _ => Function.update_of_ne ht ..
      by_cases htn : t = .proc np
      · refine Or.inr ⟨(hup _).trans (by rw [htn, Function.update_self]), ?_⟩
        rw [htn]
        exact (hw.awake np).resolve_right (by rw [hembryo]; simp)
      · exact Or.inl ((hup _).trans (Function.update_of_ne htn ..))
    · cases kind <;> exact ⟨trivial, h⟩
  · exact effect_drop hg hw hcode rfl
      ⟨.update rfl (by simp) (Or.inr (by rw [hembryo]; simp)), rfl, rfl, rfl⟩ rfl

/-- **What each statement does.** -/
theorem effect_exec (hg : Good guard s) (hw : Wakes guard s) (hcode : s.code (s.cur c) = st :: k)
    (he : s.exec guard c (s.cur c) ok k st = some s') : Effect guard c s s' := by
  cases st with
  | acquire lk => exact effect_acquire hg hw hcode he
  | release lk => exact effect_release hg hw hcode he
  | setChan ch => exact effect_setChan hg hw hcode he
  | leave x => exact effect_leave hg hw hcode he
  | sched => exact effect_sched hw hcode he
  | zombieExit => cases he
  | wakeup1 ch ps => exact effect_wakeup1 hg hw hcode he
  | test n consume => exact effect_test hg hw hcode he
  | setCond n early => exact effect_setCond hg hw hcode he
  | waking n ps => exact effect_waking hg hw hcode he
  | wakeParent =>
    obtain ⟨p, -, rfl⟩ := Option.map_eq_some_iff.mp he
    exact effect_replace hg hw hcode rfl rfl ⟨.same rfl, rfl, rfl, rfl⟩ rfl
  | reparent ps =>
    cases ps with
    | nil =>
      cases he
      exact effect_drop hg hw hcode rfl ⟨.same rfl, rfl, rfl, rfl⟩ rfl
    | cons q ps =>
      obtain ⟨p, -, rfl⟩ := Option.map_eq_some_iff.mp he
      split
      · split
        · exact effect_goto (l := [_, _]) hg hw hcode rfl ⟨.same rfl, rfl, rfl, rfl⟩ rfl
            fun h => ⟨trivial, trivial, h⟩
        · exact effect_replace hg hw hcode rfl rfl ⟨.same rfl, rfl, rfl, rfl⟩ rfl
      · exact effect_replace hg hw hcode rfl rfl ⟨.same rfl, rfl, rfl, rfl⟩ rfl
  | scan ps havekids =>
    cases ps with
    | nil =>
      obtain ⟨p, -, rfl⟩ := Option.map_eq_some_iff.mp he
      split
      · exact effect_drop hg hw hcode rfl ⟨.same rfl, rfl, rfl, rfl⟩ rfl
      · -- `sleep(proc, &ptable.lock)`, which is not on a condition
        exact effect_goto (l := [_, _, _, _]) hg hw hcode rfl ⟨.same rfl, rfl, rfl, rfl⟩ rfl
          fun h => ⟨trivial, rfl, trivial, trivial, h⟩
    | cons q ps =>
      obtain ⟨p, -, rfl⟩ := Option.map_eq_some_iff.mp he
      split
      · split
        · rename_i hq
          have hrests : Rests s (Machine.goto (s.cur c) k (s.reap q)) :=
            .update rfl (by simp) (Or.inr (by rw [hq]; simp))
          exact effect_drop hg hw hcode rfl ⟨hrests, rfl, rfl, rfl⟩ rfl
        · exact effect_replace hg hw hcode rfl rfl ⟨.same rfl, rfl, rfl, rfl⟩ rfl
      · exact effect_replace hg hw hcode rfl rfl ⟨.same rfl, rfl, rfl, rfl⟩ rfl
  | kill pid ps =>
    cases ps with
    | nil =>
      cases he
      exact effect_drop hg hw hcode rfl ⟨.same rfl, rfl, rfl, rfl⟩ rfl
    | cons q ps =>
      simp only [Machine.exec] at he
      split at he <;> cases he
      · have hrests : Rests s (Machine.goto (s.cur c) k (s.markKilled q)) := by
          by_cases hq : s.state q = .sleeping
          · exact .update (by simp [Machine.goto, Machine.markKilled, hq]; rfl) (by simp)
              (Or.inl (Or.inr rfl))
          · exact .same (by simp [Machine.goto, Machine.markKilled, hq])
        exact effect_drop hg hw hcode rfl ⟨hrests, rfl, rfl, rfl⟩ rfl
      · exact effect_replace hg hw hcode rfl rfl ⟨.same rfl, rfl, rfl, rfl⟩ rfl
  | alloc kind ps =>
    cases ps with
    | nil =>
      cases he
      exact effect_drop hg hw hcode rfl ⟨.same rfl, rfl, rfl, rfl⟩ rfl
    | cons q ps =>
      have hok : k = [.release .ptable] := (hcode ▸ hg.locks.wf (s.cur c)).ok
      simp only [Machine.exec] at he
      split at he <;> cases he
      · rename_i hq
        refine effect_ordinary hg hw hcode rfl (fun t ht => Or.inl (Function.update_of_ne ht ..))
          (Function.update_self ..) rfl rfl (fun _ h => Or.inl h)
          (fun _ h => List.mem_append_left _ h)
          (.update rfl (by simp) (Or.inr (by rw [hq]; simp))) fun _ _ _ => .plain ?_
        rw [hok]
        exact ⟨trivial, trivial, trivial⟩
      · exact effect_replace hg hw hcode rfl rfl ⟨.same rfl, rfl, rfl, rfl⟩ rfl
  | kalloc kind np => exact effect_kalloc hg hw hcode he
  | copyuvm np =>
    simp only [Machine.exec] at he
    split at he
    · obtain ⟨p, -, rfl⟩ := Option.map_eq_some_iff.mp he
      exact effect_replace hg hw hcode rfl rfl ⟨.same rfl, rfl, rfl, rfl⟩ rfl
    · cases he
      have hembryo : s.state np = .embryo := hg.makes.embryo (s.cur c) np
        (by rw [hcode]; exact List.mem_cons_self)
      have hrests : Rests s (Machine.goto (s.cur c) k (s.giveUp np)) :=
        .update rfl (by simp) (Or.inr (by rw [hembryo]; simp))
      exact effect_drop hg hw hcode rfl ⟨hrests, rfl, rfl, rfl⟩ rfl
  | ready np =>
    cases he
    have hrests : Rests s (Machine.goto (s.cur c) k (s.setState np .runnable)) :=
      .update rfl (by simp) (Or.inl (Or.inr rfl))
    exact effect_drop hg hw hcode rfl ⟨hrests, rfl, rfl, rfl⟩ rfl
  | checkArgs np =>
    simp only [Machine.exec] at he
    split at he
    · obtain ⟨p, -, rfl⟩ := Option.map_eq_some_iff.mp he
      exact effect_replace hg hw hcode rfl rfl ⟨.same rfl, rfl, rfl, rfl⟩ rfl
    · cases he
      exact effect_drop hg hw hcode rfl ⟨.same rfl, rfl, rfl, rfl⟩ rfl
  | climb np pp =>
    simp only [Machine.exec] at he
    split at he
    · obtain ⟨q, -, rfl⟩ := Option.map_eq_some_iff.mp he
      exact effect_replace hg hw hcode rfl rfl ⟨.same rfl, rfl, rfl, rfl⟩ rfl
    · cases he
      exact effect_replace hg hw hcode rfl rfl ⟨.same rfl, rfl, rfl, rfl⟩ rfl
  | copyout np =>
    simp only [Machine.exec] at he
    split at he <;> cases he
    · exact effect_goto (l := [_, _, _]) hg hw hcode rfl ⟨.same rfl, rfl, rfl, rfl⟩ rfl
        fun h => ⟨trivial, trivial, trivial, h⟩
    · exact effect_drop hg hw hcode rfl ⟨.same rfl, rfl, rfl, rfl⟩ rfl
  | loop =>
    cases he
    exact effect_goto (l := round) hg hw hcode rfl ⟨.same rfl, rfl, rfl, rfl⟩ rfl
      fun h => ⟨trivial, trivial, trivial, trivial, h⟩
  | pick ps =>
    cases ps with
    | nil =>
      cases he
      exact effect_drop hg hw hcode rfl ⟨.same rfl, rfl, rfl, rfl⟩ rfl
    | cons p ps =>
      simp only [Machine.exec] at he
      split at he <;> cases he
      · exact effect_goto (l := [_, _]) hg hw hcode rfl ⟨.same rfl, rfl, rfl, rfl⟩ rfl
          fun h => ⟨trivial, trivial, h⟩
      · exact effect_replace hg hw hcode rfl rfl ⟨.same rfl, rfl, rfl, rfl⟩ rfl
  | mark p =>
    cases he
    have hrests : Rests s (Machine.goto (s.cur c) (.swtch p :: k) (s.setState p .running)) :=
      .update rfl (by simp) (Or.inl (Or.inl rfl))
    exact effect_replace hg hw hcode rfl rfl ⟨hrests, rfl, rfl, rfl⟩ rfl
  | swtch p => exact effect_swtch hg hcode he
  | back =>
    cases he
    exact effect_drop hg hw hcode rfl ⟨.same rfl, rfl, rfl, rfl⟩ rfl

/-! ## 4. Calls, interrupts and whole runs -/

/-- Code put in front of a thread that holds no lock. -/
theorem effect_front (hg : Good guard s) (hw : Wakes guard s)
    (hk : held guard (s.code (s.cur c)) = []) {a : List Stmt}
    (htidy : Tidy false (s.code (s.cur c)) → Tidy false (a ++ s.code (s.cur c))) :
    Effect guard c s (s.goto (s.cur c) (a ++ s.code (s.cur c))) := by
  have hself : (s.goto (s.cur c) (a ++ s.code (s.cur c))).code (s.cur c) =
      a ++ s.code (s.cur c) := Function.update_self ..
  have hothers : ∀ t, t ≠ s.cur c → (s.goto (s.cur c) (a ++ s.code (s.cur c))).code t = s.code t ∨
      ((s.goto (s.cur c) (a ++ s.code (s.cur c))).code t = forkret ∧ Calm (s.code t)) :=
    fun t ht => Or.inl (Function.update_of_ne ht ..)
  have hwf := hg.locks.wf (s.cur c)
  refine effect_stay (fun p hp => hg.running hp fun x hx => ?_) hothers rfl rfl (fun p hp => ?_)
    (fun n p h => Or.inl (h.of hothers fun ps hmem => ?_)) (fun _ h => Or.inl h) (fun _ h => h)
    fun _ h => h
  · rintro rfl
    cases (hwf.sound hk).noHead _ (List.mem_of_mem_head? hx)
  · have hold := hw.stage p
    rw [← hp] at hold
    rw [← hp, hself]
    exact .plain (htidy (hold.tidy hwf hk))
  · rw [hself]
    exact List.mem_append_right _ hmem

theorem tidy_sleep (h : Tidy false k) {ch : Chan} (hch : ∀ n, ch ≠ .cond n) (lk : Lock) :
    Tidy false (sleep ch lk ++ k) := by
  have hset : (Stmt.setChan (some ch)).Tidy false := by
    cases ch <;> first | trivial | exact absurd rfl (hch _)
  unfold sleep
  split
  · exact ⟨hset, rfl, trivial, h⟩
  · exact ⟨trivial, trivial, hset, rfl, trivial, trivial, trivial, h⟩

theorem tidy_call (x : Call) (p : Slot) : Tidy false (x.code guard p) := by
  cases x with
  | tsleep => exact ⟨trivial, tidy_sleep tidy_forkret (by simp) _⟩
  | sleep m lk =>
    exact ⟨trivial, tidy_sleep (k := [.release lk]) ⟨trivial, trivial⟩ (by simp) _⟩
  | waiter n consume | waker n early => exact ⟨trivial, trivial, trivial⟩
  | exit => exact ⟨trivial, trivial, trivial, trivial, trivial, trivial⟩
  | texit => exact ⟨trivial, trivial, trivial, trivial, trivial⟩
  | _ => exact ⟨trivial, trivial, trivial, trivial⟩

/-- **Every step keeps the invariant.** -/
theorem Wakes.step (hw : Wakes guard s) (hg : Good guard s) {a : Act ι}
    (h : step guard s a = some s') : Wakes guard s' := by
  cases a with
  | next c ok =>
    simp only [Sched.step] at h
    split at h
    · cases h
    · rename_i st k hcode
      exact hw.step_of hg (effect_exec hg hw hcode h)
  | call c x =>
    simp only [Sched.step] at h
    split at h
    · cases h
    · rename_i p hp
      simp only [Option.ite_none_right_eq_some, Option.some.injEq] at h
      obtain ⟨⟨hnil, -⟩, rfl⟩ := h
      have hnil' : s.code (s.cur c) = [] := by rw [hp, hnil]
      have heffect := effect_front (c := c) (a := x.code guard p) hg hw (by rw [hnil']; rfl)
        (by rw [hnil', List.append_nil]; exact fun _ => tidy_call x p)
      rw [hnil', hp, List.append_nil] at heffect
      exact hw.step_of hg heffect
  | timer c =>
    simp only [Sched.step, Option.ite_none_right_eq_some, Option.some.injEq] at h
    obtain ⟨⟨hncli, -⟩, rfl⟩ := h
    exact hw.step_of hg (effect_front hg hw (hg.held_nil hncli)
      fun h => ⟨trivial, trivial, trivial, h⟩)
  | interrupt c x =>
    simp only [Sched.step, Option.ite_none_right_eq_some, Option.some.injEq] at h
    obtain ⟨hncli, rfl⟩ := h
    refine hw.step_of hg (effect_front hg hw (hg.held_nil hncli) fun h => ?_)
    cases x with
    | wakeup ch => exact ⟨trivial, trivial, trivial, h⟩
    | waker n early => exact ⟨trivial, trivial, h⟩

theorem wakes_boot (guard : Nat → Lock) (ι : Type) : Wakes guard (boot ι) where
  stage p := .plain tidy_forkret
  parked p _ := tidy_forkret
  asleep p n h := by
    simp only [boot] at h
    split at h <;> cases h
  awake p := Or.inl calm_forkret

/-- **No wakeup is lost.**  For any number of CPUs and any assignment of locks to conditions, in
every run: if a process is SLEEPING on the channel of condition `n` and the condition is true, then
some thread is between setting the condition and the end of its `wakeup`, and the loop of that
`wakeup` has yet to come to the process; that thread is running, or can run. -/
theorem no_lost_wakeup (guard : Nat → Lock) (acts : List (Act ι))
    (h : Runs.run (step guard) (boot ι) acts = some s) (p : Slot) (n : Nat)
    (hsleep : s.state p = .sleeping) (hchan : s.chan p = some (.cond n)) (hcond : s.cond n = true) :
    ∃ t ps, .waking n ps ∈ s.code t ∧ p ∈ ps ∧
      ∀ q, t = .proc q → s.state q = .running ∨ s.state q = .runnable := by
  have hboth : Good guard s ∧ Wakes guard s :=
    Runs.run_always (P := fun s => Good guard s ∧ Wakes guard s)
      (fun _ _ _ hi he => ⟨hi.1.step he, hi.2.step hi.1 he⟩) acts _ _
      ⟨good_boot guard ι, wakes_boot guard ι⟩ h
  obtain ⟨t, ps, hmem, hp⟩ := hboth.2.asleep p n hsleep hchan hcond
  refine ⟨t, ps, hmem, hp, ?_⟩
  rintro q rfl
  rcases hboth.2.awake q with hcalm | hawake
  · cases hcalm _ hmem
  · exact hawake

/-- `init` waits for a condition; an interrupt on the other CPU makes it true, and has not come to the
`wakeup`. -/
def setWhileAsleep : List (Act Bool) :=
  let go (c : Bool) (n : Nat) := List.replicate n (Act.next c true)
  go true 6 ++ [.call true (.waiter 0 false)] ++ go true 7 ++
    [.interrupt false (.waker 0 false)] ++ go false 2

theorem wakeup_owed_in_setWhileAsleep :
    ∃ s, Runs.run (step .other) (boot Bool) setWhileAsleep = some s ∧ s.state 0 = .sleeping ∧
      ∃ t ps, .waking 0 ps ∈ s.code t ∧ (0 : Slot) ∈ ps ∧
        ∀ q, t = .proc q → s.state q = .running ∨ s.state q = .runnable := by
  have hrun : (Runs.run (step .other) (boot Bool) setWhileAsleep).any (fun s =>
      s.state 0 = .sleeping ∧ s.chan 0 = some (.cond 0) ∧ s.cond 0 = true) = true := by
    decide +kernel
  obtain ⟨s, hs, hfacts⟩ := (Option.any_eq_true _ _).mp hrun
  obtain ⟨hsleep, hchan, hcond⟩ := of_decide_eq_true hfacts
  exact ⟨s, hs, hsleep, no_lost_wakeup .other setWhileAsleep hs 0 0 hsleep hchan hcond⟩

end Exec

end Xv6.Sched
