/-
# Every statement is a move of the abstract machine

The lemmas `moves_...`, one for each statement of `Xv6.Sched.Machine`, in the order in which the
functions of proc.c use them: locks and the switch away from a process, the loops over the table,
sleeping on a condition, `wait`, the making of a process, and the scheduler.  `moves_exec` puts them
together.
-/
import Xv6.Sched.Refines

namespace Xv6.Sched

open Xv6.Ptable (Slot ProcState)
open Xv6.Cpus (Away Phase)

variable {ι : Type} [DecidableEq ι] {guard : Nat → Lock} {s s' : Machine ι} {c : ι} {t : Thread ι}
  {st : Stmt} {k k' : List Stmt} {ok : Bool}

/-! ## 1. Locks, and the switch away from a process -/

theorem moves_acquire (hg : Good guard s) {lk : Lock} (hcode : s.code (s.cur c) = .acquire lk :: k)
    (he : s.exec guard c (s.cur c) ok k (.acquire lk) = some s') : Moves guard s s' := by
  simp only [Machine.exec, Option.ite_none_right_eq_some, Option.some.injEq] at he
  obtain ⟨hfree, rfl⟩ := he
  have hruns := (hcode ▸ hg.locks.runs (s.cur c)).tail
  refine hg.locking hcode rfl rfl (hg.locks.acquire hcode hfree hruns) fun hlk => ?_
  rw [hlk] at hfree
  exact .acquire c hfree

theorem moves_release (hg : Good guard s) {lk : Lock} (hcode : s.code (s.cur c) = .release lk :: k)
    (he : s.exec guard c (s.cur c) ok k (.release lk) = some s') : Moves guard s s' := by
  simp only [Machine.exec, Option.ite_none_right_eq_some, Option.some.injEq] at he
  obtain ⟨hheld, rfl⟩ := he
  have hruns := (hcode ▸ hg.locks.runs (s.cur c)).tail
  refine hg.locking hcode rfl rfl (hg.locks.release hcode hruns) fun hlk => ?_
  rw [hlk] at hheld
  exact .release c (plain_of_code hcode rfl) hheld

/-- The process gives up its state. -/
theorem moves_leave (hg : Good guard s) {x : ProcState} (hcode : s.code (s.cur c) = .leave x :: k)
    (he : s.exec guard c (s.cur c) ok k (.leave x) = some s') : Moves guard s s' := by
  have hwf := hg.locks.wf (s.cur c)
  have hruns := hg.locks.runs (s.cur c)
  rw [hcode] at hwf hruns
  obtain ⟨haway, hheld, -⟩ := hwf.ok
  obtain ⟨p, hp⟩ := hg.is_proc hcode rfl rfl
  have hlock := hg.has_lock hcode (show Lock.ptable ∈ held guard k by rw [hheld]; simp)
  have hphase : s.abs.phase c = .on p := by
    show phase (s.cur c) (s.code (s.cur c)) = _
    rw [hcode, hp]
    rfl
  have hrun : s.state p = .running := by
    have hs := hg.cpus.stands c
    rw [hphase] at hs
    exact hs.2
  simp only [Machine.exec, hg.proc_eq hp, Option.map_some, Option.some.injEq] at he
  subst he
  have hothers : ∀ t, t ≠ s.cur c →
      (Machine.goto (s.cur c) (.sched :: k) (s.setState p x)).code t = s.code t :=
    fun t ht => Function.update_of_ne ht ..
  have hself : (Machine.goto (s.cur c) (.sched :: k) (s.setState p x)).code (s.cur c) = .sched :: k :=
    Function.update_self ..
  refine ⟨hg.locks.goto rfl rfl rfl hself (fun t ht => Or.inl (hothers t ht))
    ⟨hheld, hwf.noHead, hwf.tail⟩ (hruns.tail.cons (hruns.head.of rfl rfl (Or.inr rfl)))
    (by rw [hcode]; rfl), hg.makes.of hothers ?_ ?_ (fun np hnp => ?_) (fun _ _ h => h), ?_⟩
  · rw [hself, hcode]
    exact fun _ h => h
  · rw [hself, hcode]
    exact fun _ h => h
  · have hne : np ≠ p := by
      rintro rfl
      rw [hrun] at hnp
      cases hnp
    exact (Function.update_of_ne hne ..).trans hnp
  · have hcur : (Machine.goto (s.cur c) (.sched :: k) (s.setState p x)).cur = s.cur := rfl
    rw [abs_goto hcur hself fun c' hne => hothers _ (hg.locks.cur_ne hne), hp]
    exact Or.inr (.leave c p x hphase hlock haway)

/-- The process leaves its stack. -/
theorem moves_sched (hg : Good guard s) (hcode : s.code (s.cur c) = .sched :: k)
    (he : s.exec guard c (s.cur c) ok k .sched = some s') : Moves guard s s' := by
  obtain ⟨p, hp⟩ := hg.is_proc hcode rfl rfl
  have hcode' : s.code (.proc p) = .sched :: k := hp ▸ hcode
  obtain ⟨k₀, hk₀⟩ := hg.locks.parked c p hp
  simp only [Machine.exec, Option.ite_none_right_eq_some, Option.some.injEq] at he
  obtain rfl : s.switch c (.scheduler c) k = s' := he.2
  have hothers : ∀ t, t ≠ s.cur c → (s.switch c (.scheduler c) k).code t = s.code t :=
    fun t ht => Function.update_of_ne ht ..
  have hself : (s.switch c (.scheduler c) k).code (s.cur c) = k := Function.update_self ..
  refine ⟨hg.locks.exit hp hcode', hg.makes.of hothers ?_ ?_ (fun _ h => h) (fun _ _ h => h), ?_⟩
  · rw [hself, hcode]
    exact fun _ h => h
  · rw [hself, hcode]
    exact fun _ h => h
  · have habs : (s.switch c (.scheduler c) k).abs =
        { s.abs with phase := Function.update s.abs.phase c .back } := by
      unfold Machine.abs
      congr 1
      funext c'
      show phase (Function.update s.cur c (.scheduler c) c') ((s.switch c (.scheduler c) k).code
        (Function.update s.cur c (.scheduler c) c')) = _
      rcases eq_or_ne c' c with rfl | hne
      · rw [Function.update_self, Function.update_self, hothers _ (by rw [hp]; simp), hk₀]
        rfl
      · rw [Function.update_of_ne hne, Function.update_of_ne hne,
          hothers _ (hg.locks.cur_ne hne)]
    have hphase : s.abs.phase c = .off p := by
      show phase (s.cur c) (s.code (s.cur c)) = _
      rw [hcode, hp]
      rfl
    rw [habs]
    exact Or.inr (.exit c p hphase)

/-! ## 2. The loops over the table -/

theorem moves_wakeup1 (hg : Good guard s) {ch : Option Chan} {ps : List Slot}
    (hcode : s.code (s.cur c) = .wakeup1 ch ps :: k)
    (he : s.exec guard c (s.cur c) ok k (.wakeup1 ch ps) = some s') : Moves guard s s' := by
  have hok : Lock.ptable ∈ held guard k := (hcode ▸ hg.locks.wf (s.cur c)).ok
  have hadm := (hcode ▸ hg.locks.runs (s.cur c)).head
  cases ps with
  | nil =>
    cases he
    exact hg.drop hcode rfl mild_goto rfl rfl
  | cons q ps =>
    cases he
    exact hg.replace hcode rfl rfl (mild_wakeIf (hg.has_lock hcode hok) ch q)
      (code_wakeIf ch q) hok (hadm.of rfl rfl (Or.inl rfl)) rfl rfl rfl

theorem moves_waking (hg : Good guard s) {n : Nat} {ps : List Slot}
    (hcode : s.code (s.cur c) = .waking n ps :: k)
    (he : s.exec guard c (s.cur c) ok k (.waking n ps) = some s') : Moves guard s s' := by
  have hok : Lock.ptable ∈ held guard k := (hcode ▸ hg.locks.wf (s.cur c)).ok
  have hadm := (hcode ▸ hg.locks.runs (s.cur c)).head
  cases ps with
  | nil =>
    cases he
    exact hg.drop hcode rfl mild_goto rfl rfl
  | cons q ps =>
    cases he
    exact hg.replace hcode rfl rfl (mild_wakeIf (hg.has_lock hcode hok) _ q)
      (code_wakeIf _ q) hok (hadm.of rfl rfl (Or.inl rfl)) rfl rfl rfl

theorem moves_kill (hg : Good guard s) {pid : Nat} {ps : List Slot}
    (hcode : s.code (s.cur c) = .kill pid ps :: k)
    (he : s.exec guard c (s.cur c) ok k (.kill pid ps) = some s') : Moves guard s s' := by
  have hok : Lock.ptable ∈ held guard k := (hcode ▸ hg.locks.wf (s.cur c)).ok
  have hadm := (hcode ▸ hg.locks.runs (s.cur c)).head
  cases ps with
  | nil =>
    cases he
    exact hg.drop hcode rfl mild_goto rfl rfl
  | cons q ps =>
    simp only [Machine.exec] at he
    split at he <;> cases he
    · refine hg.drop hcode rfl ⟨rfl, rfl, rfl, rfl, rfl, ?_⟩ rfl rfl
      by_cases hq : s.state q = .sleeping
      · exact Or.inr ⟨hg.has_lock hcode hok, q, hq, by simp [Machine.goto, Machine.markKilled, hq]⟩
      · exact Or.inl (by simp [Machine.goto, Machine.markKilled, hq])
    · exact hg.replace hcode rfl rfl mild_goto rfl hok (hadm.of rfl rfl (Or.inr rfl)) rfl rfl rfl

theorem moves_setChan (hg : Good guard s) {ch : Option Chan}
    (hcode : s.code (s.cur c) = .setChan ch :: k)
    (he : s.exec guard c (s.cur c) ok k (.setChan ch) = some s') : Moves guard s s' := by
  simp only [Machine.exec, Option.map_eq_some_iff] at he
  obtain ⟨p, -, rfl⟩ := he
  exact hg.drop hcode rfl ⟨rfl, rfl, rfl, rfl, rfl, Or.inl rfl⟩ rfl rfl

theorem moves_wakeParent (hg : Good guard s) (hcode : s.code (s.cur c) = .wakeParent :: k)
    (he : s.exec guard c (s.cur c) ok k .wakeParent = some s') : Moves guard s s' := by
  have hok : Lock.ptable ∈ held guard k := (hcode ▸ hg.locks.wf (s.cur c)).ok
  have hadm := (hcode ▸ hg.locks.runs (s.cur c)).head
  simp only [Machine.exec, Option.map_eq_some_iff] at he
  obtain ⟨p, -, rfl⟩ := he
  exact hg.replace hcode rfl rfl mild_goto rfl hok (hadm.of rfl rfl (Or.inl rfl)) rfl rfl rfl

theorem moves_reparent (hg : Good guard s) {ps : List Slot}
    (hcode : s.code (s.cur c) = .reparent ps :: k)
    (he : s.exec guard c (s.cur c) ok k (.reparent ps) = some s') : Moves guard s s' := by
  have hwf := hg.locks.wf (s.cur c)
  have hruns := hg.locks.runs (s.cur c)
  rw [hcode] at hwf hruns
  have hok : Lock.ptable ∈ held guard k := hwf.ok
  have hadm := hruns.head
  cases ps with
  | nil =>
    cases he
    exact hg.drop hcode rfl mild_goto rfl rfl
  | cons q ps =>
    simp only [Machine.exec, Option.map_eq_some_iff] at he
    obtain ⟨p, -, he⟩ := he
    have hgo : ∀ m : Machine ι, Mild c s m →
        m.code = Function.update s.code (s.cur c) (.reparent ps :: k) → Moves guard s m :=
      fun m hm hc =>
        hg.replace hcode rfl rfl hm hc hok (hadm.of rfl rfl (Or.inr rfl)) rfl rfl rfl
    split at he
    · split at he
      · subst he
        have hk : Sound guard (.reparent ps :: k) := hwf.sound_tail.cons (.reparent ps) rfl hok
        have hadm' : (s.cur c).Admits (.reparent ps) := hadm.of rfl rfl (Or.inr rfl)
        have hrk := hruns.tail.cons hadm'
        exact hg.quiet hcode rfl ⟨rfl, rfl, rfl, rfl, rfl, Or.inl rfl⟩ rfl
          (hk.cons (.wakeup1 _ _) rfl hok) (hrk.cons (hadm.of rfl rfl (Or.inl rfl))) rfl
          (fun _ h => h) fun _ h => h
      · subst he
        exact hgo _ ⟨rfl, rfl, rfl, rfl, rfl, Or.inl rfl⟩ rfl
    · subst he
      exact hgo _ mild_goto rfl

/-! ## 3. Conditions -/

theorem making_append (k k' : List Stmt) : making (k ++ k') = making k ++ making k' :=
  List.filterMap_append

theorem built_append (k k' : List Stmt) : built (k ++ k') = built k ++ built k' :=
  List.filterMap_append

theorem making_sleep (ch : Chan) (lk : Lock) : making (sleep ch lk) = [] := by
  unfold sleep
  split <;> rfl

theorem built_sleep (ch : Chan) (lk : Lock) : built (sleep ch lk) = [] := by
  unfold sleep
  split <;> rfl

/-- A statement that puts the process to sleep, to be executed again. -/
theorem Good.sleeps (hg : Good guard s) (hcode : s.code (s.cur c) = st :: k) {st' : Stmt} {lk : Lock}
    {ch : Chan} (hst : st.headOnly = false) (hst' : st'.headOnly = false) (hok : st'.Ok guard k)
    (hchild : st'.child = none) (hs : st.scheduling = false ∧ st'.scheduling = false)
    (hc : st.common = false) (hbefore : held guard (st :: k) = [lk])
    (hbefore' : held guard (st' :: k) = [lk])
    (hcalm : Calm (st' :: k)) : Moves guard s (s.goto (s.cur c) (sleep ch lk ++ st' :: k)) := by
  obtain ⟨p, hp⟩ := hg.is_proc hcode hs.1 hc
  have hwf := hg.locks.wf (s.cur c)
  have hruns := hg.locks.runs (s.cur c)
  rw [hcode] at hwf hruns
  have hbuilt : st'.built = none := by cases st' <;> first | rfl | cases hchild
  have hk := (hwf.sound_tail.cons st' hst' hok).sleep hbefore' hcalm ch
  refine hg.quiet hcode hst mild_goto rfl hk ?_ ((held_sleep ch hbefore').trans hbefore.symm) ?_ ?_
  · rw [hp] at hruns ⊢
    exact (runs_sleep p ch lk).append (hruns.tail.cons hs.2)
  · rw [making_append, making_sleep]
    show ∀ np ∈ making (st' :: k), _
    rw [making, List.filterMap_cons_none hchild]
    exact fun np hnp => ((List.sublist_cons_self ..).filterMap _).subset hnp
  · rw [built_append, built_sleep]
    show ∀ np ∈ built (st' :: k), _
    rw [built, List.filterMap_cons_none hbuilt]
    exact fun np hnp => ((List.sublist_cons_self ..).filterMap _).subset hnp

theorem moves_test (hg : Good guard s) {n : Nat} {consume : Bool}
    (hcode : s.code (s.cur c) = .test n consume :: k)
    (he : s.exec guard c (s.cur c) ok k (.test n consume) = some s') : Moves guard s s' := by
  have hok : (Stmt.test n consume).Ok guard k := (hcode ▸ hg.locks.wf (s.cur c)).ok
  have hheld : ∀ b, held guard (.test n b :: k) = [guard n] := fun b => by
    simp [held, Stmt.before, hok.1]
  have hadm := (hcode ▸ hg.locks.runs (s.cur c)).head
  simp only [Machine.exec] at he
  split at he <;> cases he
  · have hplain : (Stmt.release (guard n)).headOnly = false := rfl
    refine hg.replace hcode rfl hplain ⟨rfl, rfl, rfl, rfl, rfl, Or.inl rfl⟩
      rfl ?_ (hadm.of rfl rfl (Or.inl rfl)) rfl rfl rfl
    rw [Stmt.Ok, hok.1]
    exact List.not_mem_nil
  · exact hg.sleeps hcode rfl rfl hok rfl ⟨rfl, rfl⟩ rfl (hheld consume) (hheld consume)
      (hok.2.cons _ rfl)

/-- What is left to do after `setCond`. -/
theorem Sound.afterSet (h : Sound guard k) (hk : held guard k = []) (n : Nat) (early : Bool) :
    Sound guard (afterSet guard n early ++ k) ∧
      held guard (afterSet guard n early ++ k) = [guard n] := by
  have hrel : ∀ lk, (Stmt.release lk).Ok guard k := fun lk => by
    rw [Stmt.Ok, hk]
    exact List.not_mem_nil
  have hwake : ∀ {k' : List Stmt}, Sound guard k' → held guard k' = [] →
      Sound guard (.waking n slots :: .release .ptable :: k') ∧
        held guard (.waking n slots :: .release .ptable :: k') = [.ptable] := by
    intro k' hs hk'
    have hr : held guard (.release .ptable :: k') = [.ptable] := by simp [held, Stmt.before, hk']
    refine ⟨(hs.cons _ rfl ?_).cons _ rfl ?_, hr⟩
    · rw [Stmt.Ok, hk']
      exact List.not_mem_nil
    · rw [Stmt.Ok, hr]
      exact List.mem_singleton_self _
  unfold Sched.afterSet
  split
  · split
    · rename_i hguard
      obtain ⟨hs, hheld⟩ := hwake h hk
      exact ⟨hs, hheld.trans (by rw [hguard])⟩
    · rename_i hguard
      have hne : Lock.ptable ≠ guard n := Ne.symm hguard
      have hr : held guard (.release (guard n) :: k) = [guard n] := by
        simp [held, Stmt.before, hk]
      have hs := h.cons _ rfl (hrel (guard n))
      have hr₂ : held guard (.release .ptable :: .release (guard n) :: k) = [.ptable, guard n] := by
        simp [held, Stmt.before, hk, hguard]
      have hs₂ := hs.cons (.release .ptable) rfl (by rw [Stmt.Ok, hr]; simpa using hne)
      have hs₃ := hs₂.cons (.waking n slots) rfl (by rw [Stmt.Ok, hr₂]; simp)
      have hr₃ : held guard (.waking n slots :: .release .ptable :: .release (guard n) :: k) =
          [.ptable, guard n] := hr₂
      refine ⟨hs₃.cons (.acquire .ptable) rfl (by rw [Stmt.Ok, hr₃]; simp), ?_⟩
      simp [held, Stmt.before, hk, hguard]
  · obtain ⟨hs, hheld⟩ := hwake h hk
    have ha : held guard (.acquire .ptable :: .waking n slots :: .release .ptable :: k) = [] := by
      show (held guard _).filter _ = _
      rw [hheld]
      rfl
    have hs₂ := hs.cons (.acquire .ptable) rfl (by rw [Stmt.Ok, hheld]; simp)
    refine ⟨hs₂.cons (.release (guard n)) rfl (by rw [Stmt.Ok, ha]; simp), ?_⟩
    simp [held, Stmt.before, hk]

theorem making_afterSet (n : Nat) (early : Bool) : making (afterSet guard n early) = [] := by
  unfold afterSet
  split
  · split <;> rfl
  · rfl

theorem built_afterSet (n : Nat) (early : Bool) : built (afterSet guard n early) = [] := by
  unfold afterSet
  split
  · split <;> rfl
  · rfl

theorem moves_setCond (hg : Good guard s) {n : Nat} {early : Bool}
    (hcode : s.code (s.cur c) = .setCond n early :: k)
    (he : s.exec guard c (s.cur c) ok k (.setCond n early) = some s') : Moves guard s s' := by
  have hwf := hg.locks.wf (s.cur c)
  have hruns := hg.locks.runs (s.cur c)
  rw [hcode] at hwf hruns
  have hok : held guard k = [] := hwf.ok
  obtain ⟨hs, hheld⟩ := hwf.sound_tail.afterSet hok n early
  cases he
  refine hg.quiet hcode rfl ⟨rfl, rfl, rfl, rfl, rfl, Or.inl rfl⟩ rfl hs
    ((runs_afterSet n early).append hruns.tail) ?_ ?_ ?_
  · rw [hheld]
    simp [held, Stmt.before, hok]
  · rw [making_append, making_afterSet]
    exact fun _ h => h
  · rw [built_append, built_afterSet]
    exact fun _ h => h

/-! ## 4. `wait` -/

theorem moves_scan (hg : Good guard s) {ps : List Slot} {havekids : Bool}
    (hcode : s.code (s.cur c) = .scan ps havekids :: k)
    (he : s.exec guard c (s.cur c) ok k (.scan ps havekids) = some s') : Moves guard s s' := by
  have hwf := hg.locks.wf (s.cur c)
  have hruns := hg.locks.runs (s.cur c)
  rw [hcode] at hwf hruns
  have hok : (Stmt.scan ps havekids).Ok guard k := hwf.ok
  have hlock := hg.has_lock hcode (show Lock.ptable ∈ held guard k by rw [hok.1]; simp)
  have hgo : ∀ ps' b, Moves guard s (s.goto (s.cur c) (.scan ps' b :: k)) := fun ps' b =>
    hg.replace hcode rfl rfl mild_goto rfl hok (hruns.head.of rfl rfl (Or.inr rfl)) rfl rfl rfl
  cases ps with
  | nil =>
    simp only [Machine.exec, Option.map_eq_some_iff] at he
    obtain ⟨p, -, he⟩ := he
    split at he <;> subst he
    · exact hg.drop hcode rfl mild_goto rfl rfl
    · exact hg.sleeps hcode rfl rfl hok rfl ⟨rfl, rfl⟩ rfl hok.1 hok.1 (hok.2.cons _ rfl)
  | cons q ps =>
    simp only [Machine.exec, Option.map_eq_some_iff] at he
    obtain ⟨p, -, he⟩ := he
    split at he
    · split at he
      · rename_i hq
        subst he
        have hself : (Machine.goto (s.cur c) k (s.reap q)).code (s.cur c) = k :=
          Function.update_self ..
        have hothers : ∀ t, t ≠ s.cur c → (Machine.goto (s.cur c) k (s.reap q)).code t = s.code t :=
          fun t ht => Function.update_of_ne ht ..
        -- a process in the making is not a zombie
        have hne : ∀ np, s.state np = .embryo → np ≠ q := by
          rintro np hnp rfl
          cases hq.symm.trans hnp
        refine hg.next rfl rfl rfl rfl hself (fun t ht => Or.inl (hothers t ht)) ?_
          (Or.inr (.reap c q (plain_of_code hcode rfl) hlock hq))
          (hg.makes.of hothers ?_ ?_ (fun np hnp => ?_) fun np hnp hstack => ?_)
        · rw [hcode]
          exact next_of rfl hwf.sound_tail hruns.tail rfl
        · rw [hself, hcode]
          exact fun _ h => h
        · rw [hself, hcode]
          exact fun _ h => h
        · exact (Function.update_of_ne (hne np hnp) ..).trans hnp
        · exact (Function.update_of_ne (hne np hnp) ..).trans hstack
      · subst he
        exact hgo ps true
    · subst he
      exact hgo ps havekids

/-! ## 5. The making of a process -/

theorem moves_alloc (hg : Good guard s) {kind : Kind} {ps : List Slot}
    (hcode : s.code (s.cur c) = .alloc kind ps :: k)
    (he : s.exec guard c (s.cur c) ok k (.alloc kind ps) = some s') : Moves guard s s' := by
  have hok : k = [.release .ptable] := (hcode ▸ hg.locks.wf (s.cur c)).ok
  have hadm := (hcode ▸ hg.locks.runs (s.cur c)).head
  subst hok
  cases ps with
  | nil =>
    cases he
    exact hg.drop hcode rfl mild_goto rfl rfl
  | cons q ps =>
    simp only [Machine.exec] at he
    split at he <;> cases he
    · rename_i hq
      have hlock := hg.has_lock hcode (List.mem_singleton_self Lock.ptable)
      have hself : (Machine.goto (s.cur c) [.release .ptable, .kalloc kind q] (s.take q)).code
          (s.cur c) = [.release .ptable, .kalloc kind q] := Function.update_self ..
      have hothers : ∀ t, t ≠ s.cur c →
          (Machine.goto (s.cur c) [.release .ptable, .kalloc kind q] (s.take q)).code t = s.code t :=
        fun t ht => Function.update_of_ne ht ..
      have hnil : Sound guard [] := ⟨trivial, by simp⟩
      have hk := (hnil.cons (.kalloc kind q) rfl ⟨rfl, rfl⟩).cons (.release .ptable) rfl
        List.not_mem_nil
      refine hg.next rfl rfl rfl rfl hself (fun t ht => Or.inl (hothers t ht)) ?_
        (Or.inr (.take c q (plain_of_code hcode rfl) hlock hq))
        (hg.makes.take (by rw [hq]; simp) hothers (congrArg making hself) (congrArg built hself)
          (Function.update_self ..) (fun np hne => Function.update_of_ne hne ..) rfl)
      rw [hcode]
      refine next_of rfl hk ?_ rfl
      have hnone : (s.cur c).Runs [] := fun x hx => by cases hx
      exact (hnone.cons (hadm.of rfl rfl (Or.inr rfl))).cons (hadm.of rfl rfl (Or.inl rfl))
    · exact hg.replace hcode rfl rfl mild_goto rfl rfl (hadm.of rfl rfl (Or.inr rfl)) rfl rfl rfl

/-- The process in the making is given up. -/
theorem Good.giveUp (hg : Good guard s) {np : Slot} (hcode : s.code (s.cur c) = st :: k)
    (hst : st.headOnly = false) (hchild : st.child = some np) (hmaking : making k = [])
    (hheld : held guard k = held guard (st :: k)) :
    Moves guard s (Machine.goto (s.cur c) k (s.giveUp np)) := by
  have hwf := hg.locks.wf (s.cur c)
  have hruns := hg.locks.runs (s.cur c)
  rw [hcode] at hwf hruns
  have hself : (Machine.goto (s.cur c) k (s.giveUp np)).code (s.cur c) = k :=
    Function.update_self ..
  have hothers : ∀ t, t ≠ s.cur c → (Machine.goto (s.cur c) k (s.giveUp np)).code t = s.code t :=
    fun t ht => Function.update_of_ne ht ..
  have hmem : np ∈ making (s.code (s.cur c)) := by
    rw [hcode]
    exact List.mem_filterMap.mpr ⟨st, List.mem_cons_self, hchild⟩
  refine hg.next rfl rfl rfl rfl hself (fun t ht => Or.inl (hothers t ht)) ?_
    (Or.inr (.give np (hg.makes.embryo _ np hmem)))
    (hg.makes.letGo hmem hothers (by rw [hself]; exact hmaking)
      (fun q hne => Function.update_of_ne hne ..) fun q hne => Function.update_of_ne hne ..)
  rw [hcode]
  exact next_of hst hwf.sound_tail hruns.tail hheld

/-- The process in the making gets its stack. -/
theorem Good.build (hg : Good guard s) {kind : Kind} {np : Slot} {st' : Stmt}
    (hcode : s.code (s.cur c) = .kalloc kind np :: k) (hhead : st'.headOnly = false)
    (hok' : st'.Ok guard k) (hchild : st'.child = some np) (hsch : st'.scheduling = false)
    (hheld : held guard (st' :: k) = held guard k) :
    Moves guard s (Machine.goto (s.cur c) (st' :: k) (s.build np)) := by
  have hwf := hg.locks.wf (s.cur c)
  have hruns := hg.locks.runs (s.cur c)
  rw [hcode] at hwf hruns
  have hok : (Stmt.kalloc kind np).Ok guard k := hwf.ok
  have hmem : np ∈ making (s.code (s.cur c)) := by
    rw [hcode]
    exact List.mem_cons_self
  have hembryo := hg.makes.embryo _ np hmem
  have hnot : ∀ c', s.cur c' ≠ .proc np := fun c' hc' =>
    hg.cpus.nowhere_embryo hembryo c' (hg.proc_eq hc')
  have hself : (Machine.goto (s.cur c) (st' :: k) (s.build np)).code (s.cur c) = st' :: k :=
    Function.update_self ..
  have hothers : ∀ t, t ≠ s.cur c →
      (Machine.goto (s.cur c) (st' :: k) (s.build np)).code t = s.code t ∨
        ((Machine.goto (s.cur c) (st' :: k) (s.build np)).code t = forkret ∧
          (∃ p, t = .proc p) ∧ ∀ c', s.cur c' ≠ t) := by
    intro t ht
    have hup : (Machine.goto (s.cur c) (st' :: k) (s.build np)).code t =
        Function.update s.code (.proc np) forkret t := Function.update_of_ne ht ..
    by_cases htn : t = .proc np
    · right
      rw [hup, htn, Function.update_self]
      exact ⟨rfl, ⟨np, rfl⟩, hnot⟩
    · left
      rw [hup, Function.update_of_ne htn]
  refine hg.next rfl rfl rfl rfl hself hothers ?_ (Or.inr (.build np hembryo))
    (hg.makes.build hmem (fun t ht => (hothers t ht).imp_right And.left) ?_ rfl
      (Function.update_self ..) fun q hne => Function.update_of_ne hne ..)
  · rw [hcode]
    refine next_of rfl (hwf.sound_tail.cons st' hhead hok') (hruns.tail.cons ?_) hheld
    exact hruns.head.of rfl hsch (Or.inr rfl)
  · rw [hself]
    show (st' :: k).filterMap Stmt.child = [np]
    rw [List.filterMap_cons_some hchild]
    exact congrArg (np :: ·) hok.2

theorem moves_kalloc (hg : Good guard s) {kind : Kind} {np : Slot}
    (hcode : s.code (s.cur c) = .kalloc kind np :: k)
    (he : s.exec guard c (s.cur c) ok k (.kalloc kind np) = some s') : Moves guard s s' := by
  have hok : (Stmt.kalloc kind np).Ok guard k := (hcode ▸ hg.locks.wf (s.cur c)).ok
  simp only [Machine.exec] at he
  split at he <;> cases he
  · cases kind <;> exact hg.build hcode rfl hok rfl rfl rfl
  · exact hg.giveUp hcode rfl rfl hok.2 rfl

theorem moves_copyuvm (hg : Good guard s) {np : Slot}
    (hcode : s.code (s.cur c) = .copyuvm np :: k)
    (he : s.exec guard c (s.cur c) ok k (.copyuvm np) = some s') : Moves guard s s' := by
  have hok : (Stmt.copyuvm np).Ok guard k := (hcode ▸ hg.locks.wf (s.cur c)).ok
  have hadm := (hcode ▸ hg.locks.runs (s.cur c)).head
  simp only [Machine.exec] at he
  split at he
  · obtain ⟨p, -, rfl⟩ := Option.map_eq_some_iff.mp he
    exact hg.replace hcode rfl rfl ⟨rfl, rfl, rfl, rfl, rfl, Or.inl rfl⟩ rfl hok.2
      (hadm.of rfl rfl (Or.inr rfl)) rfl rfl rfl
  · cases he
    exact hg.giveUp hcode rfl rfl hok.2 rfl

theorem moves_ready (hg : Good guard s) {np : Slot} (hcode : s.code (s.cur c) = .ready np :: k)
    (he : s.exec guard c (s.cur c) ok k (.ready np) = some s') : Moves guard s s' := by
  have hwf := hg.locks.wf (s.cur c)
  have hruns := hg.locks.runs (s.cur c)
  rw [hcode] at hwf hruns
  have hok : making k = [] := hwf.ok
  cases he
  have hself : (Machine.goto (s.cur c) k (s.setState np .runnable)).code (s.cur c) = k :=
    Function.update_self ..
  have hothers : ∀ t, t ≠ s.cur c →
      (Machine.goto (s.cur c) k (s.setState np .runnable)).code t = s.code t :=
    fun t ht => Function.update_of_ne ht ..
  have hmem : np ∈ making (s.code (s.cur c)) := by
    rw [hcode]
    exact List.mem_cons_self
  have hbuilt : np ∈ built (s.code (s.cur c)) := by
    rw [hcode]
    exact List.mem_cons_self
  refine hg.next rfl rfl rfl rfl hself (fun t ht => Or.inl (hothers t ht)) ?_
    (Or.inr (.ready np (hg.makes.embryo _ np hmem) (hg.makes.stack _ np hbuilt)))
    (hg.makes.letGo hmem hothers (by rw [hself]; exact hok)
      (fun q hne => Function.update_of_ne hne ..) fun _ _ => rfl)
  rw [hcode]
  exact next_of rfl hwf.sound_tail hruns.tail rfl

theorem moves_checkArgs (hg : Good guard s) {np : Slot}
    (hcode : s.code (s.cur c) = .checkArgs np :: k)
    (he : s.exec guard c (s.cur c) ok k (.checkArgs np) = some s') : Moves guard s s' := by
  have hok : (Stmt.checkArgs np).Ok guard k := (hcode ▸ hg.locks.wf (s.cur c)).ok
  have hadm := (hcode ▸ hg.locks.runs (s.cur c)).head
  simp only [Machine.exec] at he
  split at he
  · obtain ⟨p, -, rfl⟩ := Option.map_eq_some_iff.mp he
    exact hg.replace hcode rfl rfl ⟨rfl, rfl, rfl, rfl, rfl, Or.inl rfl⟩ rfl hok
      (hadm.of rfl rfl (Or.inr rfl)) rfl rfl rfl
  · cases he
    exact hg.drop hcode rfl mild_goto rfl rfl

theorem moves_climb (hg : Good guard s) {np pp : Slot}
    (hcode : s.code (s.cur c) = .climb np pp :: k)
    (he : s.exec guard c (s.cur c) ok k (.climb np pp) = some s') : Moves guard s s' := by
  have hok : (Stmt.climb np pp).Ok guard k := (hcode ▸ hg.locks.wf (s.cur c)).ok
  have hadm := (hcode ▸ hg.locks.runs (s.cur c)).head
  simp only [Machine.exec] at he
  split at he
  · obtain ⟨q, -, rfl⟩ := Option.map_eq_some_iff.mp he
    exact hg.replace hcode rfl rfl mild_goto rfl hok (hadm.of rfl rfl (Or.inr rfl)) rfl rfl rfl
  · cases he
    exact hg.replace hcode rfl rfl ⟨rfl, rfl, rfl, rfl, rfl, Or.inl rfl⟩ rfl hok
      (hadm.of rfl rfl (Or.inr rfl)) rfl rfl rfl

theorem moves_copyout (hg : Good guard s) {np : Slot}
    (hcode : s.code (s.cur c) = .copyout np :: k)
    (he : s.exec guard c (s.cur c) ok k (.copyout np) = some s') : Moves guard s s' := by
  have hwf := hg.locks.wf (s.cur c)
  have hruns := hg.locks.runs (s.cur c)
  rw [hcode] at hwf hruns
  have hok : (Stmt.copyout np).Ok guard k := hwf.ok
  have hadm := hruns.head
  simp only [Machine.exec] at he
  split at he <;> cases he
  · have hr : held guard (.release .ptable :: k) = [.ptable] := by simp [held, Stmt.before, hok.1]
    have hs := hwf.sound_tail.cons (.release .ptable) rfl (by rw [Stmt.Ok, hok.1]; simp)
    have hs₂ := hs.cons (.ready np) rfl (show making (_ :: k) = [] from hok.2)
    have hs₃ := hs₂.cons (.acquire .ptable) rfl (show Lock.ptable ∈ held guard (_ :: _ :: k) from
      hr ▸ List.mem_singleton_self _)
    exact hg.quiet hcode rfl mild_goto rfl hs₃
      (((hruns.tail.cons (hadm.of rfl rfl (Or.inl rfl))).cons (hadm.of rfl rfl (Or.inr rfl))).cons
        (hadm.of rfl rfl (Or.inl rfl)))
      (by simp [held, Stmt.before, hok.1]) (fun _ h => h) fun _ h => h
  · exact hg.drop hcode rfl mild_goto rfl rfl

/-! ## 6. The scheduler -/

/-- A scheduler's statement that stays on its stack. -/
theorem Good.scheduling (hg : Good guard s) (hcode : s.code (s.cur c) = st :: k)
    (hcur : s'.cur = s.cur) (hholder : s'.holder = s.holder) (hncli : s'.ncli = s.ncli)
    (hkstack : s'.kstack = s.kstack) (hcode' : s'.code = Function.update s.code (s.cur c) k')
    (hwf : Wf guard k') (hruns : (s.cur c).Runs k') (hheld : held guard k' = held guard (st :: k))
    (hmaking : ∀ np ∈ making k', np ∈ making (st :: k))
    (hbuilt : ∀ np ∈ built k', np ∈ built (st :: k))
    (hembryo : ∀ np, s.state np = .embryo → s'.state np = .embryo)
    (hstep : Cpus.Step s.abs { s.abs with
      state := s'.state, proc := s'.proc,
      phase := Function.update s.abs.phase c (phase (s.cur c) k') }) : Moves guard s s' := by
  have hself : s'.code (s.cur c) = k' := by rw [hcode', Function.update_self]
  have hothers : ∀ t, t ≠ s.cur c → s'.code t = s.code t := fun t ht => by
    rw [hcode', Function.update_of_ne ht]
  refine ⟨hg.locks.goto hcur hholder hncli hself (fun t ht => Or.inl (hothers t ht)) hwf hruns
    (by rw [hcode]; exact hheld), hg.makes.of hothers ?_ ?_ hembryo ?_, ?_⟩
  · rw [hself, hcode]
    exact hmaking
  · rw [hself, hcode]
    exact hbuilt
  · rw [hkstack]
    exact fun _ _ h => h
  · rw [abs_goto hcur hself fun c' hne => hothers _ (hg.locks.cur_ne hne), hkstack, hholder]
    exact Or.inr hstep

theorem moves_loop (hg : Good guard s) (hcode : s.code (s.cur c) = .loop :: k)
    (he : s.exec guard c (s.cur c) ok k .loop = some s') : Moves guard s s' := by
  have hwf := hg.locks.wf (s.cur c)
  have hruns := hg.locks.runs (s.cur c)
  rw [hcode] at hwf hruns
  have hok : held guard k = [] := hwf.ok
  have hscheduler := hg.is_scheduler hcode rfl
  cases he
  have hr : held guard (.release .ptable :: .loop :: k) = [.ptable] := by
    simp [held, Stmt.before, hok]
  have hs := hwf.sound_tail.cons .loop rfl hok
  have hs₂ := hs.cons (.release .ptable) rfl (by
    show Lock.ptable ∉ held guard k
    rw [hok]
    exact List.not_mem_nil)
  have hs₃ := hs₂.cons (.pick slots) rfl hr
  have hs₄ := hs₃.cons (.acquire .ptable) rfl (by
    show Lock.ptable ∈ held guard (.release .ptable :: .loop :: k)
    rw [hr]
    exact List.mem_singleton_self _)
  refine hg.quiet hcode rfl mild_goto rfl hs₄ ?_ (by simp [round, held, Stmt.before, hok])
    (fun _ h => h) fun _ h => h
  rw [hscheduler] at hruns ⊢
  exact (((hruns.cons (Or.inr rfl)).cons (Or.inl rfl)).cons (Or.inr rfl))

theorem moves_pick (hg : Good guard s) {ps : List Slot} (hcode : s.code (s.cur c) = .pick ps :: k)
    (he : s.exec guard c (s.cur c) ok k (.pick ps) = some s') : Moves guard s s' := by
  have hwf := hg.locks.wf (s.cur c)
  have hruns := hg.locks.runs (s.cur c)
  rw [hcode] at hwf hruns
  have hok : held guard k = [.ptable] := hwf.ok
  have hscheduler := hg.is_scheduler hcode rfl
  have hpick : (s.cur c).Admits (.pick ps) := hruns.head
  cases ps with
  | nil =>
    cases he
    exact hg.drop hcode rfl mild_goto rfl rfl
  | cons p ps =>
    have hadm : ∀ x : Stmt, x.scheduling = true → (s.cur c).Admits x := by
      rw [hscheduler]
      exact fun x hx => Or.inl hx
    simp only [Machine.exec] at he
    split at he <;> cases he
    · rename_i hp
      have hlock := hg.has_lock hcode (show Lock.ptable ∈ held guard k by rw [hok]; simp)
      have hs := hwf.sound_tail.cons (.pick ps) rfl hok
      refine hg.scheduling hcode rfl rfl rfl rfl rfl ⟨hok, hs.noHead, hs.wf⟩
        ((hruns.tail.cons (hadm (.pick ps) rfl)).cons (hadm (.mark p) rfl)) rfl (fun _ h => h)
        (fun _ h => h) (fun _ h => h) ?_
      have hidle : s.abs.phase c = .idle := by
        show phase (s.cur c) (s.code (s.cur c)) = _
        rw [hcode, hscheduler]
        rfl
      rw [hscheduler]
      exact .pick c p hidle hlock hp
    · exact hg.replace hcode rfl rfl mild_goto rfl hok (hadm _ rfl) rfl rfl rfl

theorem moves_mark (hg : Good guard s) {p : Slot} (hcode : s.code (s.cur c) = .mark p :: k)
    (he : s.exec guard c (s.cur c) ok k (.mark p) = some s') : Moves guard s s' := by
  have hwf := hg.locks.wf (s.cur c)
  have hruns := hg.locks.runs (s.cur c)
  rw [hcode] at hwf hruns
  have hscheduler := hg.is_scheduler hcode rfl
  have hphase : s.abs.phase c = .picked p := by
    show phase (s.cur c) (s.code (s.cur c)) = _
    rw [hcode, hscheduler]
    rfl
  have hp : s.state p = .runnable := by
    have hs := hg.cpus.stands c
    rw [hphase] at hs
    exact hs.2.2
  cases he
  refine hg.scheduling hcode rfl rfl rfl rfl rfl ⟨hwf.ok, hwf.noHead, hwf.tail⟩
    (hruns.tail.cons (by rw [hscheduler]; exact Or.inl rfl)) rfl (fun _ h => h) (fun _ h => h)
    (fun np hnp => ?_) ?_
  · have hne : np ≠ p := by
      rintro rfl
      cases hp.symm.trans hnp
    exact (Function.update_of_ne hne ..).trans hnp
  · rw [hscheduler]
    exact .mark c p hphase

theorem moves_back (hg : Good guard s) (hcode : s.code (s.cur c) = .back :: k)
    (he : s.exec guard c (s.cur c) ok k .back = some s') : Moves guard s s' := by
  have hwf := hg.locks.wf (s.cur c)
  have hruns := hg.locks.runs (s.cur c)
  rw [hcode] at hwf hruns
  have hscheduler := hg.is_scheduler hcode rfl
  have hphase : s.abs.phase c = .back := by
    show phase (s.cur c) (s.code (s.cur c)) = _
    rw [hcode, hscheduler]
    rfl
  cases he
  refine hg.scheduling hcode rfl rfl rfl rfl rfl hwf.tail hruns.tail rfl (fun _ h => h)
    (fun _ h => h) (fun _ h => h) ?_
  have hidle : phase (s.cur c) k = .idle := by
    rw [phase_plain fun x hx => hwf.noHead x (List.mem_of_mem_head? hx), hscheduler]
    rfl
  rw [hidle]
  exact .forget c hphase

/-- The switch to the process that has been chosen. -/
theorem moves_swtch (hg : Good guard s) {p : Slot} (hcode : s.code (s.cur c) = .swtch p :: k)
    (he : s.exec guard c (s.cur c) ok k (.swtch p) = some s') : Moves guard s s' := by
  have hscheduler := hg.is_scheduler hcode rfl
  have hphase : s.abs.phase c = .going p := by
    show phase (s.cur c) (s.code (s.cur c)) = _
    rw [hcode, hscheduler]
    rfl
  have hproc : s.proc c = some p := by
    have hs := hg.cpus.stands c
    rw [hphase] at hs
    exact hs.1
  -- the process is this CPU's already, so no other is on its stack
  have hnot : ∀ c', s.cur c' ≠ .proc p := by
    intro c' hc'
    have hcc : c' = c := hg.cpus.one c' c p (hg.proc_eq hc') hproc
    cases (hcc ▸ hc').symm.trans hscheduler
  have hcode' : s.code (.scheduler c) = .swtch p :: k := hscheduler ▸ hcode
  obtain rfl : s.switch c (.proc p) (.back :: k) = s' := Option.some.inj he
  have hothers : ∀ t, t ≠ s.cur c → (s.switch c (.proc p) (.back :: k)).code t = s.code t :=
    fun t ht => Function.update_of_ne ht ..
  have hself : (s.switch c (.proc p) (.back :: k)).code (s.cur c) = .back :: k :=
    Function.update_self ..
  refine ⟨hg.locks.enter hscheduler hcode' hnot,
    hg.makes.of hothers ?_ ?_ (fun _ h => h) (fun _ _ h => h), ?_⟩
  · rw [hself, hcode]
    exact fun _ h => h
  · rw [hself, hcode]
    exact fun _ h => h
  · have habs : (s.switch c (.proc p) (.back :: k)).abs =
        { s.abs with phase := Function.update s.abs.phase c (.on p) } := by
      unfold Machine.abs
      congr 1
      funext c'
      show phase (Function.update s.cur c (.proc p) c') ((s.switch c (.proc p) (.back :: k)).code
        (Function.update s.cur c (.proc p) c')) = _
      rcases eq_or_ne c' c with rfl | hne
      · rw [Function.update_self, Function.update_self, hothers _ (by rw [hscheduler]; simp)]
        exact phase_plain fun x hx => (hg.locks.away p hnot).2 x (List.mem_of_mem_head? hx)
      · rw [Function.update_of_ne hne, Function.update_of_ne hne,
          hothers _ (hg.locks.cur_ne hne)]
    rw [habs]
    exact Or.inr (.enter c p hphase)

/-! ## 7. All statements -/

/-- **Every statement is a move.** -/
theorem moves_exec (hg : Good guard s) (hcode : s.code (s.cur c) = st :: k)
    (he : s.exec guard c (s.cur c) ok k st = some s') : Moves guard s s' := by
  cases st with
  | acquire lk => exact moves_acquire hg hcode he
  | release lk => exact moves_release hg hcode he
  | setChan ch => exact moves_setChan hg hcode he
  | leave x => exact moves_leave hg hcode he
  | sched => exact moves_sched hg hcode he
  | zombieExit => cases he
  | wakeup1 ch ps => exact moves_wakeup1 hg hcode he
  | test n consume => exact moves_test hg hcode he
  | setCond n early => exact moves_setCond hg hcode he
  | waking n ps => exact moves_waking hg hcode he
  | wakeParent => exact moves_wakeParent hg hcode he
  | reparent ps => exact moves_reparent hg hcode he
  | scan ps havekids => exact moves_scan hg hcode he
  | kill pid ps => exact moves_kill hg hcode he
  | alloc kind ps => exact moves_alloc hg hcode he
  | kalloc kind np => exact moves_kalloc hg hcode he
  | copyuvm np => exact moves_copyuvm hg hcode he
  | ready np => exact moves_ready hg hcode he
  | checkArgs np => exact moves_checkArgs hg hcode he
  | climb np pp => exact moves_climb hg hcode he
  | copyout np => exact moves_copyout hg hcode he
  | loop => exact moves_loop hg hcode he
  | pick ps => exact moves_pick hg hcode he
  | mark p => exact moves_mark hg hcode he
  | swtch p => exact moves_swtch hg hcode he
  | back => exact moves_back hg hcode he

end Xv6.Sched
