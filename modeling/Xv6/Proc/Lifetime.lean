/-
# The lifetime of a page directory, with threads

A page directory is made by `fork` or `exec` for one process, and shared by the threads that
process's `clone`s make.  Nothing counts the users.  `wait` frees the directory of what it reaps
if the zombie is not a thread, and `exec` frees the caller's old directory whoever the caller is;
neither looks at who else runs on it.  So the main process leaving before its threads, or any of
them calling `exec`, frees a directory that is in use (`directory_freed_under_a_thread`).

What is true is proved here: when a process that is not a thread leaves, and when anyone commits
to a new image, only if nobody else is using the directory, then every directory is freed at most
once, never under a user, and an unfreed one always has an owner through whom it will be freed.
The owner is unique, and is not a thread: that is the invariant `Owned`.
-/
import Xv6.Proc.Forest

namespace Xv6.Ptable

open Xv6.Runs

/-! ## 1. Who has which directory -/

/-- A slot, as far as page directories are concerned. -/
structure Entry where
  phase : Phase
  built : Bool
  isthread : Bool
  pgdir : Option Nat

def Proc.entry (x : Proc) : Entry := ⟨x.state.phase, x.built, x.isthread, x.pgdir⟩

structure Dirs where
  entry : Slot → Entry
  call : Slot → Call
  nextdir : Nat
  freed : List Nat

def Kernel.dirs (k : Kernel) : Dirs := ⟨fun p => (k.proc p).entry, k.call, k.nextdir, k.freed⟩

/-- The slot is that of a process (running or to be reaped). -/
def Entry.Live (e : Entry) : Prop := e.phase = .active ∨ e.phase = .zombie

/-- The process whose reaping will free `d`. -/
structure Entry.Owns (e : Entry) (d : Nat) : Prop where
  live : e.Live
  plain : e.isthread = false
  pgdir : e.pgdir = some d

/-- The slot runs on `d`, or is being made to. -/
structure Entry.Uses (e : Entry) (d : Nat) : Prop where
  phase : e.phase = .active ∨ e.phase = .embryo
  built : e.built = true
  pgdir : e.pgdir = some d

/-- The slot's `pgdir` has been stored. -/
def Entry.Ready (e : Entry) : Prop := e.built = true ∧ e.pgdir.isSome

/-- The clone that is filling the slot in has stored its `pgdir`. -/
def Call.Cloned (c : Call) (np : Slot) : Prop := (∃ pp, c = .cloning np pp) ∨ c = .adopted np

theorem Call.Cloned.np {c : Call} {np : Slot} (h : c.Cloned np) : c.np = some np := by
  rcases h with ⟨pp, rfl⟩ | rfl <;> rfl

namespace Dirs

/-- **The invariant of page directories**, while the code holds the directory `x` in hand: one
that has been made, or taken from its owner, and not yet given away or freed. -/
structure Owned (x : Option Nat) (s : Dirs) : Prop where
  freedOnce : s.freed.Nodup
  freedLt : ∀ d ∈ s.freed, d < s.nextdir
  ready : ∀ p, (s.entry p).Live → (s.entry p).Ready
  owner : ∀ p q d, (s.entry p).Owns d → (s.entry q).Owns d → p = q
  ownerOk : ∀ p d, (s.entry p).Owns d → d < s.nextdir ∧ d ∉ s.freed
  share : ∀ q d, (s.entry q).Uses d → ∃ m, (s.entry m).phase = .active ∧ (s.entry m).Owns d
  execOk : ∀ p d, s.call p = .execing d → d < s.nextdir ∧ d ∉ s.freed ∧
    (∀ q, ¬ (s.entry q).Owns d) ∧ ∀ q, s.call q = .execing d → q = p
  cloned : ∀ p np, (s.call p).Cloned np → (s.entry np).Ready
  handOk : ∀ d, x = some d → d < s.nextdir ∧ d ∉ s.freed ∧ (∀ q, ¬ (s.entry q).Owns d) ∧
    ∀ q, s.call q ≠ .execing d
  kept : ∀ d, d < s.nextdir → d ∉ s.freed →
    x = some d ∨ (∃ p, (s.entry p).Owns d) ∨ ∃ p, s.call p = .execing d

def setEntry (s : Dirs) (p : Slot) (e : Entry) : Dirs :=
  { s with entry := Function.update s.entry p e }

def setCall (s : Dirs) (p : Slot) (c : Call) : Dirs :=
  { s with call := Function.update s.call p c }

section

variable {s : Dirs} {p q : Slot} {e : Entry} {c : Call}

@[simp] theorem setEntry_same : (s.setEntry p e).entry p = e := by simp [setEntry]

@[simp] theorem setEntry_ne (h : q ≠ p) : (s.setEntry p e).entry q = s.entry q := by
  simp [setEntry, h]

@[simp] theorem setEntry_call : (s.setEntry p e).call = s.call := rfl
@[simp] theorem setEntry_nextdir : (s.setEntry p e).nextdir = s.nextdir := rfl
@[simp] theorem setEntry_freed : (s.setEntry p e).freed = s.freed := rfl

@[simp] theorem setCall_same : (s.setCall p c).call p = c := by simp [setCall]

@[simp] theorem setCall_ne (h : q ≠ p) : (s.setCall p c).call q = s.call q := by
  simp [setCall, h]

@[simp] theorem setCall_entry : (s.setCall p c).entry = s.entry := rfl
@[simp] theorem setCall_nextdir : (s.setCall p c).nextdir = s.nextdir := rfl
@[simp] theorem setCall_freed : (s.setCall p c).freed = s.freed := rfl

end

variable {s : Dirs} {x : Option Nat}

/-! ## 2. What happens to a slot -/

/-- A slot that is nobody's is given an entry that owns nothing and uses nothing, or uses a
directory together with its owner. -/
theorem Owned.setEntry (h : Owned x s) {np : Slot} {e : Entry} (hold : ¬ (s.entry np).Live)
    (hready : e.Live → e.Ready) (hown : ∀ d, ¬ e.Owns d)
    (huse : ∀ d, e.Uses d → ∃ m, (s.entry m).phase = .active ∧ (s.entry m).Owns d)
    (hcl : ∀ p, (s.call p).Cloned np → e.Ready) : Owned x (s.setEntry np e) := by
  -- the owners are who they were
  have howns : ∀ q d, ((s.setEntry np e).entry q).Owns d ↔ (s.entry q).Owns d := by
    intro q d
    by_cases hq : q = np
    · subst hq
      rw [setEntry_same]
      exact ⟨fun ho => absurd ho (hown d), fun ho => absurd ho.live hold⟩
    · rw [setEntry_ne hq]
  refine ⟨h.freedOnce, h.freedLt, ?_, ?_, ?_, ?_, ?_, ?_, ?_, ?_⟩
  · intro q
    by_cases hq : q = np
    · subst hq; rw [setEntry_same]; exact hready
    · rw [setEntry_ne hq]; exact h.ready q
  · intro p q d hp hq
    exact h.owner p q d ((howns p d).1 hp) ((howns q d).1 hq)
  · exact fun q d hq => h.ownerOk q d ((howns q d).1 hq)
  · intro q d hu
    have hm : ∃ m, (s.entry m).phase = .active ∧ (s.entry m).Owns d := by
      by_cases hq : q = np
      · subst hq; rw [setEntry_same] at hu; exact huse d hu
      · rw [setEntry_ne hq] at hu; exact h.share q d hu
    obtain ⟨m, hact, ho⟩ := hm
    have hne : m ≠ np := by rintro rfl; exact hold ho.live
    exact ⟨m, by rwa [setEntry_ne hne], (howns m d).2 ho⟩
  · intro q d hq
    obtain ⟨h1, h2, h3, h4⟩ := h.execOk q d hq
    exact ⟨h1, h2, fun r hr => h3 r ((howns r d).1 hr), h4⟩
  · intro q m hm
    by_cases hmn : m = np
    · subst hmn; rw [setEntry_same]; exact hcl q hm
    · rw [setEntry_ne hmn]; exact h.cloned q m hm
  · intro d hd
    obtain ⟨h1, h2, h3, h4⟩ := h.handOk d hd
    exact ⟨h1, h2, fun r hr => h3 r ((howns r d).1 hr), h4⟩
  · simpa only [howns, setEntry_nextdir, setEntry_freed, setEntry_call] using h.kept

/-- A slot is taken by `allocproc`, or given back: with its leftover `pgdir` it uses nothing. -/
theorem Owned.vacate (h : Owned x s) {np : Slot} {e : Entry} (hold : ¬ (s.entry np).Live)
    (hcl : ∀ p, ¬ (s.call p).Cloned np)
    (he : e.phase = .unused ∨ (e.phase = .embryo ∧ e.built = false)) :
    Owned x (s.setEntry np e) := by
  have hnl : ¬ e.Live := by rcases he with e1 | ⟨e1, -⟩ <;> simp [Entry.Live, e1]
  refine h.setEntry hold (fun hl => absurd hl hnl) (fun d ho => hnl ho.live) ?_
    (fun p hp => absurd hp (hcl p))
  intro d hu
  rcases he with e1 | ⟨-, e1⟩
  · rcases hu.phase with e2 | e2 <;> rw [e1] at e2 <;> cases e2
  · have := hu.built
    rw [e1] at this
    cases this

/-- A process leaves.  If it is not a thread, nobody else may be using its directory. -/
theorem Owned.depart (h : Owned x s) {p : Slot} (hact : (s.entry p).phase = .active)
    (halone : (s.entry p).isthread = false → ∀ q d, q ≠ p → (s.entry p).pgdir = some d →
      ¬ (s.entry q).Uses d) :
    Owned x (s.setEntry p { s.entry p with phase := .zombie }) := by
  have howns : ∀ q d, ((s.setEntry p { s.entry p with phase := .zombie }).entry q).Owns d ↔
      (s.entry q).Owns d := by
    intro q d
    by_cases hq : q = p
    · subst hq
      rw [setEntry_same]
      exact ⟨fun ho => ⟨Or.inl hact, ho.plain, ho.pgdir⟩, fun ho => ⟨Or.inr rfl, ho.plain, ho.pgdir⟩⟩
    · rw [setEntry_ne hq]
  refine ⟨h.freedOnce, h.freedLt, ?_, ?_, ?_, ?_, ?_, ?_, ?_, ?_⟩
  · intro q
    by_cases hq : q = p
    · subst hq; rw [setEntry_same]; exact fun _ => h.ready q (Or.inl hact)
    · rw [setEntry_ne hq]; exact h.ready q
  · exact fun q r d hq hr => h.owner q r d ((howns q d).1 hq) ((howns r d).1 hr)
  · exact fun q d hq => h.ownerOk q d ((howns q d).1 hq)
  · intro q d hu
    have hqp : q ≠ p := by
      rintro rfl
      rw [setEntry_same] at hu
      rcases hu.phase with e | e <;> cases e
    rw [setEntry_ne hqp] at hu
    obtain ⟨m, hm, ho⟩ := h.share q d hu
    have hmp : m ≠ p := by
      rintro rfl
      exact halone ho.plain q d hqp ho.pgdir hu
    exact ⟨m, by rwa [setEntry_ne hmp], (howns m d).2 ho⟩
  · intro q d hq
    obtain ⟨h1, h2, h3, h4⟩ := h.execOk q d hq
    exact ⟨h1, h2, fun r hr => h3 r ((howns r d).1 hr), h4⟩
  · intro q m hm
    by_cases hmp : m = p
    · subst hmp; rw [setEntry_same]; exact h.cloned q m hm
    · rw [setEntry_ne hmp]; exact h.cloned q m hm
  · intro d hd
    obtain ⟨h1, h2, h3, h4⟩ := h.handOk d hd
    exact ⟨h1, h2, fun r hr => h3 r ((howns r d).1 hr), h4⟩
  · simpa only [howns, setEntry_nextdir, setEntry_freed, setEntry_call] using h.kept

/-- Moving a process between calls that have no page directory of their own. -/
theorem Owned.setCall (h : Owned x s) {p : Slot} {c : Call} (hp : ∀ d, s.call p ≠ .execing d)
    (hc : ∀ d, c ≠ .execing d) (hcl : ∀ np, c.Cloned np → (s.entry np).Ready) :
    Owned x (s.setCall p c) := by
  have hexec : ∀ q d, (s.setCall p c).call q = .execing d ↔ s.call q = .execing d := by
    intro q d
    by_cases hq : q = p
    · subst hq; simp [hc, hp]
    · rw [setCall_ne hq]
  refine ⟨h.freedOnce, h.freedLt, h.ready, h.owner, h.ownerOk, h.share, ?_, ?_, ?_, ?_⟩
  · intro q d hq
    obtain ⟨h1, h2, h3, h4⟩ := h.execOk q d ((hexec q d).1 hq)
    exact ⟨h1, h2, h3, fun r hr => h4 r ((hexec r d).1 hr)⟩
  · intro q np hq
    by_cases hqp : q = p
    · subst hqp; rw [setCall_same] at hq; exact hcl np hq
    · rw [setCall_ne hqp] at hq; exact h.cloned q np hq
  · intro d hd
    obtain ⟨h1, h2, h3, h4⟩ := h.handOk d hd
    exact ⟨h1, h2, h3, fun r hr => h4 r ((hexec r d).1 hr)⟩
  · simpa only [hexec, setCall_nextdir, setCall_freed, setCall_entry] using h.kept

/-! ## 3. What happens to a directory in hand -/

/-- `setupkvm` makes a directory. -/
theorem Owned.make (h : Owned none s) :
    Owned (some s.nextdir) { s with nextdir := s.nextdir + 1 } := by
  refine ⟨h.freedOnce, fun d hd => Nat.lt_succ_of_lt (h.freedLt d hd), h.ready, h.owner,
    fun q d hq => ⟨Nat.lt_succ_of_lt (h.ownerOk q d hq).1, (h.ownerOk q d hq).2⟩, h.share,
    fun q d hq => ⟨Nat.lt_succ_of_lt (h.execOk q d hq).1, (h.execOk q d hq).2⟩, h.cloned, ?_, ?_⟩
  · rintro d hd
    obtain rfl : s.nextdir = d := Option.some.inj hd
    exact ⟨Nat.lt_succ_self _, fun hf => absurd (h.freedLt _ hf) (lt_irrefl _),
      fun q hq => absurd (h.ownerOk q _ hq).1 (lt_irrefl _),
      fun q hq => absurd (h.execOk q _ hq).1 (lt_irrefl _)⟩
  · intro d hd hf
    rcases Nat.lt_succ_iff_lt_or_eq.1 hd with hlt | rfl
    · exact Or.inr ((h.kept d hlt hf).resolve_left (by simp))
    · exact Or.inl rfl

/-- The directory in hand is freed. -/
theorem Owned.free (h : Owned x s) : Owned none { s with freed := x.elim s.freed (· :: s.freed) } := by
  cases x with
  | none => exact h
  | some d =>
    obtain ⟨hlt, hnf, hno, hnx⟩ := h.handOk d rfl
    refine ⟨List.nodup_cons.2 ⟨hnf, h.freedOnce⟩, ?_, h.ready, h.owner, ?_, h.share, ?_, h.cloned,
      by simp, ?_⟩
    · intro e he
      rcases List.mem_cons.1 he with rfl | he
      · exact hlt
      · exact h.freedLt e he
    · intro q e hq
      refine ⟨(h.ownerOk q e hq).1, fun he => ?_⟩
      rcases List.mem_cons.1 he with rfl | he
      · exact hno q hq
      · exact (h.ownerOk q e hq).2 he
    · intro q e hq
      obtain ⟨h1, h2, h3, h4⟩ := h.execOk q e hq
      refine ⟨h1, fun he => ?_, h3, h4⟩
      rcases List.mem_cons.1 he with rfl | he
      · exact hnx q hq
      · exact h2 he
    · intro e he hf
      have hne : e ∉ s.freed ∧ d ≠ e :=
        ⟨fun hm => hf (List.mem_cons_of_mem _ hm), fun hd => hf (hd ▸ List.mem_cons_self)⟩
      exact Or.inr ((h.kept e he hne.1).resolve_left (by simpa using hne.2))

/-- The directory in hand goes to a process, which gives up the one it had: a new process, that
had none, or the caller of `exec`, if nobody else is using the old one. -/
theorem Owned.swap {d : Nat} (h : Owned (some d) s) {p : Slot} {e : Entry}
    (he : e.phase = .active ∧ e.built = true ∧ e.isthread = false ∧ e.pgdir = some d)
    (hx : ∀ d', x = some d' ↔ (s.entry p).Owns d')
    (halone : ∀ q d', q ≠ p → x = some d' → ¬ (s.entry q).Uses d') :
    Owned x (s.setEntry p e) := by
  obtain ⟨hlt, hnf, hno, hnx⟩ := h.handOk d rfl
  have hnew : ∀ d', e.Owns d' ↔ d' = d := by
    intro d'
    refine ⟨fun ho => Option.some.inj (ho.pgdir.symm.trans he.2.2.2), ?_⟩
    rintro rfl
    exact ⟨Or.inl he.1, he.2.2.1, he.2.2.2⟩
  have hreadye : e.Ready := ⟨he.2.1, by simp [he.2.2.2]⟩
  -- the owners are `p`, of `d`, and the others as before
  have howns : ∀ q d', ((s.setEntry p e).entry q).Owns d' ↔
      (q = p ∧ d' = d) ∨ (q ≠ p ∧ (s.entry q).Owns d') := by
    intro q d'
    by_cases hq : q = p
    · subst hq; simp [hnew]
    · simp [hq]
  refine ⟨h.freedOnce, h.freedLt, ?_, ?_, ?_, ?_, ?_, ?_, ?_, ?_⟩
  · intro q
    by_cases hq : q = p
    · subst hq; rw [setEntry_same]; exact fun _ => hreadye
    · rw [setEntry_ne hq]; exact h.ready q
  · intro q r d' hq hr
    rcases (howns q d').1 hq with ⟨hqp, rfl⟩ | ⟨-, hq'⟩ <;>
      rcases (howns r d').1 hr with ⟨hrp, hd⟩ | ⟨-, hr'⟩
    · rw [hqp, hrp]
    · exact absurd hr' (hno r)
    · exact absurd (hd ▸ hq') (hno q)
    · exact h.owner q r d' hq' hr'
  · intro q d' hq
    rcases (howns q d').1 hq with ⟨rfl, rfl⟩ | ⟨-, hq⟩
    · exact ⟨hlt, hnf⟩
    · exact h.ownerOk q d' hq
  · intro q d' hu
    by_cases hq : q = p
    · subst hq
      rw [setEntry_same] at hu
      obtain rfl : d' = d := Option.some.inj (hu.pgdir.symm.trans he.2.2.2)
      exact ⟨q, by rw [setEntry_same]; exact he.1, (howns q d').2 (Or.inl ⟨rfl, rfl⟩)⟩
    · rw [setEntry_ne hq] at hu
      obtain ⟨m, hm, ho⟩ := h.share q d' hu
      have hmp : m ≠ p := by
        rintro rfl
        exact halone q d' hq ((hx d').2 ho) hu
      exact ⟨m, by rwa [setEntry_ne hmp], (howns m d').2 (Or.inr ⟨hmp, ho⟩)⟩
  · intro q d' hq
    obtain ⟨h1, h2, h3, h4⟩ := h.execOk q d' hq
    refine ⟨h1, h2, fun r hr => ?_, h4⟩
    rcases (howns r d').1 hr with ⟨-, rfl⟩ | ⟨-, hr⟩
    · exact hnx q hq
    · exact h3 r hr
  · intro q m hm
    by_cases hmp : m = p
    · subst hmp; rw [setEntry_same]; exact hreadye
    · rw [setEntry_ne hmp]; exact h.cloned q m hm
  · intro d' hd'
    have hp := (hx d').1 hd'
    refine ⟨(h.ownerOk p d' hp).1, (h.ownerOk p d' hp).2, fun r hr => ?_,
      fun r hr => (h.execOk r d' hr).2.2.1 p hp⟩
    rcases (howns r d').1 hr with ⟨-, rfl⟩ | ⟨hrp, hr⟩
    · exact hno p hp
    · exact hrp (h.owner r p d' hr hp)
  · intro d' hd' hf
    rcases h.kept d' hd' hf with hd | ⟨q, hq⟩ | hcall
    · obtain rfl : d = d' := Option.some.inj hd
      exact Or.inr (Or.inl ⟨p, (howns p d).2 (Or.inl ⟨rfl, rfl⟩)⟩)
    · by_cases hqp : q = p
      · subst hqp
        exact Or.inl ((hx d').2 hq)
      · exact Or.inr (Or.inl ⟨q, (howns q d').2 (Or.inr ⟨hqp, hq⟩)⟩)
    · exact Or.inr (Or.inr hcall)

/-- The directory in hand is what `exec` works on. -/
theorem Owned.toExec {d : Nat} (h : Owned (some d) s) {p : Slot} (hp : ∀ d, s.call p ≠ .execing d) :
    Owned none (s.setCall p (.execing d)) := by
  obtain ⟨hlt, hnf, hno, hnx⟩ := h.handOk d rfl
  refine ⟨h.freedOnce, h.freedLt, h.ready, h.owner, h.ownerOk, h.share, ?_, ?_, by simp, ?_⟩
  · intro q d' hq
    by_cases hqp : q = p
    · subst hqp
      obtain rfl : d = d' := by simpa using hq
      refine ⟨hlt, hnf, hno, fun r hr => ?_⟩
      by_contra hrq
      rw [setCall_ne hrq] at hr
      exact hnx r hr
    · rw [setCall_ne hqp] at hq
      obtain ⟨h1, h2, h3, h4⟩ := h.execOk q d' hq
      refine ⟨h1, h2, h3, fun r hr => ?_⟩
      by_cases hrp : r = p
      · subst hrp
        obtain rfl : d = d' := by simpa using hr
        exact absurd hq (hnx q)
      · rw [setCall_ne hrp] at hr
        exact h4 r hr
  · intro q np hq
    by_cases hqp : q = p
    · subst hqp
      simp [Call.Cloned] at hq
    · rw [setCall_ne hqp] at hq
      exact h.cloned q np hq
  · intro d' hd' hf
    rcases h.kept d' hd' hf with hd | ho | ⟨q, hq⟩
    · obtain rfl : d = d' := Option.some.inj hd
      exact Or.inr (Or.inr ⟨p, by simp⟩)
    · exact Or.inr (Or.inl ho)
    · have hqp : q ≠ p := by rintro rfl; exact hp d' hq
      exact Or.inr (Or.inr ⟨q, by rwa [setCall_ne hqp]⟩)

/-- `exec` ends, with its directory in hand. -/
theorem Owned.fromExec (h : Owned none s) {p : Slot} {d : Nat} (hp : s.call p = .execing d) :
    Owned (some d) (s.setCall p .user) := by
  obtain ⟨hlt, hnf, hno, halone⟩ := h.execOk p d hp
  have hother : ∀ q d', (s.setCall p .user).call q = .execing d' →
      q ≠ p ∧ s.call q = .execing d' := by
    intro q d' hq
    have hqp : q ≠ p := by rintro rfl; simp at hq
    exact ⟨hqp, by rwa [setCall_ne hqp] at hq⟩
  refine ⟨h.freedOnce, h.freedLt, h.ready, h.owner, h.ownerOk, h.share, ?_, ?_, ?_, ?_⟩
  · intro q d' hq
    obtain ⟨h1, h2, h3, h4⟩ := h.execOk q d' (hother q d' hq).2
    exact ⟨h1, h2, h3, fun r hr => h4 r (hother r d' hr).2⟩
  · intro q np hq
    by_cases hqp : q = p
    · subst hqp
      simp [Call.Cloned] at hq
    · rw [setCall_ne hqp] at hq
      exact h.cloned q np hq
  · intro d' hd'
    obtain rfl : d = d' := Option.some.inj hd'
    exact ⟨hlt, hnf, hno, fun q hq => (hother q d hq).1 (halone q (hother q d hq).2)⟩
  · intro d' hd' hf
    rcases (h.kept d' hd' hf).resolve_left (by simp) with ho | ⟨q, hq⟩
    · exact Or.inr (Or.inl ho)
    · by_cases hqp : q = p
      · subst hqp
        rw [hp] at hq
        obtain rfl : d = d' := by simpa using hq
        exact Or.inl rfl
      · exact Or.inr (Or.inr ⟨q, by rwa [setCall_ne hqp]⟩)

/-- `wait` takes a zombie's slot; if it is not a thread, its directory is in hand. -/
theorem Owned.reap (h : Owned none s) {p : Slot} (hz : (s.entry p).phase = .zombie) :
    Owned (if (s.entry p).isthread then none else (s.entry p).pgdir)
      (s.setEntry p { s.entry p with phase := .unused }) := by
  have hx : ∀ d, (if (s.entry p).isthread then none else (s.entry p).pgdir) = some d ↔
      (s.entry p).Owns d := by
    intro d
    cases ht : (s.entry p).isthread with
    | true => simpa using fun ho : (s.entry p).Owns d => by simpa [ht] using ho.plain
    | false => exact ⟨fun e => ⟨Or.inr hz, ht, by simpa using e⟩, fun ho => by simpa using ho.pgdir⟩
  have howns : ∀ q d, ((s.setEntry p { s.entry p with phase := .unused }).entry q).Owns d ↔
      q ≠ p ∧ (s.entry q).Owns d := by
    intro q d
    by_cases hq : q = p
    · subst hq
      rw [setEntry_same]
      refine ⟨fun ho => ?_, fun ho => absurd rfl ho.1⟩
      rcases ho.live with e | e <;> cases e
    · simp [hq]
  refine ⟨h.freedOnce, h.freedLt, ?_, ?_, ?_, ?_, ?_, ?_, ?_, ?_⟩
  · intro q hl
    by_cases hq : q = p
    · subst hq
      rw [setEntry_same] at hl
      rcases hl with e | e <;> cases e
    · rw [setEntry_ne hq] at hl ⊢; exact h.ready q hl
  · exact fun q r d hq hr => h.owner q r d ((howns q d).1 hq).2 ((howns r d).1 hr).2
  · exact fun q d hq => h.ownerOk q d ((howns q d).1 hq).2
  · intro q d hu
    have hqp : q ≠ p := by
      rintro rfl
      rw [setEntry_same] at hu
      rcases hu.phase with e | e <;> cases e
    rw [setEntry_ne hqp] at hu
    obtain ⟨m, hm, ho⟩ := h.share q d hu
    have hmp : m ≠ p := by
      rintro rfl
      rw [hm] at hz
      cases hz
    exact ⟨m, by rwa [setEntry_ne hmp], (howns m d).2 ⟨hmp, ho⟩⟩
  · intro q d hq
    obtain ⟨h1, h2, h3, h4⟩ := h.execOk q d hq
    exact ⟨h1, h2, fun r hr => h3 r ((howns r d).1 hr).2, h4⟩
  · intro q m hm
    by_cases hmp : m = p
    · subst hmp; rw [setEntry_same]; exact h.cloned q m hm
    · rw [setEntry_ne hmp]; exact h.cloned q m hm
  · intro d hd
    have hp := (hx d).1 hd
    refine ⟨(h.ownerOk p d hp).1, (h.ownerOk p d hp).2, fun r hr => ?_,
      fun r hr => (h.execOk r d hr).2.2.1 p hp⟩
    obtain ⟨hrp, ho⟩ := (howns r d).1 hr
    exact hrp (h.owner r p d ho hp)
  · intro d hd hf
    rcases (h.kept d hd hf).resolve_left (by simp) with ⟨q, hq⟩ | hcall
    · by_cases hqp : q = p
      · subst hqp
        exact Or.inl ((hx d).2 hq)
      · exact Or.inr (Or.inl ⟨q, (howns q d).2 ⟨hqp, hq⟩⟩)
    · exact Or.inr (Or.inr hcall)

end Dirs

/-! ## 4. What the functions of `proc.c` and `exec` do to the directories -/

theorem dirs_upd (k : Kernel) (p : Slot) (f : Proc → Proc) :
    (k.upd p f).dirs = k.dirs.setEntry p (f (k.proc p)).entry := by
  simp only [Kernel.dirs, Dirs.setEntry, Kernel.upd, Dirs.mk.injEq, and_true]
  funext q
  by_cases hq : q = p
  · subst hq; simp
  · simp [hq]

theorem dirs_upd_bump (k : Kernel) (p : Slot) (f : Proc → Proc) (n : Nat) :
    ({ k.upd p f with nextpid := n } : Kernel).dirs = k.dirs.setEntry p (f (k.proc p)).entry :=
  dirs_upd k p f

theorem dirs_upd_same {k : Kernel} {p : Slot} {f : Proc → Proc}
    (h : (f (k.proc p)).entry = (k.proc p).entry) : (k.upd p f).dirs = k.dirs := by
  rw [dirs_upd, h]
  simp [Dirs.setEntry, Kernel.dirs]

theorem dirs_setCall (k : Kernel) (p : Slot) (c : Call) :
    (k.setCall p c).dirs = k.dirs.setCall p c := rfl

theorem dirs_mapProcs {k : Kernel} {g : Slot → Proc → Proc}
    (h : ∀ p, (g p (k.proc p)).entry = (k.proc p).entry) : (k.mapProcs g).dirs = k.dirs := by
  simp only [Kernel.dirs, Kernel.mapProcs, Dirs.mk.injEq, and_true]
  exact funext h

theorem dirs_core (k : Kernel) : k.core.dirs = k.dirs := by
  simp only [Kernel.dirs, Kernel.core, Dirs.mk.injEq, and_true]
  funext p
  simp only [Proc.entry, Proc.core]
  cases (k.proc p).state <;> rfl

theorem dirs_eq_of_core {k k' : Kernel} (h : k'.core = k.core) : k'.dirs = k.dirs := by
  rw [← dirs_core, h, dirs_core]

/-- Passing children to init does not touch a directory. -/
theorem dirs_reparent (k : Kernel) (p : Slot) : (reparent k p).dirs = k.dirs := by
  have hmap : (k.mapProcs fun _ x => if x.parent = some p then
      { x with parent := some k.initproc, guardian := (k.proc k.initproc).born } else x).dirs =
      k.dirs := by
    refine dirs_mapProcs fun q => ?_
    split <;> rfl
  unfold reparent
  simp only
  split
  · rw [dirs_eq_of_core (core_wakeup1 _ _), hmap]
  · exact hmap

theorem dirs_zombie {k k' : Kernel} (h : k'.dirs = k.dirs) (p : Slot) :
    (k'.upd p fun x => { x with state := .zombie }).dirs =
      k.dirs.setEntry p { k.dirs.entry p with phase := .zombie } := by
  rw [dirs_upd, h]
  have he : (k'.proc p).entry = k.dirs.entry p := congrFun (congrArg Dirs.entry h) p
  rw [← he]
  rfl

theorem dirs_exit (k : Kernel) (p : Slot) :
    (exit k p).dirs = k.dirs.setEntry p { k.dirs.entry p with phase := .zombie } :=
  dirs_zombie ((dirs_reparent _ p).trans (dirs_eq_of_core (core_wakeup1 k _))) p

theorem dirs_texit (k : Kernel) (p : Slot) :
    (texit k p).dirs = k.dirs.setEntry p { k.dirs.entry p with phase := .zombie } :=
  dirs_zombie (dirs_eq_of_core (core_wakeup1 k _)) p

theorem dirs_reap (k : Kernel) (q : Slot) :
    (reap k q).dirs =
      { k.dirs.setEntry q { k.dirs.entry q with phase := .unused } with
        freed := (if (k.dirs.entry q).isthread then none else (k.dirs.entry q).pgdir).elim
          k.dirs.freed (· :: k.dirs.freed) } := by
  unfold reap
  by_cases ht : (k.proc q).isthread = true
  · rw [if_pos ht, if_pos (show (k.dirs.entry q).isthread = true from ht), dirs_upd]
    rfl
  · rw [if_neg ht, if_neg (show ¬ (k.dirs.entry q).isthread = true from ht), dirs_upd]
    rfl

theorem dirs_execCommit (k : Kernel) (p : Slot) (d : Nat) :
    (execCommit k p d).dirs =
      { (k.dirs.setCall p .user).setEntry p { k.dirs.entry p with pgdir := some d } with
        freed := (k.proc p).pgdir.elim k.dirs.freed (· :: k.dirs.freed) } := by
  have h := dirs_upd k p fun x => { x with pgdir := some d }
  simp only [execCommit, Kernel.dirs, Kernel.freevm, Kernel.setCall, Dirs.setCall, Dirs.setEntry,
    Dirs.mk.injEq] at h ⊢
  exact ⟨h.1, rfl, rfl, rfl⟩

/-! ## 5. Every step keeps the invariant -/

/-- Nobody but `p` runs on `p`'s page directory, or is being made to. -/
def Alone (k : Kernel) (p : Slot) : Prop :=
  ∀ q, q = p ∨ (k.proc q).state = .unused ∨ (k.proc q).state = .zombie ∨
    (k.proc q).built = false ∨ (k.proc q).pgdir ≠ (k.proc p).pgdir

instance (k : Kernel) (p : Slot) : Decidable (Alone k p) :=
  inferInstanceAs (Decidable (∀ q, q = p ∨ _ ∨ _ ∨ _ ∨ (k.proc q).pgdir ≠ (k.proc p).pgdir))

/-- A process that is not a thread leaves, and anyone commits to a new image, only when nobody
else is using the old one; nobody is orphaned; and `setupkvm` does not run out of pages half way
(it returns 0 then, and what it has built is lost). -/
def Unshared (k : Kernel) : Act → Prop
  | .exit p => NoOrphan k (.exit p) ∧ ((k.proc p).isthread = false → Alone k p)
  | .texit p => NoOrphan k (.texit p) ∧ ((k.proc p).isthread = false → Alone k p)
  | .execCommit p => Alone k p
  | .forkCopy _ o => o ≠ .halfBuilt
  | .execBuild _ o => o ≠ .halfBuilt
  | _ => True

instance (k : Kernel) : (a : Act) → Decidable (Unshared k a)
  | .exit p => inferInstanceAs (Decidable (NoOrphan k (.exit p) ∧ (_ → Alone k p)))
  | .texit p => inferInstanceAs (Decidable (NoOrphan k (.texit p) ∧ (_ → Alone k p)))
  | .execCommit p => inferInstanceAs (Decidable (Alone k p))
  | .forkCopy _ o => inferInstanceAs (Decidable (o ≠ .halfBuilt))
  | .execBuild _ o => inferInstanceAs (Decidable (o ≠ .halfBuilt))
  | .schedule _ | .yield _ | .sleep _ _ | .tsleep _ | .wakeup _ | .twakeup _ _ | .forkAlloc _ _
  | .cloneAlloc _ _ _ _ | .cloneLoop _ | .cloneFinish _ _ | .wait _ | .kill _ _
  | .execBad _ => isTrue trivial

theorem Unshared.noOrphan {k : Kernel} {a : Act} (h : Unshared k a) : NoOrphan k a := by
  cases a with
  | exit p | texit p => exact h.1
  | _ => trivial

section Steps

variable {k : Kernel} {p : Slot}

theorem Alone.not_uses (h : Alone k p) {q : Slot} {d : Nat} (hq : q ≠ p)
    (hd : (k.proc p).pgdir = some d) : ¬ (k.dirs.entry q).Uses d := by
  intro hu
  have hph : (k.proc q).state.phase = .active ∨ (k.proc q).state.phase = .embryo := hu.phase
  rcases h q with e | e | e | e | e
  · exact hq e
  · rw [e] at hph; simp [ProcState.phase] at hph
  · rw [e] at hph; simp [ProcState.phase] at hph
  · have : (k.proc q).built = true := hu.built
    rw [e] at this
    cases this
  · exact e (hu.pgdir.trans hd.symm)

/-- An active process is using its directory. -/
theorem uses_of_active (h : k.dirs.Owned none) (hact : (k.dirs.entry p).phase = .active) {d : Nat}
    (hd : (k.proc p).pgdir = some d) : (k.dirs.entry p).Uses d :=
  ⟨Or.inl hact, (h.ready p (Or.inl hact)).1, hd⟩

theorem owned_allocproc (h : k.dirs.Owned none) (ht : k.shape.Tree) (kallocOk : Bool) :
    (allocproc k kallocOk).2.dirs.Owned none := by
  rcases allocproc_cases k kallocOk with he | ⟨np, hun, he⟩
  · rw [he]
    exact h
  have hph : (k.shape.node np).phase = .unused := by
    simp [Kernel.shape, Proc.node, hun, ProcState.phase]
  have hnl : ¬ (k.dirs.entry np).Live := by
    simp [Entry.Live, Kernel.dirs, Proc.entry, hun, ProcState.phase]
  have hcl : ∀ q, ¬ (k.dirs.call q).Cloned np :=
    fun q hq => ht.unclaimed (by simp [hph]) q (hq.np)
  rw [he]
  cases kallocOk with
  | false =>
    simp only [Bool.false_eq_true, if_false, dirs_upd_bump]
    exact h.vacate hnl hcl (Or.inl rfl)
  | true =>
    simp only [if_true, dirs_upd_bump]
    exact h.vacate hnl hcl (Or.inr ⟨rfl, rfl⟩)

theorem owned_fork (h : k.dirs.Owned none) (ht : k.shape.Tree) {np : Slot}
    (hc : k.call p = .forking np) {o : Outcome} (ho : o ≠ .halfBuilt) :
    (fork k p np o).dirs.Owned none := by
  have hemb : (k.proc np).state.phase = .embryo :=
    (ht.embryo p np (by simp [Kernel.shape, hc, Call.np])).1
  have hnl : ¬ (k.dirs.entry np).Live := by simp [Entry.Live, Kernel.dirs, Proc.entry, hemb]
  have hcl : ∀ q, ¬ (k.dirs.call q).Cloned np := by
    intro q hq
    -- only the caller is filling `np` in, and it is not cloning
    obtain rfl : q = p := ht.builder q p np hq.np (by simp [Kernel.shape, hc, Call.np])
    rw [show k.dirs.call q = .forking np from hc] at hq
    simp [Call.Cloned] at hq
  have hnx : ∀ d, k.dirs.call p ≠ .execing d := by simp [Kernel.dirs, hc]
  have huser : ∀ {s : Dirs}, s.call = k.dirs.call → s.Owned none → (s.setCall p .user).Owned none :=
    fun hs h' => h'.setCall (by rw [hs]; exact hnx) (by simp) (by simp [Call.Cloned])
  cases o with
  | ok =>
    rw [fork, dirs_setCall, dirs_upd]
    refine huser rfl (h.make.swap ⟨rfl, rfl, rfl, rfl⟩ (fun d => ?_) (by simp))
    exact ⟨fun e => (by cases e), fun hw => absurd hw.live hnl⟩
  | noPage =>
    rw [fork, dirs_setCall, dirs_upd]
    exact huser rfl (h.vacate hnl hcl (Or.inl rfl))
  | halfBuilt => exact absurd rfl ho
  | bad =>
    rw [fork, dirs_setCall, dirs_upd]
    exact huser rfl (h.make.free.vacate hnl hcl (Or.inl rfl))

theorem owned_clone (h : k.dirs.Owned none) (hf : k.Free p) {np : Slot}
    (hnew : (k.proc np).state = .embryo) (hfree : ∀ q, (k.call q).np ≠ some np)
    (stack routine : Nat) : (clone k p np stack routine).dirs.Owned none := by
  unfold clone
  split
  · exact h
  have hact : (k.dirs.entry p).phase = .active := active_of_state hf.1
  have hready := h.ready p (Or.inl hact)
  rw [dirs_setCall, dirs_upd]
  have hnl : ¬ (k.dirs.entry np).Live := by
    simp [Entry.Live, Kernel.dirs, Proc.entry, hnew, ProcState.phase]
  refine Dirs.Owned.setCall ?_ (by simp [Kernel.dirs, hf.2]) (by simp) ?_
  · refine h.setEntry hnl (fun _ => ⟨rfl, hready.2⟩) (fun d ho => absurd ho.plain (by simp [Proc.entry]))
      (fun d hu => h.share p d (uses_of_active h hact hu.pgdir)) (fun q hq => absurd hq.np (hfree q))
  · intro m hm
    obtain rfl : np = m := by simpa [Call.Cloned] using hm
    rw [Dirs.setEntry_same]
    exact ⟨rfl, hready.2⟩

theorem owned_cloneLoop {k' : Kernel} (h : k.dirs.Owned none) {np pp : Slot}
    (hc : k.call p = .cloning np pp) (hs : cloneLoop k p np pp = some k') :
    k'.dirs.Owned none := by
  have hready : (k.dirs.entry np).Ready := h.cloned p np (Or.inl ⟨pp, hc⟩)
  unfold cloneLoop at hs
  split at hs
  · rw [Option.map_eq_some_iff] at hs
    obtain ⟨q, -, rfl⟩ := hs
    refine h.setCall (by simp [Kernel.dirs, hc]) (by simp) ?_
    intro m hm
    obtain rfl : np = m := by simpa [Call.Cloned] using hm
    exact hready
  · obtain rfl : _ = k' := Option.some.inj hs
    rw [dirs_setCall, dirs_upd_same rfl]
    refine h.setCall (by simp [Kernel.dirs, hc]) (by simp) ?_
    intro m hm
    obtain rfl : np = m := by simpa [Call.Cloned] using hm
    exact hready

theorem owned_cloneFinish (h : k.dirs.Owned none) (ht : k.shape.Tree) {np : Slot}
    (hc : k.call p = .adopted np) (copyoutOk : Bool) :
    (cloneFinish k p np copyoutOk).dirs.Owned none := by
  have hemb : (k.proc np).state.phase = .embryo :=
    (ht.embryo p np (by simp [Kernel.shape, hc, Call.np])).1
  have hthr : (k.proc np).isthread = true := (ht.adopted p np hc).1
  have hready : (k.dirs.entry np).Ready := h.cloned p np (Or.inr hc)
  have hnx : ∀ d, k.dirs.call p ≠ .execing d := by simp [Kernel.dirs, hc]
  unfold cloneFinish
  split
  · rw [dirs_setCall, dirs_upd]
    refine Dirs.Owned.setCall ?_ hnx (by simp) (by simp [Call.Cloned])
    refine h.setEntry ?_ (fun _ => hready) (fun d ho => ?_) (fun d hu => ?_) (fun _ _ => hready)
    · simp [Entry.Live, Kernel.dirs, Proc.entry, hemb]
    · have : (k.proc np).isthread = false := ho.plain
      rw [hthr] at this
      cases this
    · exact h.share np d ⟨Or.inr hemb, hready.1, hu.pgdir⟩
  · exact h.setCall hnx (by simp) (by simp [Call.Cloned])

theorem owned_depart (h : k.dirs.Owned none) (hf : k.Free p)
    (ha : (k.proc p).isthread = false → Alone k p) :
    (k.dirs.setEntry p { k.dirs.entry p with phase := .zombie }).Owned none :=
  h.depart (active_of_state hf.1) fun ht _ _ hq hd => (ha ht).not_uses hq hd

theorem owned_wait (h : k.dirs.Owned none) (hc : k.call p = .user ∨ k.call p = .waiting)
    (hr : (k.proc p).state = .running) : (wait k p).dirs.Owned none := by
  have hnx : ∀ d, k.dirs.call p ≠ .execing d := by
    intro d hd
    rcases hc with e | e <;> rw [show k.call p = _ from hd] at e <;> cases e
  unfold wait
  cases hq : reaps k p with
  | some q =>
    have hz : (k.dirs.entry q).phase = .zombie := by
      simp [Kernel.dirs, Proc.entry, (reaps_spec hq).2, ProcState.phase]
    simp only [dirs_setCall, dirs_reap]
    exact (h.reap hz).free.setCall hnx (by simp) (by simp [Call.Cloned])
  | none =>
    simp only
    split
    · exact h.setCall hnx (by simp) (by simp [Call.Cloned])
    · rw [dirs_setCall, dirs_upd_same (by simp [Proc.entry, hr, ProcState.phase])]
      exact h.setCall hnx (by simp) (by simp [Call.Cloned])

theorem owned_execBuild (h : k.dirs.Owned none) (hf : k.Free p) {o : Outcome}
    (ho : o ≠ .halfBuilt) : (execBuild k p o).dirs.Owned none := by
  cases o with
  | ok => exact h.make.toExec (by simp [Kernel.dirs, hf.2])
  | noPage => exact h
  | halfBuilt => exact absurd rfl ho
  | bad => exact h.make.free

/-- **The commit of `exec`.**  A caller that is alone on its directory is no thread: a thread
always shares its directory with the process that owns it. -/
theorem owned_execCommit (h : k.dirs.Owned none) (hr : (k.proc p).state = .running) {d : Nat}
    (hc : k.call p = .execing d) (ha : Alone k p) : (execCommit k p d).dirs.Owned none := by
  have hact : (k.dirs.entry p).phase = .active := active_of_state hr
  obtain ⟨d₀, hd₀⟩ := Option.isSome_iff_exists.1 (h.ready p (Or.inl hact)).2
  have hplain : (k.dirs.entry p).isthread = false := by
    obtain ⟨m, hm, hown⟩ := h.share p d₀ (uses_of_active h hact hd₀)
    by_cases hmp : m = p
    · exact hmp ▸ hown.plain
    · exact absurd (uses_of_active h hm hown.pgdir) (ha.not_uses hmp hd₀)
  rw [dirs_execCommit]
  refine Dirs.Owned.free ((h.fromExec hc).swap
    ⟨hact, (h.ready p (Or.inl hact)).1, hplain, rfl⟩ (fun d' => ?_) fun q d' hq hd' => ?_)
  · exact ⟨fun e => ⟨Or.inl hact, hplain, e⟩, fun ho => ho.pgdir⟩
  · exact ha.not_uses hq hd'

/-- **The step lemma.** -/
theorem step_owned (k : Kernel) (a : Act) (k' : Kernel)
    (h : k.shape.Tree ∧ k.dirs.Owned none) (hu : Unshared k a) (hs : step k a = some k') :
    k'.shape.Tree ∧ k'.dirs.Owned none := by
  refine ⟨step_tree k a k' h.1 hu.noOrphan hs, ?_⟩
  obtain ⟨ht, h⟩ := h
  cases a with
  | schedule _ | yield _ | sleep _ _ | tsleep _ | wakeup _ | twakeup _ _ | kill _ _ =>
    rw [dirs_eq_of_core (step_idle rfl hs)]
    exact h
  | forkAlloc p kallocOk =>
    obtain ⟨hf, hal | ⟨np, k₁, hal, rfl⟩⟩ := step_forkAlloc hs <;>
      have h' := owned_allocproc h ht kallocOk <;> have hnew := (tree_allocproc ht kallocOk).2 <;>
      simp only [hal] at h' hnew
    · exact h'
    · have hcall : k₁.call p = .user := by rw [(hnew np rfl).2.2.2]; exact hf.2
      exact h'.setCall (by simp [Kernel.dirs, hcall]) (by simp) (by simp [Call.Cloned])
  | cloneAlloc p kallocOk stack routine =>
    obtain ⟨hf, hal | ⟨np, k₁, hal, rfl⟩⟩ := step_cloneAlloc hs <;>
      have h' := owned_allocproc h ht kallocOk <;> have hnew := (tree_allocproc ht kallocOk).2 <;>
      simp only [hal] at h' hnew
    · exact h'
    · obtain ⟨hst, hold, hfree, hcall⟩ := hnew np rfl
      have heq := (hold p (by simp [hf.1])).1
      have hf' : k₁.Free p := ⟨by rw [heq]; exact hf.1, by rw [hcall]; exact hf.2⟩
      exact owned_clone h' hf' hst hfree stack routine
  | forkCopy p o =>
    obtain ⟨np, hc, rfl⟩ := step_forkCopy hs
    exact owned_fork h ht hc hu
  | cloneLoop p =>
    obtain ⟨np, pp, hc, hs⟩ := step_cloneLoop hs
    exact owned_cloneLoop h hc hs
  | cloneFinish p copyoutOk =>
    obtain ⟨np, hc, rfl⟩ := step_cloneFinish hs
    exact owned_cloneFinish h ht hc copyoutOk
  | exit p =>
    obtain ⟨hf, -, rfl⟩ := step_exit hs
    rw [dirs_exit]
    exact owned_depart h hf hu.2
  | texit p =>
    obtain ⟨hf, -, rfl⟩ := step_texit hs
    rw [dirs_texit]
    exact owned_depart h hf hu.2
  | wait p =>
    obtain ⟨hr, hc, rfl⟩ := step_wait hs
    exact owned_wait h hc hr
  | execBuild p o =>
    obtain ⟨hf, rfl⟩ := step_execBuild hs
    exact owned_execBuild h hf hu
  | execCommit p =>
    obtain ⟨d, hc, hr, rfl⟩ := step_execCommit hs
    exact owned_execCommit h hr hc hu
  | execBad p =>
    obtain ⟨d, hc, rfl⟩ := step_execBad hs
    exact (h.fromExec hc).free

end Steps

/-! ## 6. The lifetime of a directory -/

/-- **A page directory is freed once, when nobody needs it any more, and it is not lost.** -/
structure Lifetime (k : Kernel) : Prop where
  /-- No directory has been freed twice. -/
  once : k.freed.Nodup
  /-- No directory that was freed is that of a process that runs, can run, or is being made.
  (An `EMBRYO` whose `pgdir` is left over from the slot's last process is not counted.) -/
  idle : ∀ q d, (k.proc q).state ≠ .unused → (k.proc q).state ≠ .zombie →
    (k.proc q).built = true → (k.proc q).pgdir = some d → d ∉ k.freed
  /-- A directory that was not freed belongs to a process that is not a thread, whose parent can
  still reap it (or it is init, which never ends); or `exec` is still working on it. -/
  kept : ∀ d, d < k.nextdir → d ∉ k.freed →
    (∃ p, (k.proc p).state ≠ .unused ∧ (k.proc p).state ≠ .embryo ∧
      (k.proc p).isthread = false ∧ (k.proc p).pgdir = some d ∧
      (p = k.initproc ∨ ∃ q, (k.proc p).parent = some q ∧ (k.proc q).state.phase = .active)) ∨
    ∃ p, k.call p = .execing d

theorem lifetime_of_owned {k : Kernel} (ht : k.shape.Tree) (h : k.dirs.Owned none) :
    Lifetime k where
  once := h.freedOnce
  idle q d hu hz hb hd := by
    have hph : (k.proc q).state.phase = .active ∨ (k.proc q).state.phase = .embryo := by
      cases hst : (k.proc q).state <;> simp [hst, ProcState.phase] at hu hz ⊢
    obtain ⟨m, -, hown⟩ := h.share q d ⟨hph, hb, hd⟩
    exact (h.ownerOk m d hown).2
  kept d hd hf := by
    refine ((h.kept d hd hf).resolve_left (by simp)).imp ?_ id
    rintro ⟨p, ho⟩
    have hlive : k.shape.Live p := ho.live
    refine ⟨p, (live_iff.1 hlive).1, (live_iff.1 hlive).2, ho.plain, ho.pgdir, ?_⟩
    by_cases hp : p = k.initproc
    · exact Or.inl hp
    · obtain ⟨q, hq⟩ := ht.placed p hlive hp
      exact Or.inr ⟨q, hq.parent, hq.active⟩

theorem owned_boot : boot.dirs.Owned none := by
  have hne : ∀ p : Slot, p ≠ 0 → (boot.dirs.entry p).phase = .unused := by
    intro p hp
    simp [boot, Kernel.dirs, Proc.entry, hp, Proc.zero, ProcState.phase]
  have hzero : boot.dirs.entry 0 = ⟨.active, true, false, some 0⟩ := rfl
  have hown : ∀ p d, (boot.dirs.entry p).Owns d → p = 0 ∧ d = 0 := by
    intro p d ho
    obtain rfl : p = 0 := by
      by_contra hp
      rcases ho.live with e | e <;> rw [hne p hp] at e <;> cases e
    exact ⟨rfl, (Option.some.inj ho.pgdir).symm⟩
  refine ⟨List.nodup_nil, by simp [boot, Kernel.dirs], ?_, ?_, ?_, ?_, ?_, ?_, by simp, ?_⟩
  · intro p hl
    obtain rfl : p = 0 := by
      by_contra hp
      rcases hl with e | e <;> rw [hne p hp] at e <;> cases e
    exact ⟨rfl, rfl⟩
  · intro p q d hp hq
    rw [(hown p d hp).1, (hown q d hq).1]
  · intro p d ho
    rw [(hown p d ho).2]
    simp [boot, Kernel.dirs]
  · intro q d hu
    obtain rfl : q = 0 := by
      by_contra hq
      rcases hu.phase with e | e <;> rw [hne q hq] at e <;> cases e
    exact ⟨0, rfl, Or.inl rfl, rfl, hu.pgdir⟩
  · intro p d hc
    cases hc
  · intro p np hc
    rcases hc with ⟨pp, hc⟩ | hc <;> cases hc
  · intro d hd _
    obtain rfl : d = 0 := Nat.lt_one_iff.1 hd
    exact Or.inr (Or.inl ⟨0, Or.inl rfl, rfl, rfl⟩)

/-- **Lifetime, in every run in which a directory is given up only by its last user.** -/
theorem lifetime_unless_shared (as : List Act) (k : Kernel) (hgood : Along Unshared step boot as)
    (hrun : run step boot as = some k) : Lifetime k := by
  obtain ⟨ht, h⟩ := run_invariant step_owned as boot k ⟨tree_boot, owned_boot⟩ hgood hrun
  exact lifetime_of_owned ht h

/-- Init's child makes a thread, which leaves and is reaped; then the child calls `exec`, leaves
and is reaped in its turn. -/
def inOrder : List Act :=
  [.schedule 0, .forkAlloc 0 true, .forkCopy 0 .ok, .schedule 1,
    .cloneAlloc 1 true 4096 64, .cloneLoop 1, .cloneFinish 1 true, .schedule 2,
    .texit 2, .wait 1, .execBuild 1 .ok, .execCommit 1, .exit 1, .wait 0]

theorem lifetime_in_order :
    ∃ k, run step boot inOrder = some k ∧ Lifetime k ∧ k.freed = [2, 1] := by
  have hobs : (run step boot inOrder).map Kernel.freed = some [2, 1] := by decide +kernel
  obtain ⟨k, hk, hf⟩ := Option.map_eq_some_iff.1 hobs
  exact ⟨k, hk, lifetime_unless_shared inOrder k (by decide +kernel) hk, hf⟩

/-- Init's child makes a thread and exits before it. -/
def mainFirst : List Act :=
  [.schedule 0, .forkAlloc 0 true, .forkCopy 0 .ok, .schedule 1,
    .cloneAlloc 1 true 4096 64, .cloneLoop 1, .cloneFinish 1 true, .exit 1, .wait 0, .schedule 2]

/-- **A directory is freed under a thread**: init reaps the main process, and the thread then
runs on the directory that `wait` has just freed. -/
theorem directory_freed_under_a_thread :
    ∃ k, run step boot mainFirst = some k ∧ ¬ Lifetime k ∧
      (k.proc 2).state = .running ∧ (k.proc 2).pgdir = some 1 ∧ k.freed = [1] := by
  have hobs : (run step boot mainFirst).map (fun k => (k.freed, (k.proc 2).state,
      (k.proc 2).pgdir, (k.proc 2).built)) = some ([1], .running, some 1, true) := by decide +kernel
  obtain ⟨k, hk, hf⟩ := Option.map_eq_some_iff.1 hobs
  simp only [Prod.mk.injEq] at hf
  obtain ⟨hfreed, hst, hdir, hbuilt⟩ := hf
  refine ⟨k, hk, fun h => ?_, hst, hdir, hfreed⟩
  exact h.idle 2 1 (by simp [hst]) (by simp [hst]) hbuilt hdir (by simp [hfreed])

end Xv6.Ptable
