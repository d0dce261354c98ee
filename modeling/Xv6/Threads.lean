/-
# Code that can wait and panic, and processes interleaved between its atomic parts

Two levels of one language.  `Code` is what one process does without being interrupted: it
reads and changes a shared state `σ`, knows who runs it (`ρ`), and ends in one of three ways:
with a result, with a PANIC that stops the machine and leaves the state as it was at the panic,
or BLOCKED, when something it has to wait for is not there, and then nothing has happened.  A
`Prog` is a sequence of such pieces, each with a label, and other processes may run between any
two of them; `Prog.whole` runs all the pieces at once.

A system (`Sys`) is the shared state together with what is left of each process's program.  Its
moves are a process starting a new program (`call`) and a process running its next piece
(`move`).

`Code.wp` is the weakest precondition of a piece, and `Keeps` is the rule for a program between
whose pieces others run: each piece, started in ANY state that meets the invariant, must give the
invariant back, leave what the others know of the state (their `view`) alone, and leave behind a
program with the same property.  `sysOk_run` turns it into an invariant of whole runs.
-/
import Xv6.Runs

namespace Xv6.Threads

variable {ρ ε σ L V C α β : Type}

/-! ## 1. Uninterrupted code -/

/-- How a piece of code ends. -/
inductive Out (ε σ α : Type) where
  | ok (a : α) (s : σ)
  | blocked
  | panic (e : ε) (s : σ)

/-- Code run by `r : ρ` on a state, without interruption. -/
def Code (ρ ε σ α : Type) := ρ → σ → Out ε σ α

namespace Code

instance instMonad : Monad (Code ρ ε σ) where
  pure a := fun _ s => .ok a s
  bind m f := fun r s =>
    match m r s with
    | .ok a s' => f a r s'
    | .blocked => .blocked
    | .panic e s' => .panic e s'

/-- What comes second runs on the result of the first, -/
theorem run_bind {m : Code ρ ε σ α} {f : α → Code ρ ε σ β} {r : ρ} {s t : σ} {a : α}
    (h : m r s = .ok a t) : (m >>= f) r s = f a r t := by
  show (match m r s with
    | .ok a s' => f a r s'
    | .blocked => .blocked
    | .panic e s' => .panic e s') = _
  rw [h]

/-- and does not run after a panic. -/
theorem run_bind_panic {m : Code ρ ε σ α} {f : α → Code ρ ε σ β} {r : ρ} {s t : σ} {e : ε}
    (h : m r s = .panic e t) : (m >>= f) r s = .panic e t := by
  show (match m r s with
    | .ok a s' => f a r s'
    | .blocked => .blocked
    | .panic e s' => .panic e s') = _
  rw [h]

/-- Where both have ended, the first has ended before. -/
theorem bind_eq_ok {m : Code ρ ε σ α} {f : α → Code ρ ε σ β} {r : ρ} {s t : σ} {b : β} :
    (m >>= f) r s = .ok b t ↔ ∃ a u, m r s = .ok a u ∧ f a r u = .ok b t := by
  show (match m r s with
    | .ok a s' => f a r s'
    | .blocked => .blocked
    | .panic e s' => .panic e s') = _ ↔ _
  cases m r s <;> simp

instance : LawfulMonad (Code ρ ε σ) := by
  refine LawfulMonad.mk' _ (fun m => ?_) (fun _ _ => rfl) fun m f g => ?_
  · funext r s
    show (match m r s with
      | .ok a s' => Out.ok a s'
      | .blocked => .blocked
      | .panic e s' => .panic e s') = _
    cases m r s <;> rfl
  · funext r s
    show (match (match m r s with
        | .ok a s' => f a r s'
        | .blocked => .blocked
        | .panic e s' => .panic e s') with
      | .ok b s' => g b r s'
      | .blocked => .blocked
      | .panic e s' => .panic e s') = match m r s with
      | .ok a s' => (f a >>= g) r s'
      | .blocked => .blocked
      | .panic e s' => .panic e s'
    cases m r s <;> rfl

/-- Read something off the state. -/
def gets (f : σ → α) : Code ρ ε σ α := fun _ s => .ok (f s) s

/-- Change the state. -/
def modify (f : σ → σ) : Code ρ ε σ Unit := fun _ s => .ok () (f s)

/-- Who runs this code. -/
def self : Code ρ ε σ ρ := fun r s => .ok r s

/-- Stop the machine. -/
def panic (e : ε) : Code ρ ε σ α := fun _ s => .panic e s

/-- Stop the machine if `c` holds. -/
def panicIf (c : Prop) [Decidable c] (e : ε) : Code ρ ε σ Unit := if c then panic e else pure ()

/-- Run `m` if `c` holds. -/
def when (c : Prop) [Decidable c] (m : Code ρ ε σ Unit) : Code ρ ε σ Unit :=
  if c then m else pure ()

theorem panicIf_of_not {c : Prop} [Decidable c] (h : ¬c) (e : ε) (r : ρ) (s : σ) :
    panicIf c e r s = .ok () s := by
  unfold panicIf
  rw [if_neg h]
  rfl

theorem panicIf_of {c : Prop} [Decidable c] (h : c) (e : ε) (r : ρ) (s : σ) :
    panicIf c e r s = .panic e s := by
  unfold panicIf
  rw [if_pos h]
  rfl

theorem when_of {c : Prop} [Decidable c] (h : c) (m : Code ρ ε σ Unit) : when c m = m := if_pos h

theorem when_of_not {c : Prop} [Decidable c] (h : ¬c) (m : Code ρ ε σ Unit) (r : ρ) (s : σ) :
    when c m r s = .ok () s := by
  unfold when
  rw [if_neg h]
  rfl

/-- Go on only in a state that meets `c`. -/
def await (c : σ → Bool) : Code ρ ε σ Unit := fun _ s => if c s then .ok () s else .blocked

/-- The weakest precondition: `Q` of the result, `E` at a panic. -/
def wp (m : Code ρ ε σ α) (E : ε → σ → Prop) (Q : α → σ → Prop) (r : ρ) (s : σ) : Prop :=
  match m r s with
  | .ok a s' => Q a s'
  | .blocked => True
  | .panic e s' => E e s'

variable {E : ε → σ → Prop} {r : ρ} {s : σ}

@[simp] theorem wp_pure (a : α) (Q : α → σ → Prop) :
    wp (pure a : Code ρ ε σ α) E Q r s ↔ Q a s := Iff.rfl

@[simp] theorem wp_bind (m : Code ρ ε σ α) (f : α → Code ρ ε σ β) (Q : β → σ → Prop) :
    wp (m >>= f) E Q r s ↔ wp m E (fun a s' => wp (f a) E Q r s') r s := by
  show (match (match m r s with
      | .ok a s' => f a r s'
      | .blocked => .blocked
      | .panic e s' => .panic e s') with
    | .ok a s' => Q a s'
    | .blocked => True
    | .panic e s' => E e s') ↔ _
  unfold wp
  cases m r s <;> exact Iff.rfl

@[simp] theorem wp_gets (f : σ → α) (Q : α → σ → Prop) :
    wp (gets f : Code ρ ε σ α) E Q r s ↔ Q (f s) s := Iff.rfl

@[simp] theorem wp_modify (f : σ → σ) (Q : Unit → σ → Prop) :
    wp (modify f : Code ρ ε σ Unit) E Q r s ↔ Q () (f s) := Iff.rfl

@[simp] theorem wp_self (Q : ρ → σ → Prop) :
    wp (self : Code ρ ε σ ρ) E Q r s ↔ Q r s := Iff.rfl

@[simp] theorem wp_panic (e : ε) (Q : α → σ → Prop) :
    wp (panic e : Code ρ ε σ α) E Q r s ↔ E e s := Iff.rfl

@[simp] theorem wp_await (c : σ → Bool) (Q : Unit → σ → Prop) :
    wp (await c : Code ρ ε σ Unit) E Q r s ↔ (c s = true → Q () s) := by
  unfold wp await
  by_cases h : c s = true <;> simp [h]

@[simp] theorem wp_ite (c : Prop) [Decidable c] (m m' : Code ρ ε σ α) (Q : α → σ → Prop) :
    wp (if c then m else m') E Q r s ↔ (c → wp m E Q r s) ∧ (¬c → wp m' E Q r s) := by
  by_cases h : c <;> simp [h]

@[simp] theorem wp_panicIf (c : Prop) [Decidable c] (e : ε) (Q : Unit → σ → Prop) :
    wp (panicIf c e : Code ρ ε σ Unit) E Q r s ↔ (c → E e s) ∧ (¬c → Q () s) := by
  rw [panicIf, wp_ite, wp_panic, wp_pure]

@[simp] theorem wp_when (c : Prop) [Decidable c] (m : Code ρ ε σ Unit) (Q : Unit → σ → Prop) :
    wp (when c m) E Q r s ↔ (c → wp m E Q r s) ∧ (¬c → Q () s) := by
  rw [when, wp_ite, wp_pure]

theorem wp_mono {m : Code ρ ε σ α} {E' : ε → σ → Prop} {Q Q' : α → σ → Prop}
    (h : wp m E Q r s) (hE : ∀ e t, E e t → E' e t) (hQ : ∀ a t, Q a t → Q' a t) :
    wp m E' Q' r s := by
  unfold wp at h ⊢
  cases hm : m r s with
  | ok a t => rw [hm] at h; exact hQ a t h
  | blocked => trivial
  | panic e t => rw [hm] at h; exact hE e t h

/-- What is known of code that has ended. -/
theorem of_wp {m : Code ρ ε σ α} {Q : α → σ → Prop} {a : α} {t : σ} (h : wp m E Q r s)
    (hrun : m r s = .ok a t) : Q a t := by
  unfold wp at h
  rwa [hrun] at h

/-- A weaker postcondition. -/
theorem wp_imp {m : Code ρ ε σ α} {Q Q' : α → σ → Prop}
    (h : wp m E Q r s) (hQ : ∀ a t, Q a t → Q' a t) : wp m E Q' r s :=
  wp_mono h (fun _ _ he => he) hQ

/-- What two postconditions say together. -/
theorem wp_and {m : Code ρ ε σ α} {E' : ε → σ → Prop} {Q Q' : α → σ → Prop} (h : wp m E Q r s)
    (h' : wp m E' Q' r s) : wp m E (fun a t => Q a t ∧ Q' a t) r s := by
  unfold wp at h h' ⊢
  cases hm : m r s with
  | ok a t => rw [hm] at h h'; exact ⟨h, h'⟩
  | blocked => trivial
  | panic e t => rw [hm] at h; exact h

/-- What holds of every result in every state, and of every panic. -/
theorem wp_of_forall {m : Code ρ ε σ α} {Q : α → σ → Prop} (hQ : ∀ a t, Q a t)
    (hE : ∀ e t, E e t) : wp m E Q r s := by
  unfold wp
  cases m r s with
  | ok a t => exact hQ a t
  | blocked => trivial
  | panic e t => exact hE e t

/-- The code ends, neither blocked nor in a panic, and `Q` holds of the result. -/
def ends (m : Code ρ ε σ α) (Q : α → σ → Prop) (r : ρ) (s : σ) : Prop :=
  match m r s with
  | .ok a s' => Q a s'
  | .blocked => False
  | .panic _ _ => False

@[simp] theorem ends_pure (a : α) (Q : α → σ → Prop) :
    ends (pure a : Code ρ ε σ α) Q r s ↔ Q a s := Iff.rfl

@[simp] theorem ends_bind (m : Code ρ ε σ α) (f : α → Code ρ ε σ β) (Q : β → σ → Prop) :
    ends (m >>= f) Q r s ↔ ends m (fun a s' => ends (f a) Q r s') r s := by
  show (match (match m r s with
      | .ok a s' => f a r s'
      | .blocked => .blocked
      | .panic e s' => .panic e s') with
    | .ok a s' => Q a s'
    | .blocked => False
    | .panic _ _ => False) ↔ _
  unfold ends
  cases m r s <;> exact Iff.rfl

@[simp] theorem ends_gets (f : σ → α) (Q : α → σ → Prop) :
    ends (gets f : Code ρ ε σ α) Q r s ↔ Q (f s) s := Iff.rfl

@[simp] theorem ends_modify (f : σ → σ) (Q : Unit → σ → Prop) :
    ends (modify f : Code ρ ε σ Unit) Q r s ↔ Q () (f s) := Iff.rfl

@[simp] theorem ends_self (Q : ρ → σ → Prop) :
    ends (self : Code ρ ε σ ρ) Q r s ↔ Q r s := Iff.rfl

@[simp] theorem ends_await (c : σ → Bool) (Q : Unit → σ → Prop) :
    ends (await c : Code ρ ε σ Unit) Q r s ↔ c s = true ∧ Q () s := by
  unfold ends await
  by_cases h : c s = true <;> simp [h]

@[simp] theorem ends_ite (c : Prop) [Decidable c] (m m' : Code ρ ε σ α) (Q : α → σ → Prop) :
    ends (if c then m else m') Q r s ↔ (c → ends m Q r s) ∧ (¬c → ends m' Q r s) := by
  by_cases h : c <;> simp [h]

@[simp] theorem ends_panicIf (c : Prop) [Decidable c] (e : ε) (Q : Unit → σ → Prop) :
    ends (panicIf c e : Code ρ ε σ Unit) Q r s ↔ ¬c ∧ Q () s := by
  by_cases h : c
  · simp [panicIf, h, ends, panic]
  · simp [panicIf, h]

@[simp] theorem ends_when (c : Prop) [Decidable c] (m : Code ρ ε σ Unit) (Q : Unit → σ → Prop) :
    ends (when c m) Q r s ↔ (c → ends m Q r s) ∧ (¬c → Q () s) := by
  rw [when, ends_ite, ends_pure]

theorem ends_imp {m : Code ρ ε σ α} {Q Q' : α → σ → Prop} (h : ends m Q r s)
    (hQ : ∀ a t, Q a t → Q' a t) : ends m Q' r s := by
  unfold ends at h ⊢
  cases hm : m r s with
  | ok a t => rw [hm] at h; exact hQ a t h
  | blocked => rw [hm] at h; exact h
  | panic e t => rw [hm] at h; exact h

/-- What is known of code that ends, with what is known if it ends. -/
theorem ends_and_wp {m : Code ρ ε σ α} {Q Q' : α → σ → Prop} (h : ends m Q r s)
    (h' : wp m E Q' r s) : ends m (fun a t => Q a t ∧ Q' a t) r s := by
  unfold ends at h ⊢
  unfold wp at h'
  cases hm : m r s with
  | ok a t => rw [hm] at h h'; exact ⟨h, h'⟩
  | blocked => rw [hm] at h; exact h
  | panic e t => rw [hm] at h; exact h

theorem wp_of_ends {m : Code ρ ε σ α} {Q : α → σ → Prop} (h : ends m Q r s) : wp m E Q r s := by
  unfold ends at h
  unfold wp
  cases hm : m r s with
  | ok a t => rw [hm] at h; exact h
  | blocked => trivial
  | panic e t => rw [hm] at h; exact h.elim

theorem ends_iff {m : Code ρ ε σ α} {Q : α → σ → Prop} :
    ends m Q r s ↔ ∃ a t, m r s = .ok a t ∧ Q a t := by
  unfold ends
  cases m r s <;> simp

/-- Code whose run is known. -/
theorem ends_of_eq {m : Code ρ ε σ α} {Q : α → σ → Prop} {a : α} {t : σ} (h : m r s = .ok a t) :
    ends m Q r s ↔ Q a t := by
  unfold ends
  rw [h]

/-- Code that, started in a state meeting `I`, ends in one, or panics in a state meeting `E`. -/
def Preserves (I : ρ → σ → Prop) (E : ε → σ → Prop) (m : Code ρ ε σ α) : Prop :=
  ∀ r s, I r s → m.wp E (fun _ t => I r t) r s

namespace Preserves

variable {I : ρ → σ → Prop} {m : Code ρ ε σ α}

/-- Where the code has ended, the invariant holds. -/
theorem of_ok {r : ρ} {s t : σ} {a : α} (hm : Preserves I E m) (h : I r s) (hrun : m r s = .ok a t) :
    I r t := of_wp (Q := fun _ t => I r t) (hm r s h) hrun

theorem pure (a : α) : Preserves I E (Pure.pure a : Code ρ ε σ α) := fun _ _ h => h

theorem gets (f : σ → α) : Preserves I E (Code.gets f : Code ρ ε σ α) := fun _ _ h => h

theorem self : Preserves I E (Code.self : Code ρ ε σ ρ) := fun _ _ h => h

theorem modify {f : σ → σ} (h : ∀ r s, I r s → I r (f s)) :
    Preserves I E (Code.modify f : Code ρ ε σ Unit) := h

theorem panic {e : ε} (h : ∀ r s, I r s → E e s) : Preserves I E (Code.panic e : Code ρ ε σ α) := h

theorem await (c : σ → Bool) : Preserves I E (Code.await c : Code ρ ε σ Unit) :=
  fun _ _ h => (wp_await c _).mpr fun _ => h

theorem bind {f : α → Code ρ ε σ β} (hm : Preserves I E m) (hf : ∀ a, Preserves I E (f a)) :
    Preserves I E (m >>= f) :=
  fun r s h => (wp_bind m f _).mpr (wp_imp (hm r s h) fun a t ht => hf a r t ht)

/-- Code whose result is not used. -/
theorem of_discard (h : Preserves I E (m >>= fun _ => Pure.pure ())) : Preserves I E m :=
  fun r s hs => (wp_bind m _ _).mp (h r s hs)

theorem ite {c : Prop} [Decidable c] {m' : Code ρ ε σ α} (h : Preserves I E m)
    (h' : Preserves I E m') : Preserves I E (if c then m else m') := by
  by_cases hc : c
  · rwa [if_pos hc]
  · rwa [if_neg hc]

theorem panicIf {c : Prop} [Decidable c] {e : ε} (h : ∀ r s, I r s → E e s) :
    Preserves I E (Code.panicIf c e : Code ρ ε σ Unit) := ite (panic h) (pure ())

theorem when {c : Prop} [Decidable c] {m : Code ρ ε σ Unit} (h : Preserves I E m) :
    Preserves I E (Code.when c m) := ite h (pure ())

end Preserves

end Code

/-! ## 2. Programs that others can interrupt -/

/-- A sequence of labelled pieces of code, each chosen by the results of those before. -/
inductive Prog (ρ ε σ L α : Type) : Type 1 where
  | ret (a : α)
  | step {β : Type} (l : L) (act : Code ρ ε σ β) (k : β → Prog ρ ε σ L α)

namespace Prog

/-- Sequence. -/
def bind : Prog ρ ε σ L α → (α → Prog ρ ε σ L β) → Prog ρ ε σ L β
  | .ret a, f => f a
  | .step l act k, f => .step l act fun b => (k b).bind f

instance instMonad : Monad (Prog ρ ε σ L) where
  pure := .ret
  bind := bind

/-- One piece. -/
def atomic (l : L) (act : Code ρ ε σ α) : Prog ρ ε σ L α := .step l act .ret

/-- Run `m` if `c` holds. -/
def when (c : Prop) [Decidable c] (m : Prog ρ ε σ L Unit) : Prog ρ ε σ L Unit :=
  if c then m else pure ()

/-- All the pieces at once, with nobody in between. -/
def whole : Prog ρ ε σ L α → Code ρ ε σ α
  | .ret a => pure a
  | .step _ act k => act >>= fun b => (k b).whole

theorem bind_assoc {γ : Type} (m : Prog ρ ε σ L α) (f : α → Prog ρ ε σ L β) (g : β → Prog ρ ε σ L γ) :
    m >>= f >>= g = m >>= fun a => f a >>= g := by
  induction m with
  | ret a => rfl
  | step l act k ih => exact congrArg (Prog.step l act) (funext ih)

@[simp] theorem whole_pure (a : α) : whole (pure a : Prog ρ ε σ L α) = pure a := rfl

theorem wp_whole_bind (m : Prog ρ ε σ L α) (f : α → Prog ρ ε σ L β) {E : ε → σ → Prop}
    {Q : β → σ → Prop} {r : ρ} {s : σ} :
    (m >>= f).whole.wp E Q r s ↔ m.whole.wp E (fun a t => (f a).whole.wp E Q r t) r s := by
  induction m generalizing s with
  | ret a => exact Iff.rfl
  | step l act k ih =>
    show (act >>= fun b => ((k b).bind f).whole).wp E Q r s ↔
      (act >>= fun b => (k b).whole).wp E _ r s
    rw [Code.wp_bind, Code.wp_bind]
    have : (fun b t => (((k b).bind f).whole).wp E Q r t) =
        fun b t => ((k b).whole).wp E (fun a u => (f a).whole.wp E Q r u) r t := by
      funext b t
      exact propext (ih b)
    rw [this]

theorem wp_whole_atomic (l : L) (act : Code ρ ε σ α) {E : ε → σ → Prop} {Q : α → σ → Prop}
    {r : ρ} {s : σ} : (atomic l act).whole.wp E Q r s ↔ act.wp E Q r s := by
  show (act >>= fun b => pure b).wp E Q r s ↔ _
  rw [Code.wp_bind]
  exact Iff.rfl

theorem ends_whole_bind (m : Prog ρ ε σ L α) (f : α → Prog ρ ε σ L β) {Q : β → σ → Prop} {r : ρ}
    {s : σ} :
    (m >>= f).whole.ends Q r s ↔ m.whole.ends (fun a t => (f a).whole.ends Q r t) r s := by
  induction m generalizing s with
  | ret a => exact Iff.rfl
  | step l act k ih =>
    show (act >>= fun b => ((k b).bind f).whole).ends Q r s ↔
      (act >>= fun b => (k b).whole).ends _ r s
    rw [Code.ends_bind, Code.ends_bind]
    have : (fun b t => (((k b).bind f).whole).ends Q r t) =
        fun b t => ((k b).whole).ends (fun a u => (f a).whole.ends Q r u) r t := by
      funext b t
      exact propext (ih b)
    rw [this]

theorem ends_whole_atomic (l : L) (act : Code ρ ε σ α) {Q : α → σ → Prop} {r : ρ} {s : σ} :
    (atomic l act).whole.ends Q r s ↔ act.ends Q r s := by
  show (act >>= fun b => pure b).ends Q r s ↔ _
  rw [Code.ends_bind]
  exact Iff.rfl

/-- What each piece preserves, all of them at once preserve. -/
theorem preserves_whole_bind {I : ρ → σ → Prop} {E : ε → σ → Prop} {m : Prog ρ ε σ L α}
    {f : α → Prog ρ ε σ L β} (hm : m.whole.Preserves I E) (hf : ∀ a, (f a).whole.Preserves I E) :
    (m >>= f).whole.Preserves I E :=
  fun r s h => (wp_whole_bind m f).mpr (Code.wp_imp (hm r s h) fun a t ht => hf a r t ht)

theorem preserves_whole_atomic {I : ρ → σ → Prop} {E : ε → σ → Prop} {l : L}
    {act : Code ρ ε σ α} (h : act.Preserves I E) : (atomic l act).whole.Preserves I E :=
  fun r s hi => (wp_whole_atomic l act).mpr (h r s hi)

theorem preserves_whole_when {I : ρ → σ → Prop} {E : ε → σ → Prop} {c : Prop} [Decidable c]
    {m : Prog ρ ε σ L Unit} (h : m.whole.Preserves I E) : (when c m).whole.Preserves I E := by
  rw [when]
  split
  · exact h
  · exact .pure ()

end Prog

/-! ## 3. Systems of processes -/

/-- The shared state, what each process has left to do (`none`: it is in no program), and the
panic that stopped the machine, if one did. -/
structure Sys (ρ ε σ L : Type) : Type 1 where
  mem : σ
  code : ρ → Option (Prog ρ ε σ L Unit)
  halted : Option ε

/-- What can happen: a process starts a program, or goes on with the one it is in. -/
inductive Act (ρ C : Type) where
  | call (r : ρ) (c : C)
  | move (r : ρ)

/-- One move, where `prog c` is the program started by `c` and `ready` says which processes are
there to start one. -/
def Sys.step [DecidableEq ρ] (prog : C → Prog ρ ε σ L Unit) (ready : ρ → σ → Bool)
    (s : Sys ρ ε σ L) : Act ρ C → Option (Sys ρ ε σ L)
  | .call r c =>
    match s.halted, s.code r with
    | none, none =>
      if ready r s.mem then some { s with code := Function.update s.code r (some (prog c)) }
      else none
    | _, _ => none
  | .move r =>
    match s.halted, s.code r with
    | none, some (.step _ act k) =>
      match act r s.mem with
      | .ok b m => some { s with mem := m, code := Function.update s.code r (some (k b)) }
      | .blocked => none
      | .panic e m => some { s with mem := m, halted := some e }
    | none, some (.ret _) => some { s with code := Function.update s.code r none }
    | _, _ => none

/-- `P` holds of the label of the next piece, if there is one. -/
def Prog.Next (P : L → Prop) : Option (Prog ρ ε σ L α) → Prop
  | some (.step l _ _) => P l
  | some (.ret _) => True
  | none => True

instance decidableNext (P : L → Prop) [∀ l, Decidable (P l)] :
    ∀ pr : Option (Prog ρ ε σ L α), Decidable (Prog.Next P pr)
  | some (.step l _ _) => inferInstanceAs (Decidable (P l))
  | some (.ret _) => isTrue trivial
  | none => isTrue trivial

/-- The side condition of a move: `A` of a program that is started, `D` of the piece that is
run. -/
def Sys.Meets (A : ρ → C → Prop) (D : ρ → L → σ → Prop) (s : Sys ρ ε σ L) : Act ρ C → Prop
  | .call r c => A r c
  | .move r => Prog.Next (fun l => D r l s.mem) (s.code r)

instance decidableMeets (A : ρ → C → Prop) (D : ρ → L → σ → Prop) [∀ r c, Decidable (A r c)]
    [∀ r l m, Decidable (D r l m)] (s : Sys ρ ε σ L) : ∀ a : Act ρ C, Decidable (s.Meets A D a)
  | .call r c => inferInstanceAs (Decidable (A r c))
  | .move r => decidableNext (fun l => D r l s.mem) (s.code r)

/-! ## 4. The invariant rule -/

/-- `Keeps inv view D E r x pr Q`: run by `r`, between any moves of others, every piece of `pr`
that is started under `D` gives `inv` back and leaves the views of the others alone, a panic
leaves `E`, and `Q` holds of `r`'s view and the result at the end.  `x` is `r`'s view of the
state at the start. -/
def Keeps (inv : σ → Prop) (view : ρ → σ → V) (D : ρ → L → σ → Prop) (E : ε → σ → Prop) (r : ρ)
    (x : V) : Prog ρ ε σ L α → (V → α → Prop) → Prop
  | .ret a, Q => Q x a
  | .step l act k, Q => ∀ s, inv s → view r s = x → D r l s →
      act.wp E (fun b t => inv t ∧ (∀ q, q ≠ r → view q t = view q s) ∧
        Keeps inv view D E r (view r t) (k b) Q) r s

section Rule

variable {inv : σ → Prop} {view : ρ → σ → V} {D : ρ → L → σ → Prop} {E : ε → σ → Prop} {r : ρ}

theorem Keeps.pure {x : V} {a : α} {Q : V → α → Prop} (h : Q x a) :
    Keeps inv view D E r x (Pure.pure a : Prog ρ ε σ L α) Q := h

theorem Keeps.bind {f : α → Prog ρ ε σ L β} {Q : V → β → Prop} :
    ∀ (m : Prog ρ ε σ L α) (x : V), Keeps inv view D E r x m (fun y a => Keeps inv view D E r y (f a) Q) →
      Keeps inv view D E r x (m >>= f) Q
  | .ret _, _, h => h
  | .step _ _ k, _, h => fun s hi hx hd =>
    Code.wp_imp (h s hi hx hd) fun b _ ⟨hi', hv, hk⟩ => ⟨hi', hv, Keeps.bind (k b) _ hk⟩

theorem Keeps.atomic {l : L} {act : Code ρ ε σ α} {x : V} {Q : V → α → Prop}
    (h : ∀ s, inv s → view r s = x → D r l s →
      act.wp E (fun b t => inv t ∧ (∀ q, q ≠ r → view q t = view q s) ∧ Q (view r t) b) r s) :
    Keeps inv view D E r x (Prog.atomic l act) Q := h

theorem Keeps.imp {Q Q' : V → α → Prop} (hQ : ∀ y a, Q y a → Q' y a) :
    ∀ (m : Prog ρ ε σ L α) (x : V), Keeps inv view D E r x m Q → Keeps inv view D E r x m Q'
  | .ret _, _, h => hQ _ _ h
  | .step _ _ k, _, h => fun s hi hx hd =>
    Code.wp_imp (h s hi hx hd) fun b _ ⟨hi', hv, hk⟩ => ⟨hi', hv, Keeps.imp hQ (k b) _ hk⟩

end Rule

/-- What holds of a system whose processes all run programs that keep the invariant: until a
panic the invariant holds, every process in no program has the view `idle`, and what is left of
every program keeps the invariant and ends with that view. -/
structure SysOk (inv : σ → Prop) (view : ρ → σ → V) (D : ρ → L → σ → Prop) (E : ε → σ → Prop)
    (idle : V) (s : Sys ρ ε σ L) : Prop where
  running : s.halted = none → inv s.mem ∧ ∀ r,
    match s.code r with
    | none => view r s.mem = idle
    | some pr => Keeps inv view D E r (view r s.mem) pr fun y _ => y = idle
  stopped : ∀ e, s.halted = some e → E e s.mem

section System

variable [DecidableEq ρ] {inv : σ → Prop} {view : ρ → σ → V} {D : ρ → L → σ → Prop}
  {E : ε → σ → Prop} {idle : V} {A : ρ → C → Prop} {prog : C → Prog ρ ε σ L Unit}
  {ready : ρ → σ → Bool}

/-- **One move.**  If every program that may be started keeps the invariant, a move under the
side condition keeps `SysOk`. -/
theorem sysOk_step
    (hprog : ∀ r c, A r c → Keeps inv view D E r idle (prog c) fun y _ => y = idle)
    (s : Sys ρ ε σ L) (a : Act ρ C) (t : Sys ρ ε σ L) (hs : SysOk inv view D E idle s)
    (hm : s.Meets A D a) (ht : s.step prog ready a = some t) : SysOk inv view D E idle t := by
  cases hh : s.halted with
  | some e => cases a <;> simp [Sys.step, hh] at ht
  | none =>
    obtain ⟨hinv, hall⟩ := hs.running hh
    cases a with
    | call r c =>
      have hr := hall r
      cases hc : s.code r with
      | some pr => simp [Sys.step, hh, hc] at ht
      | none =>
        rw [hc] at hr
        simp only [Sys.step, hh, hc] at ht
        split at ht
        · cases ht
          refine ⟨fun _ => ⟨hinv, fun q => ?_⟩, fun e he => hs.stopped e (hh ▸ he)⟩
          rcases eq_or_ne q r with rfl | hq
          · have hx : view q s.mem = idle := hr
            simp only [Function.update_self, hx]
            exact hprog q c hm
          · simp only [Function.update_of_ne hq]
            exact hall q
        · cases ht
    | move r =>
      have hr := hall r
      cases hc : s.code r with
      | none => simp [Sys.step, hh, hc] at ht
      | some pr =>
        rw [hc] at hr
        cases pr with
        | ret u =>
          simp only [Sys.step, hh, hc, Option.some.injEq] at ht
          subst ht
          refine ⟨fun _ => ⟨hinv, fun q => ?_⟩, fun e he => hs.stopped e (hh ▸ he)⟩
          rcases eq_or_ne q r with rfl | hq
          · simp only [Function.update_self]
            exact hr
          · simp only [Function.update_of_ne hq]
            exact hall q
        | step l act k =>
          have hd : D r l s.mem := by
            have hnext : Prog.Next (fun l => D r l s.mem) (s.code r) := hm
            rw [hc] at hnext
            exact hnext
          have hw := hr s.mem hinv rfl hd
          unfold Code.wp at hw
          cases hact : act r s.mem with
          | blocked => simp [Sys.step, hh, hc, hact] at ht
          | panic e m =>
            rw [hact] at hw
            simp only [Sys.step, hh, hc, hact, Option.some.injEq] at ht
            subst ht
            refine ⟨fun h => (by cases h), fun e' he => ?_⟩
            cases he
            exact hw
          | ok b m =>
            rw [hact] at hw
            obtain ⟨hinv', hview, hk⟩ := hw
            simp only [Sys.step, hh, hc, hact, Option.some.injEq] at ht
            subst ht
            refine ⟨fun _ => ⟨hinv', fun q => ?_⟩, fun e he => (by cases he)⟩
            rcases eq_or_ne q r with rfl | hq
            · simp only [Function.update_self]
              exact hk
            · simp only [Function.update_of_ne hq, hview q hq]
              exact hall q

/-- **Whole runs.**  Along every run that meets the side condition, `SysOk` is kept. -/
theorem sysOk_run
    (hprog : ∀ r c, A r c → Keeps inv view D E r idle (prog c) fun y _ => y = idle)
    (as : List (Act ρ C)) (s t : Sys ρ ε σ L) (hs : SysOk inv view D E idle s)
    (hc : Runs.Along (Sys.Meets A D) (Sys.step prog ready) s as)
    (hr : Runs.run (Sys.step prog ready) s as = some t) : SysOk inv view D E idle t :=
  Runs.run_invariant (sysOk_step hprog) as s t hs hc hr

end System

end Xv6.Threads
