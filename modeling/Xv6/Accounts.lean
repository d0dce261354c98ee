/-
# Processes that keep accounts

The rule of `Threads` for programs between whose pieces others run says what a process knows by a
VIEW, a function of the shared state.  Some things a process knows are not in the state: that one of
the three references counted there is its own, that it has already given one back.  Here every
process has an ACCOUNT, which no code reads, and the invariant is about all accounts and the state
together.  A piece of a program, started in any state that meets the invariant, must lead to one
that meets it again with the account of its own process changed and all others as they were.

A program can also promise something of every piece it runs, a relation between the state before
and the state after (`guar`); what was promised by the call a process is in holds of each of its
moves (`accounted_move`).

`Prog.before` is a program on a machine that does something of its own before each piece.
-/
import Xv6.Threads

namespace Xv6.Threads

variable {ρ ε σ L C G α β : Type}

/-! ## 1. Something before each piece -/

/-- The program on a machine that changes the state by `e l` before each piece labelled `l`. -/
def Prog.before (e : L → σ → σ) : Prog ρ ε σ L α → Prog ρ ε σ L α
  | .ret a => .ret a
  | .step l act k => .step l (fun r s => act r (e l s)) fun b => (k b).before e

/-- A program that keeps the invariant of `Threads` keeps it on such a machine, if the invariant, the
views and the side conditions do not mind. -/
theorem Keeps.before {V : Type} {inv : σ → Prop} {view : ρ → σ → V} {D : ρ → L → σ → Prop}
    {E : ε → σ → Prop} {r : ρ} {e : L → σ → σ} (hinv : ∀ l s, inv s → inv (e l s))
    (hview : ∀ q l s, view q (e l s) = view q s) (hD : ∀ l s, D r l s → D r l (e l s))
    {Q : V → α → Prop} : ∀ (m : Prog ρ ε σ L α) (x : V), Keeps inv view D E r x m Q →
      Keeps inv view D E r x (m.before e) Q
  | .ret _, _, h => h
  | .step l _ k, _, h => fun s hs hx hd =>
    Code.wp_imp (h (e l s) (hinv l s hs) ((hview r l s).trans hx) (hD l s hd))
      fun b _ ⟨ht, hv, hk⟩ => ⟨ht, fun q hq => (hv q hq).trans (hview q l s),
        Keeps.before hinv hview hD (k b) _ hk⟩

/-! ## 2. Programs -/

/-- `Carries inv guar r g pr Q`: run by `r`, whose account at the start is `g`, between any moves of
others, every piece of `pr` that ends leads from a state meeting the invariant to one that meets it
with a new account of `r`, and keeps the promise `guar`; at the end `Q` holds of the account and the
result. -/
def Carries [DecidableEq ρ] (inv : (ρ → G) → σ → Prop) (guar : σ → σ → Prop) (r : ρ) (g : G) :
    Prog ρ ε σ L α → (G → α → Prop) → Prop
  | .ret a, Q => Q g a
  | .step _ act k, Q => ∀ γ s, γ r = g → inv γ s →
      act.wp (fun _ _ => True) (fun b t => guar s t ∧
        ∃ g', inv (Function.update γ r g') t ∧ Carries inv guar r g' (k b) Q) r s

section Rule

variable [DecidableEq ρ] {inv : (ρ → G) → σ → Prop} {guar : σ → σ → Prop} {r : ρ}

theorem Carries.pure {g : G} {a : α} {Q : G → α → Prop} (h : Q g a) :
    Carries inv guar r g (Pure.pure a : Prog ρ ε σ L α) Q := h

theorem Carries.bind {f : α → Prog ρ ε σ L β} {Q : G → β → Prop} :
    ∀ (m : Prog ρ ε σ L α) (g : G), Carries inv guar r g m (fun g a => Carries inv guar r g (f a) Q) →
      Carries inv guar r g (m >>= f) Q
  | .ret _, _, h => h
  | .step _ _ k, _, h => fun γ s hg hs => Code.wp_imp (h γ s hg hs)
      fun b _ ⟨hguar, g', hinv, hk⟩ => ⟨hguar, g', hinv, Carries.bind (k b) g' hk⟩

theorem Carries.imp {Q Q' : G → α → Prop} (hQ : ∀ g a, Q g a → Q' g a) :
    ∀ (m : Prog ρ ε σ L α) (g : G), Carries inv guar r g m Q → Carries inv guar r g m Q'
  | .ret _, _, h => hQ _ _ h
  | .step _ _ k, _, h => fun γ s hg hs => Code.wp_imp (h γ s hg hs)
      fun b _ ⟨hguar, g', hinv, hk⟩ => ⟨hguar, g', hinv, Carries.imp hQ (k b) g' hk⟩

/-- Sequence, where the account after the first part is known. -/
theorem Carries.seq {m : Prog ρ ε σ L α} {f : α → Prog ρ ε σ L β} {g : G} {e : α → G}
    {Q : G → β → Prop} (hm : Carries inv guar r g m fun g' a => g' = e a)
    (hf : ∀ a, Carries inv guar r (e a) (f a) Q) : Carries inv guar r g (m >>= f) Q :=
  Carries.bind m g (Carries.imp (fun _ a hg' => hg' ▸ hf a) m g hm)

theorem Carries.atomic {l : L} {act : Code ρ ε σ α} {g : G} {Q : G → α → Prop}
    (h : ∀ γ s, γ r = g → inv γ s → act.wp (fun _ _ => True)
      (fun a t => guar s t ∧ ∃ g', inv (Function.update γ r g') t ∧ Q g' a) r s) :
    Carries inv guar r g (Prog.atomic l act) Q := h

/-- On a machine that does something of its own before each piece, if the invariant and the promise
do not mind. -/
theorem Carries.before {e : L → σ → σ} (hinv : ∀ l γ s, inv γ s → inv γ (e l s))
    (hguar : ∀ l s t, guar (e l s) t → guar s t) {Q : G → α → Prop} :
    ∀ (m : Prog ρ ε σ L α) (g : G), Carries inv guar r g m Q → Carries inv guar r g (m.before e) Q
  | .ret _, _, h => h
  | .step l _ k, _, h => fun γ s hg hs => Code.wp_imp (h γ (e l s) hg (hinv l γ s hs))
      fun b t ⟨hstep, g', ht, hk⟩ =>
        ⟨hguar l s t hstep, g', ht, Carries.before hinv hguar (k b) g' hk⟩

end Rule

/-! ## 3. Systems -/

/-- Which call each process has started last, after one more move. -/
def Act.started [DecidableEq ρ] (cur : ρ → Option C) : Act ρ C → ρ → Option C
  | .call r c => Function.update cur r (some c)
  | .move _ => cur

/-- Until a panic, the invariant holds of the accounts `γ` and the state, the account of every
process in no program is one of a process at rest, and what is left of every program keeps the
invariant, the promise of the call `cur` says the process is in, and ends with such an account. -/
structure Accounted [DecidableEq ρ] (inv : (ρ → G) → σ → Prop) (guar : C → σ → σ → Prop)
    (rest : G → Prop) (cur : ρ → Option C) (γ : ρ → G) (s : Sys ρ ε σ L) : Prop where
  holds : s.halted = none → inv γ s.mem
  code : s.halted = none → ∀ r,
    match s.code r with
    | none => rest (γ r)
    | some pr => ∃ c, cur r = some c ∧ Carries inv (guar c) r (γ r) pr fun g _ => rest g

section System

variable [DecidableEq ρ] {inv : (ρ → G) → σ → Prop} {guar : C → σ → σ → Prop} {rest : G → Prop}
  {cur : ρ → Option C} {γ : ρ → G} {prog : C → Prog ρ ε σ L Unit} {ready : ρ → σ → Bool}
  {s t : Sys ρ ε σ L}

/-- A process that starts a call may open an account for it. -/
def Opens (inv : (ρ → G) → σ → Prop) (guar : C → σ → σ → Prop) (rest : G → Prop)
    (prog : C → Prog ρ ε σ L Unit) (ready : ρ → σ → Bool) : Prop :=
  ∀ γ s r c, inv γ s → rest (γ r) → ready r s = true →
    ∃ g, inv (Function.update γ r g) s ∧ Carries inv (guar c) r g (prog c) fun g _ => rest g

/-- **A call is started.** -/
theorem accounted_call (hopen : Opens inv guar rest prog ready)
    (hs : Accounted inv guar rest cur γ s) {r : ρ} {c : C}
    (ht : s.step prog ready (.call r c) = some t) :
    ∃ γ', Accounted inv guar rest (Function.update cur r (some c)) γ' t := by
  simp only [Sys.step] at ht
  split at ht
  · rename_i hh hc
    split at ht
    · rename_i hready
      have hrest := hs.code hh r
      rw [hc] at hrest
      obtain ⟨g, hg, hprog⟩ := hopen γ s.mem r c (hs.holds hh) hrest hready
      cases ht
      refine ⟨Function.update γ r g, fun _ => hg, fun _ q => ?_⟩
      rcases eq_or_ne q r with rfl | hne
      · simp only [Function.update_self]
        exact ⟨c, rfl, hprog⟩
      · simp only [Function.update_of_ne hne]
        exact hs.code hh q
    · cases ht
  · cases ht

/-- **A process goes on**: it keeps the promise of its call. -/
theorem accounted_move (hrefl : ∀ c m, guar c m m) (hs : Accounted inv guar rest cur γ s) {r : ρ}
    (ht : s.step prog ready (.move r) = some t) :
    (t.halted = none → ∃ c, cur r = some c ∧ guar c s.mem t.mem) ∧
      ∃ γ', Accounted inv guar rest cur γ' t := by
  simp only [Sys.step] at ht
  split at ht
  · rename_i l act k hh hc
    have hr := hs.code hh r
    rw [hc] at hr
    obtain ⟨c, hcur, hprog⟩ := hr
    have hw := hprog γ s.mem rfl (hs.holds hh)
    unfold Code.wp at hw
    split at ht
    · rename_i b m hact
      rw [hact] at hw
      obtain ⟨hguar, g', hinv, hk⟩ := hw
      cases ht
      refine ⟨fun _ => ⟨c, hcur, hguar⟩, Function.update γ r g', fun _ => hinv, fun _ q => ?_⟩
      rcases eq_or_ne q r with rfl | hne
      · simp only [Function.update_self]
        exact ⟨c, hcur, hk⟩
      · simp only [Function.update_of_ne hne]
        exact hs.code hh q
    · cases ht
    · cases ht
      exact ⟨fun h => (by cases h), γ, fun h => (by cases h), fun h => (by cases h)⟩
  · rename_i u hh hc
    have hr := hs.code hh r
    rw [hc] at hr
    obtain ⟨c, hcur, hprog⟩ := hr
    cases ht
    refine ⟨fun _ => ⟨c, hcur, hrefl c _⟩, γ, fun _ => hs.holds hh, fun _ q => ?_⟩
    rcases eq_or_ne q r with rfl | hne
    · simp only [Function.update_self]
      exact hprog
    · simp only [Function.update_of_ne hne]
      exact hs.code hh q
  · cases ht

/-- **Whole runs.** -/
theorem accounted_run (hopen : Opens inv guar rest prog ready) (hrefl : ∀ c m, guar c m m) :
    ∀ (as : List (Act ρ C)) (s t : Sys ρ ε σ L) (cur : ρ → Option C),
      (∃ γ, Accounted inv guar rest cur γ s) → Runs.run (Sys.step prog ready) s as = some t →
        ∃ γ, Accounted inv guar rest (as.foldl Act.started cur) γ t
  | [], s, t, _, hs, hr => by
    rw [Runs.run_nil, Option.some.injEq] at hr
    exact hr ▸ hs
  | a :: as, s, t, cur, ⟨_, hs⟩, hr => by
    obtain ⟨u, hu, hrest⟩ := Runs.run_cons_iff.mp hr
    refine accounted_run hopen hrefl as u t (Act.started cur a) ?_ hrest
    cases a with
    | call r c => exact accounted_call hopen hs hu
    | move r => exact (accounted_move hrefl hs hu).2

end System

end Xv6.Threads
