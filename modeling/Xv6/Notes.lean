/-
# Calls whose results are noted

A system of `Threads` runs calls for what they do to the state; what they return is lost.  Here a
notebook lies beside the state.  A call is noted when it is started and gets the next number, and
its result is noted under that number.  Between the two its program runs as before and does not
look at the notes.
-/
import Xv6.Accounts

namespace Xv6.Threads

variable {ρ ε σ τ L C R α β : Type}

/-! ## 1. A program beside a notebook -/

/-- Code that does not touch the notebook. -/
def Code.beside (act : Code ρ ε σ α) : Code ρ ε (σ × τ) α := fun r x =>
  match act r x.1 with
  | .ok a t => .ok a (t, x.2)
  | .blocked => .blocked
  | .panic e t => .panic e (t, x.2)

theorem Code.wp_beside (act : Code ρ ε σ α) {E : ε → σ × τ → Prop} {Q : α → σ × τ → Prop} {r : ρ}
    {x : σ × τ} : (act.beside).wp E Q r x ↔
      act.wp (fun e t => E e (t, x.2)) (fun a t => Q a (t, x.2)) r x.1 := by
  unfold Code.wp Code.beside
  cases act r x.1 <;> exact Iff.rfl

/-- A program whose pieces do not touch the notebook. -/
def Prog.beside : Prog ρ ε σ L α → Prog ρ ε (σ × τ) L α
  | .ret a => .ret a
  | .step l act k => .step l act.beside fun b => (k b).beside

theorem Prog.beside_bind (m : Prog ρ ε σ L α) (f : α → Prog ρ ε σ L β) :
    ((m >>= f).beside : Prog ρ ε (σ × τ) L β) = m.beside >>= fun a => (f a).beside := by
  induction m with
  | ret a => rfl
  | step l act k ih =>
    show Prog.step l act.beside (fun b => ((k b).bind f).beside) =
      Prog.step l act.beside fun b => (k b).beside.bind fun a => (f a).beside
    exact congrArg _ (funext ih)

/-- A piece that does not touch the notebook keeps accounts about both. -/
theorem Carries.beside [DecidableEq ρ] {G : Type} {inv : (ρ → G) → σ × τ → Prop}
    {guar : σ × τ → σ × τ → Prop} {r : ρ} {l : L} {act : Code ρ ε σ α} {g : G} {Q : G → α → Prop}
    (h : ∀ γ s n, γ r = g → inv γ (s, n) → act.wp (fun _ _ => True)
      (fun a t => guar (s, n) (t, n) ∧ ∃ g', inv (Function.update γ r g') (t, n) ∧ Q g' a) r s) :
    Carries inv guar r g (Prog.atomic l act).beside Q :=
  fun γ x hg hx => (Code.wp_beside act).mpr (h γ x.1 x.2 hg hx)

/-! ## 2. The notes -/

/-- The calls in the order they were started, and what has been returned by those that ended. -/
structure Notes (C R : Type) where
  calls : List C
  returned : Nat → Option R

/-- No call has been started. -/
def Notes.none : Notes C R := ⟨[], fun _ => .none⟩

/-- The next call is `c`. -/
def Notes.start (n : Notes C R) (c : C) : Notes C R := { n with calls := n.calls ++ [c] }

/-- Call `k` has returned `r`. -/
def Notes.finish (n : Notes C R) (k : Nat) (r : R) : Notes C R :=
  { n with returned := Function.update n.returned k (some r) }

@[simp] theorem Notes.finish_self (n : Notes C R) (k : Nat) (r : R) :
    (n.finish k r).returned k = some r := Function.update_self ..

theorem Notes.finish_of_ne (n : Notes C R) {j k : Nat} (h : j ≠ k) (r : R) :
    (n.finish k r).returned j = n.returned j := Function.update_of_ne h ..

/-- The program of a call, with the notes made of it. -/
def noted (l : L) (prog : C → Prog ρ ε σ L R) (c : C) : Prog ρ ε (σ × Notes C R) L Unit := do
  let k ← Prog.atomic l (do
    let k ← Code.gets fun x => x.2.calls.length
    Code.modify fun x => (x.1, x.2.start c)
    pure k)
  let r ← (prog c).beside
  Prog.atomic l (Code.modify fun x => (x.1, x.2.finish k r))

end Xv6.Threads
