/-
# Code that can fail and that is given fuel

A piece of code on a state `σ` ends with a result, or FAILS with an error, or is UNFINISHED: it was
given a bound on its rounds and used it up.
-/
import Mathlib

namespace Xv6.Fuel

variable {ε σ τ α β : Type}

/-- How a piece of code ends. -/
inductive Out (ε σ α : Type) where
  | ok (a : α) (s : σ)
  | fail (e : ε)
  | unfinished

namespace Out

/-- First this, then that. -/
def bind (o : Out ε σ α) (f : α → σ → Out ε τ β) : Out ε τ β :=
  match o with
  | ok a s => f a s
  | fail e => fail e
  | unfinished => unfinished

@[simp] theorem ok_bind (a : α) (s : σ) (f : α → σ → Out ε τ β) : (ok a s).bind f = f a s := rfl

theorem bind_eq_ok {o : Out ε σ α} {f : α → σ → Out ε τ β} {b : β} {t : τ} :
    o.bind f = ok b t ↔ ∃ a s, o = ok a s ∧ f a s = ok b t := by
  cases o with
  | ok a s =>
    refine ⟨fun h => ⟨a, s, rfl, h⟩, ?_⟩
    rintro ⟨_, _, ho, h⟩
    cases ho
    exact h
  | fail e => simp [bind]
  | unfinished => simp [bind]

end Out

end Xv6.Fuel
