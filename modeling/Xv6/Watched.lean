/-
# Computations that may stop, with a trail

A program that may stop early and that leaves a list of events behind.  The events say something
about HOW it gets to its result, not what the result is: `erase` drops them, and a program with a
trail is a program without one in which some events have been noted if `erase` gives the latter back.

`Leaves m P` says that every event of a run that comes to its end has property `P`.  In a sequence
the second part may use what is known of the result of the first, from the program WITHOUT the
trail (`Leaves.bind`).
-/
import Mathlib

namespace Xv6

/-- A program that may stop, and leaves events of type `ω`. -/
def Watched (ω α : Type) : Type := Option (α × List ω)

namespace Watched

variable {ω α β σ : Type} {P : ω → Prop}

/-- One program after another. -/
def seq (m : Watched ω α) (f : α → Watched ω β) : Watched ω β :=
  match m with
  | none => none
  | some (a, es) =>
    match f a with
    | none => none
    | some (b, es') => some (b, es ++ es')

instance : Monad (Watched ω) where
  pure a := some (a, [])
  bind := seq

/-- A part that leaves nothing. -/
def lift (o : Option α) : Watched ω α := o.map fun a => (a, [])

/-- An event. -/
def emit (e : ω) : Watched ω Unit := some ((), [e])

/-- The program without its trail. -/
def erase (m : Watched ω α) : Option α := Option.map Prod.fst m

@[simp] theorem erase_pure (a : α) : erase (pure a : Watched ω α) = some a := rfl

@[simp] theorem erase_lift (o : Option α) : erase (lift o : Watched ω α) = o := by
  cases o <;> rfl

@[simp] theorem erase_emit (e : ω) : erase (emit e) = some () := rfl

@[simp] theorem erase_bind (m : Watched ω α) (f : α → Watched ω β) :
    erase (m >>= f) = (erase m).bind fun a => erase (f a) := by
  match m with
  | none => rfl
  | some (a, es) =>
    show erase (seq (some (a, es)) f) = erase (f a)
    simp only [seq]
    cases f a with
    | none => rfl
    | some r => rfl

@[simp] theorem erase_ite {c : Prop} [Decidable c] (m m' : Watched ω α) :
    erase (if c then m else m') = if c then erase m else erase m' := apply_ite ..

/-- A loop over a list. -/
theorem erase_foldlM {f : σ → β → Watched ω σ} {g : σ → β → Option σ}
    (h : ∀ s b, erase (f s b) = g s b) (l : List β) (s : σ) :
    erase (l.foldlM f s) = l.foldlM g s := by
  induction l generalizing s with
  | nil => rfl
  | cons b l ih =>
    rw [List.foldlM_cons, List.foldlM_cons, erase_bind, h]
    exact congrArg _ (funext ih)

/-! ## What is left behind -/

/-- Every event of a run to the end has the property. -/
def Leaves (m : Watched ω α) (P : ω → Prop) : Prop := ∀ a es, m = some (a, es) → ∀ e ∈ es, P e

theorem leaves_pure (a : α) : Leaves (pure a : Watched ω α) P := by
  rintro _ _ h e he
  cases h
  cases he

theorem leaves_lift (o : Option α) : Leaves (lift o) P := by
  intro a es h e he
  cases o with
  | none => cases h
  | some b =>
    cases h
    cases he

theorem leaves_emit {e : ω} (h : P e) : Leaves (emit e) P := by
  intro a es heq e' he'
  cases heq
  rwa [List.mem_singleton.mp he']

/-- **A sequence**: of the first part's result there is what the program without the trail says. -/
theorem Leaves.bind {m : Watched ω α} {f : α → Watched ω β} (hm : Leaves m P)
    (hf : ∀ a, erase m = some a → Leaves (f a) P) : Leaves (m >>= f) P := by
  intro b es h e he
  change seq m f = some (b, es) at h
  unfold seq at h
  split at h
  · cases h
  · rename_i a es₁
    split at h
    · cases h
    · rename_i b' es₂ hfa
      cases h
      rcases List.mem_append.mp he with he | he
      · exact hm a es₁ rfl e he
      · exact hf a rfl b es₂ hfa e he

end Watched

end Xv6
