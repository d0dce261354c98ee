/-
# Allocation maps

Places name blocks, and a bitmap says which blocks are in use.  The two AGREE on the blocks that
can be allocated if a block's bit is set exactly when some place names it, and no block is named
by two places.  Giving a place a block whose bit was clear, and taking a place's block away, keep
the agreement.
-/
import Mathlib

namespace Xv6.Allocation

variable {P B : Type}

/-- The bitmap `bit` agrees with the places' blocks `names` on the blocks `D`. -/
structure Agrees (D : B → Prop) (names : P → Option B) (bit : B → Bool) : Prop where
  data : ∀ x b, names x = some b → D b
  set : ∀ x b, names x = some b → bit b = true
  ref : ∀ b, D b → bit b = true → ∃ x, names x = some b
  once : ∀ x y b, names x = some b → names y = some b → x = y

variable {D : B → Prop} {names : P → Option B} {bit : B → Bool} {x : P} {b : B}

/-- No place names a block whose bit is clear. -/
theorem Agrees.fresh (h : Agrees D names bit) (hb : bit b = false) (x : P) : names x ≠ some b := by
  intro hx
  rw [h.set x b hx] at hb
  cases hb

variable [DecidableEq P] [DecidableEq B]

/-- **Allocation**: a place without a block gets one whose bit was clear. -/
theorem Agrees.add (h : Agrees D names bit) (hx : names x = none) (hb : bit b = false)
    (hD : D b) : Agrees D (Function.update names x (some b)) (Function.update bit b true) where
  data y c hy := by
    rcases eq_or_ne y x with rfl | hne
    · rw [Function.update_self, Option.some.injEq] at hy
      exact hy ▸ hD
    · rw [Function.update_of_ne hne] at hy
      exact h.data y c hy
  set y c hy := by
    rcases eq_or_ne c b with rfl | hcb
    · exact Function.update_self ..
    · rw [Function.update_of_ne hcb]
      rcases eq_or_ne y x with rfl | hne
      · rw [Function.update_self, Option.some.injEq] at hy
        exact absurd hy.symm hcb
      · rw [Function.update_of_ne hne] at hy
        exact h.set y c hy
  ref c hc hbit := by
    rcases eq_or_ne c b with rfl | hcb
    · exact ⟨x, Function.update_self ..⟩
    · rw [Function.update_of_ne hcb] at hbit
      obtain ⟨y, hy⟩ := h.ref c hc hbit
      have hne : y ≠ x := by
        rintro rfl
        rw [hx] at hy
        cases hy
      exact ⟨y, by rw [Function.update_of_ne hne, hy]⟩
  once y z c hy hz := by
    rcases eq_or_ne y x with rfl | hyx
    · rw [Function.update_self, Option.some.injEq] at hy
      subst hy
      by_contra hne
      rw [Function.update_of_ne (Ne.symm hne)] at hz
      exact h.fresh hb z hz
    · rw [Function.update_of_ne hyx] at hy
      rcases eq_or_ne z x with rfl | hzx
      · rw [Function.update_self, Option.some.injEq] at hz
        subst hz
        exact absurd hy (h.fresh hb y)
      · rw [Function.update_of_ne hzx] at hz
        exact h.once y z c hy hz

/-- **Release**: a place gives its block up, and the block's bit is cleared. -/
theorem Agrees.remove (h : Agrees D names bit) (hx : names x = some b) :
    Agrees D (Function.update names x none) (Function.update bit b false) where
  data y c hy := by
    rcases eq_or_ne y x with rfl | hne
    · rw [Function.update_self] at hy
      cases hy
    · rw [Function.update_of_ne hne] at hy
      exact h.data y c hy
  set y c hy := by
    rcases eq_or_ne y x with rfl | hne
    · rw [Function.update_self] at hy
      cases hy
    · rw [Function.update_of_ne hne] at hy
      have hcb : c ≠ b := fun hcb => hne (h.once y x b (hcb ▸ hy) hx)
      rw [Function.update_of_ne hcb]
      exact h.set y c hy
  ref c hc hbit := by
    rcases eq_or_ne c b with rfl | hcb
    · rw [Function.update_self] at hbit
      cases hbit
    · rw [Function.update_of_ne hcb] at hbit
      obtain ⟨y, hy⟩ := h.ref c hc hbit
      have hne : y ≠ x := by
        rintro rfl
        rw [hx, Option.some.injEq] at hy
        exact hcb hy.symm
      exact ⟨y, by rw [Function.update_of_ne hne, hy]⟩
  once y z c hy hz := by
    rcases eq_or_ne y x with rfl | hyx
    · rw [Function.update_self] at hy
      cases hy
    · rcases eq_or_ne z x with rfl | hzx
      · rw [Function.update_self] at hz
        cases hz
      · rw [Function.update_of_ne hyx] at hy
        rw [Function.update_of_ne hzx] at hz
        exact h.once y z c hy hz

end Xv6.Allocation
