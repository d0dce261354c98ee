/-
# Runs of a labelled transition function, and invariants along them

Every claim of this development that speaks of "any run" or "any interleaving" is a claim
about the states a labelled transition function can reach.  This module is that vocabulary and
nothing else: it names no part of the kernel.

A transition function `step : σ → α → Option σ` takes a label (who moves, and what they do) and
is `none` when the move is not enabled.  `run` folds it along a list of labels; `Along C` says
that every move of the run was made in a state meeting the side condition `C`.  The single
induction of the file is `run_invariant`: an invariant that each enabled move under `C`
preserves holds at the end of every run that meets `C` along the way.
-/
import Mathlib

namespace Xv6.Runs

universe u

variable {σ : Type u} {α : Type}

/-! ## 1. Runs -/

/-- The state a list of moves leads to, if every one of them is enabled when its turn comes. -/
def run (step : σ → α → Option σ) : σ → List α → Option σ
  | s, [] => some s
  | s, a :: as => (step s a).bind fun t => run step t as

/-- `Along C step s as`: every move of the run `as` from `s` is made in a state that meets the
side condition `C`. -/
def Along (C : σ → α → Prop) (step : σ → α → Option σ) : σ → List α → Prop
  | _, [] => True
  | s, a :: as => C s a ∧ ∀ t, step s a = some t → Along C step t as

@[simp] theorem run_nil (step : σ → α → Option σ) (s : σ) : run step s [] = some s := rfl

theorem run_cons_iff {step : σ → α → Option σ} {s u : σ} {a : α} {as : List α} :
    run step s (a :: as) = some u ↔ ∃ t, step s a = some t ∧ run step t as = some u := by
  simp only [run, Option.bind_eq_some_iff]

/-- Whether a concrete run meets a decidable side condition can be computed. -/
instance decidableAlong (C : σ → α → Prop) [∀ s a, Decidable (C s a)] (step : σ → α → Option σ) :
    ∀ (as : List α) (s : σ), Decidable (Along C step s as)
  | [], _ => isTrue trivial
  | a :: as, s =>
    match h : step s a with
    | none => decidable_of_iff (C s a) (by simp [Along, h])
    | some t =>
      have := decidableAlong C step as t
      decidable_of_iff (C s a ∧ Along C step t as) (by simp [Along, h])

/-! ## 2. The invariant rule -/

/-- **The invariant rule.**  What one enabled move under the side condition preserves, a whole
run that meets the side condition preserves. -/
theorem run_invariant {C : σ → α → Prop} {step : σ → α → Option σ} {P : σ → Prop}
    (hstep : ∀ s a t, P s → C s a → step s a = some t → P t) :
    ∀ (as : List α) (s t : σ), P s → Along C step s as → run step s as = some t → P t
  | [], s, t, hs, _, hr => by
    rw [run_nil, Option.some.injEq] at hr
    exact hr ▸ hs
  | a :: as, s, t, hs, hc, hr => by
    obtain ⟨u, hu, hrest⟩ := run_cons_iff.mp hr
    exact run_invariant hstep as u t (hstep s a u hs hc.1 hu) (hc.2 u hu) hrest

/-- A side condition that follows from an invariant and another side condition is met as well. -/
theorem along_of_invariant {C D : σ → α → Prop} {step : σ → α → Option σ} {P : σ → Prop}
    (hstep : ∀ s a t, P s → C s a → step s a = some t → P t) (hD : ∀ s a, P s → C s a → D s a) :
    ∀ (as : List α) (s : σ), P s → Along C step s as → Along D step s as
  | [], _, _, _ => trivial
  | a :: as, s, hs, hc => ⟨hD s a hs hc.1, fun t ht =>
      along_of_invariant hstep hD as t (hstep s a t hs hc.1 ht) (hc.2 t ht)⟩

/-- The rule without a side condition. -/
theorem run_always {step : σ → α → Option σ} {P : σ → Prop}
    (hstep : ∀ s a t, P s → step s a = some t → P t) :
    ∀ (as : List α) (s t : σ), P s → run step s as = some t → P t
  | [], s, t, hs, hr => by
    rw [run_nil, Option.some.injEq] at hr
    exact hr ▸ hs
  | a :: as, s, t, hs, hr => by
    obtain ⟨u, hu, hrest⟩ := run_cons_iff.mp hr
    exact run_always hstep as u t (hstep s a u hs hu) hrest

/-! ## 3. The refinement rule -/

/-- **The refinement rule.**  A relation between the states of two machines that every enabled move
of the first keeps, where the second follows it, is kept by whole runs. -/
theorem run_refines {τ : Type} {C : α → Prop} {step : σ → α → Option σ} {next : τ → α → τ}
    {R : σ → τ → Prop} (hstep : ∀ s v a t, R s v → C a → step s a = some t → R t (next v a)) :
    ∀ (as : List α) (s : σ) (v : τ) (t : σ), R s v → (∀ a ∈ as, C a) → run step s as = some t →
      R t (as.foldl next v)
  | [], s, v, t, h, _, hr => by
    rw [run_nil, Option.some.injEq] at hr
    exact hr ▸ h
  | a :: as, s, v, t, h, hC, hr => by
    obtain ⟨u, hu, hrest⟩ := run_cons_iff.mp hr
    have hu' := hstep s v a u h (hC a List.mem_cons_self) hu
    exact run_refines hstep as u _ t hu' (fun b hb => hC b (List.mem_cons_of_mem a hb)) hrest

end Xv6.Runs
