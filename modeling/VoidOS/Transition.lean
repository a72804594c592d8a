import Mathlib

/-!
# Runs of a partial step function

A program is a step function on states; `none` means that the call does not
return. A run is a sequence of steps, each of which satisfies a guard on the
state before it and on its label.
-/

namespace Transition

variable {σ α : Type*}

/-- The states reached from `init` by steps that all satisfy `ok`. -/
inductive Reach (step : σ → α → Option σ) (ok : σ → α → Prop) (init : σ → Prop) : σ → Prop
  | init {s : σ} : init s → Reach step ok init s
  | step {s s' : σ} {a : α} :
      Reach step ok init s → ok s a → step s a = some s' → Reach step ok init s'

variable {step : σ → α → Option σ} {ok : σ → α → Prop} {init : σ → Prop}

/-- What holds initially and is kept by every guarded step holds in every reached state. -/
theorem Reach.invariant {P : σ → Prop} (hi : ∀ s, init s → P s)
    (hs : ∀ s a s', P s → ok s a → step s a = some s' → P s') {s : σ}
    (h : Reach step ok init s) : P s := by
  induction h with
  | init h => exact hi _ h
  | step _ hok hstep ih => exact hs _ _ _ ih hok hstep

theorem Reach.mono {ok' : σ → α → Prop} (hok : ∀ s a, ok s a → ok' s a) {s : σ}
    (h : Reach step ok init s) : Reach step ok' init s := by
  induction h with
  | init h => exact .init h
  | step _ ha hs ih => exact ih.step (hok _ _ ha) hs

theorem Reach.trans {s s' : σ} (h : Reach step ok init s) (h' : Reach step ok (· = s) s') :
    Reach step ok init s' := by
  induction h' with
  | init hs => exact hs ▸ h
  | step _ ha hs ih => exact ih.step ha hs

section Run

variable [∀ s a, Decidable (ok s a)]

/-- The state after a list of steps, if each of them satisfies the guard. -/
def runIf (step : σ → α → Option σ) (ok : σ → α → Prop) [∀ s a, Decidable (ok s a)] :
    σ → List α → Option σ
  | s, [] => some s
  | s, a :: as => if ok s a then (step s a).bind fun s' => runIf step ok s' as else none

theorem Reach.runIf {s s' : σ} {as : List α} (h : Reach step ok init s)
    (hr : Transition.runIf step ok s as = some s') : Reach step ok init s' := by
  induction as generalizing s with
  | nil =>
    cases hr
    exact h
  | cons a as ih =>
    rw [Transition.runIf] at hr
    split at hr
    · rename_i ha
      obtain ⟨t, ht, hr⟩ := Option.bind_eq_some_iff.mp hr
      exact ih (h.step ha ht) hr
    · cases hr

end Run

end Transition
