import Mathlib.Logic.Basic
import Mathlib.Data.List.Basic

/-!
# Runs of a machine

A machine is a partial step function: a state and an event give the next state, or nothing when the
event cannot happen. `run` follows a list of events, `Along` says that a property holds in every
state on the way.

* `along_of_invariant`: an invariant that each step preserves holds along every run;
* `along_iff_alongSteps`: a run has a property all along iff each of its steps meets a condition;
* `Along.run_append`: what holds along a run holds in the state after every part of it.
-/

namespace EngramDB

namespace Machine

variable {σ ε : Type} (step : σ → ε → Option σ)

/-- The state after a list of events, if they can happen one after another. -/
def run : σ → List ε → Option σ
  | s, [] => some s
  | s, e :: es => (step s e).bind fun s' => run s' es

/-- `P` holds in every state on the way through a list of events, as far as they can happen. -/
def Along (P : σ → Prop) : σ → List ε → Prop
  | s, [] => P s
  | s, e :: es => P s ∧ ∀ s', step s e = some s' → Along P s' es

/-- `R` holds of every step on the way through a list of events, as far as they can happen. -/
def AlongSteps (R : σ → ε → Prop) : σ → List ε → Prop
  | _, [] => True
  | s, e :: es => ∀ s', step s e = some s' → R s e ∧ AlongSteps R s' es

/-- Whether every step of a run meets a condition can be computed. -/
instance decidableAlongSteps {R : σ → ε → Prop} [∀ s e, Decidable (R s e)] :
    (s : σ) → (es : List ε) → Decidable (AlongSteps step R s es)
  | _, [] => .isTrue trivial
  | s, e :: es =>
    match hstep : step s e with
    | none => .isTrue fun s' hs' => by rw [hstep] at hs'; cases hs'
    | some t =>
      have : Decidable (AlongSteps step R t es) := decidableAlongSteps t es
      decidable_of_iff (R s e ∧ AlongSteps step R t es) (by simp [AlongSteps, hstep])

variable {step} {P Q : σ → Prop} {s s' : σ} {e : ε} {es es' : List ε}

theorem run_cons : run step s (e :: es) = (step s e).bind fun s' => run step s' es := rfl

/-- A run of an event and more is a step and a run from where it leads. -/
theorem run_cons_eq_some {t : σ} :
    run step s (e :: es) = some t ↔ ∃ s', step s e = some s' ∧ run step s' es = some t :=
  Option.bind_eq_some_iff

/-- A run of two lists of events is one after the other. -/
theorem run_append : run step s (es ++ es') = (run step s es).bind fun t => run step t es' := by
  induction es generalizing s with
  | nil => rfl
  | cons e es ih =>
    rw [List.cons_append, run_cons, run_cons, Option.bind_assoc]
    exact congrArg _ (funext fun s' => ih)

/-- What holds along a run holds where it starts. -/
theorem Along.start (h : Along step P s es) : P s := by
  cases es with
  | nil => exact h
  | cons e es => exact h.1

/-- What holds along a run holds in the state after every part of it. -/
theorem Along.run_append {t : σ} (h : Along step P s (es ++ es')) (hrun : run step s es = some t) :
    P t := by
  induction es generalizing s with
  | nil => obtain rfl : s = t := Option.some.inj hrun; exact h.start
  | cons e es ih =>
    obtain ⟨s', hs', hrun'⟩ := run_cons_eq_some.mp hrun
    exact ih (h.2 s' hs') hrun'

/-- What holds along a run holds where it ends. -/
theorem Along.run {t : σ} (h : Along step P s es) (hrun : run step s es = some t) : P t := by
  rw [← List.append_nil es] at h
  exact h.run_append hrun

/-- What follows from something that holds along a run holds along it. -/
theorem Along.imp (hPQ : ∀ s, P s → Q s) (h : Along step P s es) : Along step Q s es := by
  induction es generalizing s with
  | nil => exact hPQ s h
  | cons e es ih => exact ⟨hPQ s h.1, fun s' hs' => ih (h.2 s' hs')⟩

/-- An invariant that each step preserves holds along every run. -/
theorem along_of_invariant (hstep : ∀ s e s', P s → step s e = some s' → P s') (hs : P s) :
    Along step P s es := by
  induction es generalizing s with
  | nil => exact hs
  | cons e es ih => exact ⟨hs, fun s' hs' => ih (hstep s e s' hs hs')⟩

/-- An invariant that each step that meets `R` preserves holds along every run of such steps. -/
theorem along_of_alongSteps {R : σ → ε → Prop}
    (hstep : ∀ s e s', P s → R s e → step s e = some s' → P s') (hs : P s)
    (h : AlongSteps step R s es) : Along step P s es := by
  induction es generalizing s with
  | nil => exact hs
  | cons e es ih =>
    refine ⟨hs, fun s' hs' => ?_⟩
    obtain ⟨hR, hrest⟩ := h s' hs'
    exact ih (hstep s e s' hs hR hs') hrest

/-- When each step from a state with `P` and the invariant `I` keeps the invariant, and leads to a
state with `P` iff the step meets `R`, a run has `P` all along iff every step of it meets `R`. -/
theorem along_iff_alongSteps {I : σ → Prop} {R : σ → ε → Prop}
    (hstep : ∀ s e s', I s → P s → step s e = some s' → I s' ∧ (P s' ↔ R s e))
    (hI : I s) (hP : P s) :
    Along step P s es ↔ AlongSteps step R s es := by
  induction es generalizing s with
  | nil => exact iff_of_true hP trivial
  | cons e es ih =>
    refine (and_iff_right hP).trans (forall₂_congr fun s' hs' => ?_)
    obtain ⟨hI', hiff⟩ := hstep s e s' hI hP hs'
    constructor
    · intro h
      have hP' := h.start
      exact ⟨hiff.mp hP', (ih hI' hP').mp h⟩
    · rintro ⟨hR, h⟩
      exact (ih hI' (hiff.mpr hR)).mpr h

end Machine

end EngramDB
