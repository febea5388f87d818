import Mathlib.Data.List.Basic
import Mathlib.Tactic.SplitIfs

/-!
# Runs of a Labelled Transition System

A run is recorded as the list of its steps, each with the state it was taken in
and its label.  `Trace.invariant` is the induction rule: what holds at the start
and is kept by every step that meets a condition holds at the end of every run
whose steps all meet it.  `Trace.history_invariant` is the same rule for
invariants that also speak about the steps taken so far.  `perform` computes runs.
-/

namespace KrabkaRegistry.Library

variable {ω Λ : Type*}

/-- `Trace Step w t w'`: the steps `t` lead from `w` to `w'`. -/
inductive Trace (Step : ω → Λ → ω → Prop) : ω → List (ω × Λ) → ω → Prop where
  | nil (w : ω) : Trace Step w [] w
  | snoc {w w₁ w₂ : ω} {t : List (ω × Λ)} {l : Λ} :
      Trace Step w t w₁ → Step w₁ l w₂ → Trace Step w (t ++ [(w₁, l)]) w₂

variable {Step : ω → Λ → ω → Prop} {w w' : ω} {t : List (ω × Λ)}

/-- Invariants over the steps taken so far and the state they lead to. -/
theorem Trace.history_invariant {I : List (ω × Λ) → ω → Prop} {C : ω → Λ → Prop}
    (hinit : I [] w)
    (hstep : ∀ t w₁ l w₂, C w₁ l → Step w₁ l w₂ → I t w₁ → I (t ++ [(w₁, l)]) w₂)
    (h : Trace Step w t w') (hC : ∀ p ∈ t, C p.1 p.2) : I t w' := by
  induction h with
  | nil => exact hinit
  | @snoc w₁ w₂ t l _ hs ih =>
    have hlast : C w₁ l := hC (w₁, l) (by simp)
    exact hstep t w₁ l w₂ hlast hs (ih fun p hp => hC p (List.mem_append_left _ hp))

/-- Invariants over states. -/
theorem Trace.invariant {I : ω → Prop} {C : ω → Λ → Prop} (hinit : I w)
    (hstep : ∀ w₁ l w₂, C w₁ l → Step w₁ l w₂ → I w₁ → I w₂)
    (h : Trace Step w t w') (hC : ∀ p ∈ t, C p.1 p.2) : I w' :=
  Trace.history_invariant (I := fun _ w => I w) hinit
    (fun _ w₁ l w₂ hc hs hi => hstep w₁ l w₂ hc hs hi) h hC

/-- A trace is itself taken from a state that a shorter trace leads to. -/
theorem Trace.of_mem {p : ω × Λ} (h : Trace Step w t w') (hp : p ∈ t) :
    ∃ t₁, Trace Step w t₁ p.1 := by
  induction h with
  | nil => simp at hp
  | @snoc w₁ w₂ t l ht _ ih =>
    -- The step is one of the earlier ones, or the last one.
    rcases List.mem_append.mp hp with hp | hp
    · exact ih hp
    · rw [List.mem_singleton.mp hp]
      exact ⟨t, ht⟩

/-! ## Runs that are computed -/

/-- Perform a list of steps, each of which has to pass a check. -/
def perform (next : ω → Λ → Option ω) (check : ω → Λ → Bool) (w : ω) : List Λ → Option ω
  | [] => some w
  | l :: ls => if check w l then (next w l).bind fun w' => perform next check w' ls else none

theorem Trace.perform {next : ω → Λ → Option ω} {check : ω → Λ → Bool} {w₀ : ω} {ls : List Λ}
    (ht : Trace (fun w l w' => next w l = some w') w₀ t w)
    (hc : ∀ p ∈ t, check p.1 p.2 = true) (h : perform next check w ls = some w') :
    ∃ t', Trace (fun w l w' => next w l = some w') w₀ t' w' ∧ ∀ p ∈ t', check p.1 p.2 = true := by
  induction ls generalizing w t with
  | nil =>
    obtain rfl : w = w' := Option.some.inj h
    exact ⟨t, ht, hc⟩
  | cons l ls ih =>
    rw [Library.perform] at h
    split_ifs at h with hl
    obtain ⟨w₁, hw₁, hrest⟩ := Option.bind_eq_some_iff.mp h
    refine ih (Trace.snoc ht hw₁) (fun p hp => ?_) hrest
    rcases List.mem_append.mp hp with hp | hp
    · exact hc p hp
    · rw [List.mem_singleton.mp hp]
      exact hl

end KrabkaRegistry.Library
