import Mathlib

/-!
# Spaced Attempts

Attempts at something that may fail, each no earlier than a delay after the failure of the one
before it.  Lists of attempts have the newest first; the `n`th delay follows the `n`th attempt.

- `countP_mul_le`: how many attempts can begin in an interval;
- `sum_delays_le`: how far apart the first and the last attempt are.
-/

namespace KrabkaRegistry.Library.Attempts

/-- An attempt that failed. -/
structure Attempt where
  began : ℕ
  failed : ℕ

variable {delay : ℕ → ℕ}

/-- An attempt may begin now. -/
def Ready (delay : ℕ → ℕ) : List Attempt → ℕ → Prop
  | [], _ => True
  | a :: as, now => a.failed + delay (as.length + 1) ≤ now

/-- Each attempt began when it might. -/
def Spaced (delay : ℕ → ℕ) : List Attempt → Prop
  | [] => True
  | a :: as => Ready delay as a.began ∧ a.began ≤ a.failed ∧ Spaced delay as

/-- At most one attempt begins in an interval as short as the shortest delay. -/
theorem countP_mul_le {as : List Attempt} {now d : ℕ} (start : ℕ) (h : Spaced delay as)
    (hready : Ready delay as now) (hd : ∀ n, d ≤ delay n) :
    as.countP (start ≤ ·.began) * d ≤ now - start := by
  induction as generalizing now with
  | nil => simp
  | cons a as ih =>
    obtain ⟨hbegan, hfailed, hspaced⟩ := h
    have hearlier := ih hspaced hbegan
    have hdelay := hd (as.length + 1)
    have hnow : a.failed + delay (as.length + 1) ≤ now := hready
    rw [List.countP_cons]
    split_ifs with hstart
    · have hbetween : start ≤ a.began := of_decide_eq_true hstart
      rw [Nat.add_mul, Nat.one_mul]
      omega
    · -- The attempts before this one began before the interval.
      rw [Nat.add_zero]
      omega

/-- All the delays have passed since the first attempt began. -/
theorem sum_delays_le {as : List Attempt} {now : ℕ} {a : Attempt} (h : Spaced delay as)
    (hready : Ready delay as now) (ha : as.getLast? = some a) :
    a.began + ((List.range as.length).map fun n => delay (n + 1)).sum ≤ now := by
  induction as generalizing now with
  | nil => cases ha
  | cons b as ih =>
    obtain ⟨hbegan, hfailed, hspaced⟩ := h
    have hnow : b.failed + delay (as.length + 1) ≤ now := hready
    rw [List.length_cons, List.range_succ, List.map_append, List.sum_append_nat]
    simp only [List.map_cons, List.map_nil, List.sum_cons, List.sum_nil, Nat.add_zero]
    cases as with
    | nil =>
      obtain rfl : b = a := by simpa using ha
      simp only [List.length_nil, List.range_zero, List.map_nil, List.sum_nil, Nat.zero_add]
        at hnow ⊢
      omega
    | cons b' as' =>
      have hearlier := ih hspaced hbegan (by rwa [List.getLast?_cons_cons] at ha)
      omega

end KrabkaRegistry.Library.Attempts
