import KrabkaRegistry.Library.Binary64

/-!
# Durations as Seconds

A duration is a number of nanoseconds.  As seconds it is a double: the whole seconds and the rest
are converted apart and added, and a duration scaled by a factor goes through its seconds.

- `asSecs_mono`: a longer duration does not have fewer seconds, however coarse the double is;
- `mulSecs_mono`: scaling keeps the order of durations.
-/

namespace KrabkaRegistry.Library.Seconds

open KrabkaRegistry.Library.Binary64

/-- The nanoseconds of a second. -/
def nanosPerSec : ℕ := 1000000000

/-- A duration as seconds. -/
def asSecs (d : ℕ) : ℚ :=
  roundToDouble (roundToDouble (d / nanosPerSec : ℕ) +
    roundToDouble ((d % nanosPerSec : ℕ) / nanosPerSec))

/-- The duration of nonnegative seconds, to the nearest nanosecond. -/
def ofSecs (x : ℚ) : ℕ := (nearestEven (x * nanosPerSec)).toNat

/-- A duration times a factor. -/
def mulSecs (d : ℕ) (x : ℚ) : ℕ := ofSecs (roundToDouble (x * asSecs d))

theorem ofSecs_mono {x y : ℚ} (h : x ≤ y) : ofSecs x ≤ ofSecs y := by
  apply Int.toNat_le_toNat
  apply nearestEven_mono
  exact mul_le_mul_of_nonneg_right h (Nat.cast_nonneg _)

/-! ## Whole seconds -/

theorem roundToDouble_natCast_idem (n : ℕ) :
    roundToDouble (roundToDouble n) = roundToDouble n := by
  rcases lt_or_ge n (2 ^ 53) with hlt | hge
  · have hexact : roundToDouble n = n := by
      refine roundToDouble_intCast (n := n) ?_
      rw [Nat.abs_cast]
      exact_mod_cast hlt
    rw [hexact, hexact]
  · have hlost := roundToDouble_add_lt_one hge le_rfl one_pos
    rwa [add_zero] at hlost

/-- A fraction of a second does not round up to a second. -/
theorem roundToDouble_lt_one {x : ℚ} (h : x ≤ 1 - 1 / 2 ^ 40) : roundToDouble x < 1 := by
  have hbelow : ((((2 ^ 40 - 1) * 2 ^ 13 : ℕ) : ℚ) * 2 ^ (-53 : ℤ)) = 1 - 1 / 2 ^ 40 := by
    rw [zpow_neg]
    norm_num
  have hdouble : roundToDouble (1 - 1 / 2 ^ 40) = 1 - 1 / 2 ^ 40 := by
    have hhalf : (0 : ℚ) < 2 ^ (-53 : ℤ) / 2 := half_pos (zpow_pos (by norm_num) _)
    have hround := roundMagnitude_add_small (m := (2 ^ 40 - 1) * 2 ^ 13) (by norm_num)
      (by norm_num) (by norm_num) le_rfl hhalf
    rw [add_zero, hbelow] at hround
    rw [roundToDouble_of_nonneg (by norm_num), hround]
  calc roundToDouble x ≤ roundToDouble (1 - 1 / 2 ^ 40) := roundToDouble_mono h
    _ < 1 := by rw [hdouble]; norm_num

section Parts

variable (d : ℕ)

/-- What the rest of a duration is as seconds. -/
theorem rest_nonneg : 0 ≤ roundToDouble (((d % nanosPerSec : ℕ) : ℚ) / nanosPerSec) :=
  roundToDouble_nonneg (div_nonneg (Nat.cast_nonneg _) (Nat.cast_nonneg _))

theorem rest_lt_one : roundToDouble (((d % nanosPerSec : ℕ) : ℚ) / nanosPerSec) < 1 := by
  apply roundToDouble_lt_one
  have hlt : d % nanosPerSec ≤ 999999999 := Nat.le_of_lt_succ (Nat.mod_lt _ (by decide))
  have hcast : ((d % nanosPerSec : ℕ) : ℚ) ≤ 999999999 := by exact_mod_cast hlt
  have hnanos : (nanosPerSec : ℚ) = 1000000000 := by norm_num [nanosPerSec]
  rw [div_le_iff₀ (by rw [hnanos]; norm_num)]
  calc ((d % nanosPerSec : ℕ) : ℚ) ≤ 999999999 := hcast
    _ ≤ (1 - 1 / 2 ^ 40) * nanosPerSec := by rw [hnanos]; norm_num

theorem secs_le_asSecs : roundToDouble (d / nanosPerSec : ℕ) ≤ asSecs d := by
  rw [← roundToDouble_natCast_idem]
  exact roundToDouble_mono (le_add_of_nonneg_right (rest_nonneg d))

theorem asSecs_nonneg : 0 ≤ asSecs d :=
  (roundToDouble_nonneg (Nat.cast_nonneg _)).trans (secs_le_asSecs d)

end Parts

/-- A duration has no more seconds than the next whole second. -/
theorem asSecs_le_succ {d n : ℕ} (h : d / nanosPerSec < n) : asSecs d ≤ roundToDouble n := by
  rcases lt_or_ge (d / nanosPerSec) (2 ^ 53) with hlt | hge
  · -- Whole seconds are exact here, and the rest is less than one.
    have hexact : roundToDouble (d / nanosPerSec : ℕ) = (d / nanosPerSec : ℕ) := by
      refine roundToDouble_intCast (n := (d / nanosPerSec : ℕ)) ?_
      rw [Nat.abs_cast]
      exact_mod_cast hlt
    have hsucc : ((d / nanosPerSec : ℕ) : ℚ) + 1 ≤ n := by exact_mod_cast h
    rw [asSecs, hexact]
    apply roundToDouble_mono
    linarith [rest_lt_one d]
  · -- Beyond that the rest is lost.
    rw [asSecs, roundToDouble_add_lt_one hge (rest_nonneg d) (rest_lt_one d)]
    exact roundToDouble_mono (by exact_mod_cast h.le)

theorem asSecs_mono {d d' : ℕ} (h : d ≤ d') : asSecs d ≤ asSecs d' := by
  rcases (Nat.div_le_div_right (c := nanosPerSec) h).lt_or_eq with hlt | heq
  · exact (asSecs_le_succ hlt).trans (secs_le_asSecs d')
  · -- Within one second the rest decides.
    have hrest : d % nanosPerSec ≤ d' % nanosPerSec := by
      have hd := Nat.div_add_mod d nanosPerSec
      have hd' := Nat.div_add_mod d' nanosPerSec
      rw [heq] at hd
      omega
    unfold asSecs
    rw [heq]
    apply roundToDouble_mono
    apply add_le_add_right
    apply roundToDouble_mono
    exact div_le_div_of_nonneg_right (by exact_mod_cast hrest) (Nat.cast_nonneg _)

theorem mulSecs_mono {d d' : ℕ} {x : ℚ} (hx : 0 ≤ x) (h : d ≤ d') : mulSecs d x ≤ mulSecs d' x := by
  apply ofSecs_mono
  apply roundToDouble_mono
  exact mul_le_mul_of_nonneg_left (asSecs_mono h) hx

/-- A part of a duration is a duration. -/
theorem mulSecs_lt {d : ℕ} {x : ℚ} (hx : x ≤ 1 / 4) (h : d < 2 ^ 64 * nanosPerSec) :
    mulSecs d x < 2 ^ 64 * nanosPerSec := by
  have hsecs : asSecs d ≤ 2 ^ 64 := by
    have hbelow : asSecs d ≤ roundToDouble ((2 ^ 64 : ℕ) : ℚ) :=
      asSecs_le_succ (Nat.div_lt_of_lt_mul (by rwa [mul_comm] at h))
    rwa [Nat.cast_pow, Nat.cast_ofNat, roundToDouble_two_pow] at hbelow
  have hpart : roundToDouble (x * asSecs d) ≤ 2 ^ 62 := by
    rw [← roundToDouble_two_pow]
    apply roundToDouble_mono
    calc x * asSecs d ≤ 1 / 4 * 2 ^ 64 :=
          mul_le_mul hx hsecs (asSecs_nonneg d) (by norm_num)
      _ = 2 ^ 62 := by norm_num
  have hnanos : ofSecs (2 ^ 62) = 2 ^ 62 * nanosPerSec := by
    have hint : (2 ^ 62 : ℚ) * nanosPerSec = ((2 ^ 62 * nanosPerSec : ℕ) : ℤ) := by
      push_cast
      ring
    rw [ofSecs, hint, nearestEven_intCast, Int.toNat_natCast]
  calc mulSecs d x ≤ ofSecs (2 ^ 62) := ofSecs_mono hpart
    _ = 2 ^ 62 * nanosPerSec := hnanos
    _ < 2 ^ 64 * nanosPerSec := by decide

end KrabkaRegistry.Library.Seconds
