import KrabkaRegistry.Library.Seconds

/-!
# Retry Delays

`retry_delay` of `cache.rs`: how long the cache waits before it fetches a schema again.  The delay
doubles with each attempt up to a maximum, and an id always gets the same jitter.

A policy keeps its two bounds as the durations that `SchemaFetchRetryPolicy::new` has checked;
durations and instants are nanoseconds.
-/

namespace KrabkaRegistry.Serde

open KrabkaRegistry.Library.Binary64
open KrabkaRegistry.Library.Seconds

abbrev Duration := ℕ

abbrev Instant := ℕ

namespace Duration

/-- The seconds of a duration are a `u64`. -/
def checked (nanos : ℕ) : Option Duration :=
  if nanos < 2 ^ 64 * nanosPerSec then some nanos else none

/-- `Duration::checked_mul`. -/
def checkedMul (d : Duration) (n : ℕ) : Option Duration := checked (d * n)

/-- `Duration::checked_add`. -/
def checkedAdd (d d' : Duration) : Option Duration := checked (d + d')

/-- What overflows is above a maximum that does not. -/
theorem min_getD_checked {max : Duration} (h : max < 2 ^ 64 * nanosPerSec) (nanos : ℕ) :
    min ((checked nanos).getD max) max = min nanos max := by
  unfold checked
  split_ifs with hfits
  · rfl
  · rw [Option.getD_none, min_self, min_eq_right (h.le.trans (not_lt.mp hfits))]

end Duration

/-- A validated retry range. -/
structure SchemaFetchRetryPolicy where
  initialBackoff : Duration
  maxBackoff : Duration
  positive : 0 < initialBackoff
  ordered : initialBackoff ≤ maxBackoff
  fits : maxBackoff < 2 ^ 64 * nanosPerSec

namespace SchemaFetchRetryPolicy

variable (policy : SchemaFetchRetryPolicy)

/-- The delay without jitter. -/
def exponentialDelay (attempt : UInt32) : Duration :=
  let exponent := min (attempt.toNat - 1) 7
  min ((Duration.checkedMul policy.initialBackoff (2 ^ exponent)).getD policy.maxBackoff)
    policy.maxBackoff

/-- The jitter of an id, as a part of the delay. -/
def jitterFactor (id : UInt32) : ℚ := roundToDouble ((id * 1103515245 % 26).toNat / 100)

/-- `retry_delay`. -/
def retryDelay (id attempt : UInt32) : Duration :=
  let exponentialDelay := policy.exponentialDelay attempt
  let jitter := mulSecs exponentialDelay (jitterFactor id)
  min ((Duration.checkedAdd exponentialDelay jitter).getD policy.maxBackoff) policy.maxBackoff

/-! ## The two overflows -/

theorem exponentialDelay_eq (attempt : UInt32) :
    policy.exponentialDelay attempt =
      min (policy.initialBackoff * 2 ^ min (attempt.toNat - 1) 7) policy.maxBackoff :=
  Duration.min_getD_checked policy.fits _

theorem retryDelay_eq (id attempt : UInt32) :
    policy.retryDelay id attempt = min (policy.exponentialDelay attempt +
      mulSecs (policy.exponentialDelay attempt) (jitterFactor id)) policy.maxBackoff :=
  Duration.min_getD_checked policy.fits _

/-! ## Bounds and order -/

theorem initialBackoff_le_exponentialDelay (attempt : UInt32) :
    policy.initialBackoff ≤ policy.exponentialDelay attempt := by
  rw [exponentialDelay_eq]
  exact le_min (Nat.le_mul_of_pos_right _ (by positivity)) policy.ordered

theorem exponentialDelay_le (attempt : UInt32) :
    policy.exponentialDelay attempt ≤ policy.maxBackoff :=
  min_le_right _ _

theorem exponentialDelay_mono {a b : UInt32} (h : a ≤ b) :
    policy.exponentialDelay a ≤ policy.exponentialDelay b := by
  have hexponent : min (a.toNat - 1) 7 ≤ min (b.toNat - 1) 7 := by
    have hle : a.toNat ≤ b.toNat := UInt32.le_iff_toNat_le.mp h
    omega
  rw [exponentialDelay_eq, exponentialDelay_eq]
  exact min_le_min_right _ (Nat.mul_le_mul_left _ (Nat.pow_le_pow_right (by norm_num) hexponent))

theorem jitterFactor_nonneg (id : UInt32) : 0 ≤ jitterFactor id :=
  roundToDouble_nonneg (div_nonneg (Nat.cast_nonneg _) (by norm_num))

/-- The jitter is at most a quarter of the delay. -/
theorem jitterFactor_le (id : UInt32) : jitterFactor id ≤ 1 / 4 := by
  have hpercent : (id * 1103515245 % 26).toNat ≤ 25 := by
    rw [UInt32.toNat_mod]
    exact Nat.le_of_lt_succ (Nat.mod_lt _ (by decide))
  have hquarter : roundToDouble (1 / 4) = 1 / 4 := by
    have hhalf : (0 : ℚ) < 2 ^ (-54 : ℤ) / 2 := half_pos (zpow_pos (by norm_num) _)
    have hround := roundMagnitude_add_small (m := 2 ^ 52) le_rfl (by norm_num) (by norm_num)
      le_rfl hhalf
    have hdouble : ((2 ^ 52 : ℕ) : ℚ) * 2 ^ (-54 : ℤ) = 1 / 4 := by
      rw [zpow_neg]
      norm_num
    rw [add_zero, hdouble] at hround
    rw [roundToDouble_of_nonneg (by norm_num), hround]
  rw [jitterFactor, ← hquarter]
  apply roundToDouble_mono
  rw [div_le_div_iff₀ (by norm_num) (by norm_num)]
  have hcast : ((id * 1103515245 % 26).toNat : ℚ) ≤ 25 := by exact_mod_cast hpercent
  linarith

/-- Scaling by the jitter stays in the range of a duration. -/
theorem jitter_fits (id attempt : UInt32) :
    mulSecs (policy.exponentialDelay attempt) (jitterFactor id) < 2 ^ 64 * nanosPerSec :=
  mulSecs_lt (jitterFactor_le id) ((policy.exponentialDelay_le attempt).trans_lt policy.fits)

theorem initialBackoff_le_retryDelay (id attempt : UInt32) :
    policy.initialBackoff ≤ policy.retryDelay id attempt := by
  rw [retryDelay_eq]
  apply le_min
  · exact (policy.initialBackoff_le_exponentialDelay attempt).trans (Nat.le_add_right _ _)
  · exact policy.ordered

theorem retryDelay_le (id attempt : UInt32) : policy.retryDelay id attempt ≤ policy.maxBackoff :=
  min_le_right _ _

theorem retryDelay_mono (id : UInt32) {a b : UInt32} (h : a ≤ b) :
    policy.retryDelay id a ≤ policy.retryDelay id b := by
  have hexponential := policy.exponentialDelay_mono h
  rw [retryDelay_eq, retryDelay_eq]
  apply min_le_min_right
  exact add_le_add hexponential (mulSecs_mono (jitterFactor_nonneg id) hexponential)

/-- The delay no longer grows after the eighth attempt. -/
theorem retryDelay_eq_of_ge (id : UInt32) {a b : UInt32} (ha : 8 ≤ a.toNat) (hb : 8 ≤ b.toNat) :
    policy.retryDelay id a = policy.retryDelay id b := by
  have hexponential : policy.exponentialDelay a = policy.exponentialDelay b := by
    rw [exponentialDelay_eq, exponentialDelay_eq]
    congr 3
    omega
  rw [retryDelay_eq, retryDelay_eq, hexponential]

end SchemaFetchRetryPolicy

end KrabkaRegistry.Serde
