import Mathlib.Data.Int.Log
import Mathlib.Data.Rat.Floor
import Mathlib.Algebra.Order.Floor.Ring
import Mathlib.Tactic.Linarith
import Mathlib.Tactic.Ring
import Mathlib.Tactic.NormNum

/-!
# Rounding to Binary64

A finite IEEE 754 double is a rational number, and an operation on doubles is the exact
operation on rationals followed by `roundToDouble`: to the nearest multiple of the last place, ties to
even, with 53 significant bits and no place below `2 ^ (-1074)`.  Signed zeros are one number
here, and overflow is a predicate on the rounded result.

- `roundToDouble_intCast`: integers below `2 ^ 53` in magnitude are doubles;
- `one_le_abs_roundToDouble`: rounding does not bring a number down across `1`;
- `exists_int_roundToDouble`: an integer is rounded to an integer;
- `roundToDouble_first`: the first integer that is no double;
- `roundToDouble_mono`: rounding keeps the order;
- `roundToDouble_add_lt_one`: what is less than one is lost beside a large double.
-/

namespace KrabkaRegistry.Library.Binary64

/-- The nearest integer, and the even one of two that are equally near. -/
def nearestEven (x : ℚ) : ℤ :=
  if x - ⌊x⌋ < 1 / 2 then ⌊x⌋
  else if 1 / 2 < x - ⌊x⌋ then ⌊x⌋ + 1
  else if ⌊x⌋ % 2 = 0 then ⌊x⌋
  else ⌊x⌋ + 1

/-- The exponent of the last place of a magnitude. -/
def lastPlace (x : ℚ) : ℤ := max (Int.log 2 x - 52) (-1074)

/-- Round a magnitude. -/
def roundMagnitude (x : ℚ) : ℚ := nearestEven (x / 2 ^ lastPlace x) * 2 ^ lastPlace x

/-- Round a number. -/
def roundToDouble (x : ℚ) : ℚ := if x < 0 then -roundMagnitude (-x) else roundMagnitude x

/-- The rounded number is too large for a finite double. -/
def Overflows (x : ℚ) : Prop := 2 ^ 1024 ≤ |x|

instance (x : ℚ) : Decidable (Overflows x) := inferInstanceAs (Decidable (_ ≤ _))

/-- `f64::round`: the nearest integer, away from zero if two are equally near. -/
def roundHalfAway (x : ℚ) : ℤ := if x < 0 then -⌊-x + 1 / 2⌋ else ⌊x + 1 / 2⌋

/-- `f64::EPSILON`. -/
def epsilon : ℚ := 1 / 2 ^ 52

/-! ## The nearest integer -/

@[simp] theorem nearestEven_intCast (n : ℤ) : nearestEven n = n := by
  simp [nearestEven]

theorem floor_le_nearestEven (x : ℚ) : ⌊x⌋ ≤ nearestEven x := by
  unfold nearestEven
  split_ifs <;> omega

@[simp] theorem roundToDouble_zero : roundToDouble 0 = 0 := by
  have hzero : nearestEven 0 = 0 := by simpa using nearestEven_intCast 0
  simp [roundToDouble, roundMagnitude, hzero]

/-! ## Integers are doubles -/

/-- A natural number with at most 53 bits is a multiple of its last place. -/
private theorem roundMagnitude_natCast {n : ℕ} (hpos : 0 < n) (hlt : n < 2 ^ 53) :
    roundMagnitude n = n := by
  have hlog : Nat.log 2 n ≤ 52 := Nat.lt_succ_iff.mp (Nat.log_lt_of_lt_pow hpos.ne' hlt)
  have hplace : lastPlace (n : ℚ) = -((52 - Nat.log 2 n : ℕ) : ℤ) := by
    rw [lastPlace, Int.log_natCast, max_eq_left]
    · omega
    · omega
  -- Scaled by the last place it is an integer, which is its own nearest.
  have hscaled : (n : ℚ) / 2 ^ lastPlace (n : ℚ) = ((n * 2 ^ (52 - Nat.log 2 n) : ℕ) : ℤ) := by
    rw [hplace, zpow_neg, zpow_natCast, div_inv_eq_mul]
    push_cast
    ring
  have hne : (2 : ℚ) ^ lastPlace (n : ℚ) ≠ 0 := zpow_ne_zero _ (by norm_num)
  rw [roundMagnitude, hscaled, nearestEven_intCast, ← hscaled, div_mul_cancel₀ _ hne]

theorem roundToDouble_intCast {n : ℤ} (h : |n| < 2 ^ 53) : roundToDouble n = n := by
  have hnat : n.natAbs < 2 ^ 53 := by
    rw [Int.abs_eq_natAbs] at h
    exact_mod_cast h
  rcases lt_trichotomy n 0 with hneg | rfl | hpos
  · have habs : (-(n : ℚ)) = (n.natAbs : ℚ) := by
      rw [Nat.cast_natAbs, abs_of_neg hneg]
      push_cast
      rfl
    have hlt : (n : ℚ) < 0 := by exact_mod_cast hneg
    rw [roundToDouble, if_pos hlt, habs, roundMagnitude_natCast (by omega) hnat, ← habs, neg_neg]
  · simp
  · have habs : (n : ℚ) = (n.natAbs : ℚ) := by
      rw [Nat.cast_natAbs, abs_of_pos hpos]
    have hlt : ¬ (n : ℚ) < 0 := by exact_mod_cast hpos.le.not_gt
    rw [roundToDouble, if_neg hlt, habs, roundMagnitude_natCast (by omega) hnat]

/-! ## Numbers that are not small -/

private theorem one_le_roundMagnitude {x : ℚ} (h : 1 ≤ x) : 1 ≤ roundMagnitude x := by
  have hx : 0 < x := lt_of_lt_of_le one_pos h
  have hlog : 0 ≤ Int.log 2 x := by
    rw [← Int.log_one_right (R := ℚ) 2]
    exact Int.log_mono_right one_pos h
  have hplace : lastPlace x = Int.log 2 x - 52 := by
    rw [lastPlace, max_eq_left (by omega)]
  have hne : (2 : ℚ) ≠ 0 := by norm_num
  -- The scaled number has 53 bits before the point, and the nearest integer keeps them.
  have hscaled : ((2 ^ 52 : ℤ) : ℚ) ≤ x / 2 ^ lastPlace x := by
    rw [le_div_iff₀ (zpow_pos (by norm_num) _), hplace]
    calc ((2 ^ 52 : ℤ) : ℚ) * 2 ^ (Int.log 2 x - 52)
        = 2 ^ Int.log 2 x := by
          rw [zpow_sub₀ hne]
          push_cast
          field_simp
      _ ≤ x := by exact_mod_cast Int.zpow_log_le_self (b := 2) (by norm_num) hx
  have hnear : (2 ^ 52 : ℤ) ≤ nearestEven (x / 2 ^ lastPlace x) :=
    (Int.le_floor.mpr hscaled).trans (floor_le_nearestEven _)
  calc (1 : ℚ) ≤ 2 ^ Int.log 2 x := one_le_zpow₀ (by norm_num) hlog
    _ = ((2 ^ 52 : ℤ) : ℚ) * 2 ^ lastPlace x := by
        rw [hplace, zpow_sub₀ hne]
        push_cast
        field_simp
    _ ≤ nearestEven (x / 2 ^ lastPlace x) * 2 ^ lastPlace x := by
        apply mul_le_mul_of_nonneg_right
        · exact_mod_cast hnear
        · exact (zpow_pos (by norm_num) _).le

theorem one_le_abs_roundToDouble {x : ℚ} (h : 1 ≤ |x|) : 1 ≤ |roundToDouble x| := by
  unfold roundToDouble
  split_ifs with hneg
  · rw [abs_neg]
    rw [abs_of_neg hneg] at h
    exact (one_le_roundMagnitude h).trans (le_abs_self _)
  · rw [abs_of_nonneg (not_lt.mp hneg)] at h
    exact (one_le_roundMagnitude h).trans (le_abs_self _)

theorem epsilon_lt_one : epsilon < 1 := by norm_num [epsilon]

/-! ## Integers stay integers -/

/-- An integer is rounded to an integer. -/
theorem exists_int_roundToDouble (n : ℤ) : ∃ k : ℤ, roundToDouble n = k := by
  have hmagnitude : ∀ m : ℕ, ∃ k : ℤ, roundMagnitude m = k := by
    intro m
    rcases Nat.eq_zero_or_pos m with rfl | hpos
    · exact ⟨0, by simpa [roundToDouble] using roundToDouble_zero⟩
    · rcases lt_or_ge m (2 ^ 53) with hlt | hge
      · exact ⟨m, by simpa using roundMagnitude_natCast hpos hlt⟩
      · -- Large magnitudes are multiples of a place that is an integer.
        have hlog : 53 ≤ Nat.log 2 m := Nat.le_log_of_pow_le (by norm_num) hge
        have hplace : 0 ≤ lastPlace (m : ℚ) := by
          rw [lastPlace, Int.log_natCast]
          omega
        obtain ⟨e, he⟩ := Int.eq_ofNat_of_zero_le hplace
        refine ⟨nearestEven ((m : ℚ) / 2 ^ lastPlace (m : ℚ)) * 2 ^ e, ?_⟩
        rw [roundMagnitude, he, zpow_natCast]
        push_cast
        rfl
  obtain ⟨k, hk⟩ := hmagnitude n.natAbs
  rcases lt_or_ge n 0 with hneg | hnonneg
  · have habs : (-(n : ℚ)) = (n.natAbs : ℚ) := by
      rw [Nat.cast_natAbs, abs_of_neg hneg]
      push_cast
      rfl
    have hlt : (n : ℚ) < 0 := by exact_mod_cast hneg
    exact ⟨-k, by rw [roundToDouble, if_pos hlt, habs, hk]; push_cast; rfl⟩
  · have habs : (n : ℚ) = (n.natAbs : ℚ) := by
      rw [Nat.cast_natAbs, abs_of_nonneg hnonneg]
    have hlt : ¬ (n : ℚ) < 0 := by exact_mod_cast hnonneg.not_gt
    exact ⟨k, by rw [roundToDouble, if_neg hlt, habs, hk]⟩

/-! ## The first integer that is no double -/

/-- Halfway between two integers of which the lower is even, it is the nearest. -/
theorem nearestEven_half {n : ℤ} (h : n % 2 = 0) : nearestEven (n + 1 / 2) = n := by
  have hfloor : ⌊(n : ℚ) + 1 / 2⌋ = n := by
    rw [Int.floor_eq_iff]
    constructor <;> linarith
  unfold nearestEven
  rw [hfloor, if_neg (by linarith), if_neg (by linarith), if_pos h]

/-- The first integer that is no double is rounded to the even one of its neighbours. -/
theorem roundToDouble_first :
    roundToDouble ((2 ^ 53 + 1 : ℤ) : ℚ) = roundToDouble ((2 ^ 53 : ℤ) : ℚ) := by
  have hplace : ∀ m : ℕ, 2 ^ 53 ≤ m → m < 2 ^ 54 → lastPlace (m : ℚ) = 1 := by
    intro m hge hlt
    have hlog : Nat.log 2 m = 53 := Nat.log_eq_of_pow_le_of_lt_pow hge hlt
    rw [lastPlace, Int.log_natCast, hlog]
    rfl
  -- In units of the last place the two are a half apart.
  have hfirst : roundMagnitude ((2 ^ 53 + 1 : ℕ) : ℚ) = 2 ^ 53 := by
    have hhalf : ((2 ^ 53 + 1 : ℕ) : ℚ) / 2 ^ (1 : ℤ) = ((2 ^ 52 : ℤ) : ℚ) + 1 / 2 := by norm_num
    rw [roundMagnitude, hplace _ (by norm_num) (by norm_num), hhalf, nearestEven_half (by norm_num)]
    norm_num
  have heven : roundMagnitude ((2 ^ 53 : ℕ) : ℚ) = 2 ^ 53 := by
    have hwhole : ((2 ^ 53 : ℕ) : ℚ) / 2 ^ (1 : ℤ) = ((2 ^ 52 : ℤ) : ℚ) := by norm_num
    rw [roundMagnitude, hplace _ (by norm_num) (by norm_num), hwhole, nearestEven_intCast]
    norm_num
  have hround : ∀ m : ℕ, roundToDouble ((m : ℤ) : ℚ) = roundMagnitude (m : ℚ) := by
    intro m
    rw [roundToDouble, if_neg (by simp), Int.cast_natCast]
  calc roundToDouble ((2 ^ 53 + 1 : ℤ) : ℚ)
      = roundMagnitude ((2 ^ 53 + 1 : ℕ) : ℚ) := by exact_mod_cast hround (2 ^ 53 + 1)
    _ = roundMagnitude ((2 ^ 53 : ℕ) : ℚ) := by rw [hfirst, heven]
    _ = roundToDouble ((2 ^ 53 : ℤ) : ℚ) := by exact_mod_cast (hround (2 ^ 53)).symm

/-! ## Rounding keeps the order -/

theorem nearestEven_le_floor_add_one (x : ℚ) : nearestEven x ≤ ⌊x⌋ + 1 := by
  unfold nearestEven
  split_ifs <;> omega

theorem nearestEven_mono {x y : ℚ} (h : x ≤ y) : nearestEven x ≤ nearestEven y := by
  rcases (Int.floor_mono h).lt_or_eq with hlt | heq
  · exact (nearestEven_le_floor_add_one x).trans
      ((Int.add_one_le_of_lt hlt).trans (floor_le_nearestEven y))
  · -- With one integer part, a larger fraction goes up if a smaller one does.
    unfold nearestEven
    rw [heq]
    split_ifs <;> first | omega | (exfalso; linarith)

theorem nearestEven_nonneg {x : ℚ} (h : 0 ≤ x) : 0 ≤ nearestEven x :=
  (Int.floor_nonneg.mpr h).trans (floor_le_nearestEven x)

private theorem two_zpow_pos (e : ℤ) : (0 : ℚ) < 2 ^ e := zpow_pos (by norm_num) e

theorem roundMagnitude_nonneg {x : ℚ} (h : 0 ≤ x) : 0 ≤ roundMagnitude x := by
  unfold roundMagnitude
  have hscaled : (0 : ℚ) ≤ x / 2 ^ lastPlace x := div_nonneg h (two_zpow_pos _).le
  exact mul_nonneg (by exact_mod_cast nearestEven_nonneg hscaled) (two_zpow_pos _).le

/-- Below a power of two that is a multiple of the last place, rounding stays below it. -/
theorem roundMagnitude_le_zpow {x : ℚ} {e : ℤ} (hplace : lastPlace x ≤ e) (h : x ≤ 2 ^ e) :
    roundMagnitude x ≤ 2 ^ e := by
  obtain ⟨k, hk⟩ := Int.eq_ofNat_of_zero_le (sub_nonneg.mpr hplace)
  have hpow : (2 : ℚ) ^ e = ((2 ^ k : ℤ) : ℚ) * 2 ^ lastPlace x := by
    rw [← sub_add_cancel e (lastPlace x), hk, zpow_add₀ (by norm_num)]
    push_cast
    rw [zpow_natCast]
  have hscaled : x / 2 ^ lastPlace x ≤ ((2 ^ k : ℤ) : ℚ) := by
    rw [div_le_iff₀ (two_zpow_pos _), ← hpow]
    exact h
  have hnear : nearestEven (x / 2 ^ lastPlace x) ≤ 2 ^ k := by
    rw [← nearestEven_intCast (2 ^ k)]
    exact nearestEven_mono hscaled
  rw [hpow, roundMagnitude]
  exact mul_le_mul_of_nonneg_right (by exact_mod_cast hnear) (two_zpow_pos _).le

/-- Rounding stays above the leading power of two. -/
theorem zpow_log_le_roundMagnitude {x : ℚ} (hpos : 0 < x)
    (hplace : lastPlace x = Int.log 2 x - 52) : 2 ^ Int.log 2 x ≤ roundMagnitude x := by
  have hpow : (2 : ℚ) ^ Int.log 2 x = ((2 ^ 52 : ℤ) : ℚ) * 2 ^ lastPlace x := by
    rw [hplace, zpow_sub₀ (by norm_num)]
    push_cast
    field_simp
  have hscaled : ((2 ^ 52 : ℤ) : ℚ) ≤ x / 2 ^ lastPlace x := by
    rw [le_div_iff₀ (two_zpow_pos _), ← hpow]
    exact_mod_cast Int.zpow_log_le_self (b := 2) (by norm_num) hpos
  have hnear : (2 ^ 52 : ℤ) ≤ nearestEven (x / 2 ^ lastPlace x) :=
    (Int.le_floor.mpr hscaled).trans (floor_le_nearestEven _)
  rw [hpow, roundMagnitude]
  exact mul_le_mul_of_nonneg_right (by exact_mod_cast hnear) (two_zpow_pos _).le

theorem lastPlace_mono {x y : ℚ} (hpos : 0 < x) (h : x ≤ y) : lastPlace x ≤ lastPlace y :=
  max_le_max_right _ (sub_le_sub_right (Int.log_mono_right hpos h) 52)

theorem roundMagnitude_mono {x y : ℚ} (hx : 0 ≤ x) (h : x ≤ y) :
    roundMagnitude x ≤ roundMagnitude y := by
  rcases hx.eq_or_lt with rfl | hpos
  · have hzero : roundMagnitude 0 = 0 := by simpa [roundToDouble] using roundToDouble_zero
    rw [hzero]
    exact roundMagnitude_nonneg h
  rcases (lastPlace_mono hpos h).eq_or_lt with heq | hlt
  · -- One place: the scaled numbers are in order.
    unfold roundMagnitude
    rw [heq]
    have hscaled : x / 2 ^ lastPlace y ≤ y / 2 ^ lastPlace y :=
      div_le_div_of_nonneg_right h (two_zpow_pos _).le
    exact mul_le_mul_of_nonneg_right (by exact_mod_cast nearestEven_mono hscaled)
      (two_zpow_pos _).le
  · -- The larger number has a larger leading power of two, which separates the two.
    have hplace : lastPlace y = Int.log 2 y - 52 := by
      rw [lastPlace, max_eq_left_iff]
      by_contra hsmall
      rw [lastPlace, lastPlace, max_eq_right (not_le.mp hsmall).le] at hlt
      exact absurd hlt (not_lt.mpr (le_max_right _ _))
    have hlog : Int.log 2 x + 1 ≤ Int.log 2 y := by
      have hle : Int.log 2 x - 52 ≤ lastPlace x := le_max_left _ _
      omega
    have hbelow : x ≤ 2 ^ Int.log 2 y := by
      refine (Int.lt_zpow_succ_log_self (b := 2) (by norm_num) x).le.trans ?_
      exact_mod_cast zpow_le_zpow_right₀ (by norm_num : (1 : ℚ) ≤ 2) hlog
    calc roundMagnitude x ≤ 2 ^ Int.log 2 y := roundMagnitude_le_zpow (by omega) hbelow
      _ ≤ roundMagnitude y := zpow_log_le_roundMagnitude (hpos.trans_le h) hplace

theorem roundToDouble_of_nonneg {x : ℚ} (h : 0 ≤ x) : roundToDouble x = roundMagnitude x := by
  rw [roundToDouble, if_neg (not_lt.mpr h)]

theorem roundToDouble_nonneg {x : ℚ} (h : 0 ≤ x) : 0 ≤ roundToDouble x := by
  rw [roundToDouble_of_nonneg h]
  exact roundMagnitude_nonneg h

theorem roundToDouble_mono {x y : ℚ} (h : x ≤ y) : roundToDouble x ≤ roundToDouble y := by
  rcases lt_or_ge x 0 with hx | hx
  · rcases lt_or_ge y 0 with hy | hy
    · rw [roundToDouble, if_pos hx, roundToDouble, if_pos hy]
      exact neg_le_neg (roundMagnitude_mono (neg_nonneg.mpr hy.le) (neg_le_neg h))
    · rw [roundToDouble, if_pos hx]
      have hneg := roundMagnitude_nonneg (neg_nonneg.mpr hx.le)
      exact (neg_nonpos.mpr hneg).trans (roundToDouble_nonneg hy)
  · rw [roundToDouble_of_nonneg hx, roundToDouble_of_nonneg (hx.trans h)]
    exact roundMagnitude_mono hx h

/-! ## Doubles round to themselves -/

/-- The binary logarithm of a number with its leading bit at `2 ^ e`. -/
private theorem log_eq_of_mem_binade {x : ℚ} {e : ℤ} (hge : 2 ^ e ≤ x) (hlt : x < 2 ^ (e + 1)) :
    Int.log 2 x = e := by
  have hpos : 0 < x := (two_zpow_pos e).trans_le hge
  apply le_antisymm
  · apply Int.lt_add_one_iff.mp
    apply (Int.lt_zpow_iff_log_lt (by norm_num) hpos).mp
    exact_mod_cast hlt
  · apply (Int.zpow_le_iff_le_log (by norm_num) hpos).mp
    exact_mod_cast hge

/-- Less than half a last place above a number with 53 bits, rounding comes back to it. -/
theorem roundMagnitude_add_small {m : ℕ} {p : ℤ} {f : ℚ} (hge : 2 ^ 52 ≤ m) (hlt : m < 2 ^ 53)
    (hp : -1074 ≤ p) (hf : 0 ≤ f) (hsmall : f < 2 ^ p / 2) :
    roundMagnitude (m * 2 ^ p + f) = m * 2 ^ p := by
  have hpos := two_zpow_pos p
  have hge' : (2 ^ 52 : ℚ) ≤ m := by exact_mod_cast hge
  have hlt' : (m : ℚ) + 1 ≤ 2 ^ 53 := by exact_mod_cast hlt
  -- The sum stays in the binade of `m * 2 ^ p`, so it is rounded at the same place.
  have hlog : Int.log 2 ((m : ℚ) * 2 ^ p + f) = 52 + p := by
    apply log_eq_of_mem_binade
    · rw [zpow_add₀ (by norm_num)]
      have hlower := mul_le_mul_of_nonneg_right hge' hpos.le
      norm_num at hlower ⊢
      linarith
    · rw [show 52 + p + 1 = 53 + p by ring, zpow_add₀ (by norm_num)]
      have hupper := mul_le_mul_of_nonneg_right hlt' hpos.le
      norm_num at hupper ⊢
      linarith
  have hplace : lastPlace ((m : ℚ) * 2 ^ p + f) = p := by
    rw [lastPlace, hlog]
    omega
  have hscaled : ((m : ℚ) * 2 ^ p + f) / 2 ^ p = m + f / 2 ^ p := by
    rw [add_div, mul_div_cancel_right₀ _ hpos.ne']
  -- Less than half a unit is added, so the nearest multiple is `m` itself and no tie arises.
  have hfraction : f / 2 ^ p < 1 / 2 := by
    rw [div_lt_iff₀ hpos]
    linarith
  have hfloor : ⌊(m : ℚ) + f / 2 ^ p⌋ = m := by
    rw [Int.floor_eq_iff]
    have hnonneg : 0 ≤ f / 2 ^ p := div_nonneg hf hpos.le
    push_cast
    constructor <;> linarith
  have hnear : nearestEven ((m : ℚ) + f / 2 ^ p) = m := by
    rw [nearestEven, hfloor, if_pos]
    push_cast
    linarith
  rw [roundMagnitude, hplace, hscaled, hnear, Int.cast_natCast]

/-- A large natural number is rounded to 53 bits times a power of two. -/
theorem exists_roundToDouble_natCast {n : ℕ} (h : 2 ^ 53 ≤ n) :
    ∃ m p : ℕ, 2 ^ 52 ≤ m ∧ m < 2 ^ 53 ∧ 1 ≤ p ∧ roundToDouble n = m * 2 ^ p := by
  have hlog : 53 ≤ Nat.log 2 n := Nat.le_log_of_pow_le (by norm_num) h
  obtain ⟨p, hp⟩ := Nat.exists_eq_add_of_le (show 52 ≤ Nat.log 2 n by omega)
  have hplace : lastPlace (n : ℚ) = p := by
    rw [lastPlace, Int.log_natCast, hp]
    omega
  have hpos : (0 : ℚ) < 2 ^ p := by positivity
  have hround : roundToDouble n = nearestEven ((n : ℚ) / 2 ^ p) * 2 ^ p := by
    rw [roundToDouble_of_nonneg (Nat.cast_nonneg n), roundMagnitude, hplace, zpow_natCast]
  have hlower : (2 ^ 52 : ℤ) ≤ nearestEven ((n : ℚ) / 2 ^ p) := by
    rw [← nearestEven_intCast (2 ^ 52)]
    apply nearestEven_mono
    rw [le_div_iff₀ hpos]
    have hpow := Nat.pow_log_le_self 2 (show n ≠ 0 by omega)
    rw [hp, pow_add] at hpow
    exact_mod_cast hpow
  have hupper : nearestEven ((n : ℚ) / 2 ^ p) ≤ 2 ^ 53 := by
    rw [← nearestEven_intCast (2 ^ 53)]
    apply nearestEven_mono
    rw [div_le_iff₀ hpos]
    have hpow := Nat.lt_pow_succ_log_self (b := 2) (by norm_num) n
    rw [hp, show (52 + p).succ = 53 + p by omega, pow_add] at hpow
    exact_mod_cast hpow.le
  obtain ⟨m, hm⟩ := Int.eq_ofNat_of_zero_le (show 0 ≤ nearestEven ((n : ℚ) / 2 ^ p) by omega)
  rw [hm] at hlower hupper hround
  rcases (show m ≤ 2 ^ 53 by exact_mod_cast hupper).lt_or_eq with hlt | rfl
  · exact ⟨m, p, by exact_mod_cast hlower, hlt, by omega, by exact_mod_cast hround⟩
  · -- A carry out of the 53 bits: half as many places, twice as large.
    refine ⟨2 ^ 52, p + 1, le_rfl, by norm_num, by omega, ?_⟩
    rw [hround]
    push_cast
    ring

/-- What is less than one is lost beside a large double. -/
theorem roundToDouble_add_lt_one {n : ℕ} {f : ℚ} (h : 2 ^ 53 ≤ n) (hf : 0 ≤ f) (hlt : f < 1) :
    roundToDouble (roundToDouble n + f) = roundToDouble n := by
  obtain ⟨m, p, hge, hm, hp, hround⟩ := exists_roundToDouble_natCast h
  have hplace : f < 2 ^ (p : ℤ) / 2 := by
    have hpow : (2 : ℚ) ^ 1 ≤ 2 ^ p := pow_le_pow_right₀ (by norm_num) hp
    rw [zpow_natCast]
    linarith
  rw [hround, roundToDouble_of_nonneg (by positivity)]
  exact_mod_cast roundMagnitude_add_small hge hm (by omega) hf hplace

/-- A power of two is a double. -/
theorem roundToDouble_two_pow (e : ℕ) : roundToDouble (2 ^ e) = 2 ^ e := by
  have hplace : (-1074 : ℤ) ≤ e - 52 := by omega
  have hpow : ((2 ^ 52 : ℕ) : ℚ) * 2 ^ ((e : ℤ) - 52) = 2 ^ e := by
    rw [zpow_sub₀ (by norm_num), zpow_natCast]
    push_cast
    field_simp
  have hhalf : (0 : ℚ) < 2 ^ ((e : ℤ) - 52) / 2 := half_pos (two_zpow_pos _)
  have hsmall := roundMagnitude_add_small le_rfl (by norm_num : 2 ^ 52 < 2 ^ 53) hplace
    le_rfl hhalf
  rw [add_zero, hpow] at hsmall
  have hnonneg : (0 : ℚ) ≤ 2 ^ e := by positivity
  rw [roundToDouble_of_nonneg hnonneg, hsmall]

end KrabkaRegistry.Library.Binary64
