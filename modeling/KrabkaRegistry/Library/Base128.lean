import Mathlib.Data.Nat.Basic
import Mathlib.Algebra.Order.Ring.Nat
import Mathlib.Tactic.Common
import Mathlib.Tactic.Ring

/-!
# Base-128 Numerals

A number as bytes of seven bits each, lowest first, where every byte but the last has its
high bit set.  `encode` writes the one numeral without leading zeros, and `length_encode_iff`
tells how long it is.

## Main results

- `encode_cons`: a numeral of several bytes is a low group and the numeral of the rest
- `encode_append_cons`: how a text that starts with a numeral begins
- `length_encode_iff`: the length of a numeral is decided by the size of its number
-/

namespace KrabkaRegistry.Library.Base128

/-- The numeral of `n`. -/
def encode (n : ℕ) : List UInt8 :=
  if n < 128 then [n.toUInt8] else (n % 128 + 128).toUInt8 :: encode (n / 128)
termination_by n
decreasing_by omega

theorem encode_of_lt {n : ℕ} (h : n < 128) : encode n = [n.toUInt8] := by
  rw [encode, if_pos h]

theorem encode_of_ge {n : ℕ} (h : 128 ≤ n) :
    encode n = (n % 128 + 128).toUInt8 :: encode (n / 128) := by
  rw [encode, if_neg (Nat.not_lt.mpr h)]

theorem toNat_toUInt8 {n : ℕ} (h : n < 256) : n.toUInt8.toNat = n := by
  simp [Nat.mod_eq_of_lt h]

theorem encode_ne_nil (n : ℕ) : encode n ≠ [] := by
  rw [encode]
  split <;> simp

/-! ## Groups -/

/-- A numeral that goes on is a group with its high bit set and the numeral of the rest. -/
theorem encode_cons {p m : ℕ} (hp : p < 128) (hm : 0 < m) :
    encode (p + 128 * m) = (p + 128).toUInt8 :: encode m := by
  rw [encode_of_ge (by omega)]
  have hlow : (p + 128 * m) % 128 = p := by omega
  have hhigh : (p + 128 * m) / 128 = m := by omega
  rw [hlow, hhigh]

/-- How a text that starts with a numeral begins: with a last group, or with a group that
goes on and a numeral that is not zero. -/
theorem encode_append_cons {n : ℕ} {b : UInt8} {bytes rest : List UInt8} :
    b :: bytes = encode n ++ rest ↔
      (b.toNat < 128 ∧ n = b.toNat ∧ bytes = rest) ∨
      (128 ≤ b.toNat ∧ ∃ m, 0 < m ∧ n = b.toNat % 128 + 128 * m ∧ bytes = encode m ++ rest) := by
  constructor
  · intro h
    by_cases hn : n < 128
    · rw [encode_of_lt hn, List.singleton_append, List.cons.injEq] at h
      obtain ⟨rfl, rfl⟩ := h
      have hb : n.toUInt8.toNat = n := toNat_toUInt8 (by omega)
      exact .inl ⟨by omega, hb.symm, rfl⟩
    · rw [encode_of_ge (Nat.not_lt.mp hn), List.cons_append, List.cons.injEq] at h
      obtain ⟨rfl, rfl⟩ := h
      have hb : (n % 128 + 128).toUInt8.toNat = n % 128 + 128 := toNat_toUInt8 (by omega)
      refine .inr ⟨by omega, n / 128, by omega, ?_, rfl⟩
      omega
  · rintro (⟨hb, rfl, rfl⟩ | ⟨hb, m, hm, rfl, rfl⟩)
    · rw [encode_of_lt hb, List.singleton_append, List.cons.injEq]
      exact ⟨by simp, rfl⟩
    · rw [encode_cons (Nat.mod_lt _ (by decide)) hm, List.cons_append, List.cons.injEq]
      have hlt := b.toNat_lt
      have hgroup : b.toNat % 128 + 128 = b.toNat := by omega
      exact ⟨by rw [hgroup]; simp, rfl⟩

/-! ## Lengths -/

/-- A numeral has `k + 1` bytes if its number has that many groups. -/
theorem length_encode_iff {k : ℕ} : ∀ {n : ℕ},
    (encode n).length = k + 1 ↔ n < 128 ^ (k + 1) ∧ (k = 0 ∨ 128 ^ k ≤ n) := by
  induction k with
  | zero =>
    intro n
    by_cases hn : n < 128
    · simp [encode_of_lt hn, hn]
    · have hne := List.length_pos_iff.mpr (encode_ne_nil (n / 128))
      rw [encode_of_ge (Nat.not_lt.mp hn), List.length_cons]
      omega
  | succ k ih =>
    intro n
    by_cases hn : n < 128
    · have hpos : 0 < 128 ^ k := Nat.pow_pos (by decide)
      have hlow : ¬ 128 ^ (k + 1) ≤ n := by
        rw [pow_succ]
        omega
      simp [encode_of_lt hn, hlow]
    · rw [encode_of_ge (Nat.not_lt.mp hn), List.length_cons, Nat.add_right_cancel_iff, ih,
        Nat.div_lt_iff_lt_mul (by decide), ← pow_succ]
      have hdiv : 128 ^ k ≤ n / 128 ↔ 128 ^ (k + 1) ≤ n := by
        rw [Nat.le_div_iff_mul_le (by decide), pow_succ]
      rw [hdiv]
      -- With one group only, the bound below says that there is another one.
      rcases Nat.eq_zero_or_pos k with rfl | hk
      · simp [Nat.not_lt.mp hn]
      · simp [hk.ne']

end KrabkaRegistry.Library.Base128
