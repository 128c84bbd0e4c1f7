import Mathlib.Data.Nat.Basic
import Mathlib.Tactic.Ring
/-!
# Words read as numbers

Shifts and masks of 64-bit words, as division and remainder of the
numbers they stand for.
-/

namespace Vans

namespace Word

variable {a b s : UInt64}

theorem toNat_shr (hs : s.toNat < 64) : (a >>> s).toNat = a.toNat / 2 ^ s.toNat := by
  rw [UInt64.toNat_shiftRight, Nat.mod_eq_of_lt hs, Nat.shiftRight_eq_div_pow]

theorem toNat_shl (hs : s.toNat < 64) (h : a.toNat * 2 ^ s.toNat < 2 ^ 64) :
    (a <<< s).toNat = a.toNat * 2 ^ s.toNat := by
  rw [UInt64.toNat_shiftLeft, Nat.mod_eq_of_lt hs, Nat.shiftLeft_eq, Nat.mod_eq_of_lt h]

/-- **Clearing the low bits rounds down.** -/
theorem toNat_shr_shl (hs : s.toNat < 64) :
    ((a >>> s) <<< s).toNat = a.toNat / 2 ^ s.toNat * 2 ^ s.toNat := by
  have hle : a.toNat / 2 ^ s.toNat * 2 ^ s.toNat ≤ a.toNat := Nat.div_mul_le_self _ _
  have hlt : a.toNat < 2 ^ 64 := a.toNat_lt
  rw [toNat_shl hs (by rw [toNat_shr hs]; omega), toNat_shr hs]

/-- A mask of low ones takes the remainder. -/
theorem toNat_and_mask {n : ℕ} (hm : b.toNat = 2 ^ n - 1) :
    (a &&& b).toNat = a.toNat % 2 ^ n := by
  rw [UInt64.toNat_and, hm, Nat.and_two_pow_sub_one_eq_mod]

/-- **A number is its digits**, up to as many as are looked at. -/
theorem mod_pow_eq_of_digits {base m n : ℕ} : ∀ {k : ℕ},
    (∀ i < k, m / base ^ i % base = n / base ^ i % base) → m % base ^ k = n % base ^ k := by
  intro k
  induction k with
  | zero => intro _; simp [Nat.mod_one]
  | succ k ih =>
      intro h
      rw [Nat.mod_pow_succ, Nat.mod_pow_succ, ih fun i hi => h i (by omega), h k (by omega)]

/-- A multiple of a power of two and a number below it do not share a
bit, so joining them adds them. -/
theorem toNat_or_of_lt {n q : ℕ} (ha : a.toNat = q * 2 ^ n) (hb : b.toNat < 2 ^ n) :
    (a ||| b).toNat = a.toNat + b.toNat := by
  rw [UInt64.toNat_or, ha, Nat.mul_comm, Nat.two_pow_add_eq_or_of_lt hb]

end Word

end Vans
