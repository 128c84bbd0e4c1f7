import Mathlib.Algebra.BigOperators.Group.List.Lemmas
import Mathlib.Algebra.Order.Ring.Int
import Mathlib.Data.Nat.Basic
/-!
# Digits of mixed radix

Positions, each with a radix of its own, are listed from the lowest on.
A number has a digit at each position listed; every choice of digits
below their radices is the digits of one number below the product of the
radices, and of no other.
-/

namespace Vans

namespace Digits

universe u

variable {K : Type u} [DecidableEq K] (radix : K → ℕ)

/-- How many numbers the positions tell apart. -/
def size (ks : List K) : ℕ := (ks.map radix).prod

/-- The digit at a position, and nothing at those not listed. -/
def digit : List K → ℕ → K → ℕ
  | [], _, _ => 0
  | k :: ks, n, k' => if k' = k then n % radix k else digit ks (n / radix k) k'

/-- The number with these digits. -/
def number : List K → (K → ℕ) → ℕ
  | [], _ => 0
  | k :: ks, f => f k + radix k * number ks f

variable {radix} {k : K} {ks : List K} {m n : ℕ} {f g : K → ℕ}

omit [DecidableEq K] in
@[simp] theorem size_cons : size radix (k :: ks) = radix k * size radix ks := by
  simp [size]

omit [DecidableEq K] in
theorem size_perm {ks' : List K} (h : ks.Perm ks') : size radix ks = size radix ks' :=
  (h.map radix).prod_eq

omit [DecidableEq K] in
theorem size_congr {radix' : K → ℕ} (h : ∀ k ∈ ks, radix k = radix' k) :
    size radix ks = size radix' ks :=
  congrArg List.prod (List.map_congr_left h)

omit [DecidableEq K] in
/-- Radices that are powers of one base. -/
theorem size_pow {base : ℕ} {width : K → ℕ} (h : ∀ k ∈ ks, radix k = base ^ width k) :
    size radix ks = base ^ (ks.map width).sum := by
  induction ks with
  | nil => rfl
  | cons k ks ih =>
      rw [size_cons, h k List.mem_cons_self, ih fun k' hk' => h k' (List.mem_cons_of_mem _ hk'),
        List.map_cons, List.sum_cons, Nat.pow_add]

/-- **Digits are below their radices.** -/
theorem digit_lt (hpos : ∀ k ∈ ks, 0 < radix k) (hk : k ∈ ks) : digit radix ks n k < radix k := by
  induction ks generalizing n with
  | nil => cases hk
  | cons k₀ ks ih =>
      rw [digit]
      split
      · rename_i heq
        exact heq ▸ Nat.mod_lt n (hpos k hk)
      · rename_i hne
        exact ih (fun k' hk' => hpos k' (List.mem_cons_of_mem _ hk'))
          ((List.mem_cons.mp hk).resolve_left hne)

omit [DecidableEq K] in
theorem number_congr (h : ∀ k ∈ ks, f k = g k) : number radix ks f = number radix ks g := by
  induction ks with
  | nil => rfl
  | cons k ks ih =>
      rw [number, number, h k List.mem_cons_self, ih fun k' hk' => h k' (List.mem_cons_of_mem _ hk')]

omit [DecidableEq K] in
/-- **The number is among those told apart.** -/
theorem number_lt (h : ∀ k ∈ ks, f k < radix k) : number radix ks f < size radix ks := by
  induction ks with
  | nil => simp [number, size]
  | cons k ks ih =>
      have hk := h k List.mem_cons_self
      have hks := ih fun k' hk' => h k' (List.mem_cons_of_mem _ hk')
      have hmul : radix k * number radix ks f + radix k ≤ radix k * size radix ks :=
        Nat.mul_le_mul_left (radix k) hks
      rw [number, size_cons]
      omega

/-- **The digits of the number are those it was made of.** -/
theorem digit_number (hnodup : ks.Nodup) (h : ∀ k ∈ ks, f k < radix k) (hk : k ∈ ks) :
    digit radix ks (number radix ks f) k = f k := by
  induction ks with
  | nil => cases hk
  | cons k₀ ks ih =>
      have hk₀ := h k₀ List.mem_cons_self
      rw [digit, number]
      split
      · rename_i heq
        rw [heq, Nat.add_mul_mod_self_left, Nat.mod_eq_of_lt hk₀]
      · rename_i hne
        rw [Nat.add_mul_div_left _ _ (by omega), Nat.div_eq_of_lt hk₀, Nat.zero_add]
        exact ih (List.nodup_cons.mp hnodup).2 (fun k' hk' => h k' (List.mem_cons_of_mem _ hk'))
          ((List.mem_cons.mp hk).resolve_left hne)

/-- **A number is that of its digits.** -/
theorem number_digit (hnodup : ks.Nodup) (hn : n < size radix ks) :
    number radix ks (digit radix ks n) = n := by
  induction ks generalizing n with
  | nil =>
      rw [size, List.map_nil, List.prod_nil] at hn
      rw [number]
      omega
  | cons k ks ih =>
      obtain ⟨hnot, hnodup⟩ := List.nodup_cons.mp hnodup
      rw [size_cons] at hn
      have hrest : number radix ks (digit radix (k :: ks) n) = n / radix k := by
        rw [← ih hnodup (Nat.div_lt_of_lt_mul hn)]
        exact number_congr fun k' hk' => if_neg fun heq : k' = k => hnot (heq ▸ hk')
      rw [number, hrest, digit, if_pos rfl, Nat.mod_add_div]

/-- **Numbers with the same digits are the same.** -/
theorem eq_of_digits (hnodup : ks.Nodup) (hm : m < size radix ks) (hn : n < size radix ks)
    (h : ∀ k ∈ ks, digit radix ks m k = digit radix ks n k) : m = n := by
  rw [← number_digit hnodup hm, ← number_digit hnodup hn]
  exact number_congr h

end Digits

end Vans
