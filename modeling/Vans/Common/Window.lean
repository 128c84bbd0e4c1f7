import Mathlib.Data.List.Basic
/-!
# Windows on a history

A window keeps the last `n` values of a history, the newest first, and a
filler for the values not there yet. A deque of fixed length that is
pushed at one end and popped at the other is one.
-/

namespace Vans

universe u

variable {α : Type u} {pad a : α} {n i : ℕ} {l : List α}

/-- The first `n` values of the history, filled up. -/
def window (pad : α) (n : ℕ) (l : List α) : List α := (l ++ List.replicate n pad).take n

@[simp] theorem window_length : (window pad n l).length = n := by
  simp [window]

@[simp] theorem window_nil : window pad n [] = List.replicate n pad := by
  simp [window]

/-- **A new value pushes the oldest out.** -/
theorem window_cons (h : 0 < n) : window pad n (a :: l) = a :: (window pad n l).dropLast := by
  obtain ⟨m, rfl⟩ := Nat.exists_eq_add_of_lt h
  rw [List.dropLast_eq_take, window_length, window, window, List.take_take]
  simp

/-- A place of the window holds the value of the history, or the filler. -/
theorem window_getElem? (h : i < n) : (window pad n l)[i]? = some (l.getD i pad) := by
  rw [window, List.getElem?_take_of_lt h]
  by_cases hi : i < l.length
  · rw [List.getElem?_append_left hi]
    simp [List.getD_eq_getElem?_getD, List.getElem?_eq_getElem hi]
  · rw [List.getElem?_append_right (by omega), List.getElem?_replicate]
    simp [List.getD_eq_getElem?_getD, List.getElem?_eq_none (Nat.not_lt.mp hi)]
    omega

end Vans
