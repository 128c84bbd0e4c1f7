import Mathlib.Algebra.BigOperators.Group.List.Basic
import Mathlib.Data.Finmap
/-!
# Totals over a keyed store

A store maps finitely many keys to values, one value a key. This file
sums a quantity over its values and says how the sum moves when a value
is put under a fresh key, replaced, or erased.
-/

namespace Vans

universe u v w

variable {α : Type u} {β : Type v} {M : Type w} [DecidableEq α] [AddCommMonoid M]

/-- A finite map with one value a key. -/
abbrev Keyed (α : Type u) (β : Type v) := AList fun _ : α => β

namespace Keyed

variable {f g : α → β → M} {m : Keyed α β} {k : α} {b c : β}

/-- The sum of `f` over the values of the store. -/
def total (f : α → β → M) (m : Keyed α β) : M :=
  (m.entries.map fun s => f s.1 s.2).sum

omit [DecidableEq α] in
@[simp] theorem total_empty : total f (∅ : Keyed α β) = 0 := rfl

/-- A fresh key adds its value's share. -/
theorem total_insert_fresh (h : m.lookup k = none) :
    total f (m.insert k b) = f k b + total f m := by
  have hk : k ∉ m := AList.lookup_eq_none.mp h
  rw [total, AList.entries_insert_of_notMem hk]
  simp [total]

/-- An erased key takes its value's share. -/
theorem total_erase (h : m.lookup k = some b) :
    f k b + total f (m.erase k) = total f m := by
  have hmem : (⟨k, b⟩ : Sigma fun _ : α => β) ∈ m.entries := AList.mem_lookup_iff.mp h
  have hk : k ∈ m.entries.keys := List.mem_keys_of_mem hmem
  obtain ⟨b', l₁, l₂, hnot, hl, herase⟩ := List.exists_of_kerase hk
  have hb : b' = b := by
    have hmem' : (⟨k, b'⟩ : Sigma fun _ : α => β) ∈ m.entries := by rw [hl]; simp
    have h' : m.lookup k = some b' := AList.mem_lookup_iff.mpr hmem'
    rw [h] at h'
    exact (Option.some.inj h').symm
  subst hb
  change f k b' + ((List.kerase k m.entries).map fun s => f s.1 s.2).sum = total f m
  rw [herase, total, hl]
  simp [add_left_comm]

/-- A value put under a key counts beside what is under the others. -/
theorem total_insert : total f (m.insert k c) = f k c + total f (m.erase k) := by
  simp [total, AList.entries_insert, AList.erase]

/-- A value replaced by one whose share is larger by `d` adds `d`. -/
theorem total_insert_add {d : M} (h : m.lookup k = some b) (hc : f k c = d + f k b) :
    total f (m.insert k c) = d + total f m := by
  rw [total_insert, hc, add_assoc, total_erase h]

/-- A value replaced by one of the same share leaves the total. -/
theorem total_insert_eq (h : m.lookup k = some b) (hc : f k c = f k b) :
    total f (m.insert k c) = total f m := by
  rw [total_insert_add (d := 0) h (by rw [hc, zero_add]), zero_add]

/-- Two quantities that agree on the store have one total. -/
theorem total_congr (h : ∀ a x, m.lookup a = some x → f a x = g a x) :
    total f m = total g m := by
  unfold total
  congr 1
  refine List.map_congr_left fun s hs => ?_
  exact h s.1 s.2 (AList.mem_lookup_iff.mpr hs)

/-- A quantity that is zero throughout the store has total zero. -/
theorem total_eq_zero (h : ∀ a x, m.lookup a = some x → f a x = 0) : total f m = 0 := by
  rw [total_congr (g := fun _ _ => 0) h]
  simp [total]

/-! ## Size -/

/-- A fresh key makes the store one larger. -/
theorem length_insert_fresh (h : m.lookup k = none) :
    (m.insert k b).keys.length = m.keys.length + 1 := by
  have hk : k ∉ m.keys := fun hm => AList.lookup_eq_none.mp h (AList.mem_keys.mpr hm)
  simp [AList.keys_insert, List.erase_of_not_mem hk]

/-- Replacing a value keeps the size. -/
theorem length_insert (h : m.lookup k = some b) :
    (m.insert k c).keys.length = m.keys.length := by
  have hk : k ∈ m.keys := AList.mem_keys.mp (AList.lookup_isSome.mp (by simp [h]))
  have := List.length_erase_of_mem hk
  have := List.length_pos_of_mem hk
  simp only [AList.keys_insert, List.length_cons]
  omega

/-- Erasing a key that is there makes the store one smaller. -/
theorem length_erase (h : m.lookup k = some b) :
    (m.erase k).keys.length + 1 = m.keys.length := by
  have hk : k ∈ m.keys := AList.mem_keys.mp (AList.lookup_isSome.mp (by simp [h]))
  have := List.length_erase_of_mem hk
  have := List.length_pos_of_mem hk
  simp only [AList.keys_erase]
  omega

end Keyed

end Vans
