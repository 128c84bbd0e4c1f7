import Vans.Common.Keyed
/-!
# Queues by key

A store of queues, one a key: what is pushed under a key comes out first
in, first out, and a key whose queue has run empty is no longer there.
-/

namespace Vans

universe u v

variable {α : Type u} {β : Type v} [DecidableEq α]

/-- A queue for each key that has something waiting. -/
abbrev Fifos (α : Type u) (β : Type v) := Keyed α (List β)

namespace Fifos

variable {m m' : Fifos α β} {k k' : α} {b : β}

/-- What waits under a key. -/
def waiting (m : Fifos α β) (k : α) : List β := (m.lookup k).getD []

def push (m : Fifos α β) (k : α) (b : β) : Fifos α β := m.insert k (m.waiting k ++ [b])

/-- The first that waits, and what is left. -/
def pop (m : Fifos α β) (k : α) : Option (β × Fifos α β) :=
  match m.lookup k with
  | some (b :: rest) => some (b, if rest.isEmpty then m.erase k else m.insert k rest)
  | _ => none

/-- How many wait. -/
def size (m : Fifos α β) : ℕ := m.total fun _ q => q.length

theorem waiting_push :
    (m.push k b).waiting k' = if k' = k then m.waiting k ++ [b] else m.waiting k' := by
  by_cases h : k' = k
  · subst h
    simp [push, waiting]
  · simp [push, waiting, h, AList.lookup_insert_ne h]

/-- **What is pushed makes one more.** -/
theorem size_push : (m.push k b).size = m.size + 1 := by
  cases h : m.lookup k with
  | none =>
      rw [push, size, Keyed.total_insert_fresh h, waiting, h, Nat.add_comm]
      rfl
  | some q =>
      rw [push, size, Keyed.total_insert_add (d := 1) h, Nat.add_comm]
      · rfl
      · rw [waiting, h, Nat.add_comm]
        simp

/-- Nothing waits where nothing waits under any key. -/
theorem size_eq_zero : m.size = 0 ↔ ∀ k, m.waiting k = [] := by
  constructor
  · intro h k
    cases hq : m.lookup k with
    | none => rw [waiting, hq]; rfl
    | some q =>
        have htotal := Keyed.total_erase (f := fun _ (q : List β) => q.length) hq
        rw [size] at h
        have hlen : q.length = 0 := by omega
        rw [waiting, hq]
        exact List.length_eq_zero_iff.mp hlen
  · intro h
    refine Keyed.total_eq_zero fun k q hq => ?_
    have hk := h k
    rw [waiting, hq] at hk
    exact List.length_eq_zero_iff.mpr hk

/-- **Something comes out where something waits.** -/
theorem pop_isSome : (m.pop k).isSome ↔ m.waiting k ≠ [] := by
  unfold pop waiting
  split
  · rename_i h
    simp [h]
  · rename_i h
    cases hq : m.lookup k with
    | none => simp
    | some q =>
        cases q with
        | nil => simp
        | cons b rest => exact absurd hq (h b rest)

/-- **What comes out waited first**, and the other keys are as they were. -/
theorem pop_eq_some (h : m.pop k = some (b, m')) : m.waiting k = b :: m'.waiting k ∧
    (∀ k', k' ≠ k → m'.waiting k' = m.waiting k') ∧ m.size = m'.size + 1 := by
  unfold pop at h
  split at h
  · rename_i b' rest hq
    obtain ⟨rfl, rfl⟩ := Prod.mk.inj (Option.some.inj h)
    have hwait : m.waiting k = b' :: rest := by rw [waiting, hq]; rfl
    cases rest with
    | nil =>
        refine ⟨?_, fun k' hk => ?_, ?_⟩
        · rw [hwait]
          simp [waiting]
        · simp [waiting, AList.lookup_erase_ne hk]
        · have htotal := Keyed.total_erase (f := fun _ q => q.length) hq
          rw [size, ← htotal, Nat.add_comm]
          rfl
    | cons c rest =>
        refine ⟨?_, fun k' hk => ?_, ?_⟩
        · rw [hwait]
          simp [waiting]
        · simp [waiting, AList.lookup_insert_ne hk]
        · have hold : Keyed.total (fun _ q => q.length) m =
              (c :: rest).length + 1 + Keyed.total (fun _ q => q.length) (m.erase k) := by
            rw [← Keyed.total_erase hq]
            rfl
          have hnew : Keyed.total (fun _ (q : List β) => q.length) (m.insert k (c :: rest)) =
              (c :: rest).length + Keyed.total (fun _ q => q.length) (m.erase k) :=
            Keyed.total_insert
          rw [size, hold, size, if_neg (by simp), hnew]
          omega
  · cases h

end Fifos

end Vans
