import Vans.Common.Machine
import Vans.Common.History
/-!
# Regions and their history

Arrays of cells allocated at keys, and freed. The store is what is left
of a history of changes: each change acts at its own key, an allocation
fills a region with a default, and a write replaces a first part of it.
What a cell holds is the value last written there since the region was
allocated, or the default where there is none.
-/

namespace Vans

namespace Regions

variable {K V : Type}

/-- A change of the store at a key. -/
inductive Change (K V : Type) where
  | alloc (k : K) (size : ℕ)
  | free (k : K)
  | write (k : K) (vs : List V)
  deriving DecidableEq, Repr

def Change.key : Change K V → K
  | .alloc k _ => k
  | .free k => k
  | .write k _ => k

/-- A write ends no region. -/
def Change.isWrite : Change K V → Bool
  | .write _ _ => true
  | _ => false

/-- The change writes the `i`-th cell at `k`. -/
def Change.Writes (c : Change K V) (k : K) (i : ℕ) : Prop := ∃ vs, c = .write k vs ∧ i < vs.length

/-! ## What a history says of a key -/

variable {log : List (Change K V)} {c : Change K V} {k : K} {i : ℕ}

/-- The change ends the region at the key, or begins another. -/
def Change.Ends (c : Change K V) (k : K) : Prop := c.key = k ∧ c.isWrite = false

/-- The change decides what the `i`-th cell at the key holds. -/
def Change.Decides (c : Change K V) (k : K) (i : ℕ) : Prop := c.Ends k ∨ c.Writes k i

/-- A region of this size was allocated at the key, and is still there. -/
def Allocated (log : List (Change K V)) (k : K) (size : ℕ) : Prop :=
  History.Owes (· = .alloc k size) (Change.Ends · k) log

/-- The value is the one last written to the cell, in the region that is
there. -/
def LastWritten (log : List (Change K V)) (k : K) (i : ℕ) (v : V) : Prop :=
  History.Owes (fun c => ∃ vs, c = .write k vs ∧ vs[i]? = some v) (Change.Decides · k i) log

/-- The cell has not been written since the region was allocated. -/
def Unwritten (log : List (Change K V)) (k : K) (i : ℕ) : Prop :=
  History.Owes (fun c => ∃ n, c = .alloc k n) (Change.Decides · k i) log

/-- The key has been allocated before. -/
def Returned (log : List (Change K V)) (k : K) : Prop := ∃ n, .alloc k n ∈ log

theorem Change.not_decides_of_ne (h : c.key ≠ k) : ¬ c.Decides k i := by
  rintro (⟨hk, -⟩ | ⟨vs, rfl, -⟩)
  · exact h hk
  · exact h rfl

theorem not_ends_write {k' : K} {vs : List V} : ¬ (Change.write k' vs).Ends k := by
  rintro ⟨-, h⟩
  cases h

theorem returned_concat : Returned (log ++ [c]) k ↔ Returned log k ∨ ∃ n, c = .alloc k n := by
  simp only [Returned, List.mem_append, List.mem_singleton, exists_or, eq_comm]

/-- A change at another key leaves what the history says of this one. -/
theorem allocated_concat_of_ne {n : ℕ} (h : c.key ≠ k) :
    Allocated (log ++ [c]) k n ↔ Allocated log k n := by
  rw [Allocated, History.owes_concat]
  constructor
  · rintro (rfl | ⟨hold, -⟩)
    · exact absurd rfl h
    · exact hold
  · exact fun hold => .inr ⟨hold, fun hends => h hends.1⟩

/-! ## The store a history leaves -/

structure Region (V : Type) where
  size : ℕ
  cell : ℕ → V

/-- A first part of the cells is replaced. -/
def Region.write (r : Region V) (vs : List V) : Region V :=
  { r with cell := fun i => vs.getD i (r.cell i) }

abbrev Store (K V : Type) := K → Option (Region V)

variable [DecidableEq K]

def change (zero : V) (s : Store K V) : Change K V → Store K V
  | .alloc k n => Function.update s k (some ⟨n, fun _ => zero⟩)
  | .free k => Function.update s k none
  | .write k vs => Function.update s k ((s k).map (·.write vs))

/-- What a history of changes leaves. -/
def replay (zero : V) (log : List (Change K V)) : Store K V :=
  log.foldl (change zero) fun _ => none

variable {zero : V} {s : Store K V} {r : Region V}

/-- **A change acts at its own key.** -/
theorem change_of_ne (h : c.key ≠ k) : change zero s c k = s k := by
  cases c <;> exact Function.update_of_ne (Ne.symm h) _ _

theorem replay_concat : replay zero (log ++ [c]) = change zero (replay zero log) c := by
  rw [replay, List.foldl_append]
  rfl

@[simp] theorem replay_nil : replay zero ([] : List (Change K V)) k = none := rfl

/-- **A region is in the store exactly while the history has it
allocated.** -/
theorem allocated_iff {n : ℕ} : Allocated log k n ↔ ∃ r, replay zero log k = some r ∧ r.size = n := by
  induction log using List.reverseRecOn with
  | nil => simp [Allocated]
  | append_singleton log c ih =>
      rw [replay_concat]
      by_cases hk : c.key = k
      · cases c with
        | alloc k' m =>
            obtain rfl : k' = k := hk
            simp [Allocated, History.owes_concat, change, Change.Ends, Change.key, Change.isWrite]
        | free k' =>
            obtain rfl : k' = k := hk
            simp [Allocated, History.owes_concat, change, Change.Ends, Change.key, Change.isWrite]
        | write k' vs =>
            obtain rfl : k' = k := hk
            rw [Allocated, History.owes_concat]
            simp only [reduceCtorEq, false_or, not_ends_write, not_false_eq_true, and_true, change,
              Function.update_self]
            rw [← Allocated, ih]
            cases replay zero log k' <;> simp [Region.write]
      · rw [allocated_concat_of_ne hk, ih, change_of_ne hk]

/-- **A cell holds the value last written to it**, or the default where
it was not written. -/
theorem replay_cell (h : replay zero log k = some r) :
    LastWritten log k i (r.cell i) ∨ (Unwritten log k i ∧ r.cell i = zero) := by
  induction log using List.reverseRecOn generalizing r with
  | nil => cases h
  | append_singleton log c ih =>
      rw [replay_concat] at h
      simp only [LastWritten, Unwritten, History.owes_concat]
      by_cases hk : c.key = k
      · cases c with
        | alloc k' n =>
            obtain rfl : k' = k := hk
            simp only [change, Function.update_self, Option.some.injEq] at h
            subst h
            exact .inr ⟨.inl ⟨n, rfl⟩, rfl⟩
        | free k' =>
            obtain rfl : k' = k := hk
            simp [change] at h
        | write k' vs =>
            obtain rfl : k' = k := hk
            simp only [change, Function.update_self, Option.map_eq_some_iff] at h
            obtain ⟨r, hr, rfl⟩ := h
            by_cases hi : i < vs.length
            · exact .inl (.inl ⟨vs, rfl, by simp [Region.write, hi]⟩)
            · -- the write falls short of the cell
              have hdec : ¬ (Change.write k' vs).Decides k' i := by
                rintro (hends | ⟨ws, hws, hlt⟩)
                · exact not_ends_write hends
                · cases hws
                  exact hi hlt
              have hcell : (r.write vs).cell i = r.cell i := by
                simp [Region.write, List.getD, List.getElem?_eq_none (Nat.le_of_not_lt hi)]
              rw [hcell]
              rcases ih hr with hlast | ⟨hun, hzero⟩
              · exact .inl (.inr ⟨hlast, hdec⟩)
              · exact .inr ⟨.inr ⟨hun, hdec⟩, hzero⟩
      · rw [change_of_ne hk] at h
        have hdec := Change.not_decides_of_ne (i := i) hk
        rcases ih h with hlast | ⟨hun, hzero⟩
        · exact .inl (.inr ⟨hlast, hdec⟩)
        · exact .inr ⟨.inr ⟨hun, hdec⟩, hzero⟩

/-- A region comes back only by an allocation. -/
theorem replay_none_concat (h : replay zero log k = none) (hc : ∀ n, c ≠ .alloc k n) :
    replay zero (log ++ [c]) k = none := by
  rw [replay_concat]
  by_cases hk : c.key = k
  · cases c with
    | alloc k' n => exact absurd (congrArg (Change.alloc · n) hk) (hc n)
    | free k' =>
        obtain rfl : k' = k := hk
        simp [change]
    | write k' vs =>
        obtain rfl : k' = k := hk
        simp [change, h]
  · rw [change_of_ne hk, h]

end Regions

end Vans
