import Vans.Common.Machine
import Mathlib.Data.Multiset.AddSub
import Mathlib.Data.Multiset.Range
/-!
# Slots numbered by how many are held

A store of bounded size numbers what it holds. Each thing taken in is
given a slot, and where one counter serves for both, the slot is how
many are held already. While things are only taken in, no slot is held
twice. Once the store is full each thing that comes puts another out,
and the newcomer is given the last slot whichever slot was left.

This file says when that is harmless: exactly when it is always the
holder of the last slot that is put out. The first time it is not, the
slot it left is held by nothing from then on, so a full store holds some
slot twice for good.
-/

namespace Vans

namespace Slots

variable {size : ℕ} {held held' : Multiset ℕ} {gone : Option ℕ} {i : ℕ}

/-- **The slots held are a numbering**: none is held twice, and each is
below the size. -/
structure Valid (size : ℕ) (held : Multiset ℕ) : Prop where
  nodup : held.Nodup
  lt_size : ∀ i ∈ held, i < size

/-- The slots held are those below their number. -/
def Packed (held : Multiset ℕ) : Prop := held = Multiset.range held.card

/-- The store is full, and a slot before the last is held by nothing. -/
def Holed (size : ℕ) (held : Multiset ℕ) : Prop :=
  held.card = size ∧ ∃ i, i + 1 < size ∧ i ∉ held

/-- One more is taken in. -/
def takeIn (held : Multiset ℕ) : Multiset ℕ := held.card ::ₘ held

/-- **What may happen to the slots at a time**, and which slot is left. -/
inductive Turn (size : ℕ) (held : Multiset ℕ) : Option ℕ → Multiset ℕ → Prop
  /-- Nothing comes. -/
  | keep : Turn size held none held
  /-- There is room for what comes. -/
  | fill (room : held.card < size) : Turn size held none (takeIn held)
  /-- What comes puts another out. -/
  | swap {i : ℕ} (full : held.card = size) (hi : i ∈ held) :
      Turn size held (some i) (takeIn (held.erase i))

theorem mem_takeIn {j : ℕ} : j ∈ takeIn held ↔ j = held.card ∨ j ∈ held := by
  rw [takeIn, Multiset.mem_cons]

theorem card_takeIn : (takeIn held).card = held.card + 1 := Multiset.card_cons _ _

/-- One is put out, and there is room for one. -/
theorem card_erase (hi : i ∈ held) : (held.erase i).card + 1 = held.card :=
  Multiset.card_erase_add_one hi

/-! ## Each state of the store -/

theorem packed_zero : Packed 0 := rfl

theorem Packed.takeIn (h : Packed held) : Packed (takeIn held) := by
  rw [Packed, card_takeIn, Multiset.range_succ, ← h]
  rfl

/-- **The last to have come goes first.** -/
theorem Packed.erase_last (h : Packed held) (hi : i ∈ held) (hlast : i + 1 = held.card) :
    Packed (held.erase i) := by
  have hcard : (held.erase i).card = i := by
    have := card_erase hi
    omega
  rw [Packed, hcard]
  conv_lhs => rw [h, ← hlast, Multiset.range_succ]
  exact Multiset.erase_cons_head _ _

/-- Packed slots are a numbering, as far as there is room. -/
theorem Packed.valid (h : Packed held) (hroom : held.card ≤ size) : Valid size held := by
  refine ⟨?_, fun i hi => ?_⟩
  · rw [h]
    exact Multiset.nodup_range _
  · rw [h, Multiset.mem_range] at hi
    omega

/-- Putting one out leaves a numbering. -/
theorem Valid.erase (h : Valid size held) : Valid size (held.erase i) :=
  ⟨h.nodup.erase i, fun j hj => h.lt_size j (Multiset.mem_of_mem_erase hj)⟩

/-- **A full store that is numbered holds every slot.** -/
theorem Valid.eq_range (h : Valid size held) (full : held.card = size) :
    held = Multiset.range size := by
  have hsub : held ⊆ Multiset.range size := fun i hi => Multiset.mem_range.mpr (h.lt_size i hi)
  have hle : held ≤ Multiset.range size := (Multiset.le_iff_subset h.nodup).mpr hsub
  refine Multiset.eq_of_le_of_card_le hle ?_
  rw [Multiset.card_range]
  omega

theorem Holed.not_valid (h : Holed size held) : ¬ Valid size held := by
  intro hvalid
  obtain ⟨full, i, hlt, hnot⟩ := h
  rw [hvalid.eq_range full, Multiset.mem_range] at hnot
  omega

/-! ## What a turn keeps -/

/-- The store never holds more than its size. -/
theorem Turn.room (h : Turn size held gone held') (hroom : held.card ≤ size) :
    held'.card ≤ size := by
  cases h with
  | keep => exact hroom
  | fill room =>
      rw [card_takeIn]
      omega
  | swap full hi =>
      have := card_erase hi
      rw [card_takeIn]
      omega

/-- Every slot given is below the size, however things go. -/
theorem Turn.lt_size (h : Turn size held gone held') (hlt : ∀ i ∈ held, i < size) :
    ∀ i ∈ held', i < size := by
  intro j hj
  cases h with
  | keep => exact hlt j hj
  | fill room =>
      rcases mem_takeIn.mp hj with rfl | hj
      · exact room
      · exact hlt j hj
  | swap full hi =>
      rcases mem_takeIn.mp hj with rfl | hj
      · have := card_erase hi
        omega
      · exact hlt j (Multiset.mem_of_mem_erase hj)

/-- **While only the last slot is left, the slots stay packed.** -/
theorem Packed.turn (h : Packed held) (turn : Turn size held gone held')
    (hlast : ∀ i ∈ gone, i + 1 = size) : Packed held' := by
  cases turn with
  | keep => exact h
  | fill room => exact h.takeIn
  | @swap i full hi =>
      have hi_last : i + 1 = size := hlast i rfl
      exact (h.erase_last hi (by omega)).takeIn

/-- **Where another slot is left, it stays free**: the newcomer is given
the last slot, which is held already. -/
theorem Packed.holed (h : Packed held) (turn : Turn size held (some i) held')
    (hnot : i + 1 ≠ size) : Holed size held' := by
  cases turn with
  | swap full hi =>
      -- the newcomer takes the last slot, so the one left is held by nothing
      have hcard := card_erase hi
      have hlt : i < held.card := by
        rw [h, Multiset.mem_range] at hi
        exact hi
      have hnodup : held.Nodup := by
        rw [h]
        exact Multiset.nodup_range _
      refine ⟨by rw [card_takeIn]; omega, i, by omega, ?_⟩
      rw [mem_takeIn, not_or]
      exact ⟨by omega, hnodup.notMem_erase⟩

/-- **A free slot before the last is never given again.** -/
theorem Holed.turn (h : Holed size held) (turn : Turn size held gone held') :
    Holed size held' := by
  obtain ⟨full, j, hlt, hnot⟩ := h
  cases turn with
  | keep => exact ⟨full, j, hlt, hnot⟩
  | fill room => omega
  | @swap i _ hi =>
      have hcard := card_erase hi
      refine ⟨by rw [card_takeIn]; omega, j, hlt, ?_⟩
      rw [mem_takeIn, not_or]
      exact ⟨by omega, fun hmem => hnot (Multiset.mem_of_mem_erase hmem)⟩

/-! ## Every run -/

section Runs

variable {S E X : Type} {M : Machine S E X} {slots : S → Multiset ℕ} {inv : S → Prop}
  {C : S → E → Prop} {s t : S} {es : List E}

/-- The machine fills a store of this size: each of its steps, where the
invariant holds, is a turn, and meets the condition exactly when no slot
but the last is left. -/
def Fills (M : Machine S E X) (inv : S → Prop) (slots : S → Multiset ℕ) (size : ℕ)
    (C : S → E → Prop) : Prop :=
  ∀ s e t, inv s → M.step s e = .ok t →
    inv t ∧ ∃ gone, Turn size (slots s) gone (slots t) ∧ (C s e ↔ ∀ i ∈ gone, i + 1 = size)

/-- **No slot is held twice exactly when no slot but the last was ever
left**: the slots are packed until then, and have a hole from then on. -/
theorem valid_iff_meets (hfills : Fills M inv slots size C) (hinv : inv s)
    (hpacked : Packed (slots s)) (hroom : (slots s).card ≤ size) (h : M.run s es = .ok t) :
    Valid size (slots t) ↔ M.Meets C s es := by
  let P (s : S) : Prop := inv s ∧ Packed (slots s) ∧ (slots s).card ≤ size
  let Q (s : S) : Prop := inv s ∧ Holed size (slots s)
  have hkeep : ∀ s e t, P s → C s e → M.step s e = .ok t → P t := by
    rintro s e t ⟨hinv, hpacked, hroom⟩ hC hst
    obtain ⟨hinv', gone, turn, hiff⟩ := hfills s e t hinv hst
    exact ⟨hinv', hpacked.turn turn (hiff.mp hC), turn.room hroom⟩
  constructor
  · intro hvalid
    by_contra hC
    -- after the first step that did not meet it the store has a hole
    have hholed : Q t := by
      refine M.invariant_of_not_meets (P := P) hkeep ?_ ?_ ⟨hinv, hpacked, hroom⟩ hC h
      · rintro s e t ⟨hinv, hpacked, hroom⟩ hnot hst
        obtain ⟨hinv', gone, turn, hiff⟩ := hfills s e t hinv hst
        -- a step that does not meet the condition leaves a slot before the last
        cases gone with
        | none => exact absurd (hiff.mpr nofun) hnot
        | some i =>
            refine ⟨hinv', hpacked.holed turn fun hlast => hnot (hiff.mpr ?_)⟩
            rintro j ⟨⟩
            exact hlast
      · rintro s e t ⟨hinv, hholed⟩ hst
        obtain ⟨hinv', gone, turn, -⟩ := hfills s e t hinv hst
        exact ⟨hinv', hholed.turn turn⟩
    exact hholed.2.not_valid hvalid
  · intro hC
    obtain ⟨-, hpacked', hroom'⟩ := M.invariant_of_meets hkeep ⟨hinv, hpacked, hroom⟩ hC h
    exact hpacked'.valid hroom'

/-- The slots stay below the size in every run. -/
theorem lt_size_of_run (hfills : Fills M inv slots size C) (hinv : inv s)
    (hlt : ∀ i ∈ slots s, i < size) (h : M.run s es = .ok t) : ∀ i ∈ slots t, i < size := by
  have hkeep : ∀ s e t, (inv s ∧ ∀ i ∈ slots s, i < size) → M.step s e = .ok t →
      inv t ∧ ∀ i ∈ slots t, i < size := by
    rintro s e t ⟨hinv, hlt⟩ hst
    obtain ⟨hinv', gone, turn, -⟩ := hfills s e t hinv hst
    exact ⟨hinv', turn.lt_size hlt⟩
  exact (M.invariant hkeep ⟨hinv, hlt⟩ h).2

end Runs

end Slots

end Vans
