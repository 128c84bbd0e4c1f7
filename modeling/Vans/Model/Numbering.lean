import Vans.Common.Slots
import Vans.Model.Eviction
/-!
# The indices of a buffer's entries

A buffer gives each new entry the index `next_available_index`, which is
counted up by each `insert` and down by each `erase`. This file says what
the two, and what a controller does with them, make of the indices of
the entries, as slots of a store of `max_entries`.

Both controllers insert an entry after `check_and_evict` only, so an
entry is erased only to make room for another. What one call of theirs
does to the indices is `Turnover`, and what a run does follows.
-/

namespace Vans

variable {ε : Type} {addrFunc : Addr → Addr}

/-! ## The indices as slots -/

namespace InternalBuffer

/-- The indices the entries carry. -/
def slots (index : ε → ℕ) (b : InternalBuffer addrFunc ε) : Multiset ℕ :=
  (b.entryMap.entries.map fun s => index s.2 : List ℕ)

/-- **The indices are a local numbering** of the entries, and the next
one is their number. -/
structure Numbered (index : ε → ℕ) (b : InternalBuffer addrFunc ε) : Prop where
  counted : b.nextAvailableIndex = b.entryMap.keys.length
  distinct : ∀ k e k' e', b.entryMap.lookup k = some e → b.entryMap.lookup k' = some e' →
    index e = index e' → k = k'
  below : ∀ k e, b.entryMap.lookup k = some e → index e < b.maxEntries

variable {index : ε → ℕ} {b b' : InternalBuffer addrFunc ε} {k : Addr} {e e' : ε}

theorem mem_slots {i : ℕ} : i ∈ b.slots index ↔ ∃ k e, b.entryMap.lookup k = some e ∧ index e = i := by
  rw [slots, Multiset.mem_coe, List.mem_map]
  constructor
  · rintro ⟨s, hs, rfl⟩
    exact ⟨s.1, s.2, AList.mem_lookup_iff.mpr hs, rfl⟩
  · rintro ⟨k, e, he, rfl⟩
    exact ⟨⟨k, e⟩, AList.mem_lookup_iff.mp he, rfl⟩

theorem card_slots : (b.slots index).card = b.entryMap.keys.length := by
  simp [slots, AList.keys, List.keys]

/-- Each entry counts with its own index. -/
theorem slots_eq_total : b.slots index = b.entryMap.total fun _ e => {index e} := by
  rw [slots, Keyed.total]
  induction b.entryMap.entries with
  | nil => rfl
  | cons s l ih =>
      rw [List.map_cons, List.map_cons, List.sum_cons, ← ih, Multiset.singleton_add,
        Multiset.cons_coe]

theorem nodup_slots : (b.slots index).Nodup ↔ ∀ k e k' e', b.entryMap.lookup k = some e →
    b.entryMap.lookup k' = some e' → index e = index e' → k = k' := by
  rw [slots, Multiset.coe_nodup, List.nodup_map_iff_inj_on b.entryMap.nodupKeys.nodup]
  constructor
  · intro h k e k' e' he he' heq
    have hsame : (⟨k, e⟩ : Sigma fun _ : Addr => ε) = ⟨k', e'⟩ :=
      h _ (AList.mem_lookup_iff.mp he) _ (AList.mem_lookup_iff.mp he') heq
    exact congrArg Sigma.fst hsame
  · rintro h ⟨k, e⟩ hs ⟨k', e'⟩ hs' heq
    have he : b.entryMap.lookup k = some e := AList.mem_lookup_iff.mpr hs
    have he' : b.entryMap.lookup k' = some e' := AList.mem_lookup_iff.mpr hs'
    -- one key, so one entry
    obtain rfl := h k e k' e' he he' heq
    rw [he] at he'
    cases he'
    rfl

/-- **The entries are numbered exactly when their indices are**, and are
counted. -/
theorem numbered_iff : b.Numbered index ↔
    b.nextAvailableIndex = b.entryMap.keys.length ∧ Slots.Valid b.maxEntries (b.slots index) := by
  constructor
  · rintro ⟨hcounted, hdistinct, hbelow⟩
    refine ⟨hcounted, nodup_slots.mpr hdistinct, fun i hi => ?_⟩
    obtain ⟨k, e, he, rfl⟩ := mem_slots.mp hi
    exact hbelow k e he
  · rintro ⟨hcounted, hnodup, hlt⟩
    exact ⟨hcounted, nodup_slots.mp hnodup, fun k e he => hlt _ (mem_slots.mpr ⟨k, e, he, rfl⟩)⟩

/-! ## What the operations do to them -/

theorem slots_erase (he : b.entryMap.lookup (addrFunc k) = some e) :
    (b.erase k).slots index = (b.slots index).erase (index e) := by
  have htotal := Keyed.total_erase (f := fun _ e => ({index e} : Multiset ℕ)) he
  rw [← slots_eq_total, Multiset.singleton_add] at htotal
  rw [← htotal, Multiset.erase_cons_head, slots_eq_total]
  rfl

theorem slots_insert {addr : Addr} {mk : ℕ → ε} (hmk : ∀ i, index (mk i) = i)
    (h : b.insert addr mk = .ok (e, b')) :
    b'.slots index = b.nextAvailableIndex ::ₘ b.slots index ∧
      b'.nextAvailableIndex = b.nextAvailableIndex + 1 ∧ b'.maxEntries = b.maxEntries ∧
      b.entryMap.keys.length < b.maxEntries := by
  obtain ⟨hnone, hroom, rfl, rfl⟩ := insert_eq_ok h
  refine ⟨?_, rfl, rfl, hroom⟩
  rw [slots_eq_total, slots_eq_total]
  refine (Keyed.total_insert_fresh hnone).trans ?_
  rw [hmk, Multiset.singleton_add]

/-- The indices are the same, and so is what is given next. -/
structure SameSlots (index : ε → ℕ) (b b' : InternalBuffer addrFunc ε) : Prop where
  slots : b'.slots index = b.slots index
  next : b'.nextAvailableIndex = b.nextAvailableIndex
  max : b'.maxEntries = b.maxEntries

theorem SameSlots.refl : SameSlots index b b := ⟨rfl, rfl, rfl⟩

theorem SameSlots.trans {b'' : InternalBuffer addrFunc ε} (h : SameSlots index b b')
    (h' : SameSlots index b' b'') : SameSlots index b b'' :=
  ⟨h'.slots.trans h.slots, h'.next.trans h.next, h'.max.trans h.max⟩

/-- An entry may change, but for its index. -/
theorem SameSlots.set (he : b.entryMap.lookup k = some e) (hindex : index e' = index e) :
    SameSlots index b (b.set k e') := by
  refine ⟨?_, rfl, rfl⟩
  rw [slots_eq_total, slots_eq_total]
  exact Keyed.total_insert_eq he (by rw [hindex])

/-! ## What a call does to them -/

/-- **What `check_and_evict` makes of the buffer.** -/
inductive MadeRoom (u : Usage ε) (o : VisitOrder) (b : InternalBuffer addrFunc ε) :
    Bool → InternalBuffer addrFunc ε → Prop
  /-- There is room. -/
  | had (hroom : b.full = false) : MadeRoom u o b true b
  /-- The entry used longest ago goes. -/
  | evicted {k : Addr} {e : ε} (hfull : b.full = true) (h : b.Oldest u o k e) :
      MadeRoom u o b true (b.erase k)
  /-- There is none that may go. -/
  | stuck (hfull : b.full = true) (h : ∀ k e, ¬ b.Oldest u o k e) : MadeRoom u o b false b

/-- **What serving a request does to the buffer**; `miss` says that the
request is for a block without an entry. -/
inductive Turnover (u : Usage ε) (index : ε → ℕ) (o : VisitOrder) (miss : Prop)
    (b b' : InternalBuffer addrFunc ε) : Prop
  /-- No entry is needed. -/
  | hit (hno : ¬ miss) (same : SameSlots index b b')
  /-- There is no room for one. -/
  | refused {b₁ : InternalBuffer addrFunc ε} (room : MadeRoom u o b false b₁)
      (same : SameSlots index b₁ b')
  /-- One is inserted. -/
  | served {b₁ b₂ : InternalBuffer addrFunc ε} {addr : Addr} {mk : ℕ → ε} {e : ε} (hmiss : miss)
      (room : MadeRoom u o b true b₁) (hins : b₁.insert addr mk = .ok (e, b₂))
      (hmk : ∀ i, index (mk i) = i) (same : SameSlots index b₂ b')

theorem Turnover.trans {u : Usage ε} {o : VisitOrder} {miss : Prop} {b'' : InternalBuffer addrFunc ε}
    (h : Turnover u index o miss b b') (same : SameSlots index b' b'') :
    Turnover u index o miss b b'' := by
  cases h with
  | hit hno same' => exact .hit hno (same'.trans same)
  | refused room same' => exact .refused room (same'.trans same)
  | served hmiss room hins hmk same' => exact .served hmiss room hins hmk (same'.trans same)

/-- **The last index goes.** Where room has to be made for a request that
finds no entry, the entry used longest ago carries the last index. -/
def LastGoes (u : Usage ε) (index : ε → ℕ) (o : VisitOrder) (miss : Prop)
    (b : InternalBuffer addrFunc ε) : Prop :=
  miss → b.full = true → ∀ k e, b.Oldest u o k e → index e + 1 = b.maxEntries

/-- It is asked of the entries the buffer holds. -/
theorem lastGoes_iff {u : Usage ε} {o : VisitOrder} {miss : Prop} :
    b.LastGoes u index o miss ↔ (miss → b.full = true → ∀ s ∈ b.entryMap.entries, u.atEnd s.2 →
      u.lastUsedClk s.2 ≠ clkInvalid → (∀ s' ∈ b.entryMap.entries, u.atEnd s'.2 →
        u.lastUsedClk s.2 < u.lastUsedClk s'.2 ∨ u.lastUsedClk s.2 = u.lastUsedClk s'.2 ∧
          (o.visit b.entryMap.keys).idxOf s.1 ≤ (o.visit b.entryMap.keys).idxOf s'.1) →
      index s.2 + 1 = b.maxEntries) := by
  refine imp_congr_right fun _ => imp_congr_right fun _ => ?_
  constructor
  · intro h s hs hend hused hleast
    refine h s.1 s.2 ⟨AList.mem_lookup_iff.mpr hs, hend, hused, fun k' e' he' hend' => ?_⟩
    exact hleast ⟨k', e'⟩ (AList.mem_lookup_iff.mp he') hend'
  · intro h k e hold
    refine h ⟨k, e⟩ (AList.mem_lookup_iff.mp hold.entry) hold.atEnd hold.used fun s' hs' hend' => ?_
    exact hold.least s'.1 s'.2 (AList.mem_lookup_iff.mpr hs') hend'

instance {u : Usage ε} {o : VisitOrder} {miss : Prop} [DecidablePred u.atEnd] [Decidable miss] :
    Decidable (b.LastGoes u index o miss) :=
  decidable_of_iff _ lastGoes_iff.symm

/-! ### Which turn a call takes -/

variable {u : Usage ε} {o : VisitOrder} {miss : Prop} {room : Bool}

/-- The scan decides whether room is made. -/
theorem MadeRoom.of_search {S : Type} (buffer : S → InternalBuffer addrFunc ε) {s s' : S}
    {p : Addr × Clk} (valid : (buffer s).entryMap.lookup addrInvalid = none)
    (hsearch : (buffer s).Search u o p) (hs' : buffer s' = (buffer s).erase p.1) {out : Bool × S}
    (hout : out = if !(buffer s).full then (true, s) else if p.1 = addrInvalid then (false, s)
      else (true, s')) :
    MadeRoom u o (buffer s) out.1 (buffer out.2) := by
  subst hout
  cases hfull : (buffer s).full with
  | false => exact .had hfull
  | true =>
      rw [Bool.not_true, if_neg Bool.false_ne_true]
      cases hsearch with
      | none hnone =>
          rw [if_pos rfl]
          exact .stuck hfull fun k e hold => hold.used (hnone k e hold.entry hold.atEnd)
      | @found k e hold =>
          -- no entry is under the sentinel
          have hkey : k ≠ addrInvalid := by
            rintro rfl
            have he := hold.entry
            rw [valid] at he
            cases he
          rw [if_neg hkey, hs']
          exact .evicted hfull hold

/-- **Making room leaves a numbering.** -/
theorem MadeRoom.numbered (sound : b.Sound u) (h : MadeRoom u o b room b')
    (hnum : b.Numbered index) : b'.Numbered index := by
  cases h with
  | had | stuck => exact hnum
  | @evicted k e hfull hold =>
      have halign := sound.aligned k e hold.entry
      have hlen := Keyed.length_erase hold.entry
      obtain ⟨hcounted, hvalid⟩ := numbered_iff.mp hnum
      refine numbered_iff.mpr ⟨?_, ?_⟩
      · simp only [InternalBuffer.erase, halign]
        omega
      · rw [slots_erase (by rw [halign]; exact hold.entry)]
        exact hvalid.erase

/-- **Serving a request is a turn of the slots**, and no slot but the last
is left exactly when the last index goes. -/
theorem Turnover.turn (sound : b.Sound u) (hcounted : b.nextAvailableIndex = b.entryMap.keys.length)
    (h : Turnover u index o miss b b') :
    b'.nextAvailableIndex = b'.entryMap.keys.length ∧ b'.maxEntries = b.maxEntries ∧
      ∃ gone, Slots.Turn b.maxEntries (b.slots index) gone (b'.slots index) ∧
        (LastGoes u index o miss b ↔ ∀ i ∈ gone, i + 1 = b.maxEntries) := by
  have hcard : (b.slots index).card = b.nextAvailableIndex := by rw [card_slots, hcounted]
  cases h with
  | hit hno same =>
      refine ⟨?_, same.max, none, ?_, iff_of_true (fun hmiss => absurd hmiss hno) nofun⟩
      · rw [same.next, ← card_slots, same.slots, hcard]
      · rw [same.slots]
        exact .keep
  | refused room same =>
      cases room with
      | stuck hfull hno =>
          refine ⟨?_, same.max, none, ?_, iff_of_true (fun _ _ k e h => absurd h (hno k e)) nofun⟩
          · rw [same.next, ← card_slots, same.slots, hcard]
          · rw [same.slots]
            exact .keep
  | @served b₁ b₂ addr mk e₀ hmiss room hins hmk same =>
      obtain ⟨hslots, hnext, hmax, hlt⟩ := slots_insert hmk hins
      cases room with
      | had hroom =>
          refine ⟨?_, same.max.trans hmax, none, ?_,
            iff_of_true (fun _ hfull => absurd (hfull.symm.trans hroom) nofun) nofun⟩
          · rw [same.next, ← card_slots, same.slots, hslots, Multiset.card_cons, hcard, hnext]
          · rw [same.slots, hslots, ← hcard]
            exact .fill (by rw [card_slots]; exact hlt)
      | @evicted k e hfull hold =>
          have halign := sound.aligned k e hold.entry
          have hmem : index e ∈ b.slots index := mem_slots.mpr ⟨k, e, hold.entry, rfl⟩
          have herase : (b.erase k).slots index = (b.slots index).erase (index e) :=
            slots_erase (by rw [halign]; exact hold.entry)
          -- the counter is taken down, so the newcomer is given the last index
          have hlast : (b.erase k).nextAvailableIndex = ((b.slots index).erase (index e)).card := by
            have := Slots.card_erase hmem
            change b.nextAvailableIndex - 1 = _
            omega
          have hfull' : (b.slots index).card = b.maxEntries := by
            rw [card_slots]
            exact le_antisymm sound.bound (full_iff.mp hfull)
          refine ⟨?_, same.max.trans hmax, some (index e), ?_, ?_⟩
          · rw [same.next, ← card_slots, same.slots, hslots, hnext, herase, Multiset.card_cons, hlast]
          · rw [same.slots, hslots, hlast, herase]
            exact .swap hfull' hmem
          · constructor
            · rintro hlast i ⟨⟩
              exact hlast hmiss hfull k e hold
            · intro hgone _ _ k' e' hold'
              -- the entry that goes is the only one that may
              obtain rfl := hold.unique hold'
              obtain rfl : e = e' := Option.some.inj (hold.entry.symm.trans hold'.entry)
              exact hgone _ rfl

/-! ## Every run -/

section Runs

variable {S E X : Type} {M : Machine S E X} {buffer : S → InternalBuffer addrFunc ε}
  {inv : S → Prop} {C : S → E → Prop} {s t : S} {es : List E}

/-- The machine runs a controller of the buffer: the entries are as they
should be, and each step serves a request at most, under the condition
exactly when the last index goes. -/
structure Controls (M : Machine S E X) (u : Usage ε) (index : ε → ℕ)
    (buffer : S → InternalBuffer addrFunc ε) (inv : S → Prop) (C : S → E → Prop) : Prop where
  sound : ∀ s, inv s → (buffer s).Sound u
  step : ∀ s e t, inv s → M.step s e = .ok t → inv t ∧
    ∃ o miss, Turnover u index o miss (buffer s) (buffer t) ∧
      (C s e ↔ LastGoes u index o miss (buffer s))

theorem Controls.fills (h : Controls M u index buffer inv C) (size : ℕ) :
    Slots.Fills M (fun s => inv s ∧ (buffer s).nextAvailableIndex = (buffer s).entryMap.keys.length ∧
      (buffer s).maxEntries = size) (fun s => (buffer s).slots index) size C := by
  rintro s e t ⟨hinv, hcounted, rfl⟩ hst
  obtain ⟨hinv', o, miss, turnover, hC⟩ := h.step s e t hinv hst
  obtain ⟨hcounted', hmax, gone, turn, hgone⟩ := turnover.turn (h.sound s hinv) hcounted
  exact ⟨⟨hinv', hcounted', hmax⟩, gone, turn, hC.trans hgone⟩

/-- **The entries are numbered exactly when every step met the
condition**; whether or not, they are counted, and the indices are below
`max_entries`. -/
theorem Controls.numbered_iff_meets (h : Controls M u index buffer inv C) (hinv : inv s)
    (hempty : (buffer s).entryMap = ∅ ∧ (buffer s).nextAvailableIndex = 0)
    (hrun : M.run s es = .ok t) :
    ((buffer t).Numbered index ↔ M.Meets C s es) ∧
      (buffer t).nextAvailableIndex = (buffer t).entryMap.keys.length ∧
      ∀ k e, (buffer t).entryMap.lookup k = some e → index e < (buffer t).maxEntries := by
  have hfills := h.fills (buffer s).maxEntries
  -- an empty buffer has given no index
  have hslots : (buffer s).slots index = 0 := by simp [slots, hempty.1]
  have hstart : inv s ∧ (buffer s).nextAvailableIndex = (buffer s).entryMap.keys.length ∧
      (buffer s).maxEntries = (buffer s).maxEntries := ⟨hinv, by simp [hempty], rfl⟩
  obtain ⟨-, hcounted, hmax⟩ := M.invariant (fun s e t hs hst => (hfills s e t hs hst).1) hstart hrun
  have hvalid := Slots.valid_iff_meets hfills hstart (by rw [hslots]; exact Slots.packed_zero)
    (by simp [hslots]) hrun
  have hlt := Slots.lt_size_of_run hfills hstart (by simp [hslots]) hrun
  rw [← hmax] at hvalid hlt
  refine ⟨?_, hcounted, fun k e he => hlt _ (mem_slots.mpr ⟨k, e, he, rfl⟩)⟩
  rw [numbered_iff, ← hvalid]
  exact and_iff_right hcounted

end Runs

end InternalBuffer

end Vans
