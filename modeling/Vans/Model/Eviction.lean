import Vans.Model.Component
import Mathlib.Data.Finset.Card
import Mathlib.Data.List.MinMax
/-!
# Eviction from a buffer

What a controller that evicts the least recently used of the entries at
rest may do to its buffer; and how the entries inserted, evicted and
left are counted. The controllers that have a buffer share both.

The scan for the oldest starts from two sentinels, an address no entry
is under and the latest of clocks. So it does not see an entry last used
at that clock.
-/

namespace Vans

variable {ε : Type} {addrFunc : Addr → Addr}

/-! ## The scan -/

/-- What an eviction looks at in an entry. -/
structure Usage (ε : Type) where
  atEnd : ε → Prop
  pending : ε → Bool
  lastUsedClk : ε → Clk

/-- The scan has found the oldest of the entries at rest, or none. -/
structure Scanned (u : Usage ε) (b : InternalBuffer addrFunc ε) (out : Addr × Clk) : Prop where
  least : ∀ k e, b.entryMap.lookup k = some e → u.atEnd e → out.2 ≤ u.lastUsedClk e
  found : out = (addrInvalid, clkInvalid) ∨
    ∃ e, b.entryMap.lookup out.1 = some e ∧ u.atEnd e ∧ u.lastUsedClk e = out.2

/-- **The entry used longest ago**, of those at rest; of those used at
one clock, the first that is visited. One last used at the invalid clock
is not seen. -/
structure InternalBuffer.Oldest (u : Usage ε) (o : VisitOrder) (b : InternalBuffer addrFunc ε)
    (k : Addr) (e : ε) : Prop where
  entry : b.entryMap.lookup k = some e
  atEnd : u.atEnd e
  used : u.lastUsedClk e ≠ clkInvalid
  least : ∀ k' e', b.entryMap.lookup k' = some e' → u.atEnd e' →
    u.lastUsedClk e < u.lastUsedClk e' ∨ u.lastUsedClk e = u.lastUsedClk e' ∧
      (o.visit b.entryMap.keys).idxOf k ≤ (o.visit b.entryMap.keys).idxOf k'

/-- What a scan finds: that entry, or its sentinels where there is
none. -/
inductive InternalBuffer.Search (u : Usage ε) (o : VisitOrder) (b : InternalBuffer addrFunc ε) :
    Addr × Clk → Prop
  | none (h : ∀ k e, b.entryMap.lookup k = some e → u.atEnd e → u.lastUsedClk e = clkInvalid) :
      Search u o b (addrInvalid, clkInvalid)
  | found {k : Addr} {e : ε} (h : b.Oldest u o k e) : Search u o b (k, u.lastUsedClk e)

theorem VisitOrder.mem_visit_keys {o : VisitOrder} {b : InternalBuffer addrFunc ε} {k : Addr}
    {e : ε} (he : b.entryMap.lookup k = some e) : k ∈ o.visit b.entryMap.keys :=
  mem_visit.mpr (AList.mem_keys.mp (AList.lookup_isSome.mp (by simp [he])))

/-- There is one such entry at most. -/
theorem InternalBuffer.Oldest.unique {u : Usage ε} {o : VisitOrder} {b : InternalBuffer addrFunc ε}
    {k k' : Addr} {e e' : ε} (h : b.Oldest u o k e) (h' : b.Oldest u o k' e') : k = k' := by
  have hmem := VisitOrder.mem_visit_keys (o := o) h.entry
  rcases h.least k' e' h'.entry h'.atEnd with hlt | ⟨heq, hidx⟩
  · rcases h'.least k e h.entry h.atEnd with hlt' | ⟨heq', -⟩
    · exact absurd (UInt64.lt_trans hlt hlt') (UInt64.lt_irrefl _)
    · rw [heq'] at hlt
      exact absurd hlt (UInt64.lt_irrefl _)
  · rcases h'.least k e h.entry h.atEnd with hlt' | ⟨-, hidx'⟩
    · rw [heq] at hlt'
      exact absurd hlt' (UInt64.lt_irrefl _)
    · exact (List.idxOf_inj hmem).mp (le_antisymm hidx hidx')

/-- **A scan for less keeps the first of the least**, where that is less
than what it starts from. -/
theorem scan_eq_argmin {f : Addr × Clk → Addr → Addr × Clk} {clkOf : Addr → Clk}
    (hround : ∀ out k, f out k = if clkOf k < out.2 then (k, clkOf k) else out)
    {start : Addr × Clk} (ks : List Addr) :
    ks.foldl f start = ((ks.argmin fun k => (clkOf k).toNat).elim start fun k =>
      if clkOf k < start.2 then (k, clkOf k) else start) := by
  -- from the end: the last round compares with the least of those before
  induction ks using List.reverseRecOn with
  | nil => rfl
  | append_singleton ks key ih =>
      rw [List.foldl_concat, List.argmin_concat, ih]
      cases ks.argmin fun k => (clkOf k).toNat with
      | none => exact hround start key
      | some k =>
          simp only [Option.elim_some, ← UInt64.lt_iff_toNat_lt]
          by_cases hk : clkOf k < start.2
          · rw [if_pos hk, hround]
            by_cases hkey : clkOf key < clkOf k
            · rw [if_pos hkey, if_pos hkey, Option.elim_some, if_pos (UInt64.lt_trans hkey hk)]
            · rw [if_neg hkey, if_neg hkey, Option.elim_some, if_pos hk]
          · rw [if_neg hk, hround]
            by_cases hkey : clkOf key < clkOf k
            · rw [if_pos hkey, Option.elim_some]
            · have hnot : ¬ clkOf key < start.2 := fun hlt =>
                hkey (UInt64.lt_of_lt_of_le hlt (UInt64.not_lt.mp hk))
              rw [if_neg hkey, Option.elim_some, if_neg hnot, if_neg hk]

/-- No clock is later than the invalid one. -/
theorem le_clkInvalid (c : Clk) : c ≤ clkInvalid := by
  have hmax : c.toNat ≤ 2 ^ 64 - 1 := Nat.le_pred_of_lt (UInt64.toNat_lt _)
  exact hmax

theorem eq_clkInvalid {c : Clk} (h : clkInvalid ≤ c) : c = clkInvalid :=
  UInt64.le_antisymm (le_clkInvalid c) h

open Classical in
/-- The clock a scan goes by under a key: what may not go counts as used
at the invalid clock. -/
noncomputable def InternalBuffer.restClk (u : Usage ε) (b : InternalBuffer addrFunc ε) (k : Addr) :
    Clk :=
  match b.entryMap.lookup k with
  | some e => if u.atEnd e then u.lastUsedClk e else clkInvalid
  | none => clkInvalid

section Scan

variable {u : Usage ε} {o : VisitOrder} {b : InternalBuffer addrFunc ε} {k : Addr} {e : ε}

theorem restClk_eq (he : b.entryMap.lookup k = some e) (hend : u.atEnd e) :
    b.restClk u k = u.lastUsedClk e := by
  simp only [InternalBuffer.restClk, he, if_pos hend]

theorem restClk_skip (h : ∀ e, b.entryMap.lookup k = some e → ¬ u.atEnd e) :
    b.restClk u k = clkInvalid := by
  unfold InternalBuffer.restClk
  split
  · rename_i e he
    exact if_neg (h e he)
  · rfl

/-- **The first key of the least clock is that of the oldest entry**,
unless no entry may go. -/
theorem InternalBuffer.Oldest.of_argmin
    (hmin : (o.visit b.entryMap.keys).argmin (fun k => (b.restClk u k).toNat) = some k)
    (hlt : b.restClk u k < clkInvalid) : ∃ e, b.Oldest u o k e := by
  obtain ⟨-, hleast, hfirst⟩ := List.argmin_eq_some_iff.mp hmin
  -- below the invalid clock there is an entry that may go
  obtain ⟨e, he, hend⟩ : ∃ e, b.entryMap.lookup k = some e ∧ u.atEnd e := by
    by_contra hnone
    rw [restClk_skip fun e he hend => hnone ⟨e, he, hend⟩] at hlt
    exact UInt64.lt_irrefl _ hlt
  have hclk := restClk_eq he hend
  rw [hclk] at hlt hleast hfirst
  refine ⟨e, he, hend, UInt64.ne_of_lt hlt, fun k' e' he' hend' => ?_⟩
  have hmem := VisitOrder.mem_visit_keys (o := o) he'
  have hle := hleast k' hmem
  have hidx := hfirst k' hmem
  rw [restClk_eq he' hend'] at hle hidx
  rcases UInt64.lt_or_eq_of_le (UInt64.le_iff_toNat_le.mpr hle) with hless | heq
  · exact .inl hless
  · exact .inr ⟨heq, hidx (by rw [heq])⟩

/-- **The scan over the keys of a buffer.** -/
theorem search_of_foldl {f : Addr × Clk → Addr → Addr × Clk}
    (hskip : ∀ out k, (∀ e, b.entryMap.lookup k = some e → ¬ u.atEnd e) → f out k = out)
    (hlook : ∀ out k e, b.entryMap.lookup k = some e → u.atEnd e →
      f out k = if u.lastUsedClk e < out.2 then (k, u.lastUsedClk e) else out) :
    b.Search u o ((o.visit b.entryMap.keys).foldl f (addrInvalid, clkInvalid)) := by
  have hround : ∀ out k, f out k = if b.restClk u k < out.2 then (k, b.restClk u k) else out := by
    intro out k
    by_cases hend : ∃ e, b.entryMap.lookup k = some e ∧ u.atEnd e
    · obtain ⟨e, he, hend⟩ := hend
      rw [restClk_eq he hend]
      exact hlook out k e he hend
    · have hnot : ∀ e, b.entryMap.lookup k = some e → ¬ u.atEnd e := fun e he h => hend ⟨e, he, h⟩
      rw [restClk_skip hnot, if_neg (UInt64.not_lt.mpr (le_clkInvalid _))]
      exact hskip out k hnot
  rw [scan_eq_argmin hround]
  cases hmin : (o.visit b.entryMap.keys).argmin fun k => (b.restClk u k).toNat with
  | none =>
      refine .none fun k e he _ => ?_
      have hmem := VisitOrder.mem_visit_keys (o := o) he
      rw [List.argmin_eq_none.mp hmin] at hmem
      exact absurd hmem List.not_mem_nil
  | some k =>
      rw [Option.elim_some]
      by_cases hlt : b.restClk u k < clkInvalid
      · obtain ⟨e, hold⟩ := InternalBuffer.Oldest.of_argmin hmin hlt
        rw [if_pos hlt, restClk_eq hold.entry hold.atEnd]
        exact .found hold
      · rw [if_neg hlt]
        refine .none fun k' e' he' hend' => ?_
        have hle := (List.argmin_eq_some_iff.mp hmin).2.1 k' (VisitOrder.mem_visit_keys he')
        rw [restClk_eq he' hend'] at hle
        have hlate := UInt64.not_lt.mp hlt
        exact eq_clkInvalid (UInt64.le_trans hlate (UInt64.le_iff_toNat_le.mpr hle))

end Scan

theorem InternalBuffer.Search.scanned {u : Usage ε} {o : VisitOrder}
    {b : InternalBuffer addrFunc ε} {out : Addr × Clk} (h : b.Search u o out) :
    Scanned u b out := by
  cases h with
  | none h => exact ⟨fun k e he hend => by rw [h k e he hend]; exact UInt64.le_refl _, .inl rfl⟩
  | @found k e h =>
      refine ⟨fun k' e' he' hend' => ?_, .inr ⟨e, h.entry, h.atEnd, rfl⟩⟩
      rcases h.least k' e' he' hend' with hlt | ⟨heq, -⟩
      · exact UInt64.le_of_lt hlt
      · rw [heq]
        exact UInt64.le_refl _

/-! ## What an eviction may do -/

/-- **Safe eviction of the least recently used.** The call says there is
room exactly where there is room for one more entry afterwards; it
removes one entry at most, of a full buffer, that is at rest and was
used before every other at rest; and where it says there is none nothing
has changed, and each entry is in use or was last used at the invalid
clock. -/
structure SafeLru {S : Type} (u : Usage ε) (buffer : S → InternalBuffer addrFunc ε) (s : S)
    (out : Bool × S) : Prop where
  room : out.1 = true ↔
    (buffer out.2).entryMap.keys.length + 1 ≤ (buffer out.2).maxEntries
  removed : buffer out.2 = buffer s ∨ (buffer s).full = true ∧
    ∃ k e, (buffer s).entryMap.lookup k = some e ∧ u.atEnd e ∧ u.pending e = false ∧
      (∀ k' e', (buffer s).entryMap.lookup k' = some e' → u.atEnd e' →
        u.lastUsedClk e ≤ u.lastUsedClk e') ∧
      (buffer out.2).entryMap = (buffer s).entryMap.erase k
  refused : out.1 = false → out.2 = s ∧ (buffer s).full = true ∧
    ∀ k e, (buffer s).entryMap.lookup k = some e →
      (¬ u.atEnd e ∧ u.pending e = true) ∨ u.lastUsedClk e = clkInvalid

/-- What is asked of the entries of a buffer. -/
structure InternalBuffer.Sound (u : Usage ε) (b : InternalBuffer addrFunc ε) : Prop where
  bound : b.entryMap.keys.length ≤ b.maxEntries
  aligned : ∀ k e, b.entryMap.lookup k = some e → addrFunc k = k
  pending : ∀ k e, b.entryMap.lookup k = some e → (u.pending e = false ↔ u.atEnd e)
  valid : b.entryMap.lookup addrInvalid = none

theorem InternalBuffer.full_iff {b : InternalBuffer addrFunc ε} :
    b.full = true ↔ b.maxEntries ≤ b.entryMap.keys.length := by
  simp [InternalBuffer.full]

/-- **Evicting what the scan has found is safe.** -/
theorem SafeLru.of_scan {S : Type} {u : Usage ε} {buffer : S → InternalBuffer addrFunc ε} {s s' : S}
    {p : Addr × Clk} (sound : (buffer s).Sound u) (hscan : Scanned u (buffer s) p)
    (hs' : buffer s' = (buffer s).erase p.1) :
    SafeLru u buffer s
      (if !(buffer s).full then (true, s) else if p.1 = addrInvalid then (false, s)
        else (true, s')) := by
  by_cases hfull : (buffer s).full = true
  · have hlen := le_antisymm sound.bound (InternalBuffer.full_iff.mp hfull)
    rw [hfull, Bool.not_true, if_neg Bool.false_ne_true]
    by_cases hnone : p.1 = addrInvalid
    · rw [if_pos hnone]
      refine ⟨by simp [hlen], .inl rfl, fun _ => ⟨rfl, hfull, fun k e he => ?_⟩⟩
      have hp : p = (addrInvalid, clkInvalid) := by
        refine hscan.found.resolve_right ?_
        rintro ⟨e', he', -⟩
        rw [hnone, sound.valid] at he'
        cases he'
      by_cases hend : u.atEnd e
      · have hle := hscan.least k e he hend
        rw [hp] at hle
        exact .inr (eq_clkInvalid hle)
      · exact .inl ⟨hend, by rwa [← Bool.not_eq_false, sound.pending k e he]⟩
    · rw [if_neg hnone]
      obtain ⟨e, he, hend, hclk⟩ := hscan.found.resolve_left fun hp => hnone (by rw [hp])
      have haligned := sound.aligned p.1 e he
      have hmap : (buffer s').entryMap = (buffer s).entryMap.erase p.1 := by
        rw [hs', InternalBuffer.erase, haligned]
      have hmax : (buffer s').maxEntries = (buffer s).maxEntries := by rw [hs']; rfl
      have hless := Keyed.length_erase he
      refine ⟨?_, .inr ⟨hfull, p.1, e, he, hend, (sound.pending _ e he).mpr hend, ?_, hmap⟩, nofun⟩
      · simp only [hmap, hmax, true_iff]
        omega
      · intro k' e' he' hend'
        rw [hclk]
        exact hscan.least k' e' he' hend'
  · rw [Bool.not_eq_true] at hfull
    rw [hfull, Bool.not_false, if_pos rfl]
    have hroom : ¬ (buffer s).maxEntries ≤ (buffer s).entryMap.keys.length := by
      rw [← InternalBuffer.full_iff, hfull]
      exact Bool.false_ne_true
    exact ⟨by simp only [true_iff]; omega, .inl rfl, nofun⟩

/-! ## Entries inserted, evicted and left -/

/-- The addresses entries are under. -/
def InternalBuffer.keySet (b : InternalBuffer addrFunc ε) : Finset Addr := b.entryMap.keys.toFinset

/-- How many entries are there that were not there before. -/
def InternalBuffer.inserted (b b' : InternalBuffer addrFunc ε) : ℕ := (b'.keySet \ b.keySet).card

/-- **The count of evictions balances** between two buffers: what was
inserted is still there, or has been evicted. -/
def Balances (b : InternalBuffer addrFunc ε) (n : ℕ) (b' : InternalBuffer addrFunc ε) (n' : ℕ) :
    Prop :=
  n' + b'.keySet.card = n + b.keySet.card + b.inserted b'

section Keys

variable {b b' b'' : InternalBuffer addrFunc ε} {n n' n'' : ℕ} {k k' : Addr} {e : ε}

theorem mem_keySet : k ∈ b.keySet ↔ (b.entryMap.lookup k).isSome := by
  rw [InternalBuffer.keySet, List.mem_toFinset, AList.lookup_isSome, AList.mem_keys]

theorem card_keySet : b.keySet.card = b.entryMap.keys.length :=
  List.toFinset_card_of_nodup b.entryMap.keys_nodup

/-- Entries may be replaced. -/
theorem keySet_congr (h : ∀ k, (b'.entryMap.lookup k).isSome = (b.entryMap.lookup k).isSome) :
    b'.keySet = b.keySet := by
  ext k
  rw [mem_keySet, mem_keySet, h]

theorem keySet_erase (h : ∀ k', b'.entryMap.lookup k' = if k' = k then none
    else b.entryMap.lookup k') : b'.keySet = b.keySet.erase k := by
  ext k'
  rw [Finset.mem_erase, mem_keySet, mem_keySet, h]
  split <;> simp_all

theorem keySet_insert (h : ∀ k', b'.entryMap.lookup k' = if k' = k then some e
    else b.entryMap.lookup k') : b'.keySet = insert k b.keySet := by
  ext k'
  rw [Finset.mem_insert, mem_keySet, mem_keySet, h]
  split <;> simp_all

namespace Balances

/-- Nothing is inserted, nothing evicted. -/
theorem same (hkeys : b'.keySet = b.keySet) : Balances b n b' n := by
  simp [Balances, InternalBuffer.inserted, hkeys]

theorem evicted (hk : k ∈ b.keySet) (hkeys : b'.keySet = b.keySet.erase k) :
    Balances b n b' (n + 1) := by
  have hcard := Finset.card_erase_add_one hk
  have hnone : b.keySet.erase k \ b.keySet = ∅ :=
    Finset.sdiff_eq_empty_iff_subset.mpr (Finset.erase_subset _ _)
  rw [Balances, InternalBuffer.inserted, hkeys, hnone, Finset.card_empty]
  omega

theorem inserted (hk : k ∉ b.keySet) (hkeys : b'.keySet = insert k b.keySet) :
    Balances b n b' n := by
  have hnew : insert k b.keySet \ b.keySet = {k} := Finset.insert_sdiff_cancel hk
  rw [Balances, InternalBuffer.inserted, hkeys, hnew, Finset.card_insert_of_notMem hk,
    Finset.card_singleton]
  omega

/-- **One after the other**, where what is evicted first does not come
back, and what is inserted first does not go. -/
theorem trans (h : Balances b n b' n') (h' : Balances b' n' b'' n'')
    (hgone : ∀ k ∈ b.keySet, k ∉ b'.keySet → k ∉ b''.keySet)
    (hstay : ∀ k ∈ b'.keySet, k ∉ b.keySet → k ∈ b''.keySet) : Balances b n b'' n'' := by
  have hunion : b''.keySet \ b.keySet = (b'.keySet \ b.keySet) ∪ (b''.keySet \ b'.keySet) := by
    ext k
    simp only [Finset.mem_union, Finset.mem_sdiff]
    constructor
    · rintro ⟨hk, hnot⟩
      by_cases hk' : k ∈ b'.keySet
      · exact .inl ⟨hk', hnot⟩
      · exact .inr ⟨hk, hk'⟩
    · rintro (⟨hk, hnot⟩ | ⟨hk, hnot⟩)
      · exact ⟨hstay k hk hnot, hnot⟩
      · exact ⟨hk, fun hold => hgone k hold hnot hk⟩
  have hdisjoint : Disjoint (b'.keySet \ b.keySet) (b''.keySet \ b'.keySet) :=
    Finset.disjoint_left.mpr fun k hk hk' =>
      (Finset.mem_sdiff.mp hk').2 (Finset.mem_sdiff.mp hk).1
  have hcard := Finset.card_union_of_disjoint hdisjoint
  unfold Balances InternalBuffer.inserted at *
  rw [hunion, hcard]
  omega

theorem trans_same (h : Balances b n b' n') (hkeys : b''.keySet = b'.keySet) :
    Balances b n b'' n' := by
  rwa [Balances, InternalBuffer.inserted, hkeys]

theorem same_trans (hkeys : b'.keySet = b.keySet) (h : Balances b' n b'' n') :
    Balances b n b'' n' := by
  rwa [Balances, InternalBuffer.inserted, ← hkeys]

end Balances

end Keys

end Vans
