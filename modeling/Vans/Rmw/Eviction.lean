import Vans.Rmw.Invariant
import Vans.Model.Eviction
/-!
# The RMW controller — eviction

What every move does to the keys of the buffer and to the count of
evictions; that the entry `check_and_evict` removes is the one the scan
found, in every state a run comes to; and that the count of evictions is
that of the entries inserted, less those still there.
-/

namespace Vans

namespace Rmw

variable {κ σ : Type} {C : Component Callback σ} {Q : Env κ}

/-- What eviction looks at in an entry. -/
def usage : Usage (BufferEntry κ) where
  atEnd e := e.state = .end_
  pending e := e.pending
  lastUsedClk e := e.lastUsedClk

/-- The counter `cnt_events["eviction"]`. -/
def Sys.evictions (s : Sys κ σ) : ℕ := s.ctrl.cntEvents .eviction

/-! ## What a move does to the keys -/

section Turns

variable {s t u : Sys κ σ} {key : Addr} {e e' : BufferEntry κ}

/-- The keys of the buffer after a move: the same, one less, or one
more. Only an entry at rest goes, and none comes at rest. -/
inductive Turn (s t : Sys κ σ) : Prop
  | same (hkeys : t.ctrl.buffer.keySet = s.ctrl.buffer.keySet) (hn : t.evictions = s.evictions)
  | evicted {k : Addr} {e : BufferEntry κ} (he : s.entry k = some e) (hend : e.state = .end_)
      (hkeys : t.ctrl.buffer.keySet = s.ctrl.buffer.keySet.erase k)
      (hn : t.evictions = s.evictions + 1)
  | inserted {k : Addr} {e : BufferEntry κ} (hnone : s.entry k = none) (he : t.entry k = some e)
      (hnew : e.state ≠ .end_) (hroom : s.ctrl.buffer.keySet.card < s.ctrl.buffer.maxEntries)
      (hkeys : t.ctrl.buffer.keySet = insert k s.ctrl.buffer.keySet)
      (hn : t.evictions = s.evictions)

theorem keySet_setEntry (he : s.entry key = some e) :
    (s.setEntry key e').ctrl.buffer.keySet = s.ctrl.buffer.keySet := by
  refine keySet_congr fun k => ?_
  change ((s.setEntry key e').entry k).isSome = (s.entry k).isSome
  rw [entry_setEntry]
  split
  · rename_i hk
    rw [hk, he]
    rfl
  · rfl

/-- A new entry. -/
theorem Turn.of_newEntry (hnone : s.entry key = none) (hnew : e.state ≠ .end_)
    (hroom : s.ctrl.buffer.entryMap.keys.length < s.ctrl.buffer.maxEntries)
    (hbuf : t.ctrl.buffer = (s.newEntry key e).ctrl.buffer) (hn : t.evictions = s.evictions) :
    Turn s t := by
  have hentry : ∀ k, t.ctrl.buffer.entryMap.lookup k = if k = key then some e
      else s.ctrl.buffer.entryMap.lookup k := fun k => by
    rw [hbuf]
    exact entry_newEntry
  refine .inserted hnone (e := e) ?_ hnew (by rwa [card_keySet]) (keySet_insert hentry) hn
  exact (hentry key).trans (if_pos rfl)

/-- A transfer evicts nothing. -/
theorem EntryMove.evictions {s' : Sys κ σ} (hm : EntryMove C key s e e' s')
    (hnot : e.pendingRequest.type ≠ .flushBack) : s'.evictions = s.evictions := by
  cases hm with
  | flush ht => exact absurd ht hnot
  | fetch =>
      simp only [Sys.evictions, Counter.incr]
      refine Counter.add_of_ne ?_
      split <;> simp
  | begin =>
      simp only [Sys.evictions, Counter.incr]
      refine Counter.add_of_ne ?_
      split <;> simp
  | refused | roqFull | readFf => simp [Sys.evictions, Counter.incr]
  | _ => rfl

/-- **What a move does to the keys.** -/
theorem Move.turn (ok : s.Ok) (h : Move C Q s t) : Turn s t := by
  cases h with
  | accept | run | below | draining => exact .same rfl rfl
  | @evict key e he hend hfull =>
      refine .evicted he hend (keySet_erase fun k => ?_) (by simp [Sys.evictions, Counter.incr])
      have herase := @entry_erase _ _ s key k (s.ctrl.cntEvents.incr .eviction)
      rwa [(ok key e he).aligned] at herase
  | readCold hq ht hnone hroom =>
      exact .of_newEntry hnone (by simp [BufferEntry.new, BufferEntry.waitFor]) hroom rfl
        (by simp [Sys.evictions, Sys.takeRead, Sys.newEntry, Counter.incr])
  | writeNew hq ht hcomb hnone hroom =>
      exact .of_newEntry hnone (by simp [BufferEntry.new]) hroom rfl
        (by simp [Sys.evictions, Sys.takeWrites, Sys.newEntry, Counter.incr])
  | readPatch hq ht he =>
      exact .same (keySet_setEntry he)
        (by simp [Sys.evictions, Sys.takeRead, Sys.setEntry, Sys.count, Counter.incr])
  | readFf hq ht he =>
      exact .same (keySet_setEntry he)
        (by simp [Sys.evictions, Sys.takeRead, Sys.setEntry, Counter.incr])
  | writeComb hq ht hcomb he =>
      exact .same (keySet_setEntry he)
        (by simp [Sys.evictions, Sys.takeWrites, Sys.setEntry, Sys.count, Counter.incr])
  | writeJoin hq ht hcomb he =>
      exact .same (keySet_setEntry he)
        (by simp [Sys.evictions, Sys.takeWrites, Sys.setEntry, Sys.count, Counter.incr])
  | writePatch hq ht hcomb he =>
      exact .same (keySet_setEntry he)
        (by simp [Sys.evictions, Sys.takeWrites, Sys.setEntry, Counter.incr])
  | @transfer key e e' s' he hact hm =>
      have hnot := (ok key e he).not_flushBack
      have hbuf := (hm.frame hnot).1
      refine .same ?_ (hm.evictions hnot)
      rw [keySet_setEntry (e := e) (by rw [Sys.entry, hbuf]; exact he), hbuf]
  | wake he => exact .same (keySet_setEntry he) rfl
  | flush he hdirty hend => exact .same (keySet_setEntry he) rfl

theorem mem_keySet_iff : key ∈ s.ctrl.buffer.keySet ↔ (s.entry key).isSome := mem_keySet

theorem Turn.balances (h : Turn s t) :
    Balances s.ctrl.buffer s.evictions t.ctrl.buffer t.evictions := by
  cases h with
  | same hkeys hn => exact hn ▸ .same hkeys
  | evicted he hend hkeys hn => exact hn ▸ .evicted (mem_keySet_iff.mpr (by simp [he])) hkeys
  | inserted hnone he hnew hroom hkeys hn =>
      exact hn ▸ .inserted (fun hk => by simp [mem_keySet_iff, hnone] at hk) hkeys

/-- **Serving the front of the load/store queue balances**: what it
evicts does not come back, and what it inserts does not go. -/
theorem LsqStep.balances (ok : s.Ok) (h : LsqStep C Q s t) :
    Balances s.ctrl.buffer s.evictions t.ctrl.buffer t.evictions := by
  obtain ⟨u, hu, ht, -, -, -, hgone⟩ := h.moves
  have okᵤ : u.Ok := by
    rcases hu with rfl | hu
    · exact ok
    · exact ok.move hu
  have turnᵤ : Turn s u := by
    rcases hu with rfl | hu
    · exact .same rfl rfl
    · exact hu.turn ok
  have turnₜ : Turn u t := by
    rcases ht with rfl | ht
    · exact .same rfl rfl
    · exact ht.turn okᵤ
  refine turnᵤ.balances.trans turnₜ.balances (fun k hk hnot => ?_) fun k hk hnot => ?_
  · rw [mem_keySet_iff] at hk hnot ⊢
    rw [hgone k hk (by simpa using hnot)]
    exact Bool.false_ne_true
  · -- only an entry at rest goes, and this one has just come
    cases turnᵤ with
    | same hkeys => exact absurd (hkeys ▸ hk) hnot
    | evicted he hend hkeys => exact absurd (Finset.mem_of_mem_erase (hkeys ▸ hk)) hnot
    | @inserted k₀ e hnone he hnew hroom hkeys =>
        obtain rfl : k = k₀ := by
          rcases Finset.mem_insert.mp (hkeys ▸ hk) with hk | hk
          · exact hk
          · exact absurd hk hnot
        cases turnₜ with
        | same hkeys' => exact hkeys' ▸ hk
        | @evicted k' e' he' hend' hkeys' =>
            refine hkeys' ▸ Finset.mem_erase.mpr ⟨?_, hk⟩
            rintro rfl
            rw [he] at he'
            cases he'
            exact hnew hend'
        | inserted hnone' he' hnew' hroom' hkeys' =>
            exact hkeys' ▸ Finset.mem_insert_of_mem hk

/-! ## What the calls do to them -/

/-- Nothing is inserted, nothing evicted. -/
def Stays (s t : Sys κ σ) : Prop :=
  t.ctrl.buffer.keySet = s.ctrl.buffer.keySet ∧ t.evictions = s.evictions

theorem Stays.refl : Stays s s := ⟨rfl, rfl⟩

theorem Stays.trans (h : Stays s t) (h' : Stays t u) : Stays s u :=
  ⟨h'.1.trans h.1, h'.2.trans h.2⟩

theorem Stays.balances (h : Stays s t) :
    Balances s.ctrl.buffer s.evictions t.ctrl.buffer t.evictions :=
  Turn.balances (.same h.1 h.2)

theorem issueRequest_stays {req : BaseRequest κ} {resp : BaseResponse}
    (h : issueRequest req s = .ok (resp, t)) : Stays s t := by
  simp only [issueRequest, bind_eq_ok, Prod.exists, pure_eq_ok, Prod.mk.injEq] at h
  obtain ⟨success, lsq, -, -, rfl⟩ := h
  split <;> exact .refl

theorem tickRoq_stays {clk : Clk} : Stays s (tickRoq clk s) := by
  unfold tickRoq
  split
  · exact .refl
  · split <;> exact .refl

theorem tickEntry_stays {clk : Clk} (ok : s.Ok) (h : tickEntry C clk s key = .ok t) :
    Stays s t := by
  obtain rfl | ⟨e, e', s', he, hact, hm, rfl⟩ := tickEntry_cases h
  · exact .refl
  · have hnot := (ok key e he).not_flushBack
    have hbuf := (hm.frame hnot).1
    refine ⟨?_, hm.evictions hnot⟩
    rw [keySet_setEntry (e := e) (by rw [Sys.entry, hbuf]; exact he), hbuf]

theorem tickInternalBuffer_stays {o : VisitOrder} {clk : Clk} (ok : s.Ok)
    (h : tickInternalBuffer C o clk s = .ok t) : Stays s t := by
  refine (foldlM_keeps (P := fun u => u.Ok ∧ Stays s u) ?_ ⟨ok, .refl⟩ h).2
  rintro u key v ⟨okᵤ, hu⟩ hv
  have moves : Moves C .any u v := tickEntry_moves hv
  exact ⟨okᵤ.moves moves, hu.trans (tickEntry_stays okᵤ hv)⟩

theorem tick_balances {o : VisitOrder} {clk : Clk} (ok : s.Ok) (h : tick C o clk s = .ok t) :
    Balances s.ctrl.buffer s.evictions t.ctrl.buffer t.evictions := by
  obtain ⟨u, -, step, okᵤ, hbuf⟩ := tick_stages ok h
  obtain ⟨hkeys, hn⟩ : Stays s (tickRoq clk s) := tickRoq_stays
  obtain ⟨hkeys', hn'⟩ := tickInternalBuffer_stays okᵤ hbuf
  have hmid := (step.balances ok.tickRoq).trans_same hkeys'
  rw [hn, ← hn'] at hmid
  exact .same_trans hkeys hmid

theorem nextLevelReadCallback_stays {addr : Addr} {clk : Clk}
    (h : nextLevelReadCallback addr clk s = .ok t) : Stays s t := by
  unfold nextLevelReadCallback at h
  dsimp only at h
  split at h
  · exact absurd h throw_ne_ok
  · rename_i e he
    obtain rfl := pure_eq_ok.mp h
    exact ⟨keySet_setEntry he, rfl⟩

theorem drainCurrent_stays : Stays s (drainCurrent s) := by
  unfold drainCurrent
  refine foldl_keeps (P := fun u => Stays s u) (fun u key hu => ?_) .refl
  dsimp only
  split
  · exact hu
  · rename_i e he
    split
    · exact hu.trans ⟨keySet_setEntry he, rfl⟩
    · exact hu

/-- **Every call balances.** -/
theorem step_balances {ev : Event κ σ} (ok : s.Ok) (h : (machine C).step s ev = .ok t) :
    Balances s.ctrl.buffer s.evictions t.ctrl.buffer t.evictions := by
  cases ev with
  | issueRequest req =>
      simp only [machine, bind_eq_ok, Prod.exists, pure_eq_ok] at h
      obtain ⟨resp, u, hu, rfl⟩ := h
      exact (issueRequest_stays hu).balances
  | tick o clk => exact tick_balances ok h
  | nextLevelReadCallback addr clk => exact (nextLevelReadCallback_stays h).balances
  | drainCurrent =>
      obtain rfl := pure_eq_ok.mp h
      exact drainCurrent_stays.balances
  | nextLevel next =>
      obtain rfl := pure_eq_ok.mp h
      exact Stays.refl.balances

end Turns

/-! ## What `check_and_evict` finds in every state -/

section Scan

variable {s t : Sys κ σ} {o : VisitOrder}

/-- The scan of `check_and_evict` finds the entry used longest ago. -/
theorem oldest_search : s.ctrl.buffer.Search usage o (oldest o s) := by
  refine search_of_foldl (fun out k hskip => ?_) fun out k e he hend => ?_
  · simp only [Sys.entry]
    split
    · rfl
    · rename_i e he
      rw [if_neg fun h => hskip e he h.1]
  · simp only [Sys.entry, he]
    by_cases hlt : e.lastUsedClk < out.2
    · rw [if_pos ⟨hend, hlt⟩]
      exact (if_pos hlt).symm
    · rw [if_neg fun h => hlt h.2]
      exact (if_neg hlt).symm

/-- **What holds of the buffer in every state.** -/
structure Sys.Evictable (s : Sys κ σ) : Prop where
  ok : s.Ok
  bound : s.ctrl.buffer.keySet.card ≤ s.ctrl.buffer.maxEntries
  idle : s.ctrl.evicting = false

theorem EntryMove.evicting {key : Addr} {e e' : BufferEntry κ} {s' : Sys κ σ}
    (hm : EntryMove C key s e e' s') (hnot : e.pendingRequest.type ≠ .flushBack) :
    s'.ctrl.evicting = s.ctrl.evicting := by
  cases hm with
  | flush ht => exact absurd ht hnot
  | _ => rfl

theorem Move.settings (ok : s.Ok) (h : Move C Q s t) :
    t.ctrl.buffer.maxEntries = s.ctrl.buffer.maxEntries ∧ t.ctrl.evicting = s.ctrl.evicting := by
  cases h with
  | @transfer key e e' s' he hact hm =>
      have hnot := (ok key e he).not_flushBack
      refine ⟨?_, hm.evicting hnot⟩
      change s'.ctrl.buffer.maxEntries = s.ctrl.buffer.maxEntries
      rw [(hm.frame hnot).1]
  | _ => exact ⟨rfl, rfl⟩

theorem Sys.Evictable.move (ev : s.Evictable) (h : Move C Q s t) : t.Evictable := by
  obtain ⟨hmax, hidle⟩ := h.settings ev.ok
  refine ⟨ev.ok.move h, ?_, hidle.trans ev.idle⟩
  have hbound := ev.bound
  cases h.turn ev.ok with
  | same hkeys => rwa [hkeys, hmax]
  | evicted he hend hkeys =>
      rw [hkeys, hmax]
      exact (Finset.card_erase_le).trans hbound
  | inserted hnone he hnew hroom hkeys =>
      rw [hkeys, hmax]
      exact (Finset.card_insert_le _ _).trans hroom

theorem Sys.Evictable.init {cfg : Config} {next : List σ} :
    (Sys.init cfg next : Sys κ σ).Evictable :=
  ⟨.init, Nat.zero_le _, rfl⟩

theorem Sys.Evictable.sound (ev : s.Evictable) : s.ctrl.buffer.Sound usage where
  bound := card_keySet ▸ ev.bound
  aligned k e he := (ev.ok k e he).aligned
  pending k e he := (ev.ok k e he).pending
  valid := by
    by_contra hsome
    obtain ⟨e, he⟩ := Option.ne_none_iff_exists'.mp hsome
    exact absurd (ev.ok _ e he).aligned (by decide)

/-- In every such state the scan alone decides. -/
theorem Sys.Evictable.checkAndEvict_eq (ev : s.Evictable) : checkAndEvict o s =
    if !s.ctrl.buffer.full then (true, s)
    else if (oldest o s).1 = addrInvalid then (false, s)
    else (true, ({ s with
      ctrl.buffer := s.ctrl.buffer.erase (oldest o s).1 }).count .eviction) := by
  simp only [checkAndEvict, ev.idle, Bool.false_eq_true, if_false]

/-- **Eviction is safe** in every such state. -/
theorem Sys.Evictable.safeLru (ev : s.Evictable) :
    SafeLru usage (fun s => s.ctrl.buffer) s (checkAndEvict o s) := by
  rw [ev.checkAndEvict_eq]
  exact .of_scan ev.sound oldest_search.scanned rfl

end Scan

/-! ## Every run -/

/-- The controller beside the count of the entries its calls insert. -/
def inserting (C : Component Callback σ) : Machine (Sys κ σ × ℕ) (Event κ σ) String :=
  (machine C).tallied fun s t => s.ctrl.buffer.inserted t.ctrl.buffer

section Runs

variable {cfg : Config} {next : List σ} {es : List (Event κ σ)} {s : Sys κ σ}

/-- **Eviction is safe in every state a run comes to**, and so it is when
a tick comes to serve the load/store queue. -/
theorem safeLru_of_run (h : (machine C).run (Sys.init cfg next) es = .ok s) (o : VisitOrder) :
    SafeLru usage (fun s => s.ctrl.buffer) s (checkAndEvict o s) ∧
    ∀ clk, SafeLru usage (fun s => s.ctrl.buffer) (tickRoq clk s)
      (checkAndEvict o (tickRoq clk s)) := by
  have ev : s.Evictable := run_keeps (fun _ _ ev hm => ev.move hm) .init h
  refine ⟨ev.safeLru, fun clk => ?_⟩
  have moves : Moves C .any s (tickRoq clk s) := tickRoq_moves
  exact (reflTransGen_keeps (fun _ _ ev hm => ev.move hm) moves ev).safeLru

/-- **What was inserted has been evicted, or is still there.** -/
theorem evictions_of_run (h : (machine C).run (Sys.init cfg next) es = .ok s) :
    ∃ n, (inserting C).run (Sys.init cfg next, 0) es = .ok (s, n) ∧
      s.evictions + s.ctrl.buffer.entryMap.keys.length = n := by
  have hsame : ((inserting C).run (Sys.init cfg next, 0) es).map Prod.fst = .ok s :=
    Machine.tallied_run.trans h
  obtain ⟨⟨s', n⟩, hrun, rfl⟩ := map_eq_ok.mp hsame
  refine ⟨n, hrun, ?_⟩
  have hbalance := Machine.tallied_balance (P := Sys.Ok)
    (f := fun s => s.evictions + s.ctrl.buffer.keySet.card)
    (fun s e t ok ht => ⟨Sys.Ok.run ok (Machine.run_concat.mpr ⟨s, Machine.run_nil, ht⟩),
      step_balances ok ht⟩) .init hrun
  rw [← card_keySet]
  exact hbalance.trans (Nat.zero_add n)

end Runs

end Rmw

end Vans
