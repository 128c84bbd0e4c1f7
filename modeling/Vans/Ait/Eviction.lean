import Vans.Ait.Wear
import Vans.Rmw.Eviction
/-!
# The AIT controller — eviction

As for the RMW controller: eviction is safe in every state the calls of
the component come to, and its count is that of the entries inserted,
less those still there. The local memory and the media are any
components.
-/

namespace Vans

namespace Ait

variable {κ τ μ : Type} {L : Component SubreqCallback τ} {M : Component Callback μ}
  {Q : BaseRequest κ → Prop}

/-- What eviction looks at in an entry. -/
def usage : Usage (BufferEntry κ) where
  atEnd e := e.state = .end_
  pending e := e.pending
  lastUsedClk e := e.lastUsedClk

/-- The counter `cnt_events["eviction"]`. -/
def Sys.evictions (s : Sys κ τ μ) : ℕ := s.ctrl.cntEvents .eviction

/-! ## What check_and_evict finds in every state -/

section Scan

variable {s t : Sys κ τ μ} {o : VisitOrder} {key : Addr} {e e' : BufferEntry κ}

/-- The scan of `check_and_evict` finds the entry used longest ago. -/
theorem oldest_search : s.ctrl.buffer.Search usage o (oldest o s) := by
  refine search_of_foldl (fun out k hskip => ?_) fun out k e he hend => ?_
  · simp only [Sys.entry]
    split
    · rfl
    · rename_i e he
      rw [if_neg fun h => hskip e he h.1]
  · simp only [Sys.entry, he]
    by_cases hlt : e.lastUsedClk < out.2
    · rw [if_pos ⟨hend, hlt⟩]
      exact (if_pos hlt).symm
    · rw [if_neg fun h => hlt h.2]
      exact (if_neg hlt).symm

/-- **What holds of the buffer in every state.** -/
structure Sys.Evictable (s : Sys κ τ μ) : Prop where
  ok : s.Ok
  bound : s.ctrl.buffer.keySet.card ≤ s.ctrl.buffer.maxEntries
  idle : s.ctrl.evicting = false

theorem mem_keySet_iff : key ∈ s.ctrl.buffer.keySet ↔ (s.entry key).isSome := mem_keySet

/-- An entry is replaced. -/
theorem keySet_replace (he : s.entry key = some e)
    (hentry : ∀ k, t.entry k = if k = key then some e' else s.entry k) :
    t.ctrl.buffer.keySet = s.ctrl.buffer.keySet := by
  refine keySet_congr fun k => ?_
  change (t.entry k).isSome = (s.entry k).isSome
  rw [hentry]
  split
  · rename_i hk
    rw [hk, he]
    rfl
  · rfl

theorem keySet_setEntry (he : s.entry key = some e) :
    (s.setEntry key e').ctrl.buffer.keySet = s.ctrl.buffer.keySet :=
  keySet_replace he fun _ => entry_setEntry

/-- An entry is evicted. -/
theorem keySet_evicted {cnt : Counter EventName} (ok : s.Ok) (he : s.entry key = some e) :
    ({ s with
      ctrl.buffer := s.ctrl.buffer.erase key
      ctrl.cntEvents := cnt } : Sys κ τ μ).ctrl.buffer.keySet = s.ctrl.buffer.keySet.erase key := by
  refine keySet_erase fun k => ?_
  have herase := @entry_erase _ _ _ s key k cnt
  rwa [(ok key e he).aligned] at herase

theorem Sys.Evictable.move (ev : s.Evictable) (h : Move Q s t) : t.Evictable := by
  have hok := ev.ok.move h
  have hbound := ev.bound
  have hidle := ev.idle
  cases h with
  | accept | lmem | below | draining => exact ⟨hok, hbound, hidle⟩
  | @evict key e he hend hfull =>
      refine ⟨hok, ?_, hidle⟩
      rw [keySet_evicted ev.ok he]
      exact Finset.card_erase_le.trans hbound
  | miss hq ht hnone hroom =>
      refine ⟨hok, ?_, hidle⟩
      rw [keySet_insert fun _ => entry_take]
      refine (Finset.card_insert_le _ _).trans ?_
      rwa [card_keySet]
  | hit hq ht he hpend =>
      refine ⟨hok, ?_, hidle⟩
      rwa [keySet_replace he fun _ => entry_take]
  | wake he =>
      refine ⟨hok, ?_, hidle⟩
      rwa [keySet_setEntry he]
  | @transfer key e e' s' he hact hm =>
      have hbuf := hm.frame.1
      have hkeys : (s'.setEntry key e').ctrl.buffer.keySet = s.ctrl.buffer.keySet := by
        rw [keySet_setEntry (e := e) (by rw [Sys.entry, hbuf]; exact he), hbuf]
      have hmax : (s'.setEntry key e').ctrl.buffer.maxEntries = s.ctrl.buffer.maxEntries := by
        change s'.ctrl.buffer.maxEntries = _
        rw [hbuf]
      refine ⟨hok, by rwa [hkeys, hmax], ?_⟩
      cases hm <;> exact hidle

theorem Sys.Evictable.init {cfg : Config} {localMemory : τ} {next : List μ} :
    (Sys.init cfg localMemory next : Sys κ τ μ).Evictable :=
  ⟨.init, Nat.zero_le _, rfl⟩

theorem Sys.Evictable.sound (ev : s.Evictable) : s.ctrl.buffer.Sound usage where
  bound := card_keySet ▸ ev.bound
  aligned k e he := (ev.ok k e he).aligned
  pending k e he := (ev.ok k e he).pending
  valid := by
    by_contra hsome
    obtain ⟨e, he⟩ := Option.ne_none_iff_exists'.mp hsome
    exact absurd (ev.ok _ e he).aligned (by decide)

/-- In every such state the scan alone decides. -/
theorem Sys.Evictable.checkAndEvict_eq (ev : s.Evictable) : checkAndEvict o s =
    if !s.ctrl.buffer.full then (true, s)
    else if (oldest o s).1 = addrInvalid then (false, s)
    else (true, ({ s with
      ctrl.buffer := s.ctrl.buffer.erase (oldest o s).1 }).count .eviction) := by
  simp only [checkAndEvict, ev.idle, Bool.false_eq_true, if_false]

/-- **Eviction is safe** in every such state. -/
theorem Sys.Evictable.safeLru (ev : s.Evictable) :
    SafeLru usage (fun s => s.ctrl.buffer) s (checkAndEvict o s) := by
  rw [ev.checkAndEvict_eq]
  exact .of_scan ev.sound oldest_search.scanned rfl

end Scan

/-! ## What the calls do to the keys -/

section Balance

variable {s t u : Sys κ τ μ} {o : VisitOrder} {clk : Clk} {key : Addr} {e e' : BufferEntry κ}

/-- Nothing is inserted, nothing evicted. -/
def Stays (s t : Sys κ τ μ) : Prop :=
  t.ctrl.buffer.keySet = s.ctrl.buffer.keySet ∧ t.evictions = s.evictions

theorem Stays.refl : Stays s s := ⟨rfl, rfl⟩

theorem Stays.trans (h : Stays s t) (h' : Stays t u) : Stays s u :=
  ⟨h'.1.trans h.1, h'.2.trans h.2⟩

theorem Stays.balances (h : Stays s t) :
    Balances s.ctrl.buffer s.evictions t.ctrl.buffer t.evictions :=
  h.2 ▸ .same h.1

/-- Making room evicts one entry at most. -/
theorem checkAndEvict_balances {room : Bool} (ok : s.Ok) (h : checkAndEvict o s = (room, t)) :
    Balances s.ctrl.buffer s.evictions t.ctrl.buffer t.evictions ∧
      t.ctrl.buffer.keySet ⊆ s.ctrl.buffer.keySet := by
  obtain ⟨rfl, -⟩ | ⟨key, e, he, hend, hfull, rfl⟩ := checkAndEvict_cases h
  · exact ⟨Stays.refl.balances, subset_rfl⟩
  · have hkeys := @keySet_evicted _ _ _ s key e (s.ctrl.cntEvents.incr .eviction) ok he
    have hn : ({ s with
        ctrl.buffer := s.ctrl.buffer.erase key
        ctrl.cntEvents := s.ctrl.cntEvents.incr .eviction } : Sys κ τ μ).evictions =
          s.evictions + 1 := by
      simp [Sys.evictions, Counter.incr]
    refine ⟨?_, hkeys ▸ Finset.erase_subset _ _⟩
    rw [hn]
    exact .evicted (mem_keySet_iff.mpr (by simp [he])) hkeys

/-- **An entry is inserted where there was none**, once there is room. -/
theorem balances_insert {room : Bool} (ok : s.Ok) (h : checkAndEvict o s = (room, u))
    (hnone : s.entry key = none) (hentry : ∀ k, t.entry k = if k = key then some e else u.entry k)
    (hn : t.evictions = u.evictions) :
    Balances s.ctrl.buffer s.evictions t.ctrl.buffer t.evictions := by
  obtain ⟨hroom, hsubset⟩ := checkAndEvict_balances ok h
  have hnot : key ∉ s.ctrl.buffer.keySet := by simp [mem_keySet_iff, hnone]
  have hkeys : t.ctrl.buffer.keySet = insert key u.ctrl.buffer.keySet := keySet_insert hentry
  have hnew : Balances u.ctrl.buffer u.evictions t.ctrl.buffer t.evictions :=
    hn ▸ .inserted (fun hk => hnot (hsubset hk)) hkeys
  refine hroom.trans hnew (fun k hk hgone hback => ?_) fun k hk hfresh => absurd (hsubset hk) hfresh
  -- what was evicted is another entry
  rcases Finset.mem_insert.mp (hkeys ▸ hback) with rfl | hold
  · exact hnot hk
  · exact hgone hold

theorem entry_serve {front : BaseRequest κ} {rest : List (BaseRequest κ)} {event : EventName}
    {k : Addr} : (s.serve key e front rest event).entry k =
      if k = key then some (e.assignCallback front.callback) else s.entry k := entry_setEntry

theorem evictions_serve {front : BaseRequest κ} {rest : List (BaseRequest κ)} {event : EventName}
    (h : event ≠ .eviction) : (s.serve key e front rest event).evictions = s.evictions :=
  Counter.add_of_ne h.symm

/-- A request that finds no entry is served by a new one. -/
theorem balances_serve {room : Bool} {front : BaseRequest κ} {rest : List (BaseRequest κ)}
    {event : EventName} {index : ℕ} {table : IndirectionTable} (ok : s.Ok)
    (h : checkAndEvict o s = (room, u)) (hnone : s.entry key = none) (hevent : event ≠ .eviction) :
    Balances s.ctrl.buffer s.evictions
      (({ u with
        ctrl.buffer := { u.ctrl.buffer with
          entryMap := u.ctrl.buffer.entryMap.insert key e
          nextAvailableIndex := index }
        ctrl.table := table } : Sys κ τ μ).serve key e front rest event).ctrl.buffer
      (({ u with
        ctrl.buffer := { u.ctrl.buffer with
          entryMap := u.ctrl.buffer.entryMap.insert key e
          nextAvailableIndex := index }
        ctrl.table := table } : Sys κ τ μ).serve key e front rest event).evictions := by
  refine balances_insert (e := e.assignCallback front.callback) ok h hnone (fun k => ?_)
    (evictions_serve hevent)
  rw [entry_serve]
  by_cases hk : k = key
  · rw [if_pos hk, if_pos hk]
  · rw [if_neg hk, if_neg hk]
    exact AList.lookup_insert_ne hk

theorem tickLsqRead_balances {front : BaseRequest κ} {rest : List (BaseRequest κ)} (ok : s.Ok)
    (h : tickLsqRead o clk front rest s = .ok t) :
    Balances s.ctrl.buffer s.evictions t.ctrl.buffer t.evictions := by
  unfold tickLsqRead at h
  dsimp only at h
  rw [InternalBuffer.find, translateToBlockAddr_idem] at h
  split at h
  · rename_i hnone
    split at h
    · rename_i s₁ hev
      simp only [bind_eq_ok, Prod.exists, pure_eq_ok] at h
      obtain ⟨e, buffer, hins, rfl⟩ := h
      obtain ⟨-, -, rfl, rfl⟩ := InternalBuffer.insert_eq_ok hins
      rw [translateToBlockAddr_idem]
      exact balances_serve ok hev hnone (by decide)
    · rename_i s₁ hev
      obtain rfl := pure_eq_ok.mp h
      exact (checkAndEvict_balances ok hev).1
  · rename_i e he
    split at h
    · simp only [bind_eq_ok, pure_eq_ok] at h
      obtain ⟨e', -, rfl⟩ := h
      exact Stays.balances ⟨keySet_replace he fun _ => entry_serve, evictions_serve (by decide)⟩
    · obtain rfl := pure_eq_ok.mp h
      exact Stays.refl.balances

theorem tickLsqWrite_balances {front : BaseRequest κ} {rest : List (BaseRequest κ)} (ok : s.Ok)
    (h : tickLsqWrite o clk front rest s = .ok t) :
    Balances s.ctrl.buffer s.evictions t.ctrl.buffer t.evictions := by
  unfold tickLsqWrite at h
  dsimp only at h
  split at h
  · rename_i hnone
    split at h
    · rename_i s₁ hev
      simp only [bind_eq_ok, Prod.exists, pure_eq_ok] at h
      obtain ⟨e, buffer, hins, rfl⟩ := h
      obtain ⟨-, -, rfl, rfl⟩ := InternalBuffer.insert_eq_ok hins
      rw [translateToBlockAddr_idem]
      exact balances_serve ok hev hnone (by decide)
    · rename_i s₁ hev
      obtain rfl := pure_eq_ok.mp h
      exact (checkAndEvict_balances ok hev).1
  · rename_i e he
    split at h
    · simp only [bind_eq_ok, pure_eq_ok] at h
      obtain ⟨e', -, rfl⟩ := h
      exact Stays.balances ⟨keySet_replace he fun _ => entry_serve, evictions_serve (by decide)⟩
    · obtain rfl := pure_eq_ok.mp h
      exact Stays.refl.balances

theorem tickLsq_balances (ok : s.Ok) (h : tickLsq o clk s = .ok t) :
    Balances s.ctrl.buffer s.evictions t.ctrl.buffer t.evictions := by
  unfold tickLsq at h
  split at h
  · obtain rfl := pure_eq_ok.mp h
    exact Stays.refl.balances
  · split at h
    · exact tickLsqRead_balances ok h
    · exact tickLsqWrite_balances ok h

/-! ### The rest of a tick -/

theorem lmemqFinish_stays {front : BaseRequest κ} (h : lmemqFinish clk front s = .ok t) :
    Stays s t := by
  unfold lmemqFinish at h
  dsimp only at h
  split at h
  · exact absurd h throw_ne_ok
  · rename_i e he
    obtain rfl := pure_eq_ok.mp h
    exact ⟨keySet_setEntry he, rfl⟩

theorem lmemqStart_stays {front : BaseRequest κ} (h : lmemqStart L clk front s = .ok t) :
    Stays s t := by
  unfold lmemqStart at h
  dsimp only at h
  split at h
  · exact absurd h throw_ne_ok
  · simp only [bind_eq_ok, Prod.exists] at h
    obtain ⟨resp, req, localMemory, -, h⟩ := h
    split at h
    · exact absurd h throw_ne_ok
    · split at h <;> obtain rfl := pure_eq_ok.mp h <;>
        exact ⟨rfl, by simp [Sys.evictions, Sys.count, Counter.incr, subreqServedCallback]⟩

theorem lmemqSetUp_stays : Stays s (lmemqSetUp s) := by
  unfold lmemqSetUp
  split <;> exact .refl

theorem tickLmemq_stays (h : tickLmemq L clk s = .ok t) : Stays s t := by
  unfold tickLmemq at h
  split at h
  · obtain rfl := pure_eq_ok.mp h
    exact .refl
  · simp only [bind_eq_ok] at h
    obtain ⟨full, -, h⟩ := h
    refine lmemqSetUp_stays.trans ?_
    split at h
    · obtain rfl := pure_eq_ok.mp h
      exact .refl
    · split at h
      · exact absurd h throw_ne_ok
      · split at h
        · split at h
          · obtain rfl := pure_eq_ok.mp h
            exact .refl
          · split at h
            · exact lmemqFinish_stays h
            · exact lmemqStart_stays h
        · split at h
          · exact lmemqStart_stays h
          · exact absurd h throw_ne_ok

theorem evictions_count {name : EventName} (h : name ≠ .eviction) :
    (s.count name).evictions = s.evictions :=
  Counter.add_of_ne h.symm

/-- The transfer leaves the buffer and the count of evictions alone. -/
def Uncounted (func : StateTrans κ τ μ) : Prop :=
  ∀ key e clk s e' s', func key e clk s = .ok (e', s') →
    s'.ctrl.buffer = s.ctrl.buffer ∧ s'.evictions = s.evictions

theorem issueLmemq_uncounted {type : BaseRequestType} {resp : BaseResponse}
    (h : issueLmemq e type clk s = .ok (resp, t)) :
    t.ctrl.buffer = s.ctrl.buffer ∧ t.evictions = s.evictions := by
  obtain ⟨-, ⟨-, rfl⟩ | ⟨-, -, rfl⟩⟩ := issueLmemq_cases h <;> exact ⟨rfl, rfl⟩

theorem Trans.readMedia_uncounted {event : EventName} {dirty : Bool} (hevent : event ≠ .eviction) :
    Uncounted (Trans.readMedia (κ := κ) (τ := τ) M event dirty) := by
  intro key e clk s e' s' h
  simp only [Trans.readMedia, bind_eq_ok, Prod.exists] at h
  obtain ⟨resp, t, hissue, h⟩ := h
  obtain ⟨next, rfl⟩ := issueNextLevel_eq_ok hissue
  split at h
  · exact absurd h throw_ne_ok
  · obtain ⟨-, rfl⟩ := Prod.mk.inj (pure_eq_ok.mp h)
    exact ⟨rfl, Counter.add_of_ne hevent.symm⟩

theorem Trans.writeMedia_uncounted {duration : DurationName} :
    Uncounted (Trans.writeMedia (κ := κ) (τ := τ) M duration) := by
  intro key e clk s e' s' h
  simp only [Trans.writeMedia, bind_eq_ok, Prod.exists] at h
  obtain ⟨resp, t, hissue, h⟩ := h
  obtain ⟨next, rfl⟩ := issueNextLevel_eq_ok hissue
  split at h
  · exact absurd h throw_ne_ok
  · obtain ⟨-, rfl⟩ := Prod.mk.inj (pure_eq_ok.mp h)
    exact ⟨rfl, rfl⟩

theorem Trans.migrate_uncounted {duration : DurationName} :
    Uncounted (Trans.migrate (κ := κ) (τ := τ) (μ := μ) duration) := by
  intro key e clk s e' s' h
  simp only [Trans.migrate, bind_eq_ok] at h
  obtain ⟨delay, -, h⟩ := h
  obtain ⟨-, rfl⟩ := Prod.mk.inj (pure_eq_ok.mp h)
  split
  · exact ⟨rfl, evictions_count (by decide)⟩
  · exact ⟨rfl, rfl⟩

theorem Trans.finish_uncounted {duration : DurationName} {clean : Bool} :
    Uncounted (Trans.finish (κ := κ) (τ := τ) (μ := μ) duration clean) := by
  intro key e clk s e' s' h
  obtain ⟨-, rfl⟩ := Prod.mk.inj (pure_eq_ok.mp h)
  exact ⟨rfl, rfl⟩

/-- **No transfer evicts.** -/
theorem stateTrans_uncounted {type : RequestType} {state : RequestState} {func : StateTrans κ τ μ}
    (hfunc : stateTrans M type state = some func) : Uncounted func := by
  unfold stateTrans at hfunc
  split at hfunc <;> cases hfunc
  case h_1 | h_10 => exact Trans.readMedia_uncounted (by decide)
  case h_2 | h_11 =>
      intro key e clk s e' s' h
      simp only [Trans.writeMissPendingReadMedia, Trans.readMissPendingReadMedia, bind_eq_ok,
        Prod.exists] at h
      obtain ⟨resp, t, hissue, h⟩ := h
      obtain ⟨hbuf, hn⟩ := issueLmemq_uncounted hissue
      split at h <;> obtain ⟨-, rfl⟩ := Prod.mk.inj (pure_eq_ok.mp h)
      · exact ⟨hbuf, (evictions_count (by decide)).trans hn⟩
      · exact ⟨hbuf, hn⟩
  case h_3 | h_7 => exact Trans.migrate_uncounted
  case h_4 | h_8 => exact Trans.writeMedia_uncounted
  case h_6 | h_13 =>
      intro key e clk s e' s' h
      simp only [Trans.writeHitInit, Trans.readHitInit, bind_eq_ok, Prod.exists] at h
      obtain ⟨resp, t, hissue, h⟩ := h
      obtain ⟨hbuf, hn⟩ := issueLmemq_uncounted hissue
      split at h <;> obtain ⟨-, rfl⟩ := Prod.mk.inj (pure_eq_ok.mp h)
      · exact ⟨hbuf, (evictions_count (by decide)).trans hn⟩
      · exact ⟨hbuf, (evictions_count (by decide)).trans hn⟩
  all_goals exact Trans.finish_uncounted

theorem tickEntry_stays (h : tickEntry M clk s key = .ok t) : Stays s t := by
  obtain rfl | ⟨e, e', s', func, he, -, hfunc, hrun, rfl⟩ := tickEntry_cases h
  · exact .refl
  · obtain ⟨hbuf, hn⟩ := stateTrans_uncounted hfunc key e clk s e' s' hrun
    refine ⟨?_, hn⟩
    rw [keySet_setEntry (e := e) (by rw [Sys.entry, hbuf]; exact he), hbuf]

theorem tick_balances (ok : s.Ok) (h : tick L M o clk s = .ok t) :
    Balances s.ctrl.buffer s.evictions t.ctrl.buffer t.evictions := by
  simp only [tick, bind_eq_ok] at h
  obtain ⟨u, hlsq, v, hlmemq, hbuf⟩ := h
  have hentries : Stays v t := foldlM_keeps (P := fun w => Stays v w)
    (fun _ _ _ hw hk => hw.trans (tickEntry_stays hk)) .refl hbuf
  obtain ⟨hkeys, hn⟩ := (tickLmemq_stays hlmemq).trans hentries
  have hbal := (tickLsq_balances ok hlsq).trans_same hkeys
  rwa [← hn] at hbal

/-! ### The calls -/

theorem nextLevelReadCallback_stays {addr : Addr} (h : nextLevelReadCallback addr clk s = .ok t) :
    Stays s t := by
  unfold nextLevelReadCallback at h
  dsimp only at h
  split at h
  · exact absurd h throw_ne_ok
  · rename_i e he
    obtain rfl := pure_eq_ok.mp h
    exact ⟨keySet_setEntry he, rfl⟩

theorem settle_stays {visit : Visit} (h : settle L M visit clk s = .ok t) : Stays s t := by
  simp only [settle, tickLocalMemory, bind_eq_ok, pure_eq_ok, Prod.exists] at h
  obtain ⟨u, ⟨localMemory, served, -, rfl⟩, next, ran, -, hran⟩ := h
  rw [foldl_served] at hran
  refine foldlM_keeps (P := fun v => Stays s v)
    (fun _ _ _ hv hw => hv.trans (nextLevelReadCallback_stays hw)) ?_ hran
  exact ⟨rfl, rfl⟩

theorem drain_stays (h : drain M s = .ok t) : Stays s t := by
  obtain ⟨next, -, rfl⟩ := drain_eq_ok h
  exact .refl

/-- **Every call balances.** -/
theorem call_balances {call : Call κ} (ok : s.Ok) (h : (calls L M).step s call = .ok t) :
    Balances s.ctrl.buffer s.evictions t.ctrl.buffer t.evictions := by
  cases call with
  | issueRequest req =>
      simp only [calls, bind_eq_ok, Prod.exists, pure_eq_ok] at h
      obtain ⟨resp, u, hu, rfl⟩ := h
      obtain ⟨-, ⟨-, rfl⟩ | ⟨-, -, rfl⟩⟩ := issueRequest_cases hu <;> exact Stays.refl.balances
  | tick visit clk =>
      simp only [calls, tickComponent_eq, bind_eq_ok] at h
      obtain ⟨u, htick, hsettle⟩ := h
      obtain ⟨hkeys, hn⟩ := settle_stays hsettle
      have hbal := (tick_balances ok htick).trans_same hkeys
      rwa [← hn] at hbal
  | drain => exact (drain_stays h).balances

theorem call_moves {call : Call κ} (h : (calls L M).step s call = .ok t) :
    Moves (fun _ => True) s t := by
  cases call with
  | issueRequest req =>
      simp only [calls, bind_eq_ok, Prod.exists, pure_eq_ok] at h
      obtain ⟨resp, u, hu, rfl⟩ := h
      obtain ⟨-, ⟨-, rfl⟩ | ⟨-, hroom, rfl⟩⟩ := issueRequest_cases hu
      · exact .refl
      · exact .single (.accept hroom trivial)
  | tick visit clk => exact tickComponent_moves h
  | drain => exact drain_moves h

end Balance

/-! ## Every run -/

/-- The component beside the count of the entries its calls insert. -/
def inserting (L : Component SubreqCallback τ) (M : Component Callback μ) :
    Machine (Sys κ τ μ × ℕ) (Call κ) String :=
  (calls L M).tallied fun s t => s.ctrl.buffer.inserted t.ctrl.buffer

section Runs

variable {cfg : Config} {localMemory : τ} {next : List μ} {cs : List (Call κ)} {s : Sys κ τ μ}

/-- **Eviction is safe in every state the calls come to.** -/
theorem safeLru_of_run (h : (calls L M).run (Sys.init cfg localMemory next) cs = .ok s)
    (o : VisitOrder) : SafeLru usage (fun s => s.ctrl.buffer) s (checkAndEvict o s) := by
  have ev : s.Evictable := (calls L M).invariant
    (fun _ _ _ ev ht => reflTransGen_keeps (fun _ _ ev hm => ev.move hm) (call_moves ht) ev) .init h
  exact ev.safeLru

/-- **What was inserted has been evicted, or is still there.** -/
theorem evictions_of_run (h : (calls L M).run (Sys.init cfg localMemory next) cs = .ok s) :
    ∃ n, (inserting L M).run (Sys.init cfg localMemory next, 0) cs = .ok (s, n) ∧
      s.evictions + s.ctrl.buffer.entryMap.keys.length = n := by
  have hsame : ((inserting L M).run (Sys.init cfg localMemory next, 0) cs).map Prod.fst = .ok s :=
    Machine.tallied_run.trans h
  obtain ⟨⟨s', n⟩, hrun, rfl⟩ := map_eq_ok.mp hsame
  refine ⟨n, hrun, ?_⟩
  have hbalance := Machine.tallied_balance (P := Sys.Ok)
    (f := fun s => s.evictions + s.ctrl.buffer.keySet.card)
    (fun s call t ok ht => ⟨ok.moves (call_moves ht), call_balances ok ht⟩) .init hrun
  rw [← card_keySet]
  exact hbalance.trans (Nat.zero_add n)

end Runs

/-- Two writes to two 4096-byte blocks, and the ticks that see them
through. -/
def twoBlocks : List (Call ℕ) :=
  [.issueRequest { addr := 0, arrive := 0, type := .write },
    .issueRequest { addr := 4096, arrive := 0, type := .write }] ++
  (List.range 40).map fun i => .tick (fun _ => .asHeld) (UInt64.ofNat i)

end Ait

/-! ## Both controllers -/

section Both

variable {κ σ τ μ : Type}

/-- **Eviction is safe.** In every state a run of either controller comes
to, `check_and_evict` makes room by evicting the least recently used of
the entries at rest, or changes nothing; and its counter is that of the
entries inserted less those in the buffer. -/
theorem eviction_is_safe {C : Component Rmw.Callback σ} {L : Component Ait.SubreqCallback τ}
    {M : Component Ait.Callback μ} :
    (∀ (cfg : Rmw.Config) (next : List σ) (es : List (Rmw.Event κ σ)) (s : Rmw.Sys κ σ),
      (Rmw.machine C).run (Rmw.Sys.init cfg next) es = .ok s →
        (∀ o, SafeLru Rmw.usage (fun s => s.ctrl.buffer) s (Rmw.checkAndEvict o s) ∧
          ∀ clk, SafeLru Rmw.usage (fun s => s.ctrl.buffer) (Rmw.tickRoq clk s)
            (Rmw.checkAndEvict o (Rmw.tickRoq clk s))) ∧
        ∃ n, (Rmw.inserting C).run (Rmw.Sys.init cfg next, 0) es = .ok (s, n) ∧
          s.evictions + s.ctrl.buffer.entryMap.keys.length = n) ∧
    (∀ (cfg : Ait.Config) (localMemory : τ) (next : List μ) (cs : List (Call κ))
      (s : Ait.Sys κ τ μ), (Ait.calls L M).run (Ait.Sys.init cfg localMemory next) cs = .ok s →
        (∀ o, SafeLru Ait.usage (fun s => s.ctrl.buffer) s (Ait.checkAndEvict o s)) ∧
        ∃ n, (Ait.inserting L M).run (Ait.Sys.init cfg localMemory next, 0) cs = .ok (s, n) ∧
          s.evictions + s.ctrl.buffer.entryMap.keys.length = n) :=
  ⟨fun _ _ _ _ h => ⟨Rmw.safeLru_of_run h, Rmw.evictions_of_run h⟩,
    fun _ _ _ _ _ h => ⟨Ait.safeLru_of_run h, Ait.evictions_of_run h⟩⟩

end Both

namespace Rmw

/-- A read, and the ticks that see it through, the last of them at the
clock. -/
def oneReadUntil (clk : Clk) : List (Event ℕ Unit) :=
  [.issueRequest { addr := 0, arrive := 0, type := .read }, .tick .asHeld 0,
    .nextLevelReadCallback 0 1, .tick .asHeld 2, .tick .asHeld 3, .tick .asHeld clk]

/-- A second block takes the place of the first, in either buffer. -/
theorem eviction_is_safe_second :
    (∃ s, (inserting willing).run (Sys.init smallConfig [()], 0)
        (oneReadUntil 4 ++ [.issueRequest { addr := 256, arrive := 4, type := .read },
          .tick .asHeld 5]) = .ok (s, 2) ∧ s.evictions = 1 ∧ s.ctrl.buffer.entryMap.keys = [256]) ∧
    ∃ s, (Ait.inserting StaticMemory.component StaticMemory.component).run
        (Ait.Sys.init Ait.wearConfig ⟨1, 1⟩ [⟨1, 1⟩], 0) Ait.twoBlocks = .ok (s, 2) ∧
      s.evictions = 1 ∧ s.ctrl.buffer.entryMap.keys = [4096] := by
  obtain ⟨s, hrun, hevict, hkeys⟩ : ∃ s, smallRun
      (oneReadUntil 4 ++ [.issueRequest { addr := 256, arrive := 4, type := .read },
        .tick .asHeld 5]) = .ok s ∧ s.evictions = 1 ∧ s.ctrl.buffer.entryMap.keys = [256] :=
    ⟨_, rfl, by decide, by decide⟩
  have hfacts : ((Ait.calls StaticMemory.component StaticMemory.component).run
      (Ait.Sys.init Ait.wearConfig ⟨1, 1⟩ [⟨1, 1⟩]) Ait.twoBlocks).map
        (fun s => (s.evictions, s.ctrl.buffer.entryMap.keys)) = .ok (1, [4096]) := by
    decide +kernel
  obtain ⟨s', hrun', hs'⟩ := map_eq_ok.mp hfacts
  obtain ⟨hevict', hkeys'⟩ := Prod.mk.inj hs'
  obtain ⟨n, hn, hcount⟩ := ((eviction_is_safe (L := StaticMemory.component)
    (M := StaticMemory.component)).1 _ _ _ _ hrun).2
  obtain ⟨n', hn', hcount'⟩ := ((eviction_is_safe (C := willing)).2 _ _ _ _ _ hrun').2
  rw [hevict, hkeys] at hcount
  rw [hevict', hkeys'] at hcount'
  subst hcount hcount'
  exact ⟨⟨s, hn, hevict, hkeys⟩, s', hn', hevict', hkeys'⟩

/-- **An entry last used at the invalid clock is not evicted**, though it
is at rest. -/
theorem lastClock_kept : ∃ s e, smallRun (oneReadUntil clkInvalid) = .ok s ∧
    (checkAndEvict .asHeld s).1 = false ∧ s.entry 0 = some e ∧ e.state = .end_ ∧
    e.pending = false :=
  ⟨_, _, rfl, by decide, rfl, rfl, rfl⟩

end Rmw

end Vans
