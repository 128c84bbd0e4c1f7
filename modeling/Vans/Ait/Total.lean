import Vans.Ait.Engine
/-!
# The AIT controller — every call succeeds

Each throw of the controller is guarded by an invariant: the chains of
states leave no pair of a type and a state without a transfer, the
queues and the buffer keep their bounds, the request at the front of the
queue of the local memory is that of an entry, and an entry that waits
for nothing has a clock to act at. So every call succeeds over static
media, as long as no clock the controller computes is the one reserved
as invalid, and the local memory takes what it is asked when it says
that it is not full, and has room for what its ticks queue.
-/

namespace Vans

namespace Ait

variable {κ τ : Type} {L : Component SubreqCallback τ} {room : τ → Clk → Prop}

/-! ## The environment -/

/-- Where the local memory says that it is not full, it takes what it is
asked, as long as it is in a good state; and it can be ticked where it
has room for what the tick queues. -/
structure TakesUnlessFull (L : Component SubreqCallback τ) (room : τ → Clk → Prop) where
  Good : τ → Prop
  full : ∀ {mem}, Good mem → Yields (L.full mem) fun _ => True
  takes : ∀ {mem} req, Good mem → L.full mem = .ok false →
    Yields (L.issueRequest req mem) fun r => r.1.issued = true
  issue : ∀ {req mem resp req' mem'}, Good mem →
    L.issueRequest req mem = .ok (resp, req', mem') → Good mem'
  tick : ∀ {visit clk mem}, Good mem → room mem clk → Yields (L.tick visit clk mem) fun r => Good r.1

/-- What the controller is given, and keeps. -/
structure Setting where
  mappingFunc : ComponentMapping
  wearLevelingThreshold : ℕ
  migrationDelay : Clk
  media : List StaticMemory

def Sys.setting (s : Sys κ τ StaticMemory) : Setting where
  mappingFunc := s.ctrl.mappingFunc
  wearLevelingThreshold := s.ctrl.table.wearLevelingThreshold
  migrationDelay := s.ctrl.table.migrationBlockEntries * s.ctrl.table.migrationLatency
  media := s.next

namespace Setting

/-- No clock the controller computes at this clock is the invalid one. -/
def Fits (g : Setting) (clk : Clk) : Prop :=
  clk ≠ clkInvalid ∧ clk + 1 ≠ clkInvalid ∧ clk + 1 + g.migrationDelay ≠ clkInvalid ∧
    ∀ m ∈ g.media, clk + m.readLatency ≠ clkInvalid ∧ clk + m.writeLatency ≠ clkInvalid

instance {g : Setting} {clk : Clk} : Decidable (g.Fits clk) := inferInstanceAs (Decidable (_ ∧ _))

/-- The mapping picks media that are there, and the remainder of wear
leveling is defined. -/
structure Sound (g : Setting) : Prop where
  mapped : ∀ addr, (g.mappingFunc addr g.media.length).2 < g.media.length
  threshold : g.wearLevelingThreshold ≠ 0

end Setting

/-- Ticks come at clocks that fit, and the local memory has room for
what its ticks queue. -/
def Expected (room : τ → Clk → Prop) (s : Sys κ τ StaticMemory) : Event κ → Prop
  | .issueRequest _ => True
  | .tick _ clk => s.setting.Fits clk
  | .localMemory _ clk => room s.localMemory clk

instance {room : τ → Clk → Prop} [∀ mem clk, Decidable (room mem clk)]
    {s : Sys κ τ StaticMemory} : ∀ ev : Event κ, Decidable (Expected room s ev)
  | .issueRequest _ => isTrue trivial
  | .tick _ clk => inferInstanceAs (Decidable (s.setting.Fits clk))
  | .localMemory _ clk => inferInstanceAs (Decidable (room s.localMemory clk))

/-! ## Entries that can act -/

/-- The states a request of each type goes through. -/
def RequestType.chain : RequestType → RequestState → Bool
  | .writeMiss, .init | .writeMiss, .pendingReadMedia | .writeMiss, .pendingWriteDram
  | .writeMiss, .pendingMigration | .writeMiss, .pendingWriteMedia | .writeMiss, .end_ => true
  | .writeHit, .init | .writeHit, .pendingWriteDram | .writeHit, .pendingMigration
  | .writeHit, .pendingWriteMedia | .writeHit, .end_ => true
  | .readMiss, .init | .readMiss, .pendingReadMedia | .readMiss, .pendingReadDram
  | .readMiss, .end_ => true
  | .readHit, .init | .readHit, .pendingReadDram | .readHit, .end_ => true
  | _, _ => false

/-- The request is in a state of its chain. -/
def BufferEntry.Chained (e : BufferEntry κ) : Prop := e.pendingRequest.type.chain e.state

/-- An entry that is to act at a clock has one. -/
def BufferEntry.Clocked (e : BufferEntry κ) : Prop :=
  e.pending → e.state ≠ .init → e.waitingActionClkUpdate = false → e.nextActionClk ≠ clkInvalid

/-- **Every entry can act when it is to.** -/
def Sys.Able {μ : Type} (s : Sys κ τ μ) : Prop :=
  ∀ key e, s.entry key = some e → e.Chained ∧ e.Clocked

section Entries

variable {μ : Type} {s t : Sys κ τ μ} {e e' : BufferEntry κ} {key : Addr}

/-- A transfer goes on in the chain. -/
theorem BufferEntry.Chained.transfer {s' : Sys κ τ μ} (h : e.Chained) (hm : EntryMove s e e' s') :
    e'.Chained := by
  unfold BufferEntry.Chained at h ⊢
  cases hm with
  | lmemqFull => exact h
  | readMedia hst ht | queueMiss hst ht | queueHit hst ht =>
      rcases ht with ht | ht <;> simp [ht, RequestType.chain]
  | migrate hst ht | writeMedia hst ht =>
      cases hty : e.pendingRequest.type <;> simp [hty, isWrite, RequestType.chain] at ht ⊢
  | finish hst => cases e.pendingRequest.type <;> rfl

/-- An entry in `init` acts without a clock. -/
theorem clocked_of_init (h : e.state = .init) : e.Clocked := fun _ hst => absurd h hst

/-- One entry has changed, and can act. -/
theorem Sys.Able.of_entry_ite (h : s.Able) (hnew : e.Chained ∧ e.Clocked)
    (hentry : ∀ k, t.entry k = if k = key then some e else s.entry k) : t.Able := by
  intro k e' he
  rw [hentry] at he
  split at he
  · cases he
    exact hnew
  · exact h k e' he

theorem Sys.Able.makeRoom (h : s.Able) (hroom : MakeRoom s t) : t.Able := by
  cases hroom with
  | had => exact h
  | evict he hend hfull =>
      intro k e hk
      rw [entry_erase] at hk
      split at hk
      · cases hk
      · exact h k e hk

end Entries

/-! ## The bounds -/

/-- **The bounds of the queues and of the buffer.** The next index is the
number of entries. -/
structure Sys.Bounded {μ : Type} (s : Sys κ τ μ) : Prop where
  lsq : s.ctrl.lsq.queue.length ≤ s.ctrl.lsq.maxEntries
  lmemq : s.ctrl.lmemq.queue.length ≤ s.ctrl.lmemq.maxEntries
  counted : s.ctrl.buffer.nextAvailableIndex = s.ctrl.buffer.entryMap.keys.length
  room : s.ctrl.buffer.entryMap.keys.length ≤ s.ctrl.buffer.maxEntries

namespace Sys.Bounded

variable {μ : Type} {s t : Sys κ τ μ} {e e' : BufferEntry κ} {key : Addr} {clk : Clk}

theorem makeRoom (h : s.Bounded) (ok : s.Ok) (hroom : MakeRoom s t) : t.Bounded := by
  cases hroom with
  | had => exact h
  | @evict key e he hend hfull =>
      have hlen := Keyed.length_erase he
      have hcounted := h.counted
      have hbound := h.room
      have haligned := (ok key e he).aligned
      refine ⟨h.lsq, h.lmemq, ?_, ?_⟩ <;>
        simp only [InternalBuffer.erase, haligned] <;> omega

theorem serve (h : s.Bounded) (ok : s.Ok) (hs : Serve s t) : t.Bounded := by
  have hrest : ∀ {front : BaseRequest κ} {rest}, s.ctrl.lsq.queue = front :: rest →
      rest.length ≤ s.ctrl.lsq.maxEntries := fun hq => by
    have hlen := h.lsq
    rw [hq, List.length_cons] at hlen
    exact Nat.le_of_succ_le hlen
  cases hs with
  | wait => exact h
  | @miss u front rest clk type bits event table hroom hq ht hnone hlen htable =>
      have hu := h.makeRoom ok hroom
      have hfresh := Keyed.length_insert_fresh
        (b := (BufferEntry.new clk type (Rmw.translateToBlockAddr front.addr) bits
          u.ctrl.buffer.nextAvailableIndex).assignCallback front.callback) hnone
      refine ⟨?_, hu.lmemq, ?_, ?_⟩
      · change rest.length ≤ u.ctrl.lsq.maxEntries
        rw [hroom.lsq]
        exact hrest hq
      · exact (congrArg (· + 1) hu.counted).trans hfresh.symm
      · exact hfresh.trans_le hlen
  | hit hq ht he hpend htable =>
      exact ⟨hrest hq, h.lmemq, h.counted.trans (Keyed.length_insert he).symm,
        (Keyed.length_insert he).trans_le h.room⟩

/-- An entry is replaced, and the queue of the local memory changes
within its bound. -/
theorem setEntry (h : s.Bounded) (he : s.entry key = some e)
    (hlsq : t.ctrl.lsq = s.ctrl.lsq) (hbuf : t.ctrl.buffer = s.ctrl.buffer)
    (hlmemq : t.ctrl.lmemq.queue.length ≤ t.ctrl.lmemq.maxEntries) :
    (t.setEntry key e').Bounded := by
  have hlen : (t.setEntry key e').ctrl.buffer.entryMap.keys.length =
      s.ctrl.buffer.entryMap.keys.length := by
    rw [Sys.setEntry, InternalBuffer.set, hbuf]
    exact Keyed.length_insert he
  refine ⟨?_, hlmemq, ?_, ?_⟩
  · change t.ctrl.lsq.queue.length ≤ t.ctrl.lsq.maxEntries
    rw [hlsq]
    exact h.lsq
  · rw [hlen]
    change t.ctrl.buffer.nextAvailableIndex = _
    rw [hbuf]
    exact h.counted
  · rw [hlen]
    change _ ≤ t.ctrl.buffer.maxEntries
    rw [hbuf]
    exact h.room

theorem lmemqStep (h : s.Bounded) (hs : LmemqStep L clk s t) : t.Bounded := by
  cases hs with
  | wait => exact h
  | @finish front rest e hq hindex hserved he =>
      refine h.setEntry he rfl rfl ?_
      have hlen := h.lmemq
      rw [hq, List.length_cons] at hlen
      exact Nat.le_of_succ_le hlen
  | start hq hturn hindex he hissue hyes hst => exact ⟨h.lsq, h.lmemq, h.counted, h.room⟩

theorem transfer {s' : Sys κ τ μ} (h : s.Bounded) (he : s.entry key = some e)
    (hm : EntryMove s e e' s') (hqueues : Queues clk s e e' s') : (s'.setEntry key e').Bounded := by
  refine h.setEntry he hm.frame.2.1 hm.frame.1 ?_
  cases hqueues with
  | no hq hst hmem hdram =>
      rw [hq]
      exact h.lmemq
  | yes hq hst hmem hlen hdram hwait =>
      rw [hq, List.length_append, List.length_singleton]
      exact hlen

end Sys.Bounded

/-! ## The invariant -/

/-- **What holds of the controller throughout.** -/
structure Steady (hL : AnswersOnce L) (hT : TakesUnlessFull L room) (s : Sys κ τ StaticMemory) :
    Prop where
  ok : s.Ok
  engine : s.Engine hL.owed
  able : s.Able
  bounded : s.Bounded
  index : -1 ≤ s.ctrl.lmemqState.subreqPendingIndex ∧ s.ctrl.lmemqState.subreqPendingIndex ≤ 3
  good : hT.Good s.localMemory

namespace Steady

variable {hL : AnswersOnce L} {hT : TakesUnlessFull L room} {s t : Sys κ τ StaticMemory}
  {e e' : BufferEntry κ} {key : Addr} {clk : Clk}

/-- Serving the load/store queue keeps it. -/
theorem serve (h : Steady hL hT s) (hs : Serve s t) :
    Steady hL hT t ∧ t.setting = s.setting := by
  have hok := h.ok.moves (Q := fun _ => False) hs.moves
  have hengine := h.engine.serve h.ok hs
  have hbounded := h.bounded.serve h.ok hs
  cases hs with
  | wait => exact ⟨h, rfl⟩
  | @miss u front rest clk type bits event table hroom hq ht hnone hlen htable =>
      have hsame : u.ctrl.lmemqState = s.ctrl.lmemqState ∧ u.localMemory = s.localMemory ∧
          u.setting = s.setting := by
        cases hroom <;> exact ⟨rfl, rfl, rfl⟩
      refine ⟨⟨hok, hengine, ?_, hbounded, ?_, ?_⟩, ?_⟩
      · refine (h.able.makeRoom hroom).of_entry_ite ⟨?_, clocked_of_init rfl⟩ fun k => entry_take
        rw [ht]
        cases front.type <;> rfl
      · change -1 ≤ u.ctrl.lmemqState.subreqPendingIndex ∧
          u.ctrl.lmemqState.subreqPendingIndex ≤ 3
        rw [hsame.1]
        exact h.index
      · change hT.Good u.localMemory
        rw [hsame.2.1]
        exact h.good
      · rw [← hsame.2.2, htable]
        unfold IndirectionTable.served
        split <;> rfl
  | @hit front rest e clk type bits event table hq ht he hpend htable =>
      refine ⟨⟨hok, hengine, ?_, hbounded, h.index, h.good⟩, ?_⟩
      · refine h.able.of_entry_ite ⟨?_, clocked_of_init rfl⟩ fun k => entry_take
        rw [ht]
        cases front.type <;> rfl
      · rw [htable]
        unfold IndirectionTable.served
        split <;> rfl

/-- The set-up of the queue of the local memory keeps it. -/
theorem setUp (h : Steady hL hT s) (hne : s.ctrl.lmemq.queue ≠ []) :
    Steady hL hT (lmemqSetUp s) ∧ (lmemqSetUp s).setting = s.setting := by
  have hengine := (h.engine.setUp hne).1
  rw [lmemqSetUp_eq h.engine.state] at hengine ⊢
  refine ⟨⟨h.ok, hengine, h.able, ⟨h.bounded.lsq, h.bounded.lmemq, h.bounded.counted,
    h.bounded.room⟩, ?_, h.good⟩, rfl⟩
  change -1 ≤ s.ctrl.lmemqState.setUp.subreqPendingIndex ∧ _ ≤ 3
  unfold LmemqState.setUp
  split
  · exact h.index
  · exact ⟨le_refl _, by change (-1 : ℤ) ≤ 3; omega⟩

/-- Serving it keeps it. -/
theorem lmemqStep (h : Steady hL hT s) (hfront : s.ctrl.lmemqState.pendingFront = true)
    (hvalid : clk + 1 ≠ clkInvalid) (hs : LmemqStep L clk s t) :
    Steady hL hT t ∧ t.setting = s.setting := by
  have hengine := h.engine.lmemqStep hL hfront hs
  have hbounded := h.bounded.lmemqStep hs
  cases hs with
  | wait => exact ⟨h, rfl⟩
  | @finish front rest e hq hindex hserved he =>
      have hchain : BufferEntry.Chained
          { e with nextActionClk := clk + 1, waitingActionClkUpdate := false } := (h.able _ e he).1
      have hclk : BufferEntry.Clocked
          { e with nextActionClk := clk + 1, waitingActionClkUpdate := false } :=
        fun _ _ _ => hvalid
      exact ⟨⟨h.ok.of_entry_ite (h.ok _ e he).wake fun k => entry_setEntry, hengine,
        h.able.of_entry_ite ⟨hchain, hclk⟩ fun k => entry_setEntry, hbounded, h.index, h.good⟩,
        rfl⟩
  | @start front rest e resp req localMemory st cnt hq hturn hindex he hissue hyes hst =>
      refine ⟨⟨h.ok.of_entry_eq fun _ => rfl, hengine, h.able, hbounded, ?_,
        hT.issue h.good hissue⟩, rfl⟩
      have hnext : st.subreqPendingIndex = s.ctrl.lmemqState.subreqPendingIndex + 1 := by
        rw [hst]
        cases front.type <;> rfl
      change -1 ≤ st.subreqPendingIndex ∧ st.subreqPendingIndex ≤ 3
      rw [hnext]
      have hlow := h.index.1
      omega

end Steady

/-! ## Every transfer succeeds -/

section Transfers

variable {s : Sys κ τ StaticMemory} {key : Addr} {e : BufferEntry κ} {clk : Clk}

/-- **Static media take what they are asked**, and it is known when they
are done. -/
theorem issueNextLevel_yields (hsound : s.setting.Sound) (hfits : s.setting.Fits clk)
    {type : BaseRequestType} :
    Yields (issueNextLevel StaticMemory.component type key e clk s) fun r =>
      r.1.issued = true ∧ r.1.deterministic = true ∧ r.1.nextClk ≠ clkInvalid ∧ r.2 = s := by
  have hin : (s.ctrl.mappingFunc key s.next.length).2 < s.next.length := hsound.mapped key
  obtain ⟨m, hm⟩ : ∃ m, s.next[(s.ctrl.mappingFunc key s.next.length).2]? = some m :=
    ⟨_, List.getElem?_eq_getElem hin⟩
  obtain ⟨hvalid, -, -, hmedia⟩ := hfits
  obtain ⟨hread, hwrite⟩ := hmedia m (List.mem_of_getElem? hm)
  -- the media are as they were
  have hsame : s.next.set (s.ctrl.mappingFunc key s.next.length).2 m = s.next := by
    obtain ⟨hlt, rfl⟩ := List.getElem?_eq_some_iff.mp hm
    exact List.set_getElem_self hlt
  unfold issueNextLevel
  simp only [Component.issueTo, hm, StaticMemory.component, StaticMemory.issueRequest,
    if_neg hvalid]
  cases type with
  | read => exact .pure ⟨rfl, rfl, hread, by rw [hsame]⟩
  | write => exact .pure ⟨rfl, rfl, hwrite, by rw [hsame]⟩

/-- The queue of the local memory can be asked. -/
theorem issueLmemq_yields (hbounded : s.Bounded) {type : BaseRequestType} :
    Yields (issueLmemq e type clk s) fun r =>
      r.1.deterministic = false ∧ r.2.setting = s.setting := by
  obtain ⟨⟨issued, lmemq⟩, henq⟩ := @RequestQueue.enqueue_of_le _ s.ctrl.lmemq
    (e.lmemRequest type clk) hbounded.lmemq
  exact ⟨_, bind_eq_ok.mpr ⟨_, henq, rfl⟩, rfl, rfl⟩

/-- The transfer succeeds, and leaves the entry a clock to act at. -/
def Succeeds (func : StateTrans κ τ StaticMemory) (key : Addr) (e : BufferEntry κ) (clk : Clk)
    (s : Sys κ τ StaticMemory) : Prop :=
  Yields (func key e clk s) fun r => r.1.Clocked ∧ r.2.setting = s.setting

theorem readMedia_succeeds (hsound : s.setting.Sound) (hfits : s.setting.Fits clk)
    {event : EventName} {dirty : Bool} :
    Succeeds (Trans.readMedia StaticMemory.component event dirty) key e clk s := by
  refine (issueNextLevel_yields hsound hfits).bind fun r _ ⟨hyes, hdet, hvalid, hsame⟩ => ?_
  obtain ⟨resp, s'⟩ := r
  dsimp only at hyes hdet hvalid hsame ⊢
  subst hsame
  simp only [hyes, Bool.not_true, Bool.false_eq_true, if_false]
  refine .pure ⟨fun _ _ _ => ?_, rfl⟩
  rw [BaseResponse.actionClk, if_pos hdet]
  exact hvalid

theorem writeMedia_succeeds (hsound : s.setting.Sound) (hfits : s.setting.Fits clk)
    {duration : DurationName} :
    Succeeds (Trans.writeMedia StaticMemory.component duration) key e clk s := by
  refine (issueNextLevel_yields hsound hfits).bind fun r _ ⟨hyes, hdet, hvalid, hsame⟩ => ?_
  obtain ⟨resp, s'⟩ := r
  dsimp only at hyes hdet hvalid hsame ⊢
  subst hsame
  simp only [hyes, Bool.not_true, Bool.false_eq_true, if_false]
  refine .pure ⟨fun _ _ _ => ?_, rfl⟩
  rw [BaseResponse.actionClk, if_pos hdet]
  exact hvalid

theorem migrate_succeeds (hsound : s.setting.Sound) (hfits : s.setting.Fits clk)
    {duration : DurationName} : Succeeds (Trans.migrate duration) key e clk s := by
  have hdelay : Yields (s.ctrl.table.checkWearLeveling key) fun delay =>
      clk + 1 + delay ≠ clkInvalid := by
    have hthreshold : s.ctrl.table.wearLevelingThreshold ≠ 0 := hsound.threshold
    unfold IndirectionTable.checkWearLeveling
    rw [if_neg hthreshold]
    split
    · exact .pure hfits.2.2.1
    · exact .pure (by rw [UInt64.add_zero]; exact hfits.2.1)
  refine hdelay.bind fun delay _ hvalid => .pure ⟨fun _ _ _ => hvalid, ?_⟩
  split <;> rfl

theorem finish_succeeds {duration : DurationName} {clean : Bool} :
    Succeeds (Trans.finish duration clean) key e clk s :=
  .pure ⟨fun hpend => by simp at hpend, rfl⟩

/-- **Every entry that acts has a transfer, and it succeeds.** -/
theorem transfer_succeeds (hsound : s.setting.Sound) (hfits : s.setting.Fits clk)
    (hbounded : s.Bounded) (hchain : e.Chained) (hclk : e.Clocked) (hend : e.state ≠ .end_) :
    ∃ func, stateTrans StaticMemory.component e.pendingRequest.type e.state = some func ∧
      Succeeds func key e clk s := by
  unfold BufferEntry.Chained at hchain
  cases hty : e.pendingRequest.type <;> cases hst : e.state <;>
    simp only [hty, hst, RequestType.chain, Bool.false_eq_true, ne_eq, not_true_eq_false]
      at hchain hend
  case writeMiss.init | readMiss.init => exact ⟨_, rfl, readMedia_succeeds hsound hfits⟩
  case writeMiss.pendingReadMedia | readMiss.pendingReadMedia | writeHit.init | readHit.init =>
      refine ⟨_, rfl, (issueLmemq_yields hbounded).bind fun r _ ⟨hdet, hsetting⟩ => ?_⟩
      obtain ⟨resp, u⟩ := r
      dsimp only at hdet hsetting ⊢
      split
      · exact .pure ⟨hclk, hsetting⟩
      · refine .pure ⟨fun _ _ hwait => ?_, hsetting⟩
        simp [hdet] at hwait
  case writeMiss.pendingWriteDram | writeHit.pendingWriteDram =>
      exact ⟨_, rfl, migrate_succeeds hsound hfits⟩
  case writeMiss.pendingMigration | writeHit.pendingMigration =>
      exact ⟨_, rfl, writeMedia_succeeds hsound hfits⟩
  case writeMiss.pendingWriteMedia | writeHit.pendingWriteMedia | readMiss.pendingReadDram
      | readHit.pendingReadDram => exact ⟨_, rfl, finish_succeeds⟩

end Transfers

/-! ## Every call succeeds -/

section Calls

variable {hL : AnswersOnce L} {hT : TakesUnlessFull L room} {s t : Sys κ τ StaticMemory}
  {e : BufferEntry κ} {key : Addr} {clk : Clk} {o : VisitOrder}

theorem acts_yields (h : e.Clocked) : Yields (e.acts clk) fun _ => True := by
  unfold BufferEntry.acts
  split
  · exact .pure trivial
  · rename_i hst
    split
    · exact .pure trivial
    · rename_i hpend
      split
      · exact .pure trivial
      · rename_i hwait
        rw [if_neg (h (by simpa using hpend) hst (by simpa using hwait))]
        exact .pure trivial

/-- What holds between the calls of a tick. -/
structure Ready (hL : AnswersOnce L) (hT : TakesUnlessFull L room) (clk : Clk)
    (s : Sys κ τ StaticMemory) : Prop where
  steady : Steady hL hT s
  sound : s.setting.Sound
  fits : s.setting.Fits clk

theorem Ready.of_setting (h : Ready hL hT clk s) (ht : Steady hL hT t ∧ t.setting = s.setting) :
    Ready hL hT clk t :=
  ⟨ht.1, ht.2 ▸ h.sound, ht.2 ▸ h.fits⟩

/-- Where eviction says there is room, there is, and the block of the
request is still without an entry. -/
theorem checkAndEvict_hasRoom (h : Steady hL hT s) (hev : checkAndEvict o s = (true, t)) :
    t.Bounded ∧ t.ctrl.buffer.entryMap.keys.length < t.ctrl.buffer.maxEntries ∧
      ∀ k, s.entry k = none → t.entry k = none := by
  have hmake := checkAndEvict_room hev
  refine ⟨h.bounded.makeRoom h.ok hmake, ?_, fun k hk => ?_⟩
  · obtain ⟨rfl, hfull⟩ | ⟨key, e, he, hend, hfull, rfl⟩ := checkAndEvict_cases hev
    · simpa [InternalBuffer.full] using hfull rfl
    · have hlen := Keyed.length_erase he
      have hroom := h.bounded.room
      simp only [InternalBuffer.erase, (h.ok key e he).aligned]
      omega
  · cases hmake with
    | had => exact hk
    | evict he hend hfull =>
        rw [entry_erase]
        split
        · rfl
        · exact hk

/-- After an eviction the block of the request gets its entry. -/
theorem insert_evicted {addr : Addr} {mk : ℕ → BufferEntry κ} (h : Steady hL hT s)
    (hev : checkAndEvict o s = (true, t)) (hnone : s.entry (translateToBlockAddr addr) = none) :
    Yields (t.ctrl.buffer.insert addr mk) fun _ => True := by
  obtain ⟨hbounded, hroom, hstill⟩ := checkAndEvict_hasRoom h hev
  exact ⟨_, InternalBuffer.insert_of_room (hstill _ hnone) hroom hbounded.counted, trivial⟩

/-- An entry that is not pending takes a request. -/
theorem assignNewRequest_yields {type : RequestType} {addr : Addr} {bits : BitVec blockSizeRmw}
    (h : e.pending = false) : Yields (e.assignNewRequest clk type addr bits) fun _ => True := by
  unfold BufferEntry.assignNewRequest
  rw [h]
  exact .pure trivial

/-- **The request at the front can be served, or stays.** -/
theorem tickLsq_yields (h : Steady hL hT s) : Yields (tickLsq o clk s) fun _ => True := by
  unfold tickLsq
  split
  · exact .pure trivial
  · rename_i front rest hq
    split
    · unfold tickLsqRead
      dsimp only
      split
      · rename_i hnone
        split
        · rename_i t hev
          exact (insert_evicted h hev hnone).bind fun _ _ _ => .pure trivial
        · exact .pure trivial
      · split
        · rename_i hready
          simp only [Bool.and_eq_true, Bool.not_eq_true'] at hready
          exact (assignNewRequest_yields hready.2).bind fun _ _ _ => .pure trivial
        · exact .pure trivial
    · unfold tickLsqWrite
      dsimp only
      split
      · rename_i hnone
        split
        · rename_i t hev
          rw [← translateToBlockAddr_idem] at hnone
          exact (insert_evicted h hev hnone).bind fun _ _ _ => .pure trivial
        · exact .pure trivial
      · split
        · rename_i hready
          rw [Bool.not_eq_true'] at hready
          exact (assignNewRequest_yields hready).bind fun _ _ _ => .pure trivial
        · exact .pure trivial

/-- The next access can be made, where the local memory is not full. -/
theorem lmemqStart_yields (h : Steady hL hT s) {front : BaseRequest κ}
    {rest : List (BaseRequest κ)} (hq : s.ctrl.lmemq.queue = front :: rest)
    (hfull : L.full s.localMemory = .ok false) :
    Yields (lmemqStart L clk front s) fun _ => True := by
  obtain ⟨e, he, -⟩ := h.engine.queued front (by rw [hq]; exact List.mem_cons_self)
  have he' : s.entry (translateToBlockAddr front.addr) = some e := he
  unfold lmemqStart
  dsimp only
  split
  · rename_i hnone
    exact absurd (hnone.symm.trans he') (by simp)
  · refine (hT.takes _ h.good hfull).bind fun r _ hyes => ?_
    obtain ⟨resp, req, localMemory⟩ := r
    dsimp only at hyes ⊢
    rw [hyes]
    simp only [Bool.not_true, Bool.false_eq_true, if_false]
    split <;> exact .pure trivial

/-- **The request at the front of the queue of the local memory goes on,
or waits.** -/
theorem tickLmemq_yields (h : Steady hL hT s) : Yields (tickLmemq L clk s) fun _ => True := by
  unfold tickLmemq
  split
  · exact .pure trivial
  · rename_i hne
    obtain ⟨hset, -⟩ := h.setUp (by simpa [RequestQueue.empty] using hne)
    refine (hT.full hset.good).bind fun full hfull _ => ?_
    cases full with
    | true =>
        simp only [if_true]
        exact .pure trivial
    | false =>
        simp only [Bool.false_eq_true, if_false]
        split
        · rename_i hnil
          rw [lmemqSetUp_eq h.engine.state] at hnil
          exact absurd (by simpa [RequestQueue.empty] using hnil) hne
        · rename_i front rest hq
          split
          · split
            · exact .pure trivial
            · split
              · obtain ⟨e, he, -⟩ :=
                  hset.engine.queued front (by rw [hq]; exact List.mem_cons_self)
                have he' : (lmemqSetUp s).entry (translateToBlockAddr front.addr) = some e := he
                unfold lmemqFinish
                simp only [he']
                exact .pure trivial
              · exact lmemqStart_yields hset hq hfull
          · rename_i hrange
            split
            · exact lmemqStart_yields hset hq hfull
            · have hindex := hset.index
              omega

/-- **A round of the loop over the buffer succeeds.** -/
theorem tickEntry_yields (h : Ready hL hT clk s) :
    Yields (tickEntry StaticMemory.component clk s key) (Ready hL hT clk) := by
  unfold tickEntry
  split
  · exact .pure h
  · rename_i e he
    obtain ⟨hchain, hclk⟩ := h.steady.able key e he
    refine (acts_yields hclk).bind fun acts hacts _ => ?_
    cases acts with
    | false =>
        simp only [Bool.false_eq_true, if_false]
        exact .pure h
    | true =>
        have hact := acts_eq_ok hacts
        have hend : e.state ≠ .end_ := by
          rcases hact with hact | ⟨hact, -⟩
          · simp [hact]
          · exact fun hend => by simp [(h.steady.ok key e he).pending.mpr hend] at hact
        obtain ⟨func, hfunc, hrun⟩ :=
          @transfer_succeeds _ _ s key e clk h.sound h.fits h.steady.bounded hchain hclk hend
        simp only [if_true, hfunc]
        refine hrun.bind fun r hr ⟨hclk', hsetting⟩ => .pure ?_
        obtain ⟨e', s'⟩ := r
        have hm := stateTrans_move hfunc hr
        have hqueues := stateTrans_queues hfunc hr
        have hsame : s'.localMemory = s.localMemory ∧ s'.ctrl.lmemqState = s.ctrl.lmemqState := by
          cases hqueues with
          | no hq hst hmem hdram => exact ⟨hmem, hst⟩
          | yes hq hst hmem hlen hdram hwait => exact ⟨hmem, hst⟩
        have hentry : ∀ k, (s'.setEntry key e').entry k =
            if k = key then some e' else s.entry k := fun k => by
          rw [entry_setEntry, Sys.entry, hm.frame.1]
          rfl
        refine h.of_setting ⟨⟨?_, ?_, ?_, ?_, ?_, ?_⟩, hsetting⟩
        · exact h.steady.ok.move (Q := fun _ => False) (.transfer he hact hm)
        · exact h.steady.engine.transfer h.steady.ok he hact hm hqueues
        · exact h.steady.able.of_entry_ite ⟨hchain.transfer hm, hclk'⟩ hentry
        · exact h.steady.bounded.transfer he hm hqueues
        · change -1 ≤ s'.ctrl.lmemqState.subreqPendingIndex ∧
            s'.ctrl.lmemqState.subreqPendingIndex ≤ 3
          rw [hsame.2]
          exact h.steady.index
        · change hT.Good s'.localMemory
          rw [hsame.1]
          exact h.steady.good

/-- **A tick succeeds.** -/
theorem tick_yields (h : Ready hL hT clk s) :
    Yields (tick L StaticMemory.component o clk s) (Ready hL hT clk) := by
  refine (tickLsq_yields h.steady).bind fun t ht _ => ?_
  have hready := h.of_setting (h.steady.serve (tickLsq_serve ht))
  refine (tickLmemq_yields hready.steady).bind fun u hu _ => ?_
  have hready' : Ready hL hT clk u := by
    obtain ⟨-, rfl⟩ | ⟨hne, hstep⟩ := tickLmemq_cases hu
    · exact hready
    · have hset := hready.of_setting (hready.steady.setUp hne)
      exact hset.of_setting
        (hset.steady.lmemqStep (hready.steady.engine.setUp hne).2 h.fits.2.1 hstep)
  exact foldlM_yields (fun v key hv => tickEntry_yields hv) hready'

end Calls

/-! ## Every run succeeds -/

section Runs

variable {hL : AnswersOnce L} {hT : TakesUnlessFull L room} {s : Sys κ τ StaticMemory}

/-- The invariant of the runs. -/
structure Running (hL : AnswersOnce L) (hT : TakesUnlessFull L room) (s : Sys κ τ StaticMemory) :
    Prop where
  steady : Steady hL hT s
  sound : s.setting.Sound

/-- **Every expected call succeeds.** -/
theorem step_yields {ev : Event κ} (h : Running hL hT s) (hev : Expected room s ev) :
    Yields ((machine L StaticMemory.component).step s ev) (Running hL hT) := by
  cases ev with
  | issueRequest req =>
      obtain ⟨⟨resp, t⟩, hissue⟩ : ∃ r, issueRequest req s = .ok r := by
        obtain ⟨p, henq⟩ := @RequestQueue.enqueue_of_le _ s.ctrl.lsq req h.steady.bounded.lsq
        unfold issueRequest
        simp only [henq, ok_bind]
        exact ⟨_, rfl⟩
      refine ⟨t, bind_eq_ok.mpr ⟨_, hissue, rfl⟩, ?_⟩
      obtain ⟨-, ⟨-, rfl⟩ | ⟨-, hlen, rfl⟩⟩ := issueRequest_cases hissue
      · exact h
      · obtain ⟨ok, engine, able, bounded, index, good⟩ := h.steady
        refine ⟨⟨ok.of_entry_eq fun _ => rfl, engine.of_entries rfl rfl rfl fun _ _ he _ _ => he,
          able, ⟨?_, bounded.lmemq, bounded.counted, bounded.room⟩, index, good⟩, h.sound⟩
        rw [List.length_append, List.length_singleton]
        exact hlen
  | tick o clk =>
      exact (tick_yields ⟨h.steady, h.sound, hev⟩).mono fun t _ ht => ⟨ht.steady, ht.sound⟩
  | localMemory visit clk =>
      have hroom : room s.localMemory clk := hev
      obtain ⟨⟨mem, served⟩, htick, hgood⟩ :=
        @TakesUnlessFull.tick _ _ _ hT visit clk _ h.steady.good hroom
      -- the callbacks of the local memory are run one after the other
      have hcall : tickLocalMemory L visit clk s = .ok (served.foldl
          (fun s inv => subreqServedCallback inv.addr s) { s with localMemory := mem }) :=
        bind_eq_ok.mpr ⟨_, htick, rfl⟩
      have hengine := h.steady.engine.tickLocalMemory hL hcall
      refine ⟨_, hcall, ?_⟩
      rw [foldl_served] at hengine ⊢
      obtain ⟨ok, -, able, bounded, index, -⟩ := h.steady
      obtain ⟨-, hindex⟩ := @LmemqState.markAll_frame s.ctrl.lmemqState served
      refine ⟨⟨ok.of_entry_eq fun _ => rfl, hengine, able,
        ⟨bounded.lsq, bounded.lmemq, bounded.counted, bounded.room⟩, ?_, hgood⟩, h.sound⟩
      change -1 ≤ (s.ctrl.lmemqState.markAll served).subreqPendingIndex ∧
        (s.ctrl.lmemqState.markAll served).subreqPendingIndex ≤ 3
      rw [hindex]
      exact index

theorem Running.init {cfg : Config} {mem : τ} {next : List StaticMemory} (hL : AnswersOnce L)
    (hT : TakesUnlessFull L room) (howed : hL.owed mem = 0) (hgood : hT.Good mem) (hnext : next ≠ [])
    (hmap : cfg.mappingFunc = noneMapping ∨ cfg.mappingFunc = strideMapping4096)
    (hthreshold : cfg.wearLevelingThreshold ≠ 0) :
    Running hL hT (Sys.init cfg mem next : Sys κ τ StaticMemory) where
  steady :=
    { ok := .init
      engine := .init howed
      able := fun key e he => by simp [Sys.entry, Sys.init] at he
      bounded := ⟨Nat.zero_le _, Nat.zero_le _, rfl, Nat.zero_le _⟩
      index := ⟨le_refl _, by change (-1 : ℤ) ≤ 3; omega⟩
      good := hgood }
  sound := ⟨mapping_lt hmap (List.length_pos_iff.mpr hnext), hthreshold⟩

end Runs

end Ait

end Vans
