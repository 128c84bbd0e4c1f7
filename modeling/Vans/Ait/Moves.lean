import Vans.Ait.Model
/-!
# The AIT controller — what a step can do

As for the RMW controller, every call is a sequence of moves. What the
queue of the local memory does between two transfers is one move, since
the results here need no more of it.
-/

namespace Vans

namespace Ait

variable {κ τ μ : Type} {L : Component SubreqCallback τ} {M : Component Callback μ}

/-- The request is a write. -/
def isWrite : RequestType → Bool
  | .writeMiss | .writeHit => true
  | .readMiss | .readHit => false

/-! ## The transfers of an entry -/

/-- What running a transfer of the entry under `key` does to the entry
and to the rest. -/
inductive EntryMove (s : Sys κ τ μ) (e : BufferEntry κ) : BufferEntry κ → Sys κ τ μ → Prop
  /-- The queue of the local memory is full. -/
  | lmemqFull :
      EntryMove s e e { s with ctrl.cntEvents := s.ctrl.cntEvents.incr .localMemoryIssueFail }
  /-- The block is read from the media. -/
  | readMedia {next : List μ} {resp : BaseResponse} {clk : Clk} {event : EventName}
      (hst : e.state = .init)
      (ht : e.pendingRequest.type = .writeMiss ∨ e.pendingRequest.type = .readMiss) :
      EntryMove s e
        { e with
          state := .pendingReadMedia
          pending := true
          dirty := e.pendingRequest.type = .writeMiss
          validToRead := false
          lastUsedClk := clk
          waitingActionClkUpdate := !resp.deterministic
          nextActionClk := resp.actionClk }
        { s with next := next, ctrl.cntEvents := s.ctrl.cntEvents.incr event }
  /-- A block that came from the media is queued for the local memory. -/
  | queueMiss {clk : Clk} {dur : Counter DurationName} {lmemq : List (BaseRequest κ)}
      (hst : e.state = .pendingReadMedia)
      (ht : e.pendingRequest.type = .writeMiss ∨ e.pendingRequest.type = .readMiss) :
      EntryMove s e
        { e with
          state := if e.pendingRequest.type = .writeMiss then .pendingWriteDram
            else .pendingReadDram
          validToRead := if e.pendingRequest.type = .writeMiss then e.validToRead else true
          lastUsedClk := clk
          waitingActionClkUpdate := true
          nextActionClk := clkInvalid }
        { s with ctrl.lmemq.queue := lmemq, ctrl.cntDuration := dur }
  /-- A block that was there already is queued for the local memory. -/
  | queueHit {clk : Clk} {lmemq : List (BaseRequest κ)} {event : EventName}
      (hst : e.state = .init)
      (ht : e.pendingRequest.type = .writeHit ∨ e.pendingRequest.type = .readHit) :
      EntryMove s e
        { e with
          state := if e.pendingRequest.type = .writeHit then .pendingWriteDram
            else .pendingReadDram
          pending := true
          dirty := if e.pendingRequest.type = .writeHit then true else e.dirty
          validToRead := if e.pendingRequest.type = .writeHit then false else true
          lastUsedClk := clk
          waitingActionClkUpdate := true
          nextActionClk := clkInvalid }
        { s with ctrl.lmemq.queue := lmemq, ctrl.cntEvents := s.ctrl.cntEvents.incr event }
  /-- The local memory is done with a write. -/
  | migrate {clk nac : Clk} {dur : Counter DurationName} {cnt : Counter EventName}
      (hst : e.state = .pendingWriteDram) (ht : isWrite e.pendingRequest.type) :
      EntryMove s e
        { e with
          state := .pendingMigration
          validToRead := true
          lastUsedClk := clk
          waitingActionClkUpdate := false
          nextActionClk := nac }
        { s with ctrl.cntDuration := dur, ctrl.cntEvents := cnt }
  /-- The block is written to the media. -/
  | writeMedia {next : List μ} {resp : BaseResponse} {clk : Clk} {dur : Counter DurationName}
      (hst : e.state = .pendingMigration) (ht : isWrite e.pendingRequest.type) :
      EntryMove s e
        { e with
          state := .pendingWriteMedia
          lastUsedClk := clk
          waitingActionClkUpdate := !resp.deterministic
          nextActionClk := resp.actionClk }
        { s with next := next, ctrl.cntDuration := dur }
  /-- The request ends, and its callback is run. -/
  | finish {clk : Clk} {dur : Counter DurationName}
      (hst : e.state = if isWrite e.pendingRequest.type then .pendingWriteMedia
        else .pendingReadDram) :
      EntryMove s e
        { e with
          state := .end_
          pending := false
          dirty := if isWrite e.pendingRequest.type then false else e.dirty
          lastUsedClk := clk }
        { s with
          ctrl.cntDuration := dur
          log := s.log ++ (invoke e.cb e.pendingRequest.rmwBlockAddr clk).map Obs.ran }

theorem issueNextLevel_eq_ok {type : BaseRequestType} {key : Addr} {e : BufferEntry κ} {clk : Clk}
    {s s' : Sys κ τ μ} {resp : BaseResponse}
    (h : issueNextLevel M type key e clk s = .ok (resp, s')) :
    ∃ next, s' = { s with next := next } := by
  simp only [issueNextLevel, bind_eq_ok, pure_eq_ok, Prod.exists, Prod.mk.injEq] at h
  obtain ⟨resp', req, next, -, -, rfl⟩ := h
  exact ⟨next, rfl⟩

/-- The request an entry puts in the queue of the local memory. -/
def BufferEntry.lmemRequest (e : BufferEntry κ) (type : BaseRequestType) (clk : Clk) :
    BaseRequest κ :=
  { type := type, addr := e.pendingRequest.rmwBlockAddr, arrive := clk }

/-- **A request is queued for the local memory, or changes nothing.** -/
theorem issueLmemq_cases {type : BaseRequestType} {e : BufferEntry κ} {clk : Clk}
    {s s' : Sys κ τ μ} {resp : BaseResponse} (h : issueLmemq e type clk s = .ok (resp, s')) :
    resp.deterministic = false ∧
      ((resp.issued = false ∧ s' = s) ∨
        (resp.issued = true ∧ s.ctrl.lmemq.queue.length < s.ctrl.lmemq.maxEntries ∧
          s' = { s with
            ctrl.lmemq.queue := s.ctrl.lmemq.queue ++ [e.lmemRequest type clk] })) := by
  simp only [issueLmemq, bind_eq_ok, Prod.exists, pure_eq_ok, Prod.mk.injEq] at h
  obtain ⟨issued, lmemq, henq, rfl, rfl⟩ := h
  obtain ⟨-, ⟨rfl, -, rfl⟩ | ⟨rfl, hlt, rfl⟩⟩ := RequestQueue.enqueue_eq_ok.mp henq
  · exact ⟨rfl, .inl ⟨rfl, rfl⟩⟩
  · exact ⟨rfl, .inr ⟨rfl, hlt, rfl⟩⟩

section Table

variable {s s' : Sys κ τ μ} {e e' : BufferEntry κ} {key : Addr} {clk : Clk}

theorem Trans.readMedia_move {event : EventName} {dirty : Bool} (hst : e.state = .init)
    (ht : e.pendingRequest.type = .writeMiss ∨ e.pendingRequest.type = .readMiss)
    (hd : dirty = decide (e.pendingRequest.type = .writeMiss))
    (h : Trans.readMedia M event dirty key e clk s = .ok (e', s')) : EntryMove s e e' s' := by
  simp only [Trans.readMedia, bind_eq_ok, Prod.exists] at h
  obtain ⟨resp, t, hissue, h⟩ := h
  obtain ⟨next, rfl⟩ := issueNextLevel_eq_ok hissue
  split at h
  · exact absurd h throw_ne_ok
  · obtain ⟨rfl, rfl⟩ := Prod.mk.inj (pure_eq_ok.mp h)
    subst hd
    exact .readMedia hst ht

theorem Trans.writeMedia_move {duration : DurationName} (hst : e.state = .pendingMigration)
    (ht : isWrite e.pendingRequest.type)
    (h : Trans.writeMedia M duration key e clk s = .ok (e', s')) : EntryMove s e e' s' := by
  simp only [Trans.writeMedia, bind_eq_ok, Prod.exists] at h
  obtain ⟨resp, t, hissue, h⟩ := h
  obtain ⟨next, rfl⟩ := issueNextLevel_eq_ok hissue
  split at h
  · exact absurd h throw_ne_ok
  · obtain ⟨rfl, rfl⟩ := Prod.mk.inj (pure_eq_ok.mp h)
    exact .writeMedia hst ht

theorem Trans.writeMissPendingReadMedia_move (hst : e.state = .pendingReadMedia)
    (ht : e.pendingRequest.type = .writeMiss)
    (h : Trans.writeMissPendingReadMedia key e clk s = .ok (e', s')) : EntryMove s e e' s' := by
  simp only [Trans.writeMissPendingReadMedia, bind_eq_ok, Prod.exists] at h
  obtain ⟨resp, t, hissue, h⟩ := h
  obtain ⟨hdet, ⟨hiss, rfl⟩ | ⟨hiss, -, rfl⟩⟩ := issueLmemq_cases hissue
  all_goals
    simp only [hiss, hdet, BaseResponse.actionClk, Bool.not_true, Bool.not_false, if_true,
      Bool.false_eq_true, if_false] at h
    obtain ⟨rfl, rfl⟩ := Prod.mk.inj (pure_eq_ok.mp h)
  · exact .lmemqFull
  · have hmove := @EntryMove.queueMiss _ _ _ s e clk
      (s.ctrl.cntDuration.add .wMissPrm (clk - e.lastUsedClk).toNat)
      (s.ctrl.lmemq.queue ++ [e.lmemRequest .write clk]) hst (.inl ht)
    simpa [ht, Sys.updateDurationCnt] using hmove

theorem Trans.readMissPendingReadMedia_move (hst : e.state = .pendingReadMedia)
    (ht : e.pendingRequest.type = .readMiss)
    (h : Trans.readMissPendingReadMedia key e clk s = .ok (e', s')) : EntryMove s e e' s' := by
  simp only [Trans.readMissPendingReadMedia, bind_eq_ok, Prod.exists] at h
  obtain ⟨resp, t, hissue, h⟩ := h
  obtain ⟨hdet, ⟨hiss, rfl⟩ | ⟨hiss, -, rfl⟩⟩ := issueLmemq_cases hissue
  all_goals
    simp only [hiss, hdet, BaseResponse.actionClk, Bool.not_true, Bool.not_false, if_true,
      Bool.false_eq_true, if_false] at h
    obtain ⟨rfl, rfl⟩ := Prod.mk.inj (pure_eq_ok.mp h)
  · exact .lmemqFull
  · have hmove := @EntryMove.queueMiss _ _ _ s e clk
      (s.ctrl.cntDuration.add .rMissPrm (clk - e.lastUsedClk).toNat)
      (s.ctrl.lmemq.queue ++ [e.lmemRequest .read clk]) hst (.inr ht)
    simpa [ht, Sys.updateDurationCnt] using hmove

theorem Trans.writeHitInit_move (hst : e.state = .init) (ht : e.pendingRequest.type = .writeHit)
    (h : Trans.writeHitInit key e clk s = .ok (e', s')) : EntryMove s e e' s' := by
  simp only [Trans.writeHitInit, bind_eq_ok, Prod.exists] at h
  obtain ⟨resp, t, hissue, h⟩ := h
  obtain ⟨hdet, ⟨hiss, rfl⟩ | ⟨hiss, -, rfl⟩⟩ := issueLmemq_cases hissue
  all_goals
    simp only [hiss, hdet, BaseResponse.actionClk, Bool.not_true, Bool.not_false, if_true,
      Bool.false_eq_true, if_false] at h
    obtain ⟨rfl, rfl⟩ := Prod.mk.inj (pure_eq_ok.mp h)
  · exact .lmemqFull
  · have hmove := @EntryMove.queueHit _ _ _ s e clk
      (s.ctrl.lmemq.queue ++ [e.lmemRequest .write clk]) .writeHit hst (.inl ht)
    simpa [ht, Sys.count] using hmove

theorem Trans.readHitInit_move (hst : e.state = .init) (ht : e.pendingRequest.type = .readHit)
    (h : Trans.readHitInit key e clk s = .ok (e', s')) : EntryMove s e e' s' := by
  simp only [Trans.readHitInit, bind_eq_ok, Prod.exists] at h
  obtain ⟨resp, t, hissue, h⟩ := h
  obtain ⟨hdet, ⟨hiss, rfl⟩ | ⟨hiss, -, rfl⟩⟩ := issueLmemq_cases hissue
  all_goals
    simp only [hiss, hdet, BaseResponse.actionClk, Bool.not_true, Bool.not_false, if_true,
      Bool.false_eq_true, if_false] at h
    obtain ⟨rfl, rfl⟩ := Prod.mk.inj (pure_eq_ok.mp h)
  · exact .lmemqFull
  · have hmove := @EntryMove.queueHit _ _ _ s e clk
      (s.ctrl.lmemq.queue ++ [e.lmemRequest .read clk]) .readHit hst (.inr ht)
    simpa [ht, Sys.count] using hmove

theorem Trans.migrate_move {duration : DurationName} (hst : e.state = .pendingWriteDram)
    (ht : isWrite e.pendingRequest.type)
    (h : Trans.migrate duration key e clk s = .ok (e', s')) : EntryMove s e e' s' := by
  simp only [Trans.migrate, bind_eq_ok] at h
  obtain ⟨delay, -, h⟩ := h
  obtain ⟨rfl, rfl⟩ := Prod.mk.inj (pure_eq_ok.mp h)
  split <;> exact .migrate hst ht

theorem Trans.finish_move {duration : DurationName} {clean : Bool}
    (hst : e.state = if isWrite e.pendingRequest.type then .pendingWriteMedia
      else .pendingReadDram) (hclean : clean = isWrite e.pendingRequest.type)
    (h : Trans.finish duration clean key e clk s = .ok (e', s')) : EntryMove s e e' s' := by
  obtain ⟨rfl, rfl⟩ := Prod.mk.inj (pure_eq_ok.mp h)
  subst hclean
  exact .finish hst

/-- **The table makes only these moves.** -/
theorem stateTrans_move {func : StateTrans κ τ μ}
    (hfunc : stateTrans M e.pendingRequest.type e.state = some func)
    (h : func key e clk s = .ok (e', s')) : EntryMove s e e' s' := by
  unfold stateTrans at hfunc
  split at hfunc <;> rename_i ht hst <;> cases hfunc
  case h_1 => exact Trans.readMedia_move hst (.inl ht) (by simp [ht]) h
  case h_2 => exact Trans.writeMissPendingReadMedia_move hst ht h
  case h_3 | h_7 => exact Trans.migrate_move hst (by simp [ht, isWrite]) h
  case h_4 | h_8 => exact Trans.writeMedia_move hst (by simp [ht, isWrite]) h
  case h_5 | h_9 => exact Trans.finish_move (by simp [ht, hst, isWrite]) (by simp [ht, isWrite]) h
  case h_6 => exact Trans.writeHitInit_move hst ht h
  case h_10 => exact Trans.readMedia_move hst (.inr ht) (by simp [ht]) h
  case h_11 => exact Trans.readMissPendingReadMedia_move hst ht h
  case h_12 | h_14 =>
      exact Trans.finish_move (by simp [ht, hst, isWrite]) (by simp [ht, isWrite]) h
  case h_13 => exact Trans.readHitInit_move hst ht h

end Table

/-! ## The moves -/

/-- A request of the type and for the block, taken by an entry. -/
def BufferEntry.assigned (e : BufferEntry κ) (clk : Clk) (type : RequestType) (rmwAddr : Addr)
    (bits : BitVec blockSizeRmw) (callback : Option κ) : BufferEntry κ :=
  { e with
    pending := true
    waitingActionClkUpdate := true
    validToRead := false
    rmwBitmap := bits
    state := .init
    pendingRequest := ⟨type, rmwAddr, clk⟩
    cb := callback }

/-- The request at the front leaves the queue, into an entry. -/
def Sys.take (s : Sys κ τ μ) (key : Addr) (e : BufferEntry κ) (front : BaseRequest κ)
    (rest : List (BaseRequest κ)) (event : EventName) (index : ℕ) (table : IndirectionTable) :
    Sys κ τ μ :=
  { s with
    ctrl.buffer.entryMap := s.ctrl.buffer.entryMap.insert key e
    ctrl.buffer.nextAvailableIndex := index
    ctrl.table := table
    ctrl.lsq.queue := rest
    ctrl.cntEvents := s.ctrl.cntEvents.incr event
    log := s.log ++ [.taken front] }

/-- The block of the entry a request goes to. -/
def aitBlock (addr : Addr) : Addr := translateToBlockAddr (Rmw.translateToBlockAddr addr)

@[simp] theorem translateToBlockAddr_idem (a : Addr) :
    translateToBlockAddr (translateToBlockAddr a) = translateToBlockAddr a := by
  have htrans : ∀ b : Addr, (translateToBlockAddr b).toNat = b.toNat / 4096 * 4096 := fun b =>
    Word.toNat_shr_shl (s := 12) (by decide)
  apply UInt64.toNat_inj.mp
  rw [htrans, htrans]
  omega

/-- **The moves of the controller.** `Q` restricts the requests it
accepts. -/
inductive Move (Q : BaseRequest κ → Prop) (s : Sys κ τ μ) : Sys κ τ μ → Prop
  | accept {req : BaseRequest κ} (room : s.ctrl.lsq.queue.length < s.ctrl.lsq.maxEntries)
      (hQ : Q req) :
      Move Q s
        { s with ctrl.lsq.queue := s.ctrl.lsq.queue ++ [req], log := s.log ++ [.accepted req] }
  | evict {key : Addr} {e : BufferEntry κ} (he : s.entry key = some e) (hend : e.state = .end_)
      (hfull : s.ctrl.buffer.full) :
      Move Q s
        { s with
          ctrl.buffer := s.ctrl.buffer.erase key
          ctrl.cntEvents := s.ctrl.cntEvents.incr .eviction }
  /-- A request finds no entry for its block, and gets a new one. -/
  | miss {front : BaseRequest κ} {rest : List (BaseRequest κ)} {clk : Clk} {type : RequestType}
      {bits : BitVec blockSizeRmw} {event : EventName} {table : IndirectionTable}
      (hq : s.ctrl.lsq.queue = front :: rest)
      (ht : type = match front.type with | .read => .readMiss | .write => .writeMiss)
      (hnone : s.entry (aitBlock front.addr) = none)
      (hroom : s.ctrl.buffer.entryMap.keys.length < s.ctrl.buffer.maxEntries) :
      Move Q s
        (s.take (aitBlock front.addr)
          ((BufferEntry.new clk type (Rmw.translateToBlockAddr front.addr) bits
            s.ctrl.buffer.nextAvailableIndex).assignCallback front.callback)
          front rest event (s.ctrl.buffer.nextAvailableIndex + 1) table)
  /-- A request finds its block in the buffer, at rest. -/
  | hit {front : BaseRequest κ} {rest : List (BaseRequest κ)} {e : BufferEntry κ} {clk : Clk}
      {type : RequestType} {bits : BitVec blockSizeRmw} {event : EventName}
      {table : IndirectionTable} (hq : s.ctrl.lsq.queue = front :: rest)
      (ht : type = match front.type with | .read => .readHit | .write => .writeHit)
      (he : s.entry (aitBlock front.addr) = some e) (hpend : e.pending = false) :
      Move Q s
        (s.take (aitBlock front.addr)
          (e.assigned clk type (Rmw.translateToBlockAddr front.addr) bits front.callback)
          front rest event s.ctrl.buffer.nextAvailableIndex table)
  /-- The queue of the local memory goes on. -/
  | lmem {lmemq : List (BaseRequest κ)} {st : LmemqState} {localMemory : τ}
      {cnt : Counter EventName} :
      Move Q s
        { s with
          ctrl.lmemq.queue := lmemq
          ctrl.lmemqState := st
          ctrl.cntEvents := cnt
          localMemory := localMemory }
  /-- An entry is told that what it waits for has come. -/
  | wake {key : Addr} {e : BufferEntry κ} {clk : Clk} (he : s.entry key = some e) :
      Move Q s
        (s.setEntry key { e with waitingActionClkUpdate := false, nextActionClk := clk })
  | transfer {key : Addr} {e e' : BufferEntry κ} {s' : Sys κ τ μ} (he : s.entry key = some e)
      (hact : e.state = .init ∨ (e.pending ∧ e.waitingActionClkUpdate = false))
      (hm : EntryMove s e e' s') :
      Move Q s (s'.setEntry key e')
  /-- The media change by themselves. -/
  | below {next : List μ} : Move Q s { s with next := next }
  | draining : Move Q s { s with ctrl.isDraining := true }

abbrev Moves (Q : BaseRequest κ → Prop) : Sys κ τ μ → Sys κ τ μ → Prop :=
  Relation.ReflTransGen (Move Q)

/-! ## Entries after the moves' updates -/

section Entry

variable {s : Sys κ τ μ} {key k : Addr} {e : BufferEntry κ} {front : BaseRequest κ}
  {rest : List (BaseRequest κ)} {event : EventName} {index : ℕ} {table : IndirectionTable}

theorem entry_setEntry : (s.setEntry key e).entry k = if k = key then some e else s.entry k := by
  by_cases h : k = key
  · subst h
    simp [Sys.entry, Sys.setEntry, InternalBuffer.set]
  · simp [Sys.entry, Sys.setEntry, InternalBuffer.set, h, AList.lookup_insert_ne h]

theorem entry_take :
    (s.take key e front rest event index table).entry k =
      if k = key then some e else s.entry k := by
  by_cases h : k = key
  · subst h
    simp [Sys.entry, Sys.take]
  · simp [Sys.entry, Sys.take, h, AList.lookup_insert_ne h]

theorem entry_erase {cnt : Counter EventName} :
    ({ s with ctrl.buffer := s.ctrl.buffer.erase key, ctrl.cntEvents := cnt } : Sys κ τ μ).entry k =
      if k = translateToBlockAddr key then none else s.entry k := by
  by_cases h : k = translateToBlockAddr key
  · subst h
    simp [Sys.entry, InternalBuffer.erase]
  · simp [Sys.entry, InternalBuffer.erase, h, AList.lookup_erase_ne h]

end Entry

section Functions

variable {Q : BaseRequest κ → Prop} {s t : Sys κ τ μ} {o : VisitOrder} {clk : Clk}

/-- **A request is taken, or changes nothing**; its time is not known. -/
theorem issueRequest_cases {req : BaseRequest κ} {resp : BaseResponse}
    (h : issueRequest req s = .ok (resp, t)) :
    resp.deterministic = false ∧
      ((resp.issued = false ∧ t = s) ∨
        (resp.issued = true ∧ s.ctrl.lsq.queue.length < s.ctrl.lsq.maxEntries ∧
          t = { s with
            ctrl.lsq.queue := s.ctrl.lsq.queue ++ [req]
            log := s.log ++ [.accepted req] })) := by
  simp only [issueRequest, bind_eq_ok, Prod.exists, pure_eq_ok, Prod.mk.injEq] at h
  obtain ⟨success, lsq, henq, rfl, rfl⟩ := h
  obtain ⟨-, ⟨rfl, -, rfl⟩ | ⟨rfl, hlt, rfl⟩⟩ := RequestQueue.enqueue_eq_ok.mp henq
  · exact ⟨rfl, .inl ⟨rfl, rfl⟩⟩
  · exact ⟨rfl, .inr ⟨rfl, hlt, rfl⟩⟩

/-- The scan finds no entry, or one in state `end`. -/
theorem oldest_spec (o : VisitOrder) (s : Sys κ τ μ) :
    (oldest o s).1 = addrInvalid ∨ ∃ e, s.entry (oldest o s).1 = some e ∧ e.state = .end_ := by
  unfold oldest
  refine foldl_keeps (P := fun p : Addr × Clk =>
    p.1 = addrInvalid ∨ ∃ e, s.entry p.1 = some e ∧ e.state = .end_) ?_ (.inl rfl)
  rintro ⟨a, c⟩ key hp
  dsimp only
  split
  · exact hp
  · rename_i e he
    split
    · rename_i hend
      exact .inr ⟨e, he, hend.1⟩
    · exact hp

theorem checkAndEvict_cases {room : Bool} (h : checkAndEvict o s = (room, t)) :
    (t = s ∧ (room = true → s.ctrl.buffer.full = false)) ∨
      ∃ key e, s.entry key = some e ∧ e.state = .end_ ∧ s.ctrl.buffer.full = true ∧
        t = { s with
          ctrl.buffer := s.ctrl.buffer.erase key
          ctrl.cntEvents := s.ctrl.cntEvents.incr .eviction } := by
  unfold checkAndEvict at h
  split at h
  · rename_i hfull
    exact .inl ⟨(Prod.mk.inj h).2.symm, fun _ => by simpa using hfull⟩
  · rename_i hfull
    split at h
    · obtain ⟨rfl, rfl⟩ := Prod.mk.inj h
      exact .inl ⟨rfl, nofun⟩
    · dsimp only at h
      split at h
      · obtain ⟨rfl, rfl⟩ := Prod.mk.inj h
        exact .inl ⟨rfl, nofun⟩
      · rename_i hsome
        obtain ⟨e, he, hend⟩ := (oldest_spec o s).resolve_left hsome
        exact .inr ⟨_, e, he, hend, by simpa using hfull, (Prod.mk.inj h).2.symm⟩

theorem assignNewRequest_eq_ok {e e' : BufferEntry κ} {type : RequestType} {addr : Addr}
    {bits : BitVec blockSizeRmw} (h : e.assignNewRequest clk type addr bits = .ok e')
    (callback : Option κ) :
    e.pending = false ∧ e'.assignCallback callback = e.assigned clk type addr bits callback := by
  unfold BufferEntry.assignNewRequest at h
  split at h
  · exact absurd h throw_ne_ok
  · rename_i hpend
    obtain rfl := pure_eq_ok.mp h
    exact ⟨by simpa using hpend, rfl⟩

/-- Room is made in the buffer: there was some, or an entry at rest
goes. -/
inductive MakeRoom (s : Sys κ τ μ) : Sys κ τ μ → Prop
  | had : MakeRoom s s
  | evict {key : Addr} {e : BufferEntry κ} (he : s.entry key = some e) (hend : e.state = .end_)
      (hfull : s.ctrl.buffer.full) :
      MakeRoom s
        { s with
          ctrl.buffer := s.ctrl.buffer.erase key
          ctrl.cntEvents := s.ctrl.cntEvents.incr .eviction }

/-- The table, once the request is taken: writes are counted. -/
def IndirectionTable.served (t : IndirectionTable) (req : BaseRequest κ) : IndirectionTable :=
  match req.type with
  | .read => t
  | .write => t.recordWrite (Rmw.translateToBlockAddr req.addr)

/-- **What serving the front of the load/store queue does**: nothing, or
the request is taken, into a new entry or one at rest. -/
inductive Serve (s : Sys κ τ μ) : Sys κ τ μ → Prop
  | wait : Serve s s
  | miss {u : Sys κ τ μ} {front : BaseRequest κ} {rest : List (BaseRequest κ)} {clk : Clk}
      {type : RequestType} {bits : BitVec blockSizeRmw} {event : EventName}
      {table : IndirectionTable} (hroom : MakeRoom s u) (hq : s.ctrl.lsq.queue = front :: rest)
      (ht : type = match front.type with | .read => .readMiss | .write => .writeMiss)
      (hnone : u.entry (aitBlock front.addr) = none)
      (hlen : u.ctrl.buffer.entryMap.keys.length < u.ctrl.buffer.maxEntries)
      (htable : table = u.ctrl.table.served front) :
      Serve s
        (u.take (aitBlock front.addr)
          ((BufferEntry.new clk type (Rmw.translateToBlockAddr front.addr) bits
            u.ctrl.buffer.nextAvailableIndex).assignCallback front.callback)
          front rest event (u.ctrl.buffer.nextAvailableIndex + 1) table)
  | hit {front : BaseRequest κ} {rest : List (BaseRequest κ)} {e : BufferEntry κ} {clk : Clk}
      {type : RequestType} {bits : BitVec blockSizeRmw} {event : EventName}
      {table : IndirectionTable} (hq : s.ctrl.lsq.queue = front :: rest)
      (ht : type = match front.type with | .read => .readHit | .write => .writeHit)
      (he : s.entry (aitBlock front.addr) = some e) (hpend : e.pending = false)
      (htable : table = s.ctrl.table.served front) :
      Serve s
        (s.take (aitBlock front.addr)
          (e.assigned clk type (Rmw.translateToBlockAddr front.addr) bits front.callback)
          front rest event s.ctrl.buffer.nextAvailableIndex table)

theorem checkAndEvict_room {room : Bool} (h : checkAndEvict o s = (room, t)) : MakeRoom s t := by
  obtain ⟨rfl, -⟩ | ⟨key, e, he, hend, hfull, rfl⟩ := checkAndEvict_cases h
  · exact .had
  · exact .evict he hend hfull

/-- Where there is no room, nothing changes. -/
theorem checkAndEvict_false (h : checkAndEvict o s = (false, t)) : t = s := by
  unfold checkAndEvict at h
  split at h
  · cases h
  · split at h
    · exact (Prod.mk.inj h).2.symm
    · dsimp only at h
      split at h
      · exact (Prod.mk.inj h).2.symm
      · cases h

theorem MakeRoom.moves (h : MakeRoom s t) : Moves Q s t := by
  cases h with
  | had => exact .refl
  | evict he hend hfull => exact .single (.evict he hend hfull)

theorem MakeRoom.lsq (h : MakeRoom s t) : t.ctrl.lsq = s.ctrl.lsq := by
  cases h <;> rfl

theorem Serve.moves (h : Serve s t) : Moves Q s t := by
  cases h with
  | wait => exact .refl
  | miss hroom hq ht hnone hlen htable =>
      exact hroom.moves.tail (.miss (by rw [hroom.lsq, hq]) ht hnone hlen)
  | hit hq ht he hpend htable => exact .single (.hit hq ht he hpend)

theorem tickLsqRead_serve {front : BaseRequest κ} {rest : List (BaseRequest κ)}
    (hq : s.ctrl.lsq.queue = front :: rest) (ht : front.type = .read)
    (h : tickLsqRead o clk front rest s = .ok t) : Serve s t := by
  unfold tickLsqRead at h
  dsimp only at h
  split at h
  · split at h
    · rename_i s₁ hev
      simp only [bind_eq_ok, Prod.exists, pure_eq_ok] at h
      obtain ⟨e, buffer, hins, rfl⟩ := h
      obtain ⟨hnone, hroom, rfl, rfl⟩ := InternalBuffer.insert_eq_ok hins
      rw [translateToBlockAddr_idem] at hnone ⊢
      have hserve := @Serve.miss _ _ _ s s₁ front rest clk .readMiss
        (blockBitshiftRmw (Rmw.translateToBlockAddr front.addr)) .readAccess s₁.ctrl.table
        (checkAndEvict_room hev) hq (by rw [ht]) hnone hroom
        (by rw [IndirectionTable.served, ht])
      simpa [Sys.serve, Sys.take, InternalBuffer.set, AList.insert_insert, aitBlock] using hserve
    · rename_i s₁ hev
      obtain rfl := checkAndEvict_false hev
      obtain rfl := pure_eq_ok.mp h
      exact .wait
  · rename_i e he
    rw [InternalBuffer.find, translateToBlockAddr_idem] at he
    split at h
    · simp only [bind_eq_ok, pure_eq_ok] at h
      obtain ⟨e', hassign, rfl⟩ := h
      obtain ⟨hpend, hcb⟩ := assignNewRequest_eq_ok hassign front.callback
      rw [translateToBlockAddr_idem, Sys.serve, hcb]
      exact .hit hq (by rw [ht]) he hpend (by rw [IndirectionTable.served, ht])
    · obtain rfl := pure_eq_ok.mp h
      exact .wait

theorem tickLsqWrite_serve {front : BaseRequest κ} {rest : List (BaseRequest κ)}
    (hq : s.ctrl.lsq.queue = front :: rest) (ht : front.type = .write)
    (h : tickLsqWrite o clk front rest s = .ok t) : Serve s t := by
  unfold tickLsqWrite at h
  dsimp only at h
  split at h
  · split at h
    · rename_i s₁ hev
      simp only [bind_eq_ok, Prod.exists, pure_eq_ok] at h
      obtain ⟨e, buffer, hins, rfl⟩ := h
      obtain ⟨hnone, hroom, rfl, rfl⟩ := InternalBuffer.insert_eq_ok hins
      rw [translateToBlockAddr_idem] at hnone ⊢
      have hserve := @Serve.miss _ _ _ s s₁ front rest clk .writeMiss
        (blockBitshiftRmw (Rmw.translateToBlockAddr front.addr)) .writeAccess
        (s₁.ctrl.table.recordWrite (Rmw.translateToBlockAddr front.addr))
        (checkAndEvict_room hev) hq (by rw [ht]) hnone hroom
        (by rw [IndirectionTable.served, ht])
      simpa [Sys.serve, Sys.take, InternalBuffer.set, AList.insert_insert, aitBlock] using hserve
    · rename_i s₁ hev
      obtain rfl := checkAndEvict_false hev
      obtain rfl := pure_eq_ok.mp h
      exact .wait
  · rename_i e he
    split at h
    · simp only [bind_eq_ok, pure_eq_ok] at h
      obtain ⟨e', hassign, rfl⟩ := h
      obtain ⟨hpend, hcb⟩ := assignNewRequest_eq_ok hassign front.callback
      rw [Sys.serve, hcb]
      exact .hit hq (by rw [ht]) he hpend (by rw [IndirectionTable.served, ht])
    · obtain rfl := pure_eq_ok.mp h
      exact .wait

theorem tickLsq_serve (h : tickLsq o clk s = .ok t) : Serve s t := by
  unfold tickLsq at h
  split at h
  · obtain rfl := pure_eq_ok.mp h
    exact .wait
  · rename_i front rest hq
    split at h <;> rename_i ht
    · exact tickLsqRead_serve hq ht h
    · exact tickLsqWrite_serve hq ht h

theorem tickLsq_moves (h : tickLsq o clk s = .ok t) : Moves Q s t :=
  (tickLsq_serve h).moves

theorem lmemqSetUp_moves : Moves Q s (lmemqSetUp s) := by
  unfold lmemqSetUp
  split
  · exact .refl
  · exact .single .lmem

theorem lmemqFinish_moves {front : BaseRequest κ} (h : lmemqFinish clk front s = .ok t) :
    Moves Q s t := by
  unfold lmemqFinish at h
  dsimp only at h
  split at h
  · exact absurd h throw_ne_ok
  · rename_i e he
    obtain rfl := pure_eq_ok.mp h
    exact (Relation.ReflTransGen.single (.wake he)).tail .lmem

theorem lmemqStart_moves {front : BaseRequest κ} (h : lmemqStart L clk front s = .ok t) :
    Moves Q s t := by
  unfold lmemqStart at h
  dsimp only at h
  split at h
  · exact absurd h throw_ne_ok
  · simp only [bind_eq_ok, Prod.exists] at h
    obtain ⟨resp, req, localMemory, -, h⟩ := h
    split at h
    · exact absurd h throw_ne_ok
    · split at h <;> obtain rfl := pure_eq_ok.mp h <;> exact .single .lmem

theorem tickLmemq_moves (h : tickLmemq L clk s = .ok t) : Moves Q s t := by
  unfold tickLmemq at h
  split at h
  · obtain rfl := pure_eq_ok.mp h
    exact .refl
  · simp only [bind_eq_ok] at h
    obtain ⟨full, -, h⟩ := h
    refine lmemqSetUp_moves.trans ?_
    split at h
    · obtain rfl := pure_eq_ok.mp h
      exact .refl
    · split at h
      · exact absurd h throw_ne_ok
      · split at h
        · split at h
          · obtain rfl := pure_eq_ok.mp h
            exact .refl
          · split at h
            · exact lmemqFinish_moves h
            · exact lmemqStart_moves h
        · split at h
          · exact lmemqStart_moves h
          · exact absurd h throw_ne_ok

/-- An entry acts in `init`, or when it is pending and waits for
nothing. -/
theorem acts_eq_ok {e : BufferEntry κ} (h : e.acts clk = .ok true) :
    e.state = .init ∨ (e.pending ∧ e.waitingActionClkUpdate = false) := by
  unfold BufferEntry.acts at h
  split at h
  · rename_i hinit
    exact .inl hinit
  · split at h
    · simp at h
    · rename_i hpend
      split at h
      · simp at h
      · rename_i hwait
        exact .inr ⟨by simpa using hpend, by simpa using hwait⟩

/-- **What a round of the loop does**: nothing, or one transfer of the
table. -/
theorem tickEntry_cases {key : Addr} (h : tickEntry M clk s key = .ok t) :
    t = s ∨ ∃ e e' s' func, s.entry key = some e ∧
      (e.state = .init ∨ (e.pending ∧ e.waitingActionClkUpdate = false)) ∧
      stateTrans M e.pendingRequest.type e.state = some func ∧
      func key e clk s = .ok (e', s') ∧ t = s'.setEntry key e' := by
  unfold tickEntry at h
  split at h
  · exact .inl (pure_eq_ok.mp h).symm
  · rename_i e he
    simp only [bind_eq_ok] at h
    obtain ⟨acts, hacts, h⟩ := h
    cases acts with
    | false =>
        simp only [Bool.false_eq_true, if_false, pure_eq_ok] at h
        exact .inl h.symm
    | true =>
        simp only [if_true] at h
        split at h
        · exact absurd h throw_ne_ok
        · rename_i func hfunc
          simp only [bind_eq_ok, Prod.exists, pure_eq_ok] at h
          obtain ⟨e', s', hrun, rfl⟩ := h
          exact .inr ⟨e, e', s', func, he, acts_eq_ok hacts, hfunc, hrun, rfl⟩

theorem tickEntry_moves {key : Addr} (h : tickEntry M clk s key = .ok t) : Moves Q s t := by
  obtain rfl | ⟨e, e', s', func, he, hact, hfunc, hrun, rfl⟩ := tickEntry_cases h
  · exact .refl
  · exact .single (.transfer he hact (stateTrans_move hfunc hrun))

theorem tick_moves (h : tick L M o clk s = .ok t) : Moves Q s t := by
  simp only [tick, bind_eq_ok] at h
  obtain ⟨u, hlsq, v, hlmemq, hbuf⟩ := h
  refine (tickLsq_moves hlsq).trans ((tickLmemq_moves hlmemq).trans ?_)
  exact foldlM_keeps (P := fun w => Moves Q v w) (fun _ _ _ hw hk => hw.trans (tickEntry_moves hk))
    .refl hbuf

theorem nextLevelReadCallback_moves {addr : Addr}
    (h : nextLevelReadCallback addr clk s = .ok t) : Moves Q s t := by
  unfold nextLevelReadCallback at h
  dsimp only at h
  split at h
  · exact absurd h throw_ne_ok
  · rename_i e he
    obtain rfl := pure_eq_ok.mp h
    exact .single (.wake he)

/-- **A tick of the component, with its local memory and the media, is a
sequence of moves.** -/
theorem tickComponent_moves {visit : Visit} (h : tickComponent L M visit clk s = .ok t) :
    Moves Q s t := by
  simp only [tickComponent, bind_eq_ok, Prod.exists] at h
  obtain ⟨u, htick, localMemory, served, -, next, ran, -, hran⟩ := h
  refine (tick_moves htick).trans ?_
  have hserved : Moves Q u (served.foldl (fun s inv => subreqServedCallback inv.addr s)
      { u with localMemory := localMemory }) :=
    foldl_keeps (P := fun v => Moves Q u v) (fun _ _ hv => hv.tail .lmem) (.single .lmem)
  exact foldlM_keeps (P := fun v => Moves Q u v)
    (fun _ _ _ hv hw => hv.trans (nextLevelReadCallback_moves hw)) (hserved.tail .below) hran

/-- The media are drained, once. -/
theorem drain_eq_ok (h : drain M s = .ok t) :
    ∃ next, s.next.mapM M.drain = .ok next ∧
      t = { s with ctrl.isDraining := true, next := next } := by
  unfold drain at h
  split at h
  · simp only [bind_eq_ok, throw_ne_ok, false_and, exists_false] at h
  · simp only [bind_eq_ok, pure_eq_ok] at h
    obtain ⟨next, hnext, rfl⟩ := h
    exact ⟨next, hnext, rfl⟩

theorem drain_moves (h : drain M s = .ok t) : Moves Q s t := by
  obtain ⟨next, -, rfl⟩ := drain_eq_ok h
  exact .head .draining (.single .below)

/-- `drain` records nothing. -/
theorem drain_log (h : drain M s = .ok t) : t.log = s.log := by
  obtain ⟨next, -, rfl⟩ := drain_eq_ok h
  rfl

end Functions

end Ait

end Vans
