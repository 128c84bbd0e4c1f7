import Vans.Rmw.Step
/-!
# The RMW controller — what a step can do

Every call of the controller is a sequence of moves, and a move is one
of a dozen: a request enters or leaves a queue, an entry is evicted,
created, given more work or given new work, an entry runs one of its
transfers, the level below wakes an entry. This file states the moves,
guards and effects in full, and proves that the functions of the
controller make no others. Everything the development says of the
controller is proved of its moves.

Some results hold of some environments only, or as long as no read of
a line joins another. The relation carries the conditions on both.
-/

namespace Vans

namespace Rmw

variable {κ σ : Type} {C : Component Callback σ}

/-- The three writes that come of requests. -/
def isWrite : RequestType → Bool
  | .writeRmw | .writeComb | .writePatch => true
  | _ => false

/-! ## The transfers of an entry -/

/-- The level below is asked to read or write the entry's block, and
answers. Only a read carries a callback. -/
def Asked (C : Component Callback σ) (key : Addr) (s : Sys κ σ) (e : BufferEntry κ)
    (type : BaseRequestType) (callback : Option Callback) (resp : BaseResponse)
    (next : List σ) : Prop :=
  ∃ clk req, C.issueTo s.next (s.ctrl.mappingFunc key s.next.length).2
    { type := type
      addr := translateToBlockAddr e.pendingRequest.logicAddr
      arrive := clk
      callback := callback } = .ok (resp, req, next)

/-- What running a transfer of the entry under `key` does to the entry
and to the rest. -/
inductive EntryMove (C : Component Callback σ) (key : Addr) (s : Sys κ σ) (e : BufferEntry κ) :
    BufferEntry κ → Sys κ σ → Prop
  /-- The level below did not take the request. -/
  | refused {next : List σ} {resp : BaseResponse} {type : BaseRequestType}
      {callback : Option Callback} (hask : Asked C key s e type callback resp next)
      (hno : resp.issued = false) :
      EntryMove C key s e e
        { s with next := next, ctrl.cntEvents := s.ctrl.cntEvents.incr .nextLevelIssueFail }
  /-- The read-out queue is full. -/
  | roqFull :
      EntryMove C key s e e { s with ctrl.cntEvents := s.ctrl.cntEvents.incr .roqFull }
  /-- The block is read from the level below. -/
  | fetch {next : List σ} {resp : BaseResponse} {clk : Clk} (hst : e.state = .init)
      (ht : e.pendingRequest.type = .writeRmw ∨ e.pendingRequest.type = .readCold)
      (hask : Asked C key s e .read (some .nextLevelReadCallback) resp next)
      (hyes : resp.issued = true) :
      EntryMove C key s e
        { e with
          state := .pendingAitR
          pending := true
          dirty := e.pendingRequest.type = .writeRmw
          validToRead := false
          lastUsedClk := clk
          waitingActionClkUpdate := !resp.deterministic
          nextActionClk := resp.actionClk }
        { s with
          next := next
          log := s.log ++ [.nextLevel .read (translateToBlockAddr e.pendingRequest.logicAddr)]
          ctrl.cntEvents := s.ctrl.cntEvents.incr
            (if e.pendingRequest.type = .writeRmw then .writeRmw else .readCold) }
  /-- The block has come. -/
  | fetched {clk nac : Clk} {dur : Counter DurationName} (hst : e.state = .pendingAitR)
      (ht : e.pendingRequest.type = .writeRmw ∨ e.pendingRequest.type = .readCold) :
      EntryMove C key s e
        { e with state := .pendingRead, lastUsedClk := clk, nextActionClk := nac }
        { s with ctrl.cntDuration := dur }
  /-- The lines written are merged into the block that was read. -/
  | merge {clk nac : Clk} {dur : Counter DurationName} (hst : e.state = .pendingRead)
      (ht : e.pendingRequest.type = .writeRmw) :
      EntryMove C key s e
        { e with
          state := .pendingAitW
          lastUsedClk := clk
          waitingActionClkUpdate := false
          nextActionClk := nac }
        { s with ctrl.cntDuration := dur }
  /-- The lines written are put down without reading the block. -/
  | begin {clk nac : Clk} (hst : e.state = .init)
      (ht : e.pendingRequest.type = .writeComb ∨ e.pendingRequest.type = .writePatch) :
      EntryMove C key s e
        { e with
          state := .pendingAitW
          pending := true
          dirty := true
          validToRead := false
          lastUsedClk := clk
          waitingActionClkUpdate := false
          nextActionClk := nac }
        { s with
          ctrl.cntEvents := s.ctrl.cntEvents.incr
            (if e.pendingRequest.type = .writeComb then .writeComb else .writePatch) }
  /-- The local memory is done with the write. -/
  | written {clk nac : Clk} {dur : Counter DurationName} (hst : e.state = .pendingAitW)
      (ht : isWrite e.pendingRequest.type) :
      EntryMove C key s e
        { e with state := .pendingModify, lastUsedClk := clk, nextActionClk := nac }
        { s with ctrl.cntDuration := dur }
  /-- The block is written to the level below. -/
  | modify {next : List σ} {clk nac : Clk} {dur : Counter DurationName}
      {resp : BaseResponse} (hst : e.state = .pendingModify) (ht : isWrite e.pendingRequest.type)
      (hask : Asked C key s e .write none resp next) (hyes : resp.issued = true) :
      EntryMove C key s e
        { e with
          state := .pendingWrite
          lastUsedClk := clk
          pending := true
          validToRead := true
          waitingActionClkUpdate := false
          nextActionClk := nac }
        { s with
          next := next
          log := s.log ++ [.nextLevel .write (translateToBlockAddr e.pendingRequest.logicAddr)]
          ctrl.cntDuration := dur }
  /-- A write ends. -/
  | finish {clk : Clk} {dur : Counter DurationName} (hst : e.state = .pendingWrite)
      (ht : isWrite e.pendingRequest.type) :
      EntryMove C key s e
        { e with pending := false, dirty := false, state := .end_, lastUsedClk := clk }
        { s with ctrl.cntDuration := dur }
  /-- A block that was fetched is read for the next waiting read. -/
  | readCold {clk nac : Clk} {dur : Counter DurationName} (hst : e.state = .pendingRead)
      (ht : e.pendingRequest.type = .readCold) :
      EntryMove C key s e
        { e with
          state := .pendingReadout
          validToRead := true
          lastUsedClk := clk
          waitingActionClkUpdate := false
          nextActionClk := nac }
        { s with ctrl.cntDuration := dur }
  /-- A block that was there already is read for the next waiting read. -/
  | readFf {clk nac : Clk} (hst : e.state = .init) (ht : e.pendingRequest.type = .readFf) :
      EntryMove C key s e
        { e with
          state := .pendingReadout
          pending := true
          dirty := false
          validToRead := true
          lastUsedClk := clk
          waitingActionClkUpdate := false
          nextActionClk := nac }
        { s with ctrl.cntEvents := s.ctrl.cntEvents.incr .readFastForward }
  /-- The first waiting read goes to the read-out queue; the entry goes
  on to the next, or ends. -/
  | readout {clk : Clk} {dur : Counter DurationName} {clIndex : Fin blockSizeCl}
      {rest : List (Fin blockSizeCl)} (hst : e.state = .pendingReadout)
      (ht : isRead e.pendingRequest.type) (hidx : e.pendingRequestClIndex = clIndex :: rest)
      (hroom : s.ctrl.roq.queue.length < s.ctrl.roq.maxEntries) :
      EntryMove C key s e
        { e with
          pendingRequestClIndex := rest
          cbBitmap := e.cbBitmap &&& ~~~(BitVec.ofNat blockSizeCl 1 <<< clIndex.val)
          lastUsedClk := clk
          state :=
            if rest = [] then .end_
            else if e.pendingRequest.type = .readCold then .pendingRead else .init
          pending := if rest = [] then false else e.pending }
        { s with
          ctrl.cntDuration := dur
          ctrl.roq.queue := s.ctrl.roq.queue ++
            [{ type := .read
               addr := translateToBlockAddr e.pendingRequest.logicAddr
                 + UInt64.ofNat clIndex.val * cpuClSize
               arrive := e.pendingRequest.arrive
               callback := e.callbacks clIndex
               depart := e.nextActionClk }] }
  /-- A transfer of an entry `drain` flushes back. -/
  | flush {e' : BufferEntry κ} {s' : Sys κ σ} (ht : e.pendingRequest.type = .flushBack) :
      EntryMove C key s e e' s'

/-- The requests the level below accepted, of the controller. -/
def nextLevels (log : List (Obs κ)) : List (BaseRequestType × Addr) :=
  log.filterMap fun
    | .nextLevel type addr => some (type, addr)
    | _ => none

/-- **What is recorded of the level below was accepted there**: where a
transfer asks it, the request is recorded exactly where the call was
accepted; and elsewhere nothing is. -/
theorem EntryMove.nextLevels {key : Addr} {s s' : Sys κ σ} {e e' : BufferEntry κ}
    (h : EntryMove C key s e e' s') (ht : e.pendingRequest.type ≠ .flushBack) :
    (s'.next = s.next ∧ nextLevels s'.log = nextLevels s.log) ∨
    ∃ type callback resp, Asked C key s e type callback resp s'.next ∧
      nextLevels s'.log = nextLevels s.log ++
        if resp.issued then [(type, translateToBlockAddr e.pendingRequest.logicAddr)] else [] := by
  cases h with
  | refused hask hno =>
      refine .inr ⟨_, _, _, hask, ?_⟩
      rw [hno]
      exact (List.append_nil _).symm
  | fetch hst hty hask hyes | modify hst hty hask hyes =>
      refine .inr ⟨_, _, _, hask, ?_⟩
      rw [hyes]
      exact List.filterMap_append
  | flush hty => exact absurd hty ht
  | _ => exact .inl ⟨rfl, rfl⟩

/-- Reading or writing below either is refused, or is recorded. -/
theorem issueNextLevel_eq_ok {type : BaseRequestType} {cb : Option Callback} {key : Addr}
    {e : BufferEntry κ} {clk : Clk} {s s' : Sys κ σ} {resp : BaseResponse}
    (h : issueNextLevel C type cb key e clk s = .ok (resp, s')) :
    ∃ next, Asked C key s e type cb resp next ∧ s' = { s with
      next := next
      log := if resp.issued then
          s.log ++ [.nextLevel type (translateToBlockAddr e.pendingRequest.logicAddr)]
        else s.log } := by
  simp only [issueNextLevel, bind_eq_ok, pure_eq_ok, Prod.exists, Prod.mk.injEq] at h
  obtain ⟨resp', req, next, hissue, rfl, rfl⟩ := h
  refine ⟨next, ⟨clk, req, hissue⟩, ?_⟩
  split <;> rfl

/-- The local memory takes every request at once. -/
theorem issueLocalMemory_eq_ok {type : BaseRequestType} {e : BufferEntry κ} {clk : Clk}
    {s : Sys κ σ} {resp : BaseResponse} (h : issueLocalMemory type e clk s = .ok resp) :
    resp.issued = true ∧ resp.deterministic = true :=
  StaticMemory.issueRequest_eq_ok h

theorem issueRoq_eq_ok {e e' : BufferEntry κ} {s s' : Sys κ σ}
    (h : issueRoq e s = .ok (e', s')) :
    ∃ clIndex rest, e.pendingRequestClIndex = clIndex :: rest ∧
      s.ctrl.roq.queue.length < s.ctrl.roq.maxEntries ∧
      e' = { e with
        pendingRequestClIndex := rest
        cbBitmap := e.cbBitmap &&& ~~~(BitVec.ofNat blockSizeCl 1 <<< clIndex.val) } ∧
      s' = { s with
        ctrl.roq.queue := s.ctrl.roq.queue ++
          [{ type := .read
             addr := translateToBlockAddr e.pendingRequest.logicAddr
               + UInt64.ofNat clIndex.val * cpuClSize
             arrive := e.pendingRequest.arrive
             callback := e.callbacks clIndex
             depart := e.nextActionClk }] } := by
  unfold issueRoq at h
  split at h
  · exact absurd h throw_ne_ok
  · rename_i clIndex rest hidx
    simp only [bind_eq_ok] at h
    obtain ⟨full, hfull, h⟩ := h
    cases full with
    | true => simp only [if_true, bind_eq_ok, throw_ne_ok, false_and, exists_false] at h
    | false =>
        obtain ⟨hle, hne⟩ := RequestQueue.full_eq_ok.mp hfull
        simp only [Bool.false_eq_true, if_false, pure_eq_ok, Prod.mk.injEq] at h
        refine ⟨clIndex, rest, hidx, ?_, h.1.symm, h.2.symm⟩
        simp at hne
        omega

/-! ### The table's transfers -/

section Table

variable {s s' : Sys κ σ} {e e' : BufferEntry κ} {key : Addr} {clk : Clk}

theorem Trans.fetch_move {event : EventName} {dirty : Bool} (hst : e.state = .init)
    (ht : e.pendingRequest.type = .writeRmw ∨ e.pendingRequest.type = .readCold)
    (hev : event = if e.pendingRequest.type = .writeRmw then .writeRmw else .readCold)
    (hd : dirty = decide (e.pendingRequest.type = .writeRmw))
    (h : Trans.fetch C event dirty key e clk s = .ok (e', s')) : EntryMove C key s e e' s' := by
  simp only [Trans.fetch, issueReadNextLevel, bind_eq_ok, Prod.exists] at h
  obtain ⟨resp, t, hissue, h⟩ := h
  obtain ⟨next, hask, rfl⟩ := issueNextLevel_eq_ok hissue
  subst hev hd
  cases hiss : resp.issued with
  | false =>
      simp only [hiss, Bool.not_false, if_true, pure_eq_ok, Prod.mk.injEq] at h
      obtain ⟨rfl, rfl⟩ := h
      exact .refused hask hiss
  | true =>
      simp only [hiss, Bool.not_true, Bool.false_eq_true, if_false, if_true, pure_eq_ok,
        Prod.mk.injEq] at h
      obtain ⟨rfl, rfl⟩ := h
      exact .fetch hst ht hask hiss

theorem Trans.writeRmwPendingRead_move (hst : e.state = .pendingRead)
    (ht : e.pendingRequest.type = .writeRmw)
    (h : Trans.writeRmwPendingRead key e clk s = .ok (e', s')) : EntryMove C key s e e' s' := by
  simp only [Trans.writeRmwPendingRead, issueWriteLocalMemory, bind_eq_ok] at h
  obtain ⟨resp, hissue, h⟩ := h
  obtain ⟨hiss, hdet⟩ := issueLocalMemory_eq_ok hissue
  simp only [hiss, hdet, Bool.not_true, Bool.false_eq_true, if_false, pure_eq_ok,
    Prod.mk.injEq] at h
  obtain ⟨rfl, rfl⟩ := h
  exact .merge hst ht

theorem Trans.beginWrite_move {event : EventName} (hst : e.state = .init)
    (ht : e.pendingRequest.type = .writeComb ∨ e.pendingRequest.type = .writePatch)
    (hev : event = if e.pendingRequest.type = .writeComb then .writeComb else .writePatch)
    (h : Trans.beginWrite event key e clk s = .ok (e', s')) : EntryMove C key s e e' s' := by
  simp only [Trans.beginWrite, issueWriteLocalMemory, bind_eq_ok] at h
  obtain ⟨resp, hissue, h⟩ := h
  obtain ⟨hiss, hdet⟩ := issueLocalMemory_eq_ok hissue
  simp only [hiss, hdet, Bool.not_true, Bool.false_eq_true, if_false, pure_eq_ok,
    Prod.mk.injEq] at h
  obtain ⟨rfl, rfl⟩ := h
  subst hev
  exact .begin hst ht

theorem Trans.modify_move {duration : DurationName} (hst : e.state = .pendingModify)
    (ht : isWrite e.pendingRequest.type)
    (h : Trans.modify C duration key e clk s = .ok (e', s')) : EntryMove C key s e e' s' := by
  simp only [Trans.modify, issueWriteNextLevel, bind_eq_ok, Prod.exists] at h
  obtain ⟨resp, t, hissue, h⟩ := h
  obtain ⟨next, hask, rfl⟩ := issueNextLevel_eq_ok hissue
  cases hiss : resp.issued with
  | false =>
      simp only [hiss, Bool.not_false, if_true, pure_eq_ok, Prod.mk.injEq] at h
      obtain ⟨rfl, rfl⟩ := h
      exact .refused hask hiss
  | true =>
      simp only [hiss, Bool.not_true, Bool.false_eq_true, if_false, if_true, pure_eq_ok,
        Prod.mk.injEq] at h
      obtain ⟨rfl, rfl⟩ := h
      exact .modify hst ht hask hiss

theorem Trans.readColdPendingRead_move (hst : e.state = .pendingRead)
    (ht : e.pendingRequest.type = .readCold)
    (h : Trans.readColdPendingRead key e clk s = .ok (e', s')) : EntryMove C key s e e' s' := by
  simp only [Trans.readColdPendingRead, issueReadLocalMemory, bind_eq_ok] at h
  obtain ⟨resp, hissue, h⟩ := h
  obtain ⟨hiss, hdet⟩ := issueLocalMemory_eq_ok hissue
  simp only [hiss, hdet, Bool.not_true, Bool.false_eq_true, if_false, pure_eq_ok,
    Prod.mk.injEq] at h
  obtain ⟨rfl, rfl⟩ := h
  exact .readCold hst ht

theorem Trans.readFfInit_move (hst : e.state = .init) (ht : e.pendingRequest.type = .readFf)
    (h : Trans.readFfInit key e clk s = .ok (e', s')) : EntryMove C key s e e' s' := by
  simp only [Trans.readFfInit, issueReadLocalMemory, bind_eq_ok] at h
  obtain ⟨resp, hissue, h⟩ := h
  obtain ⟨hiss, hdet⟩ := issueLocalMemory_eq_ok hissue
  simp only [hiss, hdet, Bool.not_true, Bool.false_eq_true, if_false, pure_eq_ok,
    Prod.mk.injEq] at h
  obtain ⟨rfl, rfl⟩ := h
  exact .readFf hst ht

theorem Trans.readout_move {duration : DurationName} {again : RequestState}
    (hst : e.state = .pendingReadout) (ht : isRead e.pendingRequest.type)
    (hagain : again = if e.pendingRequest.type = .readCold then .pendingRead else .init)
    (h : Trans.readout duration again key e clk s = .ok (e', s')) : EntryMove C key s e e' s' := by
  simp only [Trans.readout, bind_eq_ok] at h
  obtain ⟨full, hfull, h⟩ := h
  cases full with
  | true =>
      simp only [if_true, pure_eq_ok, Prod.mk.injEq] at h
      obtain ⟨rfl, rfl⟩ := h
      exact .roqFull
  | false =>
      simp only [Bool.false_eq_true, if_false, bind_eq_ok, Prod.exists] at h
      obtain ⟨e₁, s₁, hroq, h⟩ := h
      obtain ⟨clIndex, rest, hidx, hroom, rfl, rfl⟩ := issueRoq_eq_ok hroq
      have hmove := @EntryMove.readout _ _ C key s e clk
        (s.ctrl.cntDuration.add duration (clk - e.lastUsedClk).toNat) clIndex rest hst ht hidx hroom
      by_cases hrest : rest = []
      · simp only [hrest, ne_eq, not_true_eq_false, if_false, pure_eq_ok, Prod.mk.injEq] at h
        obtain ⟨rfl, rfl⟩ := h
        simpa only [Sys.updateDurationCnt, hrest, if_true] using hmove
      · simp only [hrest, ne_eq, not_false_eq_true, if_true, pure_eq_ok, Prod.mk.injEq] at h
        obtain ⟨rfl, rfl⟩ := h
        subst hagain
        simpa only [Sys.updateDurationCnt, hrest, if_false] using hmove

/-- **The table makes only these moves.** -/
theorem stateTrans_move {func : StateTrans κ σ}
    (hfunc : stateTrans C e.pendingRequest.type e.state = some func)
    (h : func key e clk s = .ok (e', s')) : EntryMove C key s e e' s' := by
  unfold stateTrans at hfunc
  split at hfunc <;> rename_i ht hst
  case h_1 => cases hfunc; exact Trans.fetch_move hst (.inl ht) (by simp [ht]) (by simp [ht]) h
  case h_2 =>
      cases hfunc
      obtain ⟨rfl, rfl⟩ := Prod.mk.inj (pure_eq_ok.mp h)
      exact .fetched hst (.inl ht)
  case h_3 => cases hfunc; exact Trans.writeRmwPendingRead_move hst ht h
  case h_5 | h_9 | h_13 => cases hfunc; exact Trans.modify_move hst (by simp [ht, isWrite]) h
  case h_7 => cases hfunc; exact Trans.beginWrite_move hst (.inl ht) (by simp [ht]) h
  case h_11 => cases hfunc; exact Trans.beginWrite_move hst (.inr ht) (by simp [ht]) h
  case h_4 | h_8 | h_12 =>
      cases hfunc
      obtain ⟨rfl, rfl⟩ := Prod.mk.inj (pure_eq_ok.mp h)
      exact .written hst (by simp [ht, isWrite])
  case h_6 | h_10 | h_14 =>
      cases hfunc
      obtain ⟨rfl, rfl⟩ := Prod.mk.inj (pure_eq_ok.mp h)
      exact .finish hst (by simp [ht, isWrite])
  case h_15 | h_16 | h_17 => exact .flush ht
  case h_18 => cases hfunc; exact Trans.fetch_move hst (.inr ht) (by simp [ht]) (by simp [ht]) h
  case h_19 =>
      cases hfunc
      obtain ⟨rfl, rfl⟩ := Prod.mk.inj (pure_eq_ok.mp h)
      exact .fetched hst (.inr ht)
  case h_20 => cases hfunc; exact Trans.readColdPendingRead_move hst ht h
  case h_21 => cases hfunc; exact Trans.readout_move hst (by simp [ht, isRead]) (by simp [ht]) h
  case h_22 => cases hfunc; exact Trans.readFfInit_move hst ht h
  case h_23 => cases hfunc; exact Trans.readout_move hst (by simp [ht, isRead]) (by simp [ht]) h
  case h_24 => cases hfunc

end Table

/-! ## The moves -/

/-- A read waits in the entry for its line. -/
def BufferEntry.waitFor (e : BufferEntry κ) (req : BaseRequest κ) : BufferEntry κ :=
  { e with
    callbacks := Function.update e.callbacks (blockOffsetCl req.addr) req.callback
    pendingRequestClIndex := e.pendingRequestClIndex ++ [blockOffsetCl req.addr] }

/-- No callback waits in the entry. -/
def BufferEntry.cleared (e : BufferEntry κ) : BufferEntry κ :=
  { e with cbBitmap := 0, callbacks := fun _ => none }

/-- A new entry under a key, with the buffer's next index. -/
def Sys.newEntry (s : Sys κ σ) (key : Addr) (e : BufferEntry κ) : Sys κ σ :=
  { s with
    ctrl.buffer.entryMap := s.ctrl.buffer.entryMap.insert key e
    ctrl.buffer.nextAvailableIndex := s.ctrl.buffer.nextAvailableIndex + 1 }

/-- The lines hit by the writes combined from the queue. -/
def Sys.combined (s : Sys κ σ) (front : BaseRequest κ) :
    BitVec blockSizeCl × List (BaseRequest κ) × List (BaseRequest κ) :=
  combine (translateToBlockAddr front.addr) s.ctrl.lsq.queue

/-- What is asked of the moves that depend on more than the controller. -/
structure Env (κ : Type) where
  /-- The entry a read may join, and with which line. -/
  join : BufferEntry κ → Fin blockSizeCl → Prop := fun _ _ => True
  /-- The requests that may come in. -/
  accept : BaseRequest κ → Prop := fun _ => True
  /-- The level below may change by itself, and call back. -/
  outside : Prop := True

/-- **The moves of the controller**, in an environment. -/
inductive Move (C : Component Callback σ) (Q : Env κ) (s : Sys κ σ) : Sys κ σ → Prop
  /-- A request enters the load/store queue. -/
  | accept {req : BaseRequest κ} (room : s.ctrl.lsq.queue.length < s.ctrl.lsq.maxEntries)
      (hQ : Q.accept req) :
      Move C Q s
        { s with ctrl.lsq.queue := s.ctrl.lsq.queue ++ [req], log := s.log ++ [.accepted req] }
  /-- The read at the front of the read-out queue is completed. -/
  | run {front : BaseRequest κ} {rest : List (BaseRequest κ)} {clk : Clk}
      (hq : s.ctrl.roq.queue = front :: rest) (hdue : front.depart ≤ clk) :
      Move C Q s
        { s with
          ctrl.roq.queue := rest
          log := s.log ++ (invoke front.callback (front.addr + s.ctrl.startAddr) clk).map Obs.ran }
  /-- An entry is evicted. -/
  | evict {key : Addr} {e : BufferEntry κ} (he : s.entry key = some e) (hend : e.state = .end_)
      (hfull : s.ctrl.buffer.full) :
      Move C Q s
        { s with
          ctrl.buffer := s.ctrl.buffer.erase key
          ctrl.cntEvents := s.ctrl.cntEvents.incr .eviction }
  /-- A read finds no entry for its block, and gets a new one. -/
  | readCold {front : BaseRequest κ} {rest : List (BaseRequest κ)} {clk : Clk}
      {bits : BitVec blockSizeCl} (hq : s.ctrl.lsq.queue = front :: rest) (ht : front.type = .read)
      (hnone : s.entry (translateToBlockAddr front.addr) = none)
      (hroom : s.ctrl.buffer.entryMap.keys.length < s.ctrl.buffer.maxEntries) :
      Move C Q s
        ((s.newEntry (translateToBlockAddr front.addr)
          ((BufferEntry.new clk .readCold front.addr bits
            s.ctrl.buffer.nextAvailableIndex).waitFor front)).takeRead .readCold front rest)
  /-- A read joins the pending read of its block. -/
  | readPatch {front : BaseRequest κ} {rest : List (BaseRequest κ)} {e : BufferEntry κ}
      (hq : s.ctrl.lsq.queue = front :: rest) (ht : front.type = .read)
      (he : s.entry (translateToBlockAddr front.addr) = some e) (hpend : e.pending)
      (hread : isRead e.pendingRequest.type) (hne : e.pendingRequestClIndex ≠ [])
      (hlen : e.pendingRequestClIndex.length < blockSizeCl)
      (hQ : Q.join e (blockOffsetCl front.addr)) :
      Move C Q s
        (((s.count .readPatch).setEntry (translateToBlockAddr front.addr)
          (e.waitFor front)).takeRead .readPatch front rest)
  /-- A read finds its block in the buffer. -/
  | readFf {front : BaseRequest κ} {rest : List (BaseRequest κ)} {e : BufferEntry κ} {clk : Clk}
      {bits : BitVec blockSizeCl} (hq : s.ctrl.lsq.queue = front :: rest) (ht : front.type = .read)
      (he : s.entry (translateToBlockAddr front.addr) = some e)
      (hnot : ¬ (e.pending ∧ isRead e.pendingRequest.type)) (hvalid : e.validToRead)
      (hidx : e.pendingRequestClIndex = []) :
      Move C Q s
        ((s.setEntry (translateToBlockAddr front.addr)
          (((e.assignNewRequest clk .readFf front.addr bits).cleared).waitFor front)).takeRead
            .readFf front rest)
  /-- Writes find no entry for their block, and get a new one. -/
  | writeNew {front : BaseRequest κ} {rest taken left : List (BaseRequest κ)} {clk : Clk}
      {hit : BitVec blockSizeCl} (hq : s.ctrl.lsq.queue = front :: rest) (ht : front.type = .write)
      (hcomb : s.combined front = (hit, taken, left))
      (hnone : s.entry (translateToBlockAddr front.addr) = none)
      (hroom : s.ctrl.buffer.entryMap.keys.length < s.ctrl.buffer.maxEntries) :
      Move C Q s
        ((s.newEntry (translateToBlockAddr front.addr)
          (BufferEntry.new clk (if hit = blockHitClBitmask then .writeComb else .writeRmw)
            front.addr hit s.ctrl.buffer.nextAvailableIndex)).takeWrites taken left)
  /-- Writes complete the block of a write still waiting for the rest of
  it, which it no longer needs. -/
  | writeComb {front : BaseRequest κ} {rest taken left : List (BaseRequest κ)}
      {e : BufferEntry κ} {clk : Clk} {hit : BitVec blockSizeCl}
      (hq : s.ctrl.lsq.queue = front :: rest) (ht : front.type = .write)
      (hcomb : s.combined front = (hit, taken, left))
      (he : s.entry (translateToBlockAddr front.addr) = some e) (hpatch : e.patchRmw)
      (hall : hit ||| e.clBitmap = blockHitClBitmask) :
      Move C Q s
        (((s.setEntry (translateToBlockAddr front.addr)
          (e.assignNewRequest clk .writeComb front.addr (hit ||| e.clBitmap))).count
            .patchRmwComb).takeWrites taken left)
  /-- Writes join a write in progress. -/
  | writeJoin {front : BaseRequest κ} {rest taken left : List (BaseRequest κ)}
      {e : BufferEntry κ} {hit : BitVec blockSizeCl} (hq : s.ctrl.lsq.queue = front :: rest)
      (ht : front.type = .write) (hcomb : s.combined front = (hit, taken, left))
      (he : s.entry (translateToBlockAddr front.addr) = some e) (hpatch : e.patchRmw)
      (hall : hit ||| e.clBitmap ≠ blockHitClBitmask) :
      Move C Q s
        (((s.setEntry (translateToBlockAddr front.addr)
          { e with clBitmap := hit ||| e.clBitmap }).count .patchRmw).takeWrites taken left)
  /-- Writes find their block in the buffer, at rest. -/
  | writePatch {front : BaseRequest κ} {rest taken left : List (BaseRequest κ)}
      {e : BufferEntry κ} {clk : Clk} {hit : BitVec blockSizeCl}
      (hq : s.ctrl.lsq.queue = front :: rest) (ht : front.type = .write)
      (hcomb : s.combined front = (hit, taken, left))
      (he : s.entry (translateToBlockAddr front.addr) = some e) (hpend : e.pending = false) :
      Move C Q s
        ((s.setEntry (translateToBlockAddr front.addr)
          (e.assignNewRequest clk .writePatch front.addr hit)).takeWrites taken left)
  /-- An entry runs one of its transfers. -/
  | transfer {key : Addr} {e e' : BufferEntry κ} {s' : Sys κ σ} (he : s.entry key = some e)
      (hact : e.state = .init ∨ (e.pending ∧ e.waitingActionClkUpdate = false))
      (hm : EntryMove C key s e e' s') :
      Move C Q s (s'.setEntry key e')
  /-- The level below wakes an entry. -/
  | wake {addr : Addr} {e : BufferEntry κ} {clk : Clk}
      (he : s.entry (translateToBlockAddr addr) = some e) (hQ : Q.outside) :
      Move C Q s
        ((s.setEntry (translateToBlockAddr addr)
          { e with waitingActionClkUpdate := false, nextActionClk := clk }).emit
            (.woken (translateToBlockAddr addr) e.state e.waitingActionClkUpdate))
  /-- The level below changes by itself. -/
  | below {next : List σ} (hQ : Q.outside) : Move C Q s { s with next := next }
  /-- `drain` has an entry written back. -/
  | flush {key : Addr} {e : BufferEntry κ} (he : s.entry key = some e) (hdirty : e.dirty)
      (hend : e.state = .end_) :
      Move C Q s
        (s.setEntry key { e with pendingRequest.type := .flushBack, state := .init })
  /-- `drain` is called. -/
  | draining : Move C Q s { s with ctrl.isDraining := true }

/-- A sequence of moves. -/
abbrev Moves (C : Component Callback σ) (Q : Env κ) : Sys κ σ → Sys κ σ → Prop :=
  Relation.ReflTransGen (Move C Q)

/-- No condition. -/
abbrev Env.any : Env κ := {}

/-! ## Entries after the moves' updates -/

section Entry

variable {s : Sys κ σ} {key k : Addr} {e : BufferEntry κ} {name : EventName}
  {how : Served} {front : BaseRequest κ} {rest taken left : List (BaseRequest κ)}

theorem entry_setEntry : (s.setEntry key e).entry k = if k = key then some e else s.entry k := by
  by_cases h : k = key
  · subst h
    simp [Sys.entry, Sys.setEntry, InternalBuffer.set]
  · simp [Sys.entry, Sys.setEntry, InternalBuffer.set, h, AList.lookup_insert_ne h]

theorem entry_newEntry : (s.newEntry key e).entry k = if k = key then some e else s.entry k := by
  by_cases h : k = key
  · subst h
    simp [Sys.entry, Sys.newEntry]
  · simp [Sys.entry, Sys.newEntry, h, AList.lookup_insert_ne h]

theorem entry_erase {cnt : Counter EventName} :
    ({ s with ctrl.buffer := s.ctrl.buffer.erase key, ctrl.cntEvents := cnt } : Sys κ σ).entry k =
      if k = translateToBlockAddr key then none else s.entry k := by
  by_cases h : k = translateToBlockAddr key
  · subst h
    simp [Sys.entry, InternalBuffer.erase]
  · simp [Sys.entry, InternalBuffer.erase, h, AList.lookup_erase_ne h]

@[simp] theorem entry_count : (s.count name).entry k = s.entry k := rfl

@[simp] theorem entry_emit {o : Obs κ} : (s.emit o).entry k = s.entry k := rfl

@[simp] theorem entry_takeRead : (s.takeRead how front rest).entry k = s.entry k := rfl

@[simp] theorem entry_takeWrites : (s.takeWrites taken left).entry k = s.entry k := rfl

end Entry

/-! ## The functions of the controller make only these moves -/

section Functions

variable {Q : Env κ} {s t : Sys κ σ} {o : VisitOrder} {clk : Clk}

theorem issueRequest_moves {req : BaseRequest κ} {resp : BaseResponse} (hQ : Q.accept req)
    (h : issueRequest req s = .ok (resp, t)) : Moves C Q s t := by
  simp only [issueRequest, bind_eq_ok, Prod.exists, pure_eq_ok, Prod.mk.injEq] at h
  obtain ⟨success, lsq, henq, rfl, rfl⟩ := h
  obtain ⟨-, ⟨rfl, -, rfl⟩ | ⟨rfl, hlt, rfl⟩⟩ := RequestQueue.enqueue_eq_ok.mp henq
  · exact .refl
  · exact .single (.accept hlt hQ)

theorem tickRoq_moves : Moves C Q s (tickRoq clk s) := by
  unfold tickRoq
  split
  · exact .refl
  · rename_i front rest hq
    split
    · rename_i hdue
      exact .single (.run hq hdue)
    · exact .refl

/-- The scan finds no entry, or one in state `end`. -/
theorem oldest_spec (o : VisitOrder) (s : Sys κ σ) :
    (oldest o s).1 = addrInvalid ∨ ∃ e, s.entry (oldest o s).1 = some e ∧ e.state = .end_ := by
  unfold oldest
  refine foldl_keeps (P := fun p : Addr × Clk =>
    p.1 = addrInvalid ∨ ∃ e, s.entry p.1 = some e ∧ e.state = .end_) ?_ (.inl rfl)
  rintro ⟨a, c⟩ key hp
  dsimp only
  split
  · exact hp
  · rename_i e he
    split
    · rename_i hend
      exact .inr ⟨e, he, hend.1⟩
    · exact hp

/-- **What `check_and_evict` does**: where it says there is room, either
there was, or one entry in state `end` went. -/
theorem checkAndEvict_cases {room : Bool} (h : checkAndEvict o s = (room, t)) :
    (t = s ∧ (room = true → s.ctrl.buffer.full = false)) ∨
      ∃ key e, s.entry key = some e ∧ e.state = .end_ ∧ s.ctrl.buffer.full = true ∧
        t = { s with
          ctrl.buffer := s.ctrl.buffer.erase key
          ctrl.cntEvents := s.ctrl.cntEvents.incr .eviction } := by
  unfold checkAndEvict at h
  split at h
  · rename_i hfull
    obtain ⟨rfl, rfl⟩ := Prod.mk.inj h
    exact .inl ⟨rfl, fun _ => by simpa using hfull⟩
  · rename_i hfull
    split at h
    · obtain ⟨rfl, rfl⟩ := Prod.mk.inj h
      exact .inl ⟨rfl, nofun⟩
    · rcases oldest_spec o s with hinv | ⟨e, he, hend⟩
      · simp only [hinv, if_true] at h
        obtain ⟨rfl, rfl⟩ := Prod.mk.inj h
        exact .inl ⟨rfl, nofun⟩
      · dsimp only at h
        split at h
        · obtain ⟨rfl, rfl⟩ := Prod.mk.inj h
          exact .inl ⟨rfl, nofun⟩
        · obtain ⟨rfl, rfl⟩ := Prod.mk.inj h
          exact .inr ⟨_, e, he, hend, by simpa using hfull, rfl⟩

theorem checkAndEvict_moves {room : Bool} (h : checkAndEvict o s = (room, t)) : Moves C Q s t := by
  obtain ⟨rfl, -⟩ | ⟨key, e, he, hend, hfull, rfl⟩ := checkAndEvict_cases h
  · exact .refl
  · exact .single (.evict he hend hfull)

/-- Eviction leaves the load/store queue alone. -/
theorem checkAndEvict_lsq {room : Bool} (h : checkAndEvict o s = (room, t)) :
    t.ctrl.lsq = s.ctrl.lsq := by
  obtain ⟨rfl, -⟩ | ⟨key, e, -, -, -, rfl⟩ := checkAndEvict_cases h <;> rfl

theorem assignCallback_eq_ok {e e' : BufferEntry κ} {req : BaseRequest κ}
    (h : e.assignCallback (blockOffsetCl req.addr) req.callback = .ok e') : e' = e.waitFor req := by
  unfold BufferEntry.assignCallback at h
  dsimp only at h
  split at h
  · exact absurd h throw_ne_ok
  · exact (pure_eq_ok.mp h).symm

theorem resetCallback_eq_ok {e e' : BufferEntry κ} (h : e.resetCallback = .ok e') :
    e.pendingRequestClIndex = [] ∧ e' = e.cleared := by
  unfold BufferEntry.resetCallback at h
  split at h
  · exact absurd h throw_ne_ok
  · rename_i hidx
    exact ⟨by simpa using hidx, (pure_eq_ok.mp h).symm⟩

theorem serveRead_eq_ok {how : Served} {front : BaseRequest κ} {rest : List (BaseRequest κ)}
    {e : BufferEntry κ} (h : serveRead how front rest e s = .ok t) :
    (how ≠ .readPatch → e.pendingRequestClIndex = []) ∧
      t = (s.setEntry (translateToBlockAddr front.addr)
        ((if how ≠ .readPatch then e.cleared else e).waitFor front)).takeRead how front rest := by
  by_cases hhow : how = .readPatch
  · simp only [serveRead, hhow, ne_eq, not_true_eq_false, if_false, bind_eq_ok, pure_eq_ok] at h
    obtain ⟨e₁, rfl, e₂, he₂, rfl⟩ := h
    obtain rfl := assignCallback_eq_ok he₂
    simp [hhow]
  · simp only [serveRead, hhow, ne_eq, not_false_eq_true, if_true, bind_eq_ok, pure_eq_ok] at h
    obtain ⟨e₁, he₁, e₂, he₂, rfl⟩ := h
    obtain ⟨hidx, rfl⟩ := resetCallback_eq_ok he₁
    obtain rfl := assignCallback_eq_ok he₂
    simp [hhow, hidx]

/-- The read at the front may join the entry of its block, should that
be a pending read. -/
def PatchOk (Q : Env κ) (s : Sys κ σ) : Prop :=
  ∀ front ∈ s.ctrl.lsq.queue.head?, front.type = .read →
    ∀ e ∈ s.entry (translateToBlockAddr front.addr), e.pending → isRead e.pendingRequest.type →
      Q.join e (blockOffsetCl front.addr)

instance [∀ e cl, Decidable (Q.join e cl)] : Decidable (PatchOk Q s) :=
  inferInstanceAs (Decidable (∀ front ∈ s.ctrl.lsq.queue.head?, _))

/-- No request in progress is advanced: at most it begins anew. -/
def Still (s t : Sys κ σ) : Prop :=
  ∀ k e e', s.entry k = some e → t.entry k = some e' → e'.state = e.state ∨ e'.state = .init

/-- The entries are as they were, or gone. -/
theorem Still.of_entry (h : ∀ k, (s.entry k).isSome → t.entry k = s.entry k ∨ t.entry k = none) :
    Still s t := by
  intro k e e' he he'
  rcases h k (by simp [he]) with h | h
  · rw [he', he] at h
    exact .inl (by rw [Option.some.inj h])
  · simp [he'] at h

theorem Still.refl : Still s s := .of_entry fun _ _ => .inl rfl

/-- What eviction leaves of the entries. -/
theorem checkAndEvict_stay {room : Bool} (h : checkAndEvict o s = (room, t)) (k : Addr) :
    t.entry k = s.entry k ∨ t.entry k = none := by
  obtain ⟨rfl, -⟩ | ⟨key, e, he, hend, hfull, rfl⟩ := checkAndEvict_cases h
  · exact .inl rfl
  · rw [entry_erase]
    split
    · exact .inr rfl
    · exact .inl rfl

/-- **What serving the front of the load/store queue does**: an entry
may be evicted, which does not come back, and a request or the writes of
a block may be taken. -/
structure LsqStep (C : Component Callback σ) (Q : Env κ) (s t : Sys κ σ) : Prop where
  moves : ∃ u, (u = s ∨ Move C Q s u) ∧ (t = u ∨ Move C Q u t) ∧ Still s u ∧ Still u t ∧
    u.log = s.log ∧ ∀ k, (s.entry k).isSome → u.entry k = none → t.entry k = none

namespace LsqStep

/-- Nothing is evicted. -/
theorem of_move (h : t = s ∨ Move C Q s t) (hstill : Still s t) : LsqStep C Q s t :=
  ⟨s, .inl rfl, h, .refl, hstill, rfl, fun k hsome hnone => by simp [hnone] at hsome⟩

theorem refl : LsqStep C Q s s := of_move (.inl rfl) .refl

/-- A request joins the entry of its block, or is given it. -/
theorem taken {key : Addr} {e₀ e₁ : BufferEntry κ} (h : Move C Q s t)
    (he₀ : s.entry key = some e₀) (hentry : ∀ k, t.entry k = if k = key then some e₁ else s.entry k)
    (hstate : e₁.state = e₀.state ∨ e₁.state = .init) : LsqStep C Q s t := by
  refine of_move (.inr h) fun k e e' he he' => ?_
  rw [hentry] at he'
  by_cases hk : k = key
  · subst hk
    rw [if_pos rfl] at he'
    rw [he₀] at he
    cases he
    cases he'
    exact hstate
  · rw [if_neg hk, he] at he'
    exact .inl (by rw [Option.some.inj he'])

/-- Nothing is taken. -/
theorem evicted {room : Bool} (h : checkAndEvict o s = (room, t)) : LsqStep C Q s t := by
  have hstill : Still s t := .of_entry fun k _ => checkAndEvict_stay h k
  obtain ⟨rfl, -⟩ | ⟨key, e, he, hend, hfull, rfl⟩ := checkAndEvict_cases h
  · exact .refl
  · exact ⟨_, .inr (.evict he hend hfull), .inl rfl, hstill, .refl, rfl, fun _ _ hnone => hnone⟩

/-- An entry is inserted where there was none, after one may have been
evicted. -/
theorem inserted {u : Sys κ σ} {room : Bool} {key : Addr} (h : checkAndEvict o s = (room, u))
    (hnone : s.entry key = none) (hmove : Move C Q u t)
    (hentry : ∀ k, k ≠ key → t.entry k = u.entry k) : LsqStep C Q s t := by
  have hstill : Still s u := .of_entry fun k _ => checkAndEvict_stay h k
  have hother : ∀ {k}, (s.entry k).isSome → t.entry k = u.entry k := by
    intro k hsome
    exact hentry k (by rintro rfl; simp [hnone] at hsome)
  have hnew : Still u t := by
    refine .of_entry fun k hk => .inl (hentry k ?_)
    rintro rfl
    rcases checkAndEvict_stay h k with hu | hu <;> simp [hu, hnone] at hk
  have hgone : ∀ k, (s.entry k).isSome → u.entry k = none → t.entry k = none :=
    fun k hsome hk => by rw [hother hsome, hk]
  obtain ⟨rfl, -⟩ | ⟨key', e, he, hend, hfull, rfl⟩ := checkAndEvict_cases h
  · exact of_move (.inr hmove) hnew
  · exact ⟨_, .inr (.evict he hend hfull), .inr hmove, hstill, hnew, rfl, hgone⟩

theorem toMoves (h : LsqStep C Q s t) : Moves C Q s t := by
  obtain ⟨u, hu, ht, -⟩ := h.moves
  have hfirst : Moves C Q s u := by
    rcases hu with rfl | hu
    · exact .refl
    · exact .single hu
  rcases ht with rfl | ht
  · exact hfirst
  · exact hfirst.tail ht

end LsqStep

theorem tickLsqRead_step {front : BaseRequest κ} {rest : List (BaseRequest κ)}
    (hq : s.ctrl.lsq.queue = front :: rest) (ht : front.type = .read) (hQ : PatchOk Q s)
    (h : tickLsqRead o clk front rest s = .ok t) : LsqStep C Q s t := by
  unfold tickLsqRead at h
  dsimp only at h
  split at h
  · -- no entry: evict if need be, and insert one
    rename_i hnone
    split at h
    · rename_i s₁ hev
      simp only [bind_eq_ok, Prod.exists] at h
      obtain ⟨e, buffer, hins, hserve⟩ := h
      obtain ⟨hnone₁, hroom, rfl, rfl⟩ := InternalBuffer.insert_eq_ok hins
      obtain ⟨-, rfl⟩ := serveRead_eq_ok hserve
      have hq₁ : s₁.ctrl.lsq.queue = front :: rest := by rw [checkAndEvict_lsq hev, hq]
      have hmove := @Move.readCold _ _ C Q s₁ front rest clk
        (BitVec.ofNat blockSizeCl 1 <<< (blockOffsetCl front.addr).val) hq₁ ht hnone₁ hroom
      have hsame : ∀ {k}, k ≠ translateToBlockAddr front.addr → (Sys.newEntry s₁
          (translateToBlockAddr front.addr) ((BufferEntry.new clk .readCold front.addr
            (BitVec.ofNat blockSizeCl 1 <<< (blockOffsetCl front.addr).val)
            s₁.ctrl.buffer.nextAvailableIndex).waitFor front)).entry k = s₁.entry k :=
        fun hk => by rw [entry_newEntry, if_neg hk]
      refine .inserted hev hnone (by
        simpa [Sys.newEntry, Sys.setEntry, InternalBuffer.set, AList.insert_insert,
          BufferEntry.cleared, BufferEntry.new] using hmove) fun k hk => ?_
      rw [← hsame hk, entry_takeRead, entry_setEntry, if_neg hk, hsame hk]
      exact (entry_newEntry (s := s₁)).trans (if_neg hk)
    · rename_i s₁ hev
      obtain rfl := pure_eq_ok.mp h
      exact .evicted hev
  · rename_i e he
    split at h
    · -- it joins the read the entry is pending with, if there is room for a line
      rename_i hpend
      split at h
      · exact absurd h throw_ne_ok
      · rename_i hne
        split at h
        · rename_i hlen
          obtain ⟨-, rfl⟩ := serveRead_eq_ok h
          have hmove := @Move.readPatch _ _ C _ _ _ _ _ hq ht he hpend.1 hpend.2 hne hlen.1
            (hQ front (by simp [hq]) ht e he hpend.1 hpend.2)
          exact .taken (by simpa using hmove) he
            (fun k => by rw [entry_takeRead, entry_setEntry, entry_count]) (.inl (by
              simp [BufferEntry.waitFor]))
        · obtain rfl := pure_eq_ok.mp h
          exact .refl
    · rename_i hnot
      split at h
      · -- the block is there: it is served fast forward
        rename_i hvalid
        obtain ⟨hidx, rfl⟩ := serveRead_eq_ok h
        have hmove := @Move.readFf _ _ C Q _ _ _ _ clk
          (BitVec.ofNat blockSizeCl 1 <<< (blockOffsetCl front.addr).val) hq ht he hnot hvalid
          (hidx (by simp))
        exact .taken (by simpa using hmove) he
          (fun k => by rw [entry_takeRead, entry_setEntry]) (.inr (by
            simp [BufferEntry.waitFor, BufferEntry.cleared, BufferEntry.assignNewRequest]))
      · obtain rfl := pure_eq_ok.mp h
        exact .refl

theorem tickLsqWrite_step {front : BaseRequest κ} {rest : List (BaseRequest κ)}
    (hq : s.ctrl.lsq.queue = front :: rest) (ht : front.type = .write)
    (h : tickLsqWrite o clk front s = .ok t) : LsqStep C Q s t := by
  unfold tickLsqWrite at h
  obtain ⟨hit, taken, left, hcomb⟩ : ∃ hit taken left,
      combine (translateToBlockAddr front.addr) s.ctrl.lsq.queue = (hit, taken, left) :=
    ⟨_, _, _, rfl⟩
  simp only [hcomb] at h
  split at h
  · rename_i hnone
    rw [InternalBuffer.find, translateToBlockAddr_idem] at hnone
    split at h
    · rename_i s₁ hev
      obtain rfl := pure_eq_ok.mp h
      exact .evicted hev
    · rename_i s₁ hev
      simp only [bind_eq_ok, Prod.exists, pure_eq_ok] at h
      obtain ⟨e, buffer, hins, rfl⟩ := h
      obtain ⟨hnone₁, hroom, rfl, rfl⟩ := InternalBuffer.insert_eq_ok hins
      rw [translateToBlockAddr_idem] at hnone₁ ⊢
      have hlsq := checkAndEvict_lsq hev
      exact .inserted hev hnone
        (.writeNew (by rw [hlsq, hq]) ht (by rw [Sys.combined, hlsq, hcomb]) hnone₁ hroom)
        fun k hk => (entry_newEntry (s := s₁)).trans (if_neg hk)
  · rename_i e he
    rw [InternalBuffer.find, translateToBlockAddr_idem] at he
    split at h
    · -- a write can still join the request: the lines join those it has
      rename_i hpatch
      split at h
      · rename_i hall
        obtain rfl := pure_eq_ok.mp h
        exact .taken (.writeComb hq ht hcomb he hpatch hall) he
          (fun k => by rw [entry_takeWrites, entry_count, entry_setEntry]) (.inr rfl)
      · rename_i hall
        obtain rfl := pure_eq_ok.mp h
        exact .taken (.writeJoin hq ht hcomb he hpatch hall) he
          (fun k => by rw [entry_takeWrites, entry_count, entry_setEntry]) (.inl (by rfl))
    · split at h
      · obtain rfl := pure_eq_ok.mp h
        exact .refl
      · rename_i hpend
        obtain rfl := pure_eq_ok.mp h
        exact .taken (.writePatch hq ht hcomb he (by simpa using hpend)) he
          (fun k => by rw [entry_takeWrites, entry_setEntry]) (.inr rfl)

theorem tickLsq_step (hQ : PatchOk Q s) (h : tickLsq o clk s = .ok t) : LsqStep C Q s t := by
  unfold tickLsq at h
  split at h
  · obtain rfl := pure_eq_ok.mp h
    exact .refl
  · rename_i front rest hq
    split at h
    · rename_i ht
      exact tickLsqRead_step hq ht hQ h
    · rename_i ht
      exact tickLsqWrite_step hq ht h

theorem tickLsq_moves (hQ : PatchOk Q s) (h : tickLsq o clk s = .ok t) : Moves C Q s t :=
  (tickLsq_step hQ h).toMoves

/-- An entry acts in `init`, or when it is pending, waits for no callback
and is due. -/
theorem acts_eq_ok {e : BufferEntry κ} (h : e.acts clk = .ok true) :
    e.state = .init ∨ (e.pending ∧ e.waitingActionClkUpdate = false ∧ e.nextActionClk ≤ clk) := by
  unfold BufferEntry.acts at h
  split at h
  · rename_i hinit
    exact .inl hinit
  · split at h
    · simp at h
    · rename_i hpend
      split at h
      · simp at h
      · rename_i hwait
        split at h
        · exact absurd h throw_ne_ok
        · exact .inr ⟨by simpa using hpend, by simpa using hwait, by simpa using h⟩

/-- **What a round of the loop does**: nothing, or one transfer of an
entry that is due. -/
theorem tickEntry_cases {key : Addr} (h : tickEntry C clk s key = .ok t) :
    t = s ∨ ∃ e e' s', s.entry key = some e ∧
      (e.state = .init ∨ (e.pending ∧ e.waitingActionClkUpdate = false ∧ e.nextActionClk ≤ clk)) ∧
      EntryMove C key s e e' s' ∧ t = s'.setEntry key e' := by
  unfold tickEntry at h
  split at h
  · exact .inl (pure_eq_ok.mp h).symm
  · rename_i e he
    simp only [bind_eq_ok] at h
    obtain ⟨acts, hacts, h⟩ := h
    cases acts with
    | false =>
        simp only [Bool.false_eq_true, if_false, pure_eq_ok] at h
        exact .inl h.symm
    | true =>
        simp only [if_true] at h
        split at h
        · exact absurd h throw_ne_ok
        · rename_i func hfunc
          simp only [bind_eq_ok, Prod.exists, pure_eq_ok] at h
          obtain ⟨e', s', hrun, rfl⟩ := h
          exact .inr ⟨e, e', s', he, acts_eq_ok hacts, stateTrans_move hfunc hrun, rfl⟩

theorem tickEntry_moves {key : Addr} (h : tickEntry C clk s key = .ok t) : Moves C Q s t := by
  obtain rfl | ⟨e, e', s', he, hact, hm, rfl⟩ := tickEntry_cases h
  · exact .refl
  · exact .single (.transfer he (hact.imp_right fun h => ⟨h.1, h.2.1⟩) hm)

theorem tickInternalBuffer_moves (h : tickInternalBuffer C o clk s = .ok t) : Moves C Q s t :=
  foldlM_keeps (P := fun u => Moves C Q s u) (fun _ _ _ hu hk => hu.trans (tickEntry_moves hk))
    .refl h

/-- A completion leaves the load/store queue and the buffer alone. -/
theorem tickRoq_frame : (tickRoq clk s).ctrl.lsq = s.ctrl.lsq ∧
    (tickRoq clk s).ctrl.buffer = s.ctrl.buffer := by
  unfold tickRoq
  split
  · exact ⟨rfl, rfl⟩
  · split <;> exact ⟨rfl, rfl⟩

theorem tickRoq_entry {k : Addr} : (tickRoq clk s).entry k = s.entry k := by
  rw [Sys.entry, tickRoq_frame.2]
  rfl

theorem tick_moves (hQ : PatchOk Q s) (h : tick C o clk s = .ok t) : Moves C Q s t := by
  simp only [tick, bind_eq_ok] at h
  obtain ⟨u, hlsq, hbuf⟩ := h
  have hQ' : PatchOk Q (tickRoq clk s) := by
    intro front hq ht e he
    rw [tickRoq_frame.1] at hq
    rw [tickRoq_entry] at he
    exact hQ front hq ht e he
  exact tickRoq_moves.trans ((tickLsq_moves hQ' hlsq).trans (tickInternalBuffer_moves hbuf))

theorem nextLevelReadCallback_moves {addr : Addr} (hQ : Q.outside)
    (h : nextLevelReadCallback addr clk s = .ok t) : Moves C Q s t := by
  unfold nextLevelReadCallback at h
  dsimp only at h
  split at h
  · exact absurd h throw_ne_ok
  · rename_i e he
    obtain rfl := pure_eq_ok.mp h
    exact .single (.wake he hQ)

theorem drainCurrent_moves : Moves C Q s (drainCurrent s) := by
  unfold drainCurrent
  refine foldl_keeps (P := fun u => Moves C Q s u) (fun u key hu => ?_) .refl
  dsimp only
  split
  · exact hu
  · rename_i e he
    split
    · rename_i hd
      exact hu.tail (.flush he hd.1 hd.2)
    · exact hu

/-- What the environment allows of an event. -/
def EventOk (Q : Env κ) (s : Sys κ σ) : Event κ σ → Prop
  | .issueRequest req => Q.accept req
  | .tick _ _ => PatchOk Q s
  | .nextLevelReadCallback _ _ | .nextLevel _ => Q.outside
  | .drainCurrent => True

instance [∀ e cl, Decidable (Q.join e cl)] [DecidablePred Q.accept] [Decidable Q.outside] :
    ∀ ev : Event κ σ, Decidable (EventOk Q s ev)
  | .issueRequest req => inferInstanceAs (Decidable (Q.accept req))
  | .tick _ _ => inferInstanceAs (Decidable (PatchOk Q s))
  | .nextLevelReadCallback _ _ | .nextLevel _ => inferInstanceAs (Decidable Q.outside)
  | .drainCurrent => isTrue trivial

/-- **Every call of the controller is a sequence of moves.** -/
theorem step_moves {ev : Event κ σ} (hQ : EventOk Q s ev) (h : (machine C).step s ev = .ok t) :
    Moves C Q s t := by
  cases ev with
  | issueRequest req =>
      simp only [machine, bind_eq_ok, Prod.exists, pure_eq_ok] at h
      obtain ⟨resp, u, hu, rfl⟩ := h
      exact issueRequest_moves hQ hu
  | tick o clk => exact tick_moves hQ h
  | nextLevelReadCallback addr clk => exact nextLevelReadCallback_moves hQ h
  | drainCurrent =>
      obtain rfl := pure_eq_ok.mp h
      exact drainCurrent_moves
  | nextLevel next =>
      obtain rfl := pure_eq_ok.mp h
      exact .single (.below hQ)

theorem eventOk_any {ev : Event κ σ} : EventOk .any s ev := by
  cases ev <;> simp [EventOk, PatchOk]

/-- **The rule every invariant of the controller is proved by**: what
the moves keep, the runs keep. -/
theorem run_keeps {P : Sys κ σ → Prop} (hmove : ∀ s t, P s → Move C .any s t → P t)
    {es : List (Event κ σ)} (hs : P s) (h : (machine C).run s es = .ok t) : P t :=
  (machine C).invariant
    (fun _ _ _ hu hv => reflTransGen_keeps hmove (step_moves eventOk_any hv) hu) hs h

/-- The same, of the runs whose events the environment allows. -/
theorem run_keeps_of_meets {P : Sys κ σ → Prop} (hmove : ∀ s t, P s → Move C Q s t → P t)
    {es : List (Event κ σ)} (hs : P s) (hQ : (machine C).Meets (EventOk Q) s es)
    (h : (machine C).run s es = .ok t) : P t :=
  (machine C).invariant_of_meets
    (fun _ _ _ hu hok hv => reflTransGen_keeps hmove (step_moves hok hv) hu) hs hQ h

/-- A tick of the component, with its children and their callbacks, is
a sequence of moves. -/
theorem tickComponent_moves {visit : Visit} (hQ : PatchOk Q s) (hout : Q.outside)
    (h : tickComponent C visit clk s = .ok t) : Moves C Q s t := by
  simp only [tickComponent, bind_eq_ok, Prod.exists] at h
  obtain ⟨u, htick, next, ran, -, hran⟩ := h
  have hbelow : Move C Q u { u with next := next } := .below hout
  refine (tick_moves hQ htick).trans (.head hbelow ?_)
  exact foldlM_keeps (P := fun v => Moves C Q { u with next := next } v)
    (fun _ _ _ hv hw => hv.trans (nextLevelReadCallback_moves hout hw)) .refl hran

/-- The controller is drained, then its children. -/
theorem drain_eq_ok (h : drain C s = .ok t) :
    ∃ next, (drainCurrent { s with ctrl.isDraining := true }).next.mapM C.drain = .ok next ∧
      t = { drainCurrent { s with ctrl.isDraining := true } with next := next } := by
  unfold drain at h
  split at h
  · simp only [bind_eq_ok, throw_ne_ok, false_and, exists_false] at h
  · simp only [bind_eq_ok, pure_eq_ok] at h
    obtain ⟨next, hnext, rfl⟩ := h
    exact ⟨next, hnext, rfl⟩

theorem drain_moves (hQ : Q.outside) (h : drain C s = .ok t) : Moves C Q s t := by
  obtain ⟨next, -, rfl⟩ := drain_eq_ok h
  exact (Relation.ReflTransGen.single .draining).trans
    ((drainCurrent_moves).tail (.below hQ))

end Functions

end Rmw

end Vans
