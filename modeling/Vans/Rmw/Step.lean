import Vans.Rmw.Model
/-!
# The RMW controller — state transfers and the tick

The state transfer table, the three parts of a tick, and the machine
whose events are the calls the controller receives: a request, a clock
tick, a callback run by the level below, and `drain`. The level below
may change in any way between two calls.

The transfers that differ only in the counter they bump, the state they
go to or the latency they add are one definition; the table gives each
its own values.
-/

namespace Vans

namespace Rmw

variable {κ σ : Type}

/-- What a transfer does with the entry it is given and the rest. -/
abbrev StateTrans (κ σ : Type) :=
  Addr → BufferEntry κ → Clk → Sys κ σ → Result (BufferEntry κ × Sys κ σ)

/-! ## The state transfer table -/

namespace Trans

/-- `(write_rmw, init)` and `(read_cold, init)`: the block is read from
the next level. -/
def fetch (C : Component Callback σ) (event : EventName) (dirty : Bool) : StateTrans κ σ :=
  fun blockAddr e currClk s => do
    let (resp, s) ← issueReadNextLevel C blockAddr e currClk s
    if !resp.issued then
      return (e, s.count .nextLevelIssueFail)
    return (
      { e with
        state := .pendingAitR
        pending := true
        dirty := dirty
        validToRead := false
        lastUsedClk := currClk
        waitingActionClkUpdate := !resp.deterministic
        nextActionClk := resp.actionClk },
      s.count event)

/-- The transfers out of `pending_ait_r` and `pending_ait_w`: the entry
moves on after a fixed latency. -/
def advance (duration : DurationName) (state : RequestState) (latency : Timing → Clk) :
    StateTrans κ σ :=
  fun _ e currClk s =>
    return (
      { e with
        state := state
        lastUsedClk := currClk
        nextActionClk := currClk + latency s.ctrl.timing },
      s.updateDurationCnt duration e currClk)

/-- `(write_rmw, pending_read)` -/
def writeRmwPendingRead : StateTrans κ σ :=
  fun _ e currClk s => do
    let resp ← issueWriteLocalMemory e currClk s
    if !resp.issued then
      return (e, s.count .localMemoryIssueFail)
    return (
      { e with
        state := .pendingAitW
        lastUsedClk := currClk
        waitingActionClkUpdate := !resp.deterministic
        nextActionClk := resp.actionClk },
      s.updateDurationCnt .wRmwPr e currClk)

/-- `(write_comb, init)` and `(write_patch, init)`: nothing is read from
the next level. -/
def beginWrite (event : EventName) : StateTrans κ σ :=
  fun _ e currClk s => do
    let resp ← issueWriteLocalMemory e currClk s
    if !resp.issued then
      return (e, s.count .localMemoryIssueFail)
    return (
      { e with
        state := .pendingAitW
        pending := true
        dirty := true
        validToRead := false
        lastUsedClk := currClk
        waitingActionClkUpdate := !resp.deterministic
        nextActionClk := resp.actionClk },
      s.count event)

/-- The transfers out of `pending_modify`: the block is written to the
next level. -/
def modify (C : Component Callback σ) (duration : DurationName) : StateTrans κ σ :=
  fun blockAddr e currClk s => do
    let (resp, s) ← issueWriteNextLevel C blockAddr e currClk s
    if !resp.issued then
      return (e, s.count .nextLevelIssueFail)
    return (
      { e with
        state := .pendingWrite
        lastUsedClk := currClk
        pending := true
        validToRead := true
        waitingActionClkUpdate := false
        nextActionClk := currClk + 1 },
      s.updateDurationCnt duration e currClk)

/-- The transfers of the three writes out of `pending_write`. -/
def finishWrite (duration : DurationName) : StateTrans κ σ :=
  fun _ e currClk s =>
    return (
      { e with
        pending := false
        dirty := false
        state := .end_
        lastUsedClk := currClk },
      s.updateDurationCnt duration e currClk)

/-- `(flush_back, init)` -/
def flushBackInit (C : Component Callback σ) : StateTrans κ σ :=
  fun blockAddr e currClk s => do
    let (resp, s) ← issueWriteNextLevel C blockAddr e currClk s
    if !resp.issued then
      return (e, s.count .nextLevelIssueFail)
    return (
      { e with
        state := .pendingAitW
        lastUsedClk := currClk
        pending := true
        dirty := true
        waitingActionClkUpdate := false
        nextActionClk := currClk + 1 },
      s.count .flushBack)

/-- `(flush_back, pending_write)` -/
def flushBackPendingWrite : StateTrans κ σ :=
  fun _ e currClk s =>
    let s := s.updateDurationCnt .wFlushPw e currClk
    return (
      { e with
        state := .end_
        pending := false
        dirty := false
        waitingActionClkUpdate := false
        lastUsedClk := currClk },
      ({ s with ctrl.evicting := false }).count .eviction)

/-- `(read_cold, pending_read)` -/
def readColdPendingRead : StateTrans κ σ :=
  fun _ e currClk s => do
    let resp ← issueReadLocalMemory e currClk s
    if !resp.issued then
      return (e, s.count .localMemoryIssueFail)
    return (
      { e with
        state := .pendingReadout
        validToRead := true
        lastUsedClk := currClk
        waitingActionClkUpdate := !resp.deterministic
        nextActionClk := resp.actionClk },
      s.updateDurationCnt .rColdPr e currClk)

/-- `(read_ff, init)` -/
def readFfInit : StateTrans κ σ :=
  fun _ e currClk s => do
    let resp ← issueReadLocalMemory e currClk s
    if !resp.issued then
      return (e, s.count .localMemoryIssueFail)
    return (
      { e with
        state := .pendingReadout
        pending := true
        dirty := false
        validToRead := true
        lastUsedClk := currClk
        waitingActionClkUpdate := !resp.deterministic
        nextActionClk := resp.actionClk },
      s.count .readFastForward)

/-- The transfers out of `pending_readout`: one waiting read is moved to
the read-out queue, and the entry goes back to `again` if more wait. -/
def readout (duration : DurationName) (again : RequestState) : StateTrans κ σ :=
  fun _ e currClk s => do
    if ← s.ctrl.roq.full then
      return (e, s.count .roqFull)
    let (e, s) ← issueRoq e s
    let s := s.updateDurationCnt duration e currClk
    let e := { e with lastUsedClk := currClk }
    if e.pendingRequestClIndex ≠ [] then
      return ({ e with state := again }, s)
    else
      return ({ e with state := .end_, pending := false }, s)

end Trans

/-- The transfer table; a pair without an entry is a null function. -/
def stateTrans (C : Component Callback σ) : RequestType → RequestState → Option (StateTrans κ σ)
  | .writeRmw, .init => some (Trans.fetch C .writeRmw true)
  | .writeRmw, .pendingAitR => some (Trans.advance .wRmwPar .pendingRead Timing.aitToRmwLatency)
  | .writeRmw, .pendingRead => some Trans.writeRmwPendingRead
  | .writeRmw, .pendingAitW => some (Trans.advance .wRmwPaw .pendingModify Timing.rmwToAitLatency)
  | .writeRmw, .pendingModify => some (Trans.modify C .wRmwPm)
  | .writeRmw, .pendingWrite => some (Trans.finishWrite .wRmwPw)
  | .writeComb, .init => some (Trans.beginWrite .writeComb)
  | .writeComb, .pendingAitW => some (Trans.advance .wCombPaw .pendingModify Timing.rmwToAitLatency)
  | .writeComb, .pendingModify => some (Trans.modify C .wCombPm)
  | .writeComb, .pendingWrite => some (Trans.finishWrite .wCombPw)
  | .writePatch, .init => some (Trans.beginWrite .writePatch)
  | .writePatch, .pendingAitW =>
      some (Trans.advance .wPatchPaw .pendingModify Timing.rmwToAitLatency)
  | .writePatch, .pendingModify => some (Trans.modify C .wPatchPm)
  | .writePatch, .pendingWrite => some (Trans.finishWrite .wPatchPw)
  | .flushBack, .init => some (Trans.flushBackInit C)
  | .flushBack, .pendingAitW =>
      some (Trans.advance .wFlushPaw .pendingWrite Timing.rmwToAitLatency)
  | .flushBack, .pendingWrite => some Trans.flushBackPendingWrite
  | .readCold, .init => some (Trans.fetch C .readCold false)
  | .readCold, .pendingAitR => some (Trans.advance .rColdPar .pendingRead Timing.aitToRmwLatency)
  | .readCold, .pendingRead => some Trans.readColdPendingRead
  | .readCold, .pendingReadout => some (Trans.readout .rColdPro .pendingRead)
  | .readFf, .init => some Trans.readFfInit
  | .readFf, .pendingReadout => some (Trans.readout .rFfPro .init)
  | _, _ => none

/-! ## The tick -/

def tickRoq (currClk : Clk) (s : Sys κ σ) : Sys κ σ :=
  match s.ctrl.roq.queue with
  | [] => s
  | frontReq :: rest =>
    if frontReq.depart ≤ currClk then
      { s with
        ctrl.roq.queue := rest
        log := s.log ++
          (invoke frontReq.callback (frontReq.addr + s.ctrl.startAddr) currClk).map Obs.ran }
    else s

/-- The read at the front leaves the load/store queue, and is counted. -/
def Sys.takeRead (s : Sys κ σ) (how : Served) (front : BaseRequest κ)
    (rest : List (BaseRequest κ)) : Sys κ σ :=
  { s with
    ctrl.lsq.queue := rest
    ctrl.cntEvents := s.ctrl.cntEvents.incr .readAccess
    log := s.log ++ [.taken how front] }

/-- The end of `tick_lsq_read`: the read at the front leaves the queue,
its callback waiting in the entry. -/
def serveRead (how : Served) (frontReq : BaseRequest κ) (rest : List (BaseRequest κ))
    (e : BufferEntry κ) (s : Sys κ σ) : Result (Sys κ σ) := do
  let e ← if how ≠ .readPatch then e.resetCallback else pure e
  let e ← e.assignCallback (blockOffsetCl frontReq.addr) frontReq.callback
  return (s.setEntry (translateToBlockAddr frontReq.addr) e).takeRead how frontReq rest

def isRead : RequestType → Bool
  | .readCold | .readFf => true
  | _ => false

/-- `tick_lsq_read`, given the queue's front and the rest of it. -/
def tickLsqRead (o : VisitOrder) (currClk : Clk) (frontReq : BaseRequest κ)
    (rest : List (BaseRequest κ)) (s : Sys κ σ) : Result (Sys κ σ) :=
  let addr := frontReq.addr
  let clIndex := blockOffsetCl addr
  let clBitmap := BitVec.ofNat blockSizeCl 1 <<< clIndex.val
  match s.ctrl.buffer.find addr with
  | none =>
    match checkAndEvict o s with
    | (true, s) => do
        let (e, buffer) ← s.ctrl.buffer.insert addr
          (BufferEntry.new currClk .readCold addr clBitmap)
        serveRead .readCold frontReq rest e { s with ctrl.buffer := buffer }
    | (false, s) => pure s
  | some e =>
    if e.pending ∧ isRead e.pendingRequest.type then
      if e.pendingRequestClIndex = [] then
        throw ("Internal error, "
          ++ "the read request to patch does not have any pending read request, maybe a code bug.")
      else if e.pendingRequestClIndex.length < blockSizeCl ∧ !e.cbBitmap.getLsb clIndex then
        serveRead .readPatch frontReq rest e (s.count .readPatch)
      else pure s
    else if e.validToRead then
      serveRead .readFf frontReq rest (e.assignNewRequest currClk .readFf addr clBitmap) s
    else pure s

/-- The combining loop: the writes to the block, up to the first read of
it, leave the queue. Gives the lines hit, the requests taken and the
queue left. -/
def combine (currBlockAddr : Addr) :
    List (BaseRequest κ) → BitVec blockSizeCl × List (BaseRequest κ) × List (BaseRequest κ)
  | [] => (0, [], [])
  | req :: reqs =>
    if currBlockAddr ≠ translateToBlockAddr req.addr then
      let (clHit, taken, left) := combine currBlockAddr reqs
      (clHit, taken, req :: left)
    else
      match req.type with
      | .read => (0, [], req :: reqs)
      | .write =>
        let (clHit, taken, left) := combine currBlockAddr reqs
        (clHit ||| (BitVec.ofNat blockSizeCl 1 <<< (blockOffsetCl req.addr).val), req :: taken, left)

/-- The writes combined leave the load/store queue. They count as one. -/
def Sys.takeWrites (s : Sys κ σ) (taken left : List (BaseRequest κ)) : Sys κ σ :=
  { s with
    ctrl.lsq.queue := left
    ctrl.cntEvents := s.ctrl.cntEvents.incr .writeAccess
    log := s.log ++ taken.map (Obs.taken .write) }

/-- Whether a write can still join the request the entry is running. -/
def BufferEntry.patchRmw (e : BufferEntry κ) : Bool :=
  e.pendingRequest.type = .writeRmw ∧ (e.state = .pendingRead ∨ e.state = .pendingModify)

/-- `tick_lsq_write`, given the queue's front. -/
def tickLsqWrite (o : VisitOrder) (currClk : Clk) (frontReq : BaseRequest κ) (s : Sys κ σ) :
    Result (Sys κ σ) :=
  let currLogicAddr := frontReq.addr
  let currBlockAddr := translateToBlockAddr currLogicAddr
  let (clHit, taken, left) := combine currBlockAddr s.ctrl.lsq.queue
  match s.ctrl.buffer.find currBlockAddr with
  | none =>
    match checkAndEvict o s with
    | (false, s) => pure s
    | (true, s) => do
        let type := if clHit = blockHitClBitmask then .writeComb else .writeRmw
        let (_, buffer) ← s.ctrl.buffer.insert currBlockAddr
          (BufferEntry.new currClk type currLogicAddr clHit)
        return ({ s with ctrl.buffer := buffer }).takeWrites taken left
  | some e =>
    if e.patchRmw then
      let clHit := clHit ||| e.clBitmap
      if clHit = blockHitClBitmask then
        pure (((s.setEntry currBlockAddr
          (e.assignNewRequest currClk .writeComb currLogicAddr clHit)).count
            .patchRmwComb).takeWrites taken left)
      else
        pure (((s.setEntry currBlockAddr { e with clBitmap := clHit }).count
          .patchRmw).takeWrites taken left)
    else if e.pending then pure s
    else
      pure ((s.setEntry currBlockAddr
        (e.assignNewRequest currClk .writePatch currLogicAddr clHit)).takeWrites taken left)

def tickLsq (o : VisitOrder) (currClk : Clk) (s : Sys κ σ) : Result (Sys κ σ) :=
  match s.ctrl.lsq.queue with
  | [] => pure s
  | frontReq :: rest =>
    match frontReq.type with
    | .read => tickLsqRead o currClk frontReq rest s
    | .write => tickLsqWrite o currClk frontReq s

/-- Whether the loop of `tick_internal_buffer` acts on an entry now. -/
def BufferEntry.acts (e : BufferEntry κ) (currClk : Clk) : Result Bool :=
  if e.state = .init then pure true
  else if !e.pending then pure false
  else if e.waitingActionClkUpdate then pure false
  else if e.nextActionClk = clkInvalid then
    throw ("Internal error, the next_action_clk is invalid (" ++ toString e.nextActionClk ++ ")")
  else pure (e.nextActionClk ≤ currClk)

/-- One round of the loop of `tick_internal_buffer`. -/
def tickEntry (C : Component Callback σ) (currClk : Clk) (s : Sys κ σ) (key : Addr) :
    Result (Sys κ σ) :=
  match s.entry key with
  | none => pure s
  | some e => do
      if ← e.acts currClk then
        match stateTrans C e.pendingRequest.type e.state with
        | none => throw "Internal error, unknown state transfer."
        | some func => do
            let (e, s) ← func key e currClk s
            return s.setEntry key e
      else
        return s

def tickInternalBuffer (C : Component Callback σ) (o : VisitOrder) (currClk : Clk) (s : Sys κ σ) :
    Result (Sys κ σ) :=
  (o.visit s.ctrl.buffer.entryMap.keys).foldlM (tickEntry C currClk) s

def tick (C : Component Callback σ) (o : VisitOrder) (currClk : Clk) (s : Sys κ σ) :
    Result (Sys κ σ) := do
  let s ← tickLsq o currClk (tickRoq currClk s)
  tickInternalBuffer C o currClk s

/-! ## What the controller offers its parent and its children -/

/-- The callback of the reads issued below. -/
def nextLevelReadCallback (addr : Addr) (currClk : Clk) (s : Sys κ σ) : Result (Sys κ σ) :=
  let rmwAddr := translateToBlockAddr addr
  match s.entry rmwAddr with
  | none => throw "out_of_range: entry_map.at"
  | some e =>
    pure ((s.setEntry rmwAddr
      { e with waitingActionClkUpdate := false, nextActionClk := currClk + 1 }).emit
        (.woken rmwAddr e.state e.waitingActionClkUpdate))

def pendingCurrent (s : Sys κ σ) : Bool :=
  s.ctrl.lsq.pending || s.ctrl.roq.pending || s.ctrl.buffer.any (·.pending)

def drain (C : Component Callback σ) (s : Sys κ σ) : Result (Sys κ σ) := do
  if s.ctrl.isDraining then
    throw "Internal error, should not call drain() twice."
  let s := drainCurrent { s with ctrl.isDraining := true }
  let next ← s.next.mapM C.drain
  return { s with next := next }

/-- A tick of the component: the controller, its local memory of fixed
latency, then the children, whose callbacks wake entries. -/
def tickComponent (C : Component Callback σ) (visit : Visit) (currClk : Clk) (s : Sys κ σ) :
    Result (Sys κ σ) := do
  let s ← tick C (visit []) currClk s
  let (next, ran) ← C.tickNext visit currClk s.next
  ran.foldlM (fun s inv => nextLevelReadCallback inv.addr inv.clk s) { s with next := next }

def ranInvocation : Obs κ → Option (Invocation κ)
  | .ran inv => some inv
  | _ => none

/-- The component over its children, as its parent sees it. -/
def component (C : Component Callback σ) : Component κ (Sys κ σ) where
  issueRequest := fun req s => do
    let (resp, s) ← issueRequest req s
    return (resp, req, s)
  full := fun s => s.ctrl.lsq.full
  pending := fun s => pendingCurrent s || s.next.any C.pending
  drain := drain C
  tick := fun visit currClk s => do
    let s' ← tickComponent C visit currClk s
    return (s', (s'.log.drop s.log.length).filterMap ranInvocation)

/-! ## Runs of the controller -/

/-- The calls the controller receives, and changes of the level below. -/
inductive Event (κ σ : Type) where
  | issueRequest (req : BaseRequest κ)
  | tick (order : VisitOrder) (currClk : Clk)
  | nextLevelReadCallback (addr : Addr) (currClk : Clk)
  | drainCurrent
  | nextLevel (next : List σ)

def machine (C : Component Callback σ) : Machine (Sys κ σ) (Event κ σ) String where
  step := fun s ev =>
    match ev with
    | .issueRequest req => do
        let (_, s) ← issueRequest req s
        return s
    | .tick o currClk => tick C o currClk s
    | .nextLevelReadCallback addr currClk => nextLevelReadCallback addr currClk s
    | .drainCurrent => pure (drainCurrent s)
    | .nextLevel next => pure { s with next := next }

/-! ## A small configuration, to run -/

/-- One buffer entry, and two places in each queue. -/
def smallConfig : Config where
  mappingFunc := noneMapping
  bufferEntries := 1
  lsqEntries := 2
  roqEntries := 2
  timing := ⟨1, 1⟩
  localMemory := ⟨1, 1⟩

/-- A level below that takes every request, and calls back later. -/
def willing : Component Callback Unit where
  issueRequest := fun req s => pure (⟨true, false, clkInvalid⟩, req, s)
  full := fun _ => pure false
  pending := fun _ => false
  drain := pure
  tick := fun _ _ s => pure (s, [])

/-- The state a run of the small configuration comes to. -/
def smallRun (es : List (Event ℕ Unit)) : Result (Sys ℕ Unit) :=
  (machine willing).run (Sys.init smallConfig [()]) es

end Rmw

end Vans
