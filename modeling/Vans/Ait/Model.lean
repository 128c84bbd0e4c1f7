import Vans.Rmw.Model
/-!
# The AIT controller

The indirection layer over the media: a load/store queue, a buffer of
4096-byte entries each running one request for a 256-byte block, and a
queue in front of the local memory, to which each request goes as four
accesses of a cache line. The local memory and the media below are any
components; the callbacks of the local memory mark an access as served.

As for the RMW controller, a state carries the record of what has been
done.
-/

namespace Vans

namespace Ait

/-! ## Block addresses -/

/-- `block_size_byte / rmw::block_size_byte` -/
abbrev blockSizeRmw : ℕ := 16

def translateToBlockAddr (logicAddr : Addr) : Addr := (logicAddr >>> 12) <<< 12

def blockOffset (logicAddr : Addr) : UInt64 := logicAddr &&& 0xfff

def blockOffsetRmw (logicAddr : Addr) : UInt64 := blockOffset logicAddr >>> 8

def blockBitshiftRmw (logicAddr : Addr) : BitVec blockSizeRmw :=
  BitVec.ofNat blockSizeRmw 1 <<< (blockOffsetRmw logicAddr).toNat

/-! ## Requests in progress and buffer entries -/

inductive RequestType where
  | readMiss
  | readHit
  | writeMiss
  | writeHit
  deriving DecidableEq, Repr

inductive RequestState where
  | init
  | pendingReadMedia
  | pendingWriteMedia
  | pendingReadDram
  | pendingWriteDram
  | pendingMigration
  | end_
  deriving DecidableEq, Repr

structure Request where
  type : RequestType
  rmwBlockAddr : Addr
  arrive : Clk
  deriving DecidableEq, Repr

structure BufferEntry (κ : Type) where
  lastUsedClk : Clk
  nextActionClk : Clk := clkInvalid
  bufferIndex : ℕ
  pending : Bool
  waitingActionClkUpdate : Bool
  validToRead : Bool
  dirty : Bool
  rmwBitmap : BitVec blockSizeRmw
  cb : Option κ := none
  pendingRequest : Request
  state : RequestState

namespace BufferEntry

variable {κ : Type}

/-- The constructor. -/
def new (currClk : Clk) (type : RequestType) (logicAddr : Addr) (rmwBlockBitmap : BitVec blockSizeRmw)
    (bufferIndex : ℕ) : BufferEntry κ where
  lastUsedClk := currClk
  bufferIndex := bufferIndex
  pending := true
  waitingActionClkUpdate := true
  validToRead := false
  dirty := false
  rmwBitmap := rmwBlockBitmap
  pendingRequest := ⟨type, logicAddr, currClk⟩
  state := .init

def assignNewRequest (e : BufferEntry κ) (currClk : Clk) (type : RequestType) (logicAddr : Addr)
    (rmwBlockBitmap : BitVec blockSizeRmw) : Result (BufferEntry κ) :=
  if e.pending then throw "Internal error, assigning new request to a pending request."
  else pure { e with
    pending := true
    waitingActionClkUpdate := true
    validToRead := false
    rmwBitmap := rmwBlockBitmap
    state := .init
    pendingRequest := ⟨type, logicAddr, currClk⟩ }

def assignCallback (e : BufferEntry κ) (callback : Option κ) : BufferEntry κ :=
  { e with cb := callback }

end BufferEntry

/-! ## The indirection table -/

structure IndirectionTable where
  /-- The writes counted for each block; none, for a block without an
  entry. -/
  writeCnt : Addr → ℕ := fun _ => 0
  wearLevelingThreshold : ℕ
  migrationBlockEntries : UInt64
  migrationLatency : Clk

namespace IndirectionTable

def recordWrite (t : IndirectionTable) (rmwBlockAddr : Addr) : IndirectionTable :=
  let aitBlockAddr := translateToBlockAddr rmwBlockAddr
  { t with writeCnt := Function.update t.writeCnt aitBlockAddr (t.writeCnt aitBlockAddr + 1) }

/-- The latency of the migration due, or zero. -/
def checkWearLeveling (t : IndirectionTable) (addr : Addr) : Result Clk :=
  if t.wearLevelingThreshold = 0 then
    throw "undefined behaviour: remainder by a wear_leveling_threshold of zero"
  else if (t.writeCnt addr + 1) % t.wearLevelingThreshold = 0 then
    pure (t.migrationBlockEntries * t.migrationLatency)
  else pure 0

end IndirectionTable

/-! ## The controller -/

inductive EventName where
  | readAccess
  | writeAccess
  | eviction
  | migration
  | readMiss
  | readHit
  | writeMiss
  | writeHit
  | lmemReadAccess
  | lmemWriteAccess
  | localMemoryIssueFail
  deriving DecidableEq, Repr

inductive DurationName where
  | wMissPrm | wMissPwd | wMissPm | wMissPwm
  | wHitPwd | wHitPm | wHitPwm
  | rMissPrm | rMissPrd
  | rHitPrd
  deriving DecidableEq, Repr

/-- The callback the controller gives the requests it issues below. -/
inductive Callback where
  | nextLevelReadCallback
  deriving DecidableEq, Repr

/-- The callback it gives the accesses to its local memory. -/
inductive SubreqCallback where
  | subreqServed
  deriving DecidableEq, Repr

structure LmemqState where
  subreqPendingIndex : Int := -1
  subreqServed : Fin 4 → Bool := fun _ => false
  pendingFront : Bool := false

/-- The values read from the configuration. -/
structure Config where
  mappingFunc : ComponentMapping
  bufferEntries : ℕ
  lsqEntries : ℕ
  lmemqEntries : ℕ
  wearLevelingThreshold : ℕ
  migrationBlockEntries : UInt64
  migrationLatency : Clk

structure Controller (κ : Type) where
  mappingFunc : ComponentMapping
  buffer : InternalBuffer translateToBlockAddr (BufferEntry κ)
  table : IndirectionTable
  lsq : RequestQueue (BaseRequest κ)
  lmemq : RequestQueue (BaseRequest κ)
  lmemqState : LmemqState := {}
  evicting : Bool := false
  isDraining : Bool := false
  cntEvents : Counter EventName := .zero
  cntDuration : Counter DurationName := .zero

/-- What the controller is seen to do. -/
inductive Obs (κ : Type) where
  | accepted (req : BaseRequest κ)
  | taken (req : BaseRequest κ)
  | ran (inv : Invocation κ)
  deriving DecidableEq, Repr

/-- The controller, its local memory, the components below it, and the
record of what it has done. -/
structure Sys (κ τ μ : Type) where
  ctrl : Controller κ
  localMemory : τ
  next : List μ
  log : List (Obs κ) := []

section Definitions

variable {κ τ μ : Type}

def Sys.init (cfg : Config) (localMemory : τ) (next : List μ) : Sys κ τ μ where
  ctrl :=
    { mappingFunc := cfg.mappingFunc
      buffer := { maxEntries := cfg.bufferEntries }
      table :=
        { wearLevelingThreshold := cfg.wearLevelingThreshold
          migrationBlockEntries := cfg.migrationBlockEntries
          migrationLatency := cfg.migrationLatency }
      lsq := { maxEntries := cfg.lsqEntries }
      lmemq := { maxEntries := cfg.lmemqEntries } }
  localMemory := localMemory
  next := next

def Sys.count (s : Sys κ τ μ) (name : EventName) : Sys κ τ μ :=
  { s with ctrl.cntEvents := s.ctrl.cntEvents.incr name }

def Sys.updateDurationCnt (s : Sys κ τ μ) (name : DurationName) (e : BufferEntry κ)
    (currClk : Clk) : Sys κ τ μ :=
  { s with ctrl.cntDuration := s.ctrl.cntDuration.add name (currClk - e.lastUsedClk).toNat }

def Sys.setEntry (s : Sys κ τ μ) (key : Addr) (e : BufferEntry κ) : Sys κ τ μ :=
  { s with ctrl.buffer := s.ctrl.buffer.set key e }

def Sys.entry (s : Sys κ τ μ) (key : Addr) : Option (BufferEntry κ) :=
  s.ctrl.buffer.entryMap.lookup key

def issueRequest (request : BaseRequest κ) (s : Sys κ τ μ) : Result (BaseResponse × Sys κ τ μ) := do
  let (issued, lsq) ← s.ctrl.lsq.enqueue request
  return (⟨issued, false, clkInvalid⟩,
    if issued then { s with ctrl.lsq := lsq, log := s.log ++ [.accepted request] } else s)

/-! ### Eviction -/

/-- The least recently used entry in state `end`, as the scan finds it. -/
def oldest (o : VisitOrder) (s : Sys κ τ μ) : Addr × Clk :=
  (o.visit s.ctrl.buffer.entryMap.keys).foldl
    (fun (oldestAddr, oldestClk) key =>
      match s.entry key with
      | none => (oldestAddr, oldestClk)
      | some e =>
        if e.state = .end_ ∧ e.lastUsedClk < oldestClk then (key, e.lastUsedClk)
        else (oldestAddr, oldestClk))
    (addrInvalid, clkInvalid)

def checkAndEvict (o : VisitOrder) (s : Sys κ τ μ) : Bool × Sys κ τ μ :=
  if !s.ctrl.buffer.full then (true, s)
  else if s.ctrl.evicting then (false, s)
  else
    let (oldestAddr, _) := oldest o s
    if oldestAddr = addrInvalid then (false, s)
    else (true, ({ s with ctrl.buffer := s.ctrl.buffer.erase oldestAddr }).count .eviction)

/-! ### Issuing requests -/

/-- Common to the two lambdas that issue to the media; both give the
controller's callback. -/
def issueNextLevel (M : Component Callback μ) (type : BaseRequestType) (blockAddr : Addr)
    (e : BufferEntry κ) (currClk : Clk) (s : Sys κ τ μ) : Result (BaseResponse × Sys κ τ μ) := do
  let blkAddr := translateToBlockAddr e.pendingRequest.rmwBlockAddr
  let (_, componentIndex) := s.ctrl.mappingFunc blockAddr s.next.length
  let (resp, _, next) ← M.issueTo s.next componentIndex
    { type := type, addr := blkAddr, arrive := currClk, callback := some .nextLevelReadCallback }
  return (resp, { s with next := next })

/-- The counter of a refused request is not among the controller's, and
the look-up throws. -/
def issueFail {α : Type} : Result α := throw "out_of_range: map::at"

def issueLmemq (e : BufferEntry κ) (type : BaseRequestType) (currClk : Clk) (s : Sys κ τ μ) :
    Result (BaseResponse × Sys κ τ μ) := do
  let (issued, lmemq) ← s.ctrl.lmemq.enqueue
    { type := type, addr := e.pendingRequest.rmwBlockAddr, arrive := currClk }
  return (⟨issued, false, clkInvalid⟩, { s with ctrl.lmemq := lmemq })

/-- What a transfer does with the entry it is given and the rest. -/
abbrev StateTrans (κ τ μ : Type) :=
  Addr → BufferEntry κ → Clk → Sys κ τ μ → Result (BufferEntry κ × Sys κ τ μ)

/-! ## The state transfer table -/

namespace Trans

/-- `(write_miss, init)` and `(read_miss, init)`: the block is read from
the media. -/
def readMedia (M : Component Callback μ) (event : EventName) (dirty : Bool) : StateTrans κ τ μ :=
  fun blockAddr e currClk s => do
    let (resp, s) ← issueNextLevel M .read blockAddr e currClk s
    if !resp.issued then issueFail
    else return (
      { e with
        state := .pendingReadMedia
        pending := true
        dirty := dirty
        validToRead := false
        lastUsedClk := currClk
        waitingActionClkUpdate := !resp.deterministic
        nextActionClk := resp.actionClk },
      s.count event)

/-- `(write_miss, pending_read_media)` -/
def writeMissPendingReadMedia : StateTrans κ τ μ :=
  fun _ e currClk s => do
    let (resp, s) ← issueLmemq e .write currClk s
    if !resp.issued then
      return (e, s.count .localMemoryIssueFail)
    return (
      { e with
        state := .pendingWriteDram
        lastUsedClk := currClk
        waitingActionClkUpdate := !resp.deterministic
        nextActionClk := resp.actionClk },
      s.updateDurationCnt .wMissPrm e currClk)

/-- The transfers of the two writes out of `pending_write_dram`: wear
leveling may have to move data first. -/
def migrate (duration : DurationName) : StateTrans κ τ μ :=
  fun blockAddr e currClk s => do
    let wearLevelingDelay ← s.ctrl.table.checkWearLeveling blockAddr
    let s := s.updateDurationCnt duration e currClk
    return (
      { e with
        state := .pendingMigration
        validToRead := true
        lastUsedClk := currClk
        waitingActionClkUpdate := false
        nextActionClk := currClk + 1 + wearLevelingDelay },
      if wearLevelingDelay ≠ 0 then s.count .migration else s)

/-- The transfers of the two writes out of `pending_migration`: the
block is written to the media. -/
def writeMedia (M : Component Callback μ) (duration : DurationName) : StateTrans κ τ μ :=
  fun blockAddr e currClk s => do
    let (resp, s) ← issueNextLevel M .write blockAddr e currClk s
    if !resp.issued then issueFail
    else return (
      { e with
        state := .pendingWriteMedia
        lastUsedClk := currClk
        waitingActionClkUpdate := !resp.deterministic
        nextActionClk := resp.actionClk },
      s.updateDurationCnt duration e currClk)

/-- The last transfer of a request: its callback is run. A write leaves
the entry clean. -/
def finish (duration : DurationName) (clean : Bool) : StateTrans κ τ μ :=
  fun _ e currClk s =>
    let s := s.updateDurationCnt duration e currClk
    return (
      { e with
        state := .end_
        pending := false
        dirty := if clean then false else e.dirty
        lastUsedClk := currClk },
      { s with log := s.log ++
          (invoke e.cb e.pendingRequest.rmwBlockAddr currClk).map Obs.ran })

/-- `(write_hit, init)` -/
def writeHitInit : StateTrans κ τ μ :=
  fun _ e currClk s => do
    let (resp, s) ← issueLmemq e .write currClk s
    if !resp.issued then
      return (e, s.count .localMemoryIssueFail)
    return (
      { e with
        state := .pendingWriteDram
        pending := true
        dirty := true
        validToRead := false
        lastUsedClk := currClk
        waitingActionClkUpdate := !resp.deterministic
        nextActionClk := resp.actionClk },
      s.count .writeHit)

/-- `(read_miss, pending_read_media)` -/
def readMissPendingReadMedia : StateTrans κ τ μ :=
  fun _ e currClk s => do
    let (resp, s) ← issueLmemq e .read currClk s
    if !resp.issued then
      return (e, s.count .localMemoryIssueFail)
    return (
      { e with
        state := .pendingReadDram
        validToRead := true
        lastUsedClk := currClk
        waitingActionClkUpdate := !resp.deterministic
        nextActionClk := resp.actionClk },
      s.updateDurationCnt .rMissPrm e currClk)

/-- `(read_hit, init)` -/
def readHitInit : StateTrans κ τ μ :=
  fun _ e currClk s => do
    let (resp, s) ← issueLmemq e .read currClk s
    if !resp.issued then
      return (e, s.count .localMemoryIssueFail)
    return (
      { e with
        state := .pendingReadDram
        pending := true
        validToRead := true
        lastUsedClk := currClk
        waitingActionClkUpdate := !resp.deterministic
        nextActionClk := resp.actionClk },
      s.count .readHit)

end Trans

/-- The transfer table; a pair without an entry is a null function. -/
def stateTrans (M : Component Callback μ) :
    RequestType → RequestState → Option (StateTrans κ τ μ)
  | .writeMiss, .init => some (Trans.readMedia M .writeMiss true)
  | .writeMiss, .pendingReadMedia => some Trans.writeMissPendingReadMedia
  | .writeMiss, .pendingWriteDram => some (Trans.migrate .wMissPwd)
  | .writeMiss, .pendingMigration => some (Trans.writeMedia M .wMissPm)
  | .writeMiss, .pendingWriteMedia => some (Trans.finish .wMissPwm true)
  | .writeHit, .init => some Trans.writeHitInit
  | .writeHit, .pendingWriteDram => some (Trans.migrate .wHitPwd)
  | .writeHit, .pendingMigration => some (Trans.writeMedia M .wHitPm)
  | .writeHit, .pendingWriteMedia => some (Trans.finish .wHitPwm true)
  | .readMiss, .init => some (Trans.readMedia M .readMiss false)
  | .readMiss, .pendingReadMedia => some Trans.readMissPendingReadMedia
  | .readMiss, .pendingReadDram => some (Trans.finish .rMissPrd false)
  | .readHit, .init => some Trans.readHitInit
  | .readHit, .pendingReadDram => some (Trans.finish .rHitPrd false)
  | _, _ => none

/-! ## The tick -/

/-- The end of `tick_lsq_read` and `tick_lsq_write`: the request leaves
the queue, its callback kept in the entry. -/
def Sys.serve (s : Sys κ τ μ) (key : Addr) (e : BufferEntry κ) (frontReq : BaseRequest κ)
    (rest : List (BaseRequest κ)) (event : EventName) : Sys κ τ μ :=
  { s with
    ctrl.buffer := s.ctrl.buffer.set key (e.assignCallback frontReq.callback)
    ctrl.lsq.queue := rest
    ctrl.cntEvents := s.ctrl.cntEvents.incr event
    log := s.log ++ [.taken frontReq] }

/-- `tick_lsq_read`, given the queue's front and the rest of it. -/
def tickLsqRead (o : VisitOrder) (currClk : Clk) (frontReq : BaseRequest κ)
    (rest : List (BaseRequest κ)) (s : Sys κ τ μ) : Result (Sys κ τ μ) :=
  let rmwAddr := Rmw.translateToBlockAddr frontReq.addr
  let aitAddr := translateToBlockAddr rmwAddr
  let rmwBitmap := blockBitshiftRmw rmwAddr
  match s.ctrl.buffer.find aitAddr with
  | none =>
    match checkAndEvict o s with
    | (true, s) => do
        let (e, buffer) ← s.ctrl.buffer.insert aitAddr
          (BufferEntry.new currClk .readMiss rmwAddr rmwBitmap)
        return ({ s with ctrl.buffer := buffer }).serve (translateToBlockAddr aitAddr) e frontReq
          rest .readAccess
    | (false, s) => pure s
  | some e =>
    if e.validToRead && !e.pending then do
      let e ← e.assignNewRequest currClk .readHit rmwAddr rmwBitmap
      return s.serve (translateToBlockAddr aitAddr) e frontReq rest .readAccess
    else pure s

/-- `tick_lsq_write`, given the queue's front and the rest of it. -/
def tickLsqWrite (o : VisitOrder) (currClk : Clk) (frontReq : BaseRequest κ)
    (rest : List (BaseRequest κ)) (s : Sys κ τ μ) : Result (Sys κ τ μ) :=
  let rmwAddr := Rmw.translateToBlockAddr frontReq.addr
  let aitAddr := translateToBlockAddr rmwAddr
  let rmwBitmap := blockBitshiftRmw rmwAddr
  let record (s : Sys κ τ μ) : Sys κ τ μ :=
    { s with ctrl.table := s.ctrl.table.recordWrite rmwAddr }
  match s.entry aitAddr with
  | none =>
    match checkAndEvict o s with
    | (true, s) => do
        let (e, buffer) ← s.ctrl.buffer.insert aitAddr
          (BufferEntry.new currClk .writeMiss rmwAddr rmwBitmap)
        return (record { s with ctrl.buffer := buffer }).serve (translateToBlockAddr aitAddr) e
          frontReq rest .writeAccess
    | (false, s) => pure s
  | some e =>
    if !e.pending then do
      let e ← e.assignNewRequest currClk .writeHit rmwAddr rmwBitmap
      return (record s).serve aitAddr e frontReq rest .writeAccess
    else pure s

def tickLsq (o : VisitOrder) (currClk : Clk) (s : Sys κ τ μ) : Result (Sys κ τ μ) :=
  match s.ctrl.lsq.queue with
  | [] => pure s
  | frontReq :: rest =>
    match frontReq.type with
    | .read => tickLsqRead o currClk frontReq rest s
    | .write => tickLsqWrite o currClk frontReq rest s

/-- The callback of an access to the local memory. -/
def subreqServedCallback (logicAddr : Addr) (s : Sys κ τ μ) : Sys κ τ μ :=
  { s with ctrl.lmemqState.subreqServed :=
      Function.update s.ctrl.lmemqState.subreqServed (Rmw.blockOffsetCl logicAddr) true }

/-- The set-up stage of `tick_lmemq`. -/
def lmemqSetUp (s : Sys κ τ μ) : Sys κ τ μ :=
  if s.ctrl.lmemqState.pendingFront then s
  else
    { s with
      ctrl.lmemq.queue :=
        if s.ctrl.lmemqState.subreqServed 0 then s.ctrl.lmemq.queue.tail else s.ctrl.lmemq.queue
      ctrl.lmemqState.pendingFront := true
      ctrl.lmemqState.subreqPendingIndex := -1 }

/-- The last of the four accesses was served: the entry goes on. -/
def lmemqFinish (currClk : Clk) (frontReq : BaseRequest κ) (s : Sys κ τ μ) : Result (Sys κ τ μ) :=
  let aitAddr := translateToBlockAddr frontReq.addr
  match s.entry aitAddr with
  | none => throw "out_of_range: entry_map.at"
  | some e =>
    let s := s.setEntry aitAddr
      { e with nextActionClk := currClk + 1, waitingActionClkUpdate := false }
    pure { s with
      ctrl.lmemqState.pendingFront := false
      ctrl.lmemqState.subreqServed := fun _ => false
      ctrl.lmemq.queue := s.ctrl.lmemq.queue.tail }

/-- The next of the four accesses is started. -/
def lmemqStart (L : Component SubreqCallback τ) (currClk : Clk) (frontReq : BaseRequest κ)
    (s : Sys κ τ μ) : Result (Sys κ τ μ) :=
  let index := s.ctrl.lmemqState.subreqPendingIndex + 1
  let s := { s with ctrl.lmemqState.subreqPendingIndex := index }
  match s.entry (translateToBlockAddr frontReq.addr) with
  | none => throw "out_of_range: entry_map.at"
  | some _ => do
      let clAddr := frontReq.addr + UInt64.ofNat index.toNat * cpuClSize
      let (resp, _, localMemory) ← L.issueRequest
        { type := frontReq.type
          addr := clAddr
          arrive := currClk
          callback := some .subreqServed } s.localMemory
      let s := { s with localMemory := localMemory }
      if !resp.issued then
        throw ("AIT controller feature not implemented: "
          ++ "ait do not retry issuing request to local memory")
      else
        match frontReq.type with
        | .write => pure ((subreqServedCallback clAddr s).count .lmemWriteAccess)
        | .read => pure (s.count .lmemReadAccess)

def tickLmemq (L : Component SubreqCallback τ) (currClk : Clk) (s : Sys κ τ μ) :
    Result (Sys κ τ μ) :=
  if s.ctrl.lmemq.empty then pure s
  else do
    let s := lmemqSetUp s
    if ← L.full s.localMemory then
      return s
    match s.ctrl.lmemq.queue with
    | [] => throw "undefined behaviour: front() of an empty lmemq"
    | frontReq :: _ =>
      let index := s.ctrl.lmemqState.subreqPendingIndex
      -- the access in progress is indexed only from the first one on
      if h : 0 ≤ index ∧ index < 4 then
        if !s.ctrl.lmemqState.subreqServed ⟨index.toNat, by omega⟩ then pure s
        else if index = 3 then lmemqFinish currClk frontReq s
        else lmemqStart L currClk frontReq s
      else if index = -1 then lmemqStart L currClk frontReq s
      else throw "assertion failed: subreq_pending_index"

/-- Whether the loop of `tick_internal_buffer` acts on an entry now. -/
def BufferEntry.acts (e : BufferEntry κ) (currClk : Clk) : Result Bool :=
  if e.state = .init then pure true
  else if !e.pending then pure false
  else if e.waitingActionClkUpdate then pure false
  else if e.nextActionClk = clkInvalid then
    throw ("Internal error, the next_action_clk is invalid (" ++ toString e.nextActionClk ++ ")")
  else pure (e.nextActionClk ≤ currClk)

/-- One round of the loop of `tick_internal_buffer`. -/
def tickEntry (M : Component Callback μ) (currClk : Clk) (s : Sys κ τ μ) (key : Addr) :
    Result (Sys κ τ μ) :=
  match s.entry key with
  | none => pure s
  | some e => do
      if ← e.acts currClk then
        match stateTrans M e.pendingRequest.type e.state with
        | none => throw "Internal error, unknown state transfer."
        | some func => do
            let (e, s) ← func key e currClk s
            return s.setEntry key e
      else
        return s

def tickInternalBuffer (M : Component Callback μ) (o : VisitOrder) (currClk : Clk)
    (s : Sys κ τ μ) : Result (Sys κ τ μ) :=
  (o.visit s.ctrl.buffer.entryMap.keys).foldlM (tickEntry M currClk) s

def tick (L : Component SubreqCallback τ) (M : Component Callback μ) (o : VisitOrder)
    (currClk : Clk) (s : Sys κ τ μ) : Result (Sys κ τ μ) := do
  let s ← tickLsq o currClk s
  let s ← tickLmemq L currClk s
  tickInternalBuffer M o currClk s

/-! ## What the controller offers its parent and its children -/

/-- The callback of the requests issued below. -/
def nextLevelReadCallback (addr : Addr) (currClk : Clk) (s : Sys κ τ μ) : Result (Sys κ τ μ) :=
  let aitAddr := translateToBlockAddr addr
  match s.entry aitAddr with
  | none => throw "out_of_range: entry_map.at"
  | some e =>
    pure (s.setEntry aitAddr
      { e with waitingActionClkUpdate := false, nextActionClk := currClk + 1 })

def pendingCurrent (s : Sys κ τ μ) : Bool :=
  s.ctrl.lsq.pending || s.ctrl.buffer.any (·.pending) || s.ctrl.lmemq.pending

def drain (M : Component Callback μ) (s : Sys κ τ μ) : Result (Sys κ τ μ) := do
  if s.ctrl.isDraining then
    throw "Internal error, should not call drain() twice."
  let next ← s.next.mapM M.drain
  return { s with ctrl.isDraining := true, next := next }

def ranInvocation : Obs κ → Option (Invocation κ)
  | .ran inv => some inv
  | _ => none

/-- A tick of the component: the controller, its local memory, whose
callbacks mark accesses as served, then the media. -/
def tickComponent (L : Component SubreqCallback τ) (M : Component Callback μ) (visit : Visit)
    (currClk : Clk) (s : Sys κ τ μ) : Result (Sys κ τ μ) := do
  let s ← tick L M (visit []) currClk s
  let (localMemory, served) ← L.tick visit currClk s.localMemory
  let s := served.foldl (fun s inv => subreqServedCallback inv.addr s)
    { s with localMemory := localMemory }
  let (next, ran) ← M.tickNext visit currClk s.next
  ran.foldlM (fun s inv => nextLevelReadCallback inv.addr inv.clk s) { s with next := next }

/-- The component over its local memory and the media, as its parent
sees it. -/
def component (L : Component SubreqCallback τ) (M : Component Callback μ) :
    Component κ (Sys κ τ μ) where
  issueRequest := fun req s => do
    let (resp, s) ← issueRequest req s
    return (resp, req, s)
  full := fun s => s.ctrl.lsq.full
  pending := fun s => pendingCurrent s || s.next.any M.pending
  drain := drain M
  tick := fun visit currClk s => do
    let s' ← tickComponent L M visit currClk s
    return (s', (s'.log.drop s.log.length).filterMap ranInvocation)

end Definitions

end Ait

end Vans
