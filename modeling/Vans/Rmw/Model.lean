import Vans.Model.Component
/-!
# The RMW controller

The read-modify-write buffer: a load/store queue, a buffer of 256-byte
entries each running one request through a chain of states, and a
read-out queue the callbacks of reads are run from. The level below is
any component; the local memory is one of fixed latency.

A state carries, beside the controller and its children, the record of
what the controller has done. No function reads it.
-/

namespace Vans

namespace Rmw

/-! ## Block addresses -/

/-- `block_size_byte / cpu_cl_size` -/
abbrev blockSizeCl : ℕ := 4

instance : NeZero blockSizeCl := ⟨by decide⟩

def blockHitClBitmask : BitVec blockSizeCl := 0xf

def translateToBlockAddr (logicAddr : Addr) : Addr := (logicAddr >>> 8) <<< 8

def blockOffset (logicAddr : Addr) : UInt64 := logicAddr &&& 0xff

/-- The cache line inside the block: below four, since the offset is
below 256. -/
def blockOffsetCl (logicAddr : Addr) : Fin blockSizeCl :=
  Fin.ofNat blockSizeCl (blockOffset logicAddr >>> cpuClBitshift).toNat

/-- The address of the cache line, which the model's statements name. -/
def lineAddr (logicAddr : Addr) : Addr := (logicAddr >>> 6) <<< 6

theorem translateToBlockAddr_toNat (a : Addr) :
    (translateToBlockAddr a).toNat = a.toNat / 256 * 256 :=
  Word.toNat_shr_shl (s := 8) (by decide)

theorem lineAddr_toNat (a : Addr) : (lineAddr a).toNat = a.toNat / 64 * 64 :=
  Word.toNat_shr_shl (s := 6) (by decide)

/-- A block address is its own. -/
@[simp] theorem translateToBlockAddr_idem (a : Addr) :
    translateToBlockAddr (translateToBlockAddr a) = translateToBlockAddr a := by
  apply UInt64.toNat_inj.mp
  simp only [translateToBlockAddr_toNat]
  omega

theorem blockOffsetCl_val (a : Addr) : (blockOffsetCl a).val = a.toNat % 256 / 64 := by
  have hoff : (blockOffset a).toNat = a.toNat % 2 ^ 8 := Word.toNat_and_mask (n := 8) rfl
  have hshr : (blockOffset a >>> cpuClBitshift).toNat = (blockOffset a).toNat / 2 ^ 6 :=
    Word.toNat_shr (s := cpuClBitshift) (by decide)
  change (blockOffset a >>> cpuClBitshift).toNat % 4 = _
  rw [hshr, hoff]
  omega

/-- **Block address and line index give the line back.** -/
theorem block_add_line (a : Addr) :
    translateToBlockAddr a + UInt64.ofNat (blockOffsetCl a).val * cpuClSize = lineAddr a := by
  have hlt : a.toNat < 2 ^ 64 := a.toNat_lt
  have hcl : (blockOffsetCl a).val < 4 := (blockOffsetCl a).isLt
  have hval := blockOffsetCl_val a
  apply UInt64.toNat_inj.mp
  have hmul : (UInt64.ofNat (blockOffsetCl a).val * cpuClSize).toNat = (blockOffsetCl a).val * 64 := by
    rw [UInt64.toNat_mul, UInt64.toNat_ofNat_of_lt' (by change _ < 2 ^ 64; omega)]
    exact Nat.mod_eq_of_lt (by change (blockOffsetCl a).val * 64 < 2 ^ 64; omega)
  rw [UInt64.toNat_add, hmul, translateToBlockAddr_toNat, lineAddr_toNat, hval]
  omega

/-! ## Requests in progress and buffer entries -/

inductive RequestType where
  | writeRmw
  | writeComb
  | writePatch
  | readCold
  | readFf
  | flushBack
  deriving DecidableEq, Repr

inductive RequestState where
  | init
  | pendingRead
  | pendingModify
  | pendingWrite
  | pendingReadout
  | pendingAitR
  | pendingAitW
  | end_
  deriving DecidableEq, Repr

structure Request where
  type : RequestType
  logicAddr : Addr
  arrive : Clk
  deriving DecidableEq, Repr

structure BufferEntry (κ : Type) where
  lastUsedClk : Clk
  nextActionClk : Clk := clkInvalid
  bufferIndex : ℕ
  pending : Bool
  waitingActionClkUpdate : Bool
  validToRead : Bool
  dirty : Bool
  clBitmap : BitVec blockSizeCl
  callbacks : Fin blockSizeCl → Option κ := fun _ => none
  cbBitmap : BitVec blockSizeCl := 0
  pendingRequest : Request
  state : RequestState
  pendingRequestClIndex : List (Fin blockSizeCl) := []

namespace BufferEntry

variable {κ : Type}

/-- The constructor. -/
def new (currClk : Clk) (type : RequestType) (logicAddr : Addr)
    (cachelineBitmap : BitVec blockSizeCl) (bufferIndex : ℕ) : BufferEntry κ where
  lastUsedClk := currClk
  bufferIndex := bufferIndex
  pending := true
  waitingActionClkUpdate := true
  validToRead := false
  dirty := false
  clBitmap := cachelineBitmap
  pendingRequest := ⟨type, logicAddr, currClk⟩
  state := .init

def assignNewRequest (e : BufferEntry κ) (currClk : Clk) (type : RequestType) (logicAddr : Addr)
    (cachelineBitmap : BitVec blockSizeCl) : BufferEntry κ :=
  { e with
    pending := true
    waitingActionClkUpdate := true
    validToRead := false
    clBitmap := cachelineBitmap
    state := .init
    pendingRequest := ⟨type, logicAddr, currClk⟩ }

def assignCallback (e : BufferEntry κ) (clIndex : Fin blockSizeCl) (callback : Option κ) :
    Result (BufferEntry κ) :=
  let e := { e with
    callbacks := Function.update e.callbacks clIndex callback
    pendingRequestClIndex := e.pendingRequestClIndex ++ [clIndex] }
  if blockSizeCl < e.pendingRequestClIndex.length then
    throw ("Internal error: the `pending_request_cl_index` queue overflows, maybe there's a bug in "
      ++ "your controller that issues more than RMW_BLK_SIZE_CL requests to the same rmw rmw entry, "
      ++ "or `pending_request_cl_index` is not reset properly")
  else
    pure e

def resetCallback (e : BufferEntry κ) : Result (BufferEntry κ) :=
  if e.pendingRequestClIndex ≠ [] then
    throw "Internal error: reset rmw entry while there are requests waiting to be served"
  else
    pure { e with cbBitmap := 0, callbacks := fun _ => none }

end BufferEntry

/-! ## The controller -/

inductive EventName where
  | readAccess
  | writeAccess
  | eviction
  | writeRmw
  | writeComb
  | writePatch
  | flushBack
  | readPatch
  | readFastForward
  | readCold
  | patchRmw
  | patchRmwComb
  | nextLevelFull
  | roqFull
  | nextLevelIssueFail
  | localMemoryIssueFail
  deriving DecidableEq, Repr

inductive DurationName where
  | wRmwPar | wRmwPr | wRmwPaw | wRmwPm | wRmwPw
  | wCombPaw | wCombPm | wCombPw
  | wPatchPaw | wPatchPm | wPatchPw
  | wFlushPaw | wFlushPw
  | rColdPar | rColdPr | rColdPro
  | rFfPro
  deriving DecidableEq, Repr

/-- The callback the controller gives the reads it issues below. -/
inductive Callback where
  | nextLevelReadCallback
  deriving DecidableEq, Repr

structure Timing where
  aitToRmwLatency : Clk
  rmwToAitLatency : Clk
  deriving Repr

/-- The values read from the configuration. -/
structure Config where
  mappingFunc : ComponentMapping
  bufferEntries : ℕ
  lsqEntries : ℕ
  roqEntries : ℕ
  timing : Timing
  localMemory : StaticMemory

structure Controller (κ : Type) where
  mappingFunc : ComponentMapping
  buffer : InternalBuffer translateToBlockAddr (BufferEntry κ)
  timing : Timing
  lsq : RequestQueue (BaseRequest κ)
  roq : RequestQueue (BaseRequest κ)
  startAddr : Addr := 0
  evicting : Bool := false
  isDraining : Bool := false
  cntEvents : Counter EventName := .zero
  cntDuration : Counter DurationName := .zero
  localMemoryModel : StaticMemory

/-- How a request leaves the load/store queue. -/
inductive Served where
  | readCold
  | readPatch
  | readFf
  | write
  deriving DecidableEq, Repr

/-- What the controller is seen to do. -/
inductive Obs (κ : Type) where
  /-- A request enters the load/store queue. -/
  | accepted (req : BaseRequest κ)
  /-- A request leaves it. -/
  | taken (how : Served) (req : BaseRequest κ)
  /-- The level below accepts a request of the controller. -/
  | nextLevel (type : BaseRequestType) (addr : Addr)
  /-- The level below calls back: the block, and the state its entry is
  found in. -/
  | woken (block : Addr) (state : RequestState) (waiting : Bool)
  /-- A callback is run. -/
  | ran (inv : Invocation κ)
  deriving DecidableEq, Repr

/-- The controller, the components below it, and the record of what it
has done. -/
structure Sys (κ σ : Type) where
  ctrl : Controller κ
  next : List σ
  log : List (Obs κ) := []

section Definitions

variable {κ σ : Type}

/-- The controller as built, over the components below. -/
def Sys.init (cfg : Config) (next : List σ) : Sys κ σ where
  ctrl :=
    { mappingFunc := cfg.mappingFunc
      buffer := { maxEntries := cfg.bufferEntries }
      timing := cfg.timing
      lsq := { maxEntries := cfg.lsqEntries }
      roq := { maxEntries := cfg.roqEntries }
      localMemoryModel := cfg.localMemory }
  next := next

def Sys.count (s : Sys κ σ) (name : EventName) : Sys κ σ :=
  { s with ctrl.cntEvents := s.ctrl.cntEvents.incr name }

def Sys.emit (s : Sys κ σ) (o : Obs κ) : Sys κ σ := { s with log := s.log ++ [o] }

/-- `update_duration_cnt`: the clocks the entry spent in the state it
leaves. -/
def Sys.updateDurationCnt (s : Sys κ σ) (name : DurationName) (e : BufferEntry κ) (currClk : Clk) :
    Sys κ σ :=
  { s with ctrl.cntDuration := s.ctrl.cntDuration.add name (currClk - e.lastUsedClk).toNat }

/-- Writing an entry back through the reference the source holds. -/
def Sys.setEntry (s : Sys κ σ) (key : Addr) (e : BufferEntry κ) : Sys κ σ :=
  { s with ctrl.buffer := s.ctrl.buffer.set key e }

/-- The entry under a block address. -/
def Sys.entry (s : Sys κ σ) (key : Addr) : Option (BufferEntry κ) :=
  s.ctrl.buffer.entryMap.lookup key

/-! ### Eviction -/

/-- The least recently used entry in state `end`, as the scan finds it. -/
def oldest (o : VisitOrder) (s : Sys κ σ) : Addr × Clk :=
  (o.visit s.ctrl.buffer.entryMap.keys).foldl
    (fun (oldestAddr, oldestClk) key =>
      match s.entry key with
      | none => (oldestAddr, oldestClk)
      | some e =>
        if e.state = .end_ ∧ e.lastUsedClk < oldestClk then (key, e.lastUsedClk)
        else (oldestAddr, oldestClk))
    (addrInvalid, clkInvalid)

def checkAndEvict (o : VisitOrder) (s : Sys κ σ) : Bool × Sys κ σ :=
  if !s.ctrl.buffer.full then (true, s)
  else if s.ctrl.evicting then (false, s)
  else
    let (oldestAddr, _) := oldest o s
    if oldestAddr = addrInvalid then (false, s)
    else (true, ({ s with ctrl.buffer := s.ctrl.buffer.erase oldestAddr }).count .eviction)

/-! ### Issuing requests -/

def issueRequest (req : BaseRequest κ) (s : Sys κ σ) : Result (BaseResponse × Sys κ σ) := do
  let (success, lsq) ← s.ctrl.lsq.enqueue req
  let s := { s with ctrl.lsq := lsq }
  return (⟨success, false, clkInvalid⟩, if success then s.emit (.accepted req) else s)

def drainCurrent (s : Sys κ σ) : Sys κ σ :=
  s.ctrl.buffer.entryMap.keys.foldl
    (fun s key =>
      match s.entry key with
      | none => s
      | some e =>
        if e.dirty ∧ e.state = .end_ then
          s.setEntry key
            { e with pendingRequest.type := .flushBack, state := .init }
        else s)
    s

/-- Common to the two lambdas that issue to the next level: the child is
chosen by the block address, the request carries the entry's. -/
def issueNextLevel (C : Component Callback σ) (type : BaseRequestType) (callback : Option Callback)
    (blockAddr : Addr) (e : BufferEntry κ) (currClk : Clk) (s : Sys κ σ) :
    Result (BaseResponse × Sys κ σ) := do
  let rmwAddr := translateToBlockAddr e.pendingRequest.logicAddr
  let (_, componentIndex) := s.ctrl.mappingFunc blockAddr s.next.length
  let (resp, _, next) ← C.issueTo s.next componentIndex
    { type := type, addr := rmwAddr, arrive := currClk, callback := callback }
  let s := { s with next := next }
  return (resp, if resp.issued then s.emit (.nextLevel type rmwAddr) else s)

def issueReadNextLevel (C : Component Callback σ) (blockAddr : Addr) (e : BufferEntry κ)
    (currClk : Clk) (s : Sys κ σ) : Result (BaseResponse × Sys κ σ) :=
  issueNextLevel C .read (some .nextLevelReadCallback) blockAddr e currClk s

def issueWriteNextLevel (C : Component Callback σ) (blockAddr : Addr) (e : BufferEntry κ)
    (currClk : Clk) (s : Sys κ σ) : Result (BaseResponse × Sys κ σ) :=
  issueNextLevel C .write none blockAddr e currClk s

def issueLocalMemory (type : BaseRequestType) (e : BufferEntry κ) (currClk : Clk) (s : Sys κ σ) :
    Result BaseResponse :=
  s.ctrl.localMemoryModel.issueRequest
    ({ type := type, addr := e.pendingRequest.logicAddr, arrive := currClk } : BaseRequest κ)

def issueWriteLocalMemory (e : BufferEntry κ) (currClk : Clk) (s : Sys κ σ) : Result BaseResponse :=
  issueLocalMemory .write e currClk s

def issueReadLocalMemory (e : BufferEntry κ) (currClk : Clk) (s : Sys κ σ) : Result BaseResponse :=
  issueLocalMemory .read e currClk s

/-- The index queue holds unsigned line indices, so the source's test of
the front against `-1` never holds; the front of an empty queue is
undefined. -/
def issueRoq (e : BufferEntry κ) (s : Sys κ σ) : Result (BufferEntry κ × Sys κ σ) :=
  match e.pendingRequestClIndex with
  | [] => throw "undefined behaviour: front() of an empty pending_request_cl_index"
  | clIndex :: rest => do
      if ← s.ctrl.roq.full then
        throw "Internal error: trying to issue request to a full `roq` in rmw rmw."
      let addr := translateToBlockAddr e.pendingRequest.logicAddr
        + UInt64.ofNat clIndex.val * cpuClSize
      let req : BaseRequest κ :=
        { type := .read
          addr := addr
          arrive := e.pendingRequest.arrive
          callback := e.callbacks clIndex
          depart := e.nextActionClk }
      return (
        { e with
          pendingRequestClIndex := rest
          cbBitmap := e.cbBitmap &&& ~~~(BitVec.ofNat blockSizeCl 1 <<< clIndex.val) },
        { s with ctrl.roq.queue := s.ctrl.roq.queue ++ [req] })

end Definitions

end Rmw

end Vans
