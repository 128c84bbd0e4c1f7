import Vans.Dram.Model
import Vans.Model.Component
/-!
# The DRAM media controller

Four queues of requests in front of a DRAM tree, a fifth for the reads
that wait to be answered, and a tick that answers one read, queues the
refreshes that are due, and issues one command for the request at the
front of one queue. The memory maps addresses to coordinates and is
generic over the standard, as the tree is.

The mapping function is named by six two-letter names, which the source
holds in one string and packs into one word, a digit a level.
-/

namespace Vans

namespace Dram

/-! ## Mapping addresses -/

def isPwrOf2 (n : ℕ) : Bool := n ≠ 0 && (n &&& (n - 1)) = 0

inductive LevelName where
  | Ch
  | Ra
  | Bg
  | Ba
  | Ro
  | Co
  /-- Any other letters, or none. -/
  | unknown
  deriving DecidableEq, Repr

def LevelName.num : LevelName → ℕ
  | .Ch => 0
  | .Ra => 1
  | .Bg => 2
  | .Ba => 3
  | .Ro => 4
  | .Co => 5
  | .unknown => 0

structure Mapping where
  totalLevels : ℕ
  txBitWidth : ℕ
  addrBitWidth : ℕ → UInt64
  /-- The level the name at each position stands for. -/
  code : List ℕ

/-- The constructor. The logarithm of a count of zero is no width. The
last width is reduced by the prefetch bits, and wraps where the level is
too small. The name that starts where the string ends is empty. -/
def Mapping.new {γ ς : Type} (spec : Spec γ ς) (mediaMappingFunc : List LevelName) :
    Result Mapping :=
  let txSize := spec.channelWidth * spec.prefetchSize / 8
  if !isPwrOf2 txSize then throw "Transaction size not supported (not power of 2)"
  else if (List.range spec.totalLevels).any (spec.count · = 0) then
    throw "undefined behaviour: conversion of an infinity"
  else if mediaMappingFunc.length + 1 < spec.totalLevels then
    throw "out_of_range: basic_string::substr"
  else
    let width (i : ℕ) : UInt64 := UInt64.ofNat (Nat.log2 (spec.count i))
    pure
      { totalLevels := spec.totalLevels
        txBitWidth := Nat.log2 txSize
        addrBitWidth := fun i =>
          if i = spec.totalLevels - 1 then width i - UInt64.ofNat (Nat.log2 spec.prefetchSize)
          else width i
        code := ((mediaMappingFunc ++ [LevelName.unknown]).take spec.totalLevels).map
          LevelName.num }

/-- The coordinates are taken off the address from the last position on. -/
def Mapping.map (m : Mapping) (logicAddr : Addr) : Result MappedAddr := do
  let (mappedAddr, _) ← m.code.reverse.foldlM
    (fun (mappedAddr, logicAddr) level => do
      let width := m.addrBitWidth level
      if 32 ≤ width then throw "undefined behaviour: shift by the width of the type"
      return (mappedAddr.set level (logicAddr &&& UInt64.ofNat (2 ^ width.toNat - 1)),
        logicAddr >>> width))
    (List.replicate m.totalLevels 0, logicAddr >>> UInt64.ofNat m.txBitWidth)
  return mappedAddr

/-! ## The controller -/

/-- A request for the media. Its clocks are signed. -/
structure Request (κ : Type) where
  isFirstCmd : Bool := true
  logicAddr : Addr
  mappedAddr : MappedAddr
  type : ReqType
  arrive : Int64 := -1
  depart : Int64 := -1
  callback : Option κ := none

inductive QueueName where
  | act
  | misc
  | read
  | write
  deriving DecidableEq, Repr

/-- The values read from the configuration, the standard's apart. -/
structure Config where
  queueSize : ℕ
  startAddr : Addr
  mediaMappingFunc : List LevelName

/-- The controller of a channel with `k` levels below its ranks. -/
structure Controller (κ γ ς : Type) (k : ℕ) where
  lastRefreshedClk : Clk := 0
  writePriorMode : Bool := false
  currClk : Clk := 0
  channel : Dram γ ς (k + 1)
  actQueue : RequestQueue (Request κ)
  miscQueue : RequestQueue (Request κ)
  readQueue : RequestQueue (Request κ)
  writeQueue : RequestQueue (Request κ)
  pendingQueue : List (Request κ) := []
  startAddr : Addr

/-- What the memory is seen to do. -/
inductive Obs (κ γ : Type) where
  /-- A request enters its queue. -/
  | accepted (req : Request κ)
  /-- A command is issued, to where and when. -/
  | issued (cmd : γ) (addr : MappedAddr) (clk : Clk)
  /-- A request whose command was issued leaves its queue. -/
  | served (req : Request κ)
  /-- A callback is run. -/
  | ran (inv : Invocation κ)

/-- The memory: the mapping and the controller, and the record of what
it has done. -/
structure Sys (κ γ ς : Type) (k : ℕ) where
  mapper : Mapping
  ctrl : Controller κ γ ς k
  log : List (Obs κ γ) := []

section Definitions

variable {κ γ ς : Type} {k : ℕ}

def Controller.queue (c : Controller κ γ ς k) : QueueName → RequestQueue (Request κ)
  | .act => c.actQueue
  | .misc => c.miscQueue
  | .read => c.readQueue
  | .write => c.writeQueue

/-- Assigning the requests of a queue. -/
def Controller.setQueue (c : Controller κ γ ς k) (name : QueueName) (reqs : List (Request κ)) :
    Controller κ γ ς k :=
  match name with
  | .act => { c with actQueue.queue := reqs }
  | .misc => { c with miscQueue.queue := reqs }
  | .read => { c with readQueue.queue := reqs }
  | .write => { c with writeQueue.queue := reqs }

section Queues

variable {c : Controller κ γ ς k} {name n : QueueName} {reqs : List (Request κ)}

/-- The queues after one is assigned. -/
theorem queue_setQueue :
    ((c.setQueue name reqs).queue n).queue = if n = name then reqs else (c.queue n).queue := by
  cases name <;> cases n <;> rfl

@[simp] theorem maxEntries_setQueue :
    ((c.setQueue name reqs).queue n).maxEntries = (c.queue n).maxEntries := by
  cases name <;> cases n <;> rfl

@[simp] theorem channel_setQueue : (c.setQueue name reqs).channel = c.channel := by
  cases name <;> rfl

@[simp] theorem currClk_setQueue : (c.setQueue name reqs).currClk = c.currClk := by
  cases name <;> rfl

@[simp] theorem startAddr_setQueue : (c.setQueue name reqs).startAddr = c.startAddr := by
  cases name <;> rfl

@[simp] theorem pendingQueue_setQueue : (c.setQueue name reqs).pendingQueue = c.pendingQueue := by
  cases name <;> rfl

end Queues

def getQueue : ReqType → QueueName
  | .read => .read
  | .write => .write
  | .refresh | .powerDown | .selfRefresh => .misc

def Sys.emit (s : Sys κ γ ς k) (o : Obs κ γ) : Sys κ γ ς k := { s with log := s.log ++ [o] }

/-- `issue_request` of the controller. A read of an address that a queued
write is for goes to the pending queue at once. -/
def issueRequest (request : Request κ) (s : Sys κ γ ς k) : Result (Bool × Sys κ γ ς k) := do
  let request := { request with arrive := s.ctrl.currClk.toInt64 }
  let name := getQueue request.type
  let (issued, queue) ← (s.ctrl.queue name).enqueue request
  if !issued then
    return (false, s)
  let s := { s with ctrl := s.ctrl.setQueue name queue.queue }.emit (.accepted request)
  if request.type = .read
      ∧ s.ctrl.writeQueue.queue.any (request.logicAddr == ·.logicAddr) then
    return (true, { s with
      ctrl.pendingQueue := s.ctrl.pendingQueue ++
        [{ request with depart := (s.ctrl.currClk + 1).toInt64 }]
      ctrl.readQueue.queue := s.ctrl.readQueue.queue.dropLast })
  return (true, s)

/-- The read at the front of the pending queue is answered. One without a
callback stays there. -/
def servePending (s : Sys κ γ ς k) : Sys κ γ ς k :=
  match s.ctrl.pendingQueue with
  | [] => s
  | request :: rest =>
    if request.depart.toUInt64 ≤ s.ctrl.currClk then
      match request.callback with
      | none => s
      | some callback =>
        ({ s with ctrl.pendingQueue := rest }).emit
          (.ran ⟨callback, request.logicAddr + s.ctrl.startAddr, s.ctrl.currClk⟩)
    else s

variable [DecidableEq γ] (spec : Spec γ ς)

/-- The request that refreshes a rank. Its logical address is left
uninitialised, and not read. -/
def refreshRequest (channelId rankId : ℕ) : Request κ where
  logicAddr := 0
  mappedAddr := ((List.replicate (spec.totalLevels - 1) 0).set 0 (UInt64.ofNat channelId)).set 1
    (UInt64.ofNat rankId)
  type := .refresh

/-- Each rank is refreshed, once the interval has passed. -/
def issueRefresh (s : Sys κ γ ς k) : Result (Sys κ γ ς k) :=
  if s.ctrl.currClk - s.ctrl.lastRefreshedClk ≥ UInt64.ofInt spec.nREFI then do
    let s ← s.ctrl.channel.2.foldlM
      (fun s rank => do
        let (res, s) ← issueRequest (refreshRequest spec s.ctrl.channel.node.id rank.node.id) s
        if !res then throw "DRAM: Queue full, cannot issue refresh request."
        return s)
      s
    return { s with ctrl.lastRefreshedClk := s.ctrl.currClk }
  else pure s

/-- Whether writes come first: they do without reads, and where the
oldest write is older than the oldest read. -/
def chooseMode (s : Sys κ γ ς k) : Sys κ γ ς k :=
  match s.ctrl.writeQueue.queue, s.ctrl.readQueue.queue with
  | _ :: _, [] => { s with ctrl.writePriorMode := true }
  | wreq :: _, rreq :: _ => { s with ctrl.writePriorMode := wreq.arrive < rreq.arrive }
  | [], _ :: _ => { s with ctrl.writePriorMode := false }
  | [], [] => s

def chooseQueue (s : Sys κ γ ς k) : QueueName :=
  if s.ctrl.actQueue.size then .act
  else if s.ctrl.miscQueue.size then .misc
  else if s.ctrl.writePriorMode then .write
  else .read

def getFirstCmd (req : Request κ) (s : Sys κ γ ς k) : Result γ :=
  decode spec (spec.reqToCmd req.type) req.mappedAddr (k + 1) 0 s.ctrl.channel

def isReady (req : Request κ) (s : Sys κ γ ς k) : Result Bool := do
  let cmd ← getFirstCmd spec req s
  check spec cmd req.mappedAddr s.ctrl.currClk (k + 1) 0 s.ctrl.channel

def issueCmd (cmd : γ) (addr : MappedAddr) (s : Sys κ γ ς k) : Result (Sys κ γ ς k) := do
  let channel ← update spec cmd addr s.ctrl.currClk (k + 1) s.ctrl.channel
  return ({ s with ctrl.channel := channel }).emit (.issued cmd addr s.ctrl.currClk)

/-- The end of `schedule`, for a command that was issued for the front of
the queue: an opening one moves the request to the activation queue, an
access or a refresh ends it, and any other leaves it where it is. -/
def afterCmd (name : QueueName) (cmd : γ) (req : Request κ) (rest : List (Request κ))
    (s : Sys κ γ ς k) : Sys κ γ ς k :=
  let s := { s with ctrl := s.ctrl.setQueue name (req :: rest) }
  if !(spec.isAccessing cmd || spec.isRefreshing cmd) then
    if spec.isOpening cmd then
      let s := { s with ctrl := s.ctrl.setQueue .act ((s.ctrl.queue .act).queue ++ [req]) }
      { s with ctrl := s.ctrl.setQueue name (s.ctrl.queue name).queue.tail }
    else s
  else
    let s := { s with ctrl := s.ctrl.setQueue name rest }.emit (.served req)
    if req.type = .read then
      { s with ctrl.pendingQueue := s.ctrl.pendingQueue ++
        [{ req with depart := (s.ctrl.currClk + UInt64.ofInt spec.readLatency).toInt64 }] }
    else s

def schedule (name : QueueName) (s : Sys κ γ ς k) : Result (Sys κ γ ς k) :=
  match (s.ctrl.queue name).queue with
  | [] => pure s
  | req :: rest => do
    if !(← isReady spec req s) then
      return s
    let cmd ← getFirstCmd spec req s
    let s ← issueCmd spec cmd req.mappedAddr s
    return afterCmd spec name cmd { req with isFirstCmd := false } rest s

def tick (newClk : Clk) (s : Sys κ γ ς k) : Result (Sys κ γ ς k) := do
  let s := servePending { s with ctrl.currClk := newClk }
  let s := chooseMode (← issueRefresh spec s)
  schedule spec (chooseQueue s) s

def pending (s : Sys κ γ ς k) : Bool := !s.ctrl.pendingQueue.isEmpty

/-- The write queue is asked only where the read queue is not full. -/
def full (s : Sys κ γ ς k) : Result Bool := do
  if ← s.ctrl.readQueue.full then return true
  s.ctrl.writeQueue.full

/-! ## The memory -/

/-- The constructor of the memory. -/
def Sys.new (k : ℕ) (cfg : Config) : Result (Sys κ γ ς k) := do
  let mapper ← Mapping.new spec cfg.mediaMappingFunc
  if !isPwrOf2 (spec.count 0) || !isPwrOf2 (spec.count 1) then
    throw "Count of channel and rank not supported (not power of 2)"
  let queue : RequestQueue (Request κ) := { maxEntries := cfg.queueSize }
  return {
    mapper := mapper
    ctrl :=
      { channel := Dram.new spec (k + 1) 0 0
        actQueue := queue
        miscQueue := queue
        readQueue := queue
        writeQueue := queue
        startAddr := cfg.startAddr } }

/-- A request for the media, of a logical address. -/
def Sys.mapped (s : Sys κ γ ς k) (logicAddr : Addr) (type : ReqType) (callback : Option κ) :
    Result (Request κ) := do
  let mappedAddr ← s.mapper.map logicAddr
  return { logicAddr := logicAddr, mappedAddr := mappedAddr, type := type, callback := callback }

def reqTypeOf : BaseRequestType → ReqType
  | .read => .read
  | .write => .write

def ranInvocation : Obs κ γ → Option (Invocation κ)
  | .ran inv => some inv
  | _ => none

/-- The memory as a component. It takes a request or refuses it; when it
is answered is not known. -/
def component (k : ℕ) : Component κ (Sys κ γ ς k) where
  issueRequest := fun req s => do
    let request ← s.mapped req.addr (reqTypeOf req.type) req.callback
    let (issued, s) ← issueRequest request s
    return (⟨issued, false, clkInvalid⟩, req, s)
  full := full
  pending := pending
  drain := pure
  tick := fun _ newClk s => do
    let s' ← tick spec newClk s
    return (s', (s'.log.drop s.log.length).filterMap ranInvocation)

/-! ## Runs of the controller -/

/-- The calls the controller receives: requests of any kind, mapped from
logical addresses, and ticks. -/
inductive Event (κ : Type) where
  | issueRequest (logicAddr : Addr) (type : ReqType) (callback : Option κ)
  | tick (newClk : Clk)

def machine (k : ℕ) : Machine (Sys κ γ ς k) (Event κ) String where
  step := fun s ev =>
    match ev with
    | .issueRequest logicAddr type callback => do
        let request ← s.mapped logicAddr type callback
        let (_, s) ← issueRequest request s
        return s
    | .tick newClk => tick spec newClk s

variable {spec} in
omit [DecidableEq γ] in
/-- **Refreshing** issues a request for each rank, which is taken, and
notes the clock. -/
theorem issueRefresh_keeps {P : Sys κ γ ς k → Prop} {s t : Sys κ γ ς k}
    (h : issueRefresh spec s = .ok t)
    (hround : ∀ {u v} (rankId : ℕ), P u →
      issueRequest (refreshRequest spec u.ctrl.channel.node.id rankId) u = .ok (true, v) → P v)
    (hclock : ∀ {u}, P u → P { u with ctrl.lastRefreshedClk := u.ctrl.currClk }) (hs : P s) :
    P t := by
  unfold issueRefresh at h
  split at h
  · simp only [bind_eq_ok, pure_eq_ok] at h
    obtain ⟨u, hfold, rfl⟩ := h
    refine hclock (foldlM_keeps ?_ hs hfold)
    intro v rank w hv hw
    simp only [bind_eq_ok, Prod.exists] at hw
    obtain ⟨res, v', hissue, hw⟩ := hw
    cases res with
    | false => simp only [Bool.not_false, if_true, bind_eq_ok, throw_ne_ok, false_and,
        exists_false] at hw
    | true =>
        simp only [Bool.not_true, Bool.false_eq_true, if_false, pure_eq_ok] at hw
        exact hw ▸ hround rank.node.id hv hissue
  · obtain rfl := pure_eq_ok.mp h
    exact hs

end Definitions

end Dram

end Vans
