import Vans.Model.Component
import Vans.Common.Fifos
/-!
# The gem5 front end

A memory object of gem5 that serves its packets through a wrapper around
the simulated memory. A read waits until the memory calls back, and is
then accessed; a write is accessed when it is taken, and what the memory
calls back for it is only counted. Responses wait in a queue that is sent
by an event of their own, unless the peer has refused one.

The simulator's own parts are parameters: what an access does to a packet
and to the store, and the peer at the port, whose answers are part of the
events. A peer that is called may call back with requests before it
answers. `access` and the packets' data are of any type.
-/

namespace Vans

namespace Gem5

/-- A tick of the simulator. -/
abbrev Tick := ℕ

structure Packet (δ : Type) where
  addr : Addr
  isRead : Bool
  isWrite : Bool
  needsResponse : Bool
  isResponse : Bool := false
  /-- A cache has said that it responds to the packet. -/
  cacheResponding : Bool := false
  headerDelay : Tick := 0
  payloadDelay : Tick := 0
  data : δ
  deriving DecidableEq, Repr

/-- What the simulator's memory class does, which this one inherits. -/
structure AbstractMemory (δ μ : Type) where
  access : Packet δ → μ → Packet δ × μ
  functionalAccess : Packet δ → μ → Packet δ × μ
  /-- A packet is satisfied, if it can be, from one that waits. -/
  trySatisfyFunctional : Packet δ → Packet δ → Packet δ

/-- The two callbacks a request is given. -/
inductive Callback where
  | readComplete
  | writeComplete
  deriving DecidableEq, Repr

inductive DrainState where
  | draining
  | drained
  deriving DecidableEq, Repr

/-! ## The wrapper -/

/-- Two wrappers are made: the first for the addresses below 3GB, the
second for those above 4GB. -/
def cfgFname (vansId : ℕ) : Result String :=
  if vansId = 0 then pure "gem5_lo_memory.cfg"
  else if vansId = 1 then pure "gem5_hi_memory.cfg"
  else throw "Assertion failed: false"

structure Wrapper (σ : Type) where
  memory : σ
  currClk : Clk := 0

namespace Wrapper

variable {σ : Type} (C : Component Callback σ)

/-- The request is passed by value: what the memory does to it is not
seen. -/
def send (req : BaseRequest Callback) (w : Wrapper σ) : Result (Bool × Wrapper σ) := do
  if req.addr % 64 ≠ 0 then
    throw "VANS only accepts 64 Byte aligned address, make sure you have a cache setup."
  let (resp, _, memory) ← C.issueRequest req w.memory
  return (resp.issued, { w with memory := memory })

/-- The callbacks that are run are given back. -/
def tick (visit : Visit) (w : Wrapper σ) : Result (Wrapper σ × List (Invocation Callback)) := do
  let (memory, ran) ← C.tick visit w.currClk w.memory
  return ({ w with memory := memory, currClk := w.currClk + 1 }, ran)

def finish (w : Wrapper σ) : Result (Wrapper σ) := do
  let memory ← C.drain w.memory
  return { w with memory := memory }

end Wrapper

/-! ## The memory object -/

/-- What the memory object is seen to do. -/
inductive Obs (δ : Type) where
  /-- A packet was taken, or refused. -/
  | recvTimingReq (pkt : Packet δ) (accepted : Bool)
  /-- A packet was accessed, and became this one. -/
  | access (pkt accessed : Packet δ)
  /-- The memory called back for a packet. -/
  | complete (callback : Callback) (addr : Addr)
  /-- A response was sent, and taken or refused. -/
  | sendTimingResp (pkt : Packet δ) (taken : Bool)
  | sendRetryReq
  /-- A packet was accessed at once, and became this one. -/
  | recvAtomic (pkt accessed : Packet δ)
  | recvFunctional (pkt accessed : Packet δ)
  | drain (answer : DrainState)
  | signalDrainDone
  deriving DecidableEq, Repr

structure Sys (δ μ σ : Type) where
  reqsInFlight : ℕ := 0
  reads : Fifos Addr (Packet δ) := ∅
  writes : Fifos Addr (Packet δ) := ∅
  respQueue : List (Packet δ) := []
  wrapper : Wrapper σ
  store : μ
  ticksPerClk : Tick
  respStall : Bool := false
  reqStall : Bool := false
  /-- The ticks the two events are scheduled for, if they are. -/
  sendRespEvent : Option Tick := none
  tickEvent : Option Tick := none
  curTick : Tick := 0
  log : List (Obs δ) := []

section Definitions

variable {δ μ σ : Type}

def Sys.emit (s : Sys δ μ σ) (o : Obs δ) : Sys δ μ σ := { s with log := s.log ++ [o] }

/-- The source counts in 32 bits. -/
def Sys.numOutstanding (s : Sys δ μ σ) : ℕ := (s.reqsInFlight + s.respQueue.length) % 2 ^ 32

/-- An event is scheduled that was not, for a tick that has not passed. -/
def schedule (event : Option Tick) (time curTick : Tick) : Result (Option Tick) :=
  if event.isSome then throw "Assertion failed: !event->scheduled()"
  else if time < curTick then throw "Assertion failed: when >= getCurTick()"
  else pure (some time)

def Sys.scheduleResp (time : Tick) (s : Sys δ μ σ) : Result (Sys δ μ σ) := do
  let event ← schedule s.sendRespEvent time s.curTick
  return { s with sendRespEvent := event }

/-- The first tick is at the edge of a clock. -/
def Sys.startup (clockEdge : Tick) (s : Sys δ μ σ) : Result (Sys δ μ σ) := do
  let event ← schedule s.tickEvent clockEdge s.curTick
  return { s with tickEvent := event }

/-- As it is made and started, with `ticksPerClk` from the wrapper's
configuration. -/
def Sys.new (memory : σ) (store : μ) (ticksPerClk clockEdge : Tick) : Result (Sys δ μ σ) :=
  ({ wrapper := { memory := memory }, store := store, ticksPerClk := ticksPerClk } :
    Sys δ μ σ).startup clockEdge

def drain (s : Sys δ μ σ) : Sys δ μ σ :=
  s.emit (.drain (if s.numOutstanding ≠ 0 then .draining else .drained))

/-- Done where nothing is outstanding any more. -/
def Sys.signalIfDone (s : Sys δ μ σ) : Sys δ μ σ :=
  if s.numOutstanding = 0 then s.emit .signalDrainDone else s

variable (M : AbstractMemory δ μ) (C : Component Callback σ)

def accessAndRespond (pkt : Packet δ) (s : Sys δ μ σ) : Result (Sys δ μ σ) := do
  let (accessed, store) := M.access pkt s.store
  let s := { s with store := store }.emit (.access pkt accessed)
  if pkt.needsResponse then
    if !accessed.isResponse then
      throw "Assertion failed: pkt->isResponse()"
    let time := s.curTick + accessed.headerDelay + accessed.payloadDelay
    let s := { s with
      respQueue := s.respQueue ++ [{ accessed with headerDelay := 0, payloadDelay := 0 }] }
    if !s.respStall && s.sendRespEvent.isNone then s.scheduleResp time else return s
  else
    return s

/-- A read that is taken waits for its callback; a write is accessed at
once; any other packet is accessed without asking the memory. -/
def recvTimingReq (pkt : Packet δ) (s : Sys δ μ σ) : Result (Bool × Sys δ μ σ) := do
  if pkt.cacheResponding then
    return (true, s)
  if s.reqStall then
    return (false, s.emit (.recvTimingReq pkt false))
  if pkt.isRead then
    let (accepted, wrapper) ← s.wrapper.send C
      { type := .read, addr := pkt.addr, arrive := s.wrapper.currClk
        callback := some .readComplete }
    let s := { s with wrapper := wrapper }.emit (.recvTimingReq pkt accepted)
    if accepted then
      return (true, { s with
        reads := s.reads.push pkt.addr pkt, reqsInFlight := s.reqsInFlight + 1 })
    else
      return (false, { s with reqStall := true })
  else if pkt.isWrite then
    let (accepted, wrapper) ← s.wrapper.send C
      { type := .write, addr := pkt.addr, arrive := s.wrapper.currClk
        callback := some .writeComplete }
    let s := { s with wrapper := wrapper }.emit (.recvTimingReq pkt accepted)
    if accepted then
      let s ← accessAndRespond M pkt { s with writes := s.writes.push pkt.addr pkt }
      return (true, { s with reqsInFlight := s.reqsInFlight + 1 })
    else
      return (false, { s with reqStall := true })
  else
    let s ← accessAndRespond M pkt (s.emit (.recvTimingReq pkt true))
    return (true, s)

/-- The requests a peer makes while it is called. -/
def recvCalls (calls : List (Packet δ)) (s : Sys δ μ σ) : Result (Sys δ μ σ) :=
  calls.foldlM (fun s pkt => do
    let (_, s) ← recvTimingReq M C pkt s
    return s) s

/-- What the peer does with the response, and the requests it makes
before. -/
def sendResponse (taken : Bool) (calls : List (Packet δ)) (s : Sys δ μ σ) :
    Result (Sys δ μ σ) := do
  if s.respStall then
    throw "Assertion failed: !resp_stall"
  match s.respQueue with
  | [] => throw "Assertion failed: !resp_queue.empty()"
  | pkt :: _ =>
    let s ← recvCalls M C calls s
    let s := s.emit (.sendTimingResp pkt taken)
    if taken then
      let s := { s with respQueue := s.respQueue.tail }
      let s ← if !s.respQueue.isEmpty && s.sendRespEvent.isNone then s.scheduleResp s.curTick
        else pure s
      return s.signalIfDone
    else
      return { s with respStall := true }

def recvRespRetry (taken : Bool) (calls : List (Packet δ)) (s : Sys δ μ σ) :
    Result (Sys δ μ σ) := do
  if !s.respStall then
    throw "Assertion failed: resp_stall"
  sendResponse M C taken calls { s with respStall := false }

/-- A queue that is there is not empty, so what the source looks up is
there exactly where something comes out. -/
def readComplete (addr : Addr) (s : Sys δ μ σ) : Result (Sys δ μ σ) :=
  match s.reads.pop addr with
  | none => throw "Assertion failed: reads.count(addr) != 0"
  | some (pkt, reads) => do
      if s.reqsInFlight = 0 then
        throw "Assertion failed: reqs_in_flight > 0"
      accessAndRespond M pkt
        ({ s with reads := reads, reqsInFlight := s.reqsInFlight - 1 }.emit
          (.complete .readComplete addr))

/-- The source looks the queue up unchecked. -/
def writeComplete (addr : Addr) (s : Sys δ μ σ) : Result (Sys δ μ σ) :=
  match s.writes.pop addr with
  | none => throw "undefined behaviour: writes.find(addr) is the end"
  | some (_, writes) => do
      if s.reqsInFlight = 0 then
        throw "Assertion failed: reqs_in_flight > 0"
      return ({ s with writes := writes, reqsInFlight := s.reqsInFlight - 1 }.emit
        (.complete .writeComplete addr)).signalIfDone

/-- A callback of the memory is run. -/
def complete (inv : Invocation Callback) (s : Sys δ μ σ) : Result (Sys δ μ σ) :=
  match inv.callback with
  | .readComplete => readComplete M inv.addr s
  | .writeComplete => writeComplete inv.addr s

/-- The callbacks touch nothing of the wrapper, so they may run when its
memory has ticked. -/
def tick (visit : Visit) (calls : List (Packet δ)) (s : Sys δ μ σ) : Result (Sys δ μ σ) := do
  let (wrapper, ran) ← s.wrapper.tick C visit
  let s ← ran.foldlM (fun s inv => complete M inv s) { s with wrapper := wrapper }
  let s ← if s.reqStall then recvCalls M C calls ({ s with reqStall := false }.emit .sendRetryReq)
    else pure s
  let event ← schedule s.tickEvent (s.curTick + s.ticksPerClk) s.curTick
  return { s with tickEvent := event }

/-- The latency of the atomic mode is arbitrary. -/
def recvAtomic (pkt : Packet δ) (s : Sys δ μ σ) : Tick × Sys δ μ σ :=
  let (accessed, store) := M.access pkt s.store
  (if accessed.cacheResponding then 0 else 5,
    { s with store := store }.emit (.recvAtomic pkt accessed))

/-- The responses that wait are asked too. -/
def recvFunctional (pkt : Packet δ) (s : Sys δ μ σ) : Sys δ μ σ :=
  let (accessed, store) := M.functionalAccess pkt s.store
  { s with store := store }.emit
    (.recvFunctional pkt (s.respQueue.foldl M.trySatisfyFunctional accessed))

/-! ## Runs -/

/-- What may happen to the memory object: time goes on, the two events
fire, and the peer and the simulator call. -/
inductive Event (δ : Type) where
  | advance (time : Tick)
  | tick (visit : Visit) (calls : List (Packet δ))
  | sendResponse (taken : Bool) (calls : List (Packet δ))
  | recvTimingReq (pkt : Packet δ)
  | recvRespRetry (taken : Bool) (calls : List (Packet δ))
  | recvAtomic (pkt : Packet δ)
  | recvFunctional (pkt : Packet δ)
  | drain

/-- Time goes on up to the events that are scheduled, and an event fires
at its tick. -/
def Enabled (s : Sys δ μ σ) : Event δ → Prop
  | .advance time => s.curTick ≤ time ∧ (∀ event ∈ s.sendRespEvent, time ≤ event) ∧
      ∀ event ∈ s.tickEvent, time ≤ event
  | .tick _ _ => s.tickEvent = some s.curTick
  | .sendResponse _ _ => s.sendRespEvent = some s.curTick
  | .recvTimingReq _ | .recvRespRetry _ _ | .recvAtomic _ | .recvFunctional _ | .drain => True

instance (s : Sys δ μ σ) : DecidablePred (Enabled s)
  | .advance _ => inferInstanceAs (Decidable (_ ∧ (∀ _ ∈ _, _) ∧ ∀ _ ∈ _, _))
  | .tick _ _ => inferInstanceAs (Decidable (_ = _))
  | .sendResponse _ _ => inferInstanceAs (Decidable (_ = _))
  | .recvTimingReq _ | .recvRespRetry _ _ | .recvAtomic _ | .recvFunctional _ | .drain =>
    inferInstanceAs (Decidable True)

def machine : Machine (Sys δ μ σ) (Event δ) String where
  step := fun s ev =>
    match ev with
    | .advance time => pure { s with curTick := time }
    | .tick visit calls => tick M C visit calls { s with tickEvent := none }
    | .sendResponse taken calls => sendResponse M C taken calls { s with sendRespEvent := none }
    | .recvTimingReq pkt => do
        let (_, s) ← recvTimingReq M C pkt s
        return s
    | .recvRespRetry taken calls => recvRespRetry M C taken calls s
    | .recvAtomic pkt => pure (recvAtomic M pkt s).2
    | .recvFunctional pkt => pure (recvFunctional M pkt s)
    | .drain => pure (drain s)

end Definitions

end Gem5

end Vans
