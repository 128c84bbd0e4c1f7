import Vans.Model.Component
/-!
# The trace front end

`run_trace` replays a trace on a memory model: it issues the requests
one after another, tries again those refused, waits after a critical
read and for the idle clocks the trace asks for, and ticks the model
once an iteration. When the trace has ended it drains the model and
ticks it for as long as something is pending.

An iteration of either loop is a step of the machine. What is printed
on the way is left out.
-/

namespace Vans

namespace Trace

/-- A request as `get_dram_trace_request` returns it. -/
structure TraceRequest where
  addr : Addr
  type : BaseRequestType
  critical : Bool := false
  idleClkInjection : Clk := clkInvalid
  deriving DecidableEq, Repr

/-- The callbacks the front end gives its requests. -/
inductive Callback where
  | criticalRead
  | tailLatency
  | normalRead
  deriving DecidableEq, Repr

inductive EventName where
  | writeAccess
  | readAccess
  | total
  deriving DecidableEq, Repr

/-- The variables of `run_trace`, the model it drives, and the requests
the model has taken. -/
structure State (σ : Type) where
  /-- What is left of the trace. -/
  trace : List TraceRequest
  stall : Bool := false
  traceEnd : Bool := false
  criticalStall : Bool := false
  criticalLoad : Bool := false
  waitIdleClk : Bool := false
  idleClkInjection : Clk := clkInvalid
  cntEvents : Counter EventName := .zero
  tailLatencyCnt : ℕ := 0
  callback : Callback
  addr : Addr := 0
  currClk : Clk := 0
  lastTraceClk : Clk := 0
  type : BaseRequestType := .read
  req : BaseRequest Callback
  /-- The model has been drained. -/
  drained : Bool := false
  model : σ
  log : List (BaseRequestType × Addr) := []

variable {σ : Type}

def State.init (trace : List TraceRequest) (reportTailLatency : Bool) (model : σ) : State σ :=
  let callback := if reportTailLatency then .tailLatency else .normalRead
  { trace := trace
    callback := callback
    req := { type := .read, addr := 0, arrive := 0, callback := some callback }
    model := model }

/-- The next request is read; at the end of the trace, the variables it
is read into keep their values. -/
def fetch (st : State σ) : State σ :=
  let st := match st.trace with
    | [] => { st with traceEnd := true }
    | r :: trace =>
      { st with
        trace := trace
        addr := r.addr
        type := r.type
        criticalLoad := r.critical
        idleClkInjection := r.idleClkInjection }
  if st.idleClkInjection ≠ clkInvalid then { st with waitIdleClk := true } else st

/-- The current request is set up, and issued unless a critical read is
waited for. -/
def issue (C : Component Callback σ) (st : State σ) : Result (State σ) :=
  let req := { st.req with
    addr := st.addr
    type := st.type
    callback := some (if st.criticalLoad then .criticalRead else st.callback) }
  if st.criticalStall then pure { st with req := req }
  else do
    let (resp, req, model) ← C.issueRequest req st.model
    if resp.issued then
      return { st with
        req := req
        model := model
        stall := false
        criticalStall := st.criticalLoad
        cntEvents := (st.cntEvents.incr
          (match st.type with | .read => .readAccess | .write => .writeAccess)).incr .total
        log := st.log ++ [(st.type, st.addr)] }
    else
      return { st with req := req, model := model, stall := true }

def runCallback (st : State σ) (inv : Invocation Callback) : State σ :=
  match inv.callback with
  | .criticalRead => { st with criticalStall := false }
  | .tailLatency => { st with tailLatencyCnt := st.tailLatencyCnt + 1 }
  | .normalRead => st

/-- The model ticks, and runs callbacks. -/
def tickModel (C : Component Callback σ) (visit : Visit) (st : State σ) : Result (State σ) := do
  let (model, ran) ← C.tick visit st.currClk st.model
  let st := ran.foldl runCallback { st with model := model }
  return { st with currClk := st.currClk + 1 }

/-- What an iteration of the issue loop does before the tick. -/
def advance (C : Component Callback σ) (st : State σ) : Result (State σ) :=
  if st.waitIdleClk then
    if st.idleClkInjection > 0 then
      pure { st with idleClkInjection := st.idleClkInjection - 1 }
    else pure { st with waitIdleClk := false }
  else
    let st := if !st.stall && !st.criticalStall then fetch st else st
    if st.traceEnd then pure { st with lastTraceClk := st.currClk } else issue C st

/-- One iteration: of the issue loop until the trace has ended, of the
drain loop after. -/
def step (C : Component Callback σ) (visit : Visit) (st : State σ) : Result (State σ) :=
  if !st.traceEnd then do
    let st ← advance C st
    tickModel C visit st
  else if !st.drained then do
    let model ← C.drain st.model
    return { st with model := model, drained := true }
  else if C.pending st.model then tickModel C visit st
  else pure st

def machine (C : Component Callback σ) : Machine (State σ) Visit String where
  step := fun st visit => step C visit st

/-- The request an iteration is about to issue. -/
def nextIssue (st : State σ) : Option (BaseRequestType × Addr) :=
  if st.traceEnd || st.waitIdleClk || st.criticalStall then none
  else if st.stall then some (st.type, st.addr)
  else st.trace.head?.map fun r => (r.type, r.addr)

/-! ## What an iteration can do -/

/-- The requests of the trace the model has still to take. -/
def State.remaining (st : State σ) : List (BaseRequestType × Addr) :=
  (if st.stall then [(st.type, st.addr)] else []) ++ st.trace.map fun r => (r.type, r.addr)

section Steps

variable {C : Component Callback σ} {st st' : State σ}

/-- **What reading does**: the next request is the one about to be
issued, or there was none. -/
theorem fetch_spec (hend : st.traceEnd = false) (hstall : st.stall = false) :
    (fetch st).model = st.model ∧ (fetch st).log = st.log ∧ (fetch st).stall = false ∧
      (fetch st).criticalStall = st.criticalStall ∧ (fetch st).req = st.req ∧
      ((fetch st).traceEnd = true → (fetch st).remaining = st.remaining) ∧
      ((fetch st).traceEnd = false →
        st.trace.head?.map (fun r => (r.type, r.addr)) = some ((fetch st).type, (fetch st).addr) ∧
        st.remaining = ((fetch st).type, (fetch st).addr) :: (fetch st).remaining) := by
  unfold fetch
  cases htrace : st.trace with
  | nil => dsimp only; split <;> simp [State.remaining, hstall, htrace]
  | cons r rs => dsimp only; split <;> simp [State.remaining, hstall, htrace, hend]

/-- **What issuing does.** -/
theorem issue_cases (h : issue C st = .ok st') :
    (st.criticalStall = true ∧ st'.model = st.model ∧ st'.log = st.log ∧
      st'.stall = st.stall ∧ st'.trace = st.trace ∧ st'.type = st.type ∧ st'.addr = st.addr ∧
      st'.req.arrive = st.req.arrive) ∨
    (st.criticalStall = false ∧ ∃ resp req, C.issueRequest req st.model =
        .ok (resp, st'.req, st'.model) ∧
      req.type = st.type ∧ req.addr = st.addr ∧ req.arrive = st.req.arrive ∧
      st'.stall = !resp.issued ∧ st'.trace = st.trace ∧ st'.type = st.type ∧ st'.addr = st.addr ∧
      st'.log = if resp.issued then st.log ++ [(st.type, st.addr)] else st.log) := by
  unfold issue at h
  dsimp only at h
  split at h
  · rename_i hcrit
    obtain rfl := pure_eq_ok.mp h
    exact .inl ⟨hcrit, rfl, rfl, rfl, rfl, rfl, rfl, rfl⟩
  · rename_i hcrit
    simp only [bind_eq_ok, Prod.exists] at h
    obtain ⟨resp, req', model, hissue, h⟩ := h
    refine .inr ⟨by simpa using hcrit, ?_⟩
    split at h <;> rename_i hiss <;> obtain rfl := pure_eq_ok.mp h
    · exact ⟨resp, _, hissue, rfl, rfl, rfl, by simp [hiss], rfl, rfl, rfl, by simp [hiss]⟩
    · exact ⟨resp, _, hissue, rfl, rfl, rfl, by simp [hiss], rfl, rfl, rfl, by simp [hiss]⟩

end Steps

end Trace

end Vans
