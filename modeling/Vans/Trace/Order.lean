import Vans.Trace.Model
import Vans.Rmc.Model
import Vans.Imc.Order
/-!
# The trace front end — the order of the requests to an address

The front end drives the RMC over one iMC over one component. It issues
the requests of the trace in their order, all with the stamp its
request object was made with. So the iMC cannot tell their ages apart,
and hands the requests to an address on in the order of the trace as
long as it takes no write while a read of the same address waits.
-/

namespace Vans

namespace Trace

variable {σ : Type} {D : Component Callback σ} {rounds : ℕ}

/-- The model driven: the RMC over the iMC. -/
abbrev frontEnd (rounds : ℕ) (D : Component Callback σ) :
    Component Callback (Rmc.Sys (Imc.Sys Callback σ)) :=
  Rmc.component (Imc.component rounds D)

/-- The trace, as its requests are compared. -/
def keys (trace : List TraceRequest) : List (BaseRequestType × Addr) :=
  trace.map fun r => (r.type, r.addr)

/-- No read of the address waits in the iMC, should the next request be
a write it has room for. -/
def NoReadWaits (st : State (Rmc.Sys (Imc.Sys Callback σ))) : Prop :=
  ∀ x ∈ nextIssue st, x.1 = .write → ∀ imc ∈ st.model.next,
    imc.ctrl.wpq.queue.length < imc.ctrl.wpq.maxEntries →
      ∀ r ∈ imc.ctrl.rpq.queue, r.addr ≠ x.2 - st.model.ctrl.startAddr

instance {st : State (Rmc.Sys (Imc.Sys Callback σ))} : Decidable (NoReadWaits st) :=
  inferInstanceAs (Decidable (∀ x ∈ nextIssue st, _))

/-! ## The invariant -/

/-- The RMC stands over one iMC that has kept its order, and has passed
on to it what the front end issued. -/
def Passed (log : List (BaseRequestType × Addr)) (rmc : Rmc.Sys (Imc.Sys Callback σ)) : Prop :=
  (rmc.ctrl.mappingFunc = noneMapping ∨ rmc.ctrl.mappingFunc = strideMapping4096) ∧
  ∃ imc, rmc.next = [imc] ∧ imc.InOrder 0 ∧
    Imc.acceptedKeys imc.log = log.map fun x => (x.1, x.2 - rmc.ctrl.startAddr)

/-- **The replay invariant**: the trace is what was issued and what
remains; every request carries stamp zero. -/
structure State.Replays (trace : List TraceRequest)
    (st : State (Rmc.Sys (Imc.Sys Callback σ))) : Prop where
  stamp : st.req.arrive = 0
  replay : st.log ++ st.remaining = keys trace
  passed : Passed st.log st.model

section Passing

variable {log : List (BaseRequestType × Addr)} {rmc rmc' : Rmc.Sys (Imc.Sys Callback σ)}

/-- The request is passed on to the iMC, which takes it or not. -/
theorem Passed.issue (hD : Imc.KeepsRefused D) (p : Passed log rmc)
    {req req' : BaseRequest Callback} {resp : BaseResponse} (hstamp : req.arrive = 0)
    (hturn : req.type = .write → ∀ imc ∈ rmc.next,
      imc.ctrl.wpq.queue.length < imc.ctrl.wpq.maxEntries →
        ∀ r ∈ imc.ctrl.rpq.queue, r.addr ≠ req.addr - rmc.ctrl.startAddr)
    (h : (frontEnd rounds D).issueRequest req rmc = .ok (resp, req', rmc')) :
    req'.arrive = 0 ∧ rmc'.ctrl = rmc.ctrl ∧
      Passed (if resp.issued then log ++ [(req.type, req.addr)] else log) rmc' := by
  obtain ⟨hmap, imc, hnext, io, hacc⟩ := p
  obtain ⟨-, next, hissue, rfl⟩ := Rmc.issueRequest_eq_ok h
  rw [hnext, List.length_singleton, Imc.mapping_one hmap] at hissue
  obtain ⟨imc₀, imc', himc, htake, rfl⟩ := Component.issueTo_eq_ok.mp hissue
  obtain rfl : imc = imc₀ := by simpa using himc
  simp only [Imc.component, bind_eq_ok, Prod.exists, pure_eq_ok, Prod.mk.injEq] at htake
  obtain ⟨resp', imc'', htake, rfl, rfl, rfl⟩ := htake
  refine ⟨hstamp, rfl, hmap, imc'', rfl, ?_, ?_⟩
  · refine reflTransGen_keeps (fun _ _ io hm => io.move hD hm)
      (Imc.issueRequest_moves (Q := Imc.InTurn 0) ?_ htake) io
    exact ⟨hstamp, fun ht room r hr => hturn ht imc (by simp [hnext]) room r hr⟩
  · rcases Imc.issueRequest_cases htake with ⟨hyes, hlog⟩ | ⟨hno, rfl⟩
    · rw [hlog, Imc.acceptedKeys_accepted, hacc, hyes]
      simp [Imc.key]
    · rw [hacc, hno]
      rfl

/-- Moves of the iMC that take no request keep what was passed. -/
theorem Passed.moves (hD : Imc.KeepsRefused D) {imc imc' : Imc.Sys Callback σ}
    (p : Passed log rmc) (hnext : rmc.next = [imc]) (hctrl : rmc'.ctrl.mappingFunc =
      rmc.ctrl.mappingFunc ∧ rmc'.ctrl.startAddr = rmc.ctrl.startAddr) (hnext' : rmc'.next = [imc'])
    (h : Imc.Moves D (fun _ _ => False) imc imc') : Passed log rmc' := by
  obtain ⟨hmap, imc₀, himc, io, hacc⟩ := p
  obtain rfl : imc = imc₀ := by simpa [hnext] using himc
  refine ⟨hctrl.1 ▸ hmap, imc', hnext', ?_, ?_⟩
  · exact reflTransGen_keeps (fun _ _ io hm => io.move hD hm)
      (Imc.Moves.mono (fun _ _ => False.elim) h) io
  · rw [Imc.acceptedKeys_of_moves h, hacc, hctrl.2]

theorem Passed.tick (hD : Imc.KeepsRefused D) (p : Passed log rmc) {visit : Visit} {clk : Clk}
    {ran : List (Invocation Callback)}
    (h : (frontEnd rounds D).tick visit clk rmc = .ok (rmc', ran)) : Passed log rmc' := by
  obtain ⟨-, imc, hnext, -⟩ := id p
  simp only [Rmc.component, bind_eq_ok, Prod.exists, pure_eq_ok, Prod.mk.injEq] at h
  obtain ⟨next, ran', htick, rfl, -⟩ := h
  obtain ⟨outs, houts, rfl, -⟩ := Component.tickNext_eq_ok htick
  rw [hnext] at houts
  cases houts with
  | cons hout hrest =>
      cases hrest
      exact p.moves hD hnext ⟨rfl, rfl⟩ rfl (Imc.component_tick_moves hout)

theorem Passed.drain (hD : Imc.KeepsRefused D) (p : Passed log rmc)
    (h : (frontEnd rounds D).drain rmc = .ok rmc') : Passed log rmc' := by
  obtain ⟨-, imc, hnext, -⟩ := id p
  obtain ⟨next, hdrain, rfl⟩ := Rmc.drain_eq_ok h
  have hall := mapM_eq_ok.mp hdrain
  rw [hnext] at hall
  cases hall with
  | cons hout hrest =>
      cases hrest
      exact p.moves hD hnext ⟨rfl, rfl⟩ rfl (Imc.drain_moves hout)

end Passing

/-- Running callbacks changes neither the model nor what is issued. -/
theorem foldl_runCallback (st : State σ) (ran : List (Invocation Callback)) :
    (ran.foldl runCallback st).model = st.model ∧ (ran.foldl runCallback st).log = st.log ∧
      (ran.foldl runCallback st).req = st.req ∧
      (ran.foldl runCallback st).remaining = st.remaining := by
  refine foldl_keeps (P := fun u : State σ => u.model = st.model ∧ u.log = st.log ∧
    u.req = st.req ∧ u.remaining = st.remaining) (fun u inv hu => ?_) ⟨rfl, rfl, rfl, rfl⟩
  unfold runCallback
  split <;> exact hu

namespace State.Replays

variable {trace : List TraceRequest} {st st' : State (Rmc.Sys (Imc.Sys Callback σ))}

theorem tickModel (hD : Imc.KeepsRefused D) (re : st.Replays trace) {visit : Visit}
    (h : Trace.tickModel (frontEnd rounds D) visit st = .ok st') : st'.Replays trace := by
  simp only [Trace.tickModel, bind_eq_ok, Prod.exists, pure_eq_ok] at h
  obtain ⟨model, ran, htick, rfl⟩ := h
  obtain ⟨hmodel, hlog, hreq, hrem⟩ := foldl_runCallback { st with model := model } ran
  refine ⟨by rw [hreq]; exact re.stamp, ?_, ?_⟩
  · rw [hlog]
    exact (congrArg _ hrem).trans re.replay
  · rw [hlog, hmodel]
    exact re.passed.tick hD htick

/-- The current request is issued: refused, it remains; taken, it is the
next of the trace. -/
theorem issue (hD : Imc.KeepsRefused D) (stamp : st.req.arrive = 0)
    (replay : st.log ++ (st.type, st.addr) :: keys st.trace = keys trace)
    (passed : Passed st.log st.model) (hcrit : st.criticalStall = false)
    (hturn : st.type = .write → ∀ imc ∈ st.model.next,
      imc.ctrl.wpq.queue.length < imc.ctrl.wpq.maxEntries →
        ∀ r ∈ imc.ctrl.rpq.queue, r.addr ≠ st.addr - st.model.ctrl.startAddr)
    (h : Trace.issue (frontEnd rounds D) st = .ok st') : st'.Replays trace := by
  rcases issue_cases h with ⟨hstall, -⟩ | ⟨-, resp, req, hissue, htype, haddr, harr, hst, htrace,
    htype', haddr', hlog⟩
  · simp [hcrit] at hstall
  · obtain ⟨hstamp', -, hpassed⟩ := passed.issue hD (harr.trans stamp)
      (htype ▸ haddr ▸ hturn) hissue
    rw [htype, haddr, ← hlog] at hpassed
    refine ⟨hstamp', ?_, hpassed⟩
    cases hiss : resp.issued with
    | true => simpa [hlog, hiss, State.remaining, hst, htrace, keys] using replay
    | false => simpa [hlog, hiss, State.remaining, hst, htrace, htype', haddr', keys] using replay

/-- What comes before the tick keeps the replay invariant, where writes
are issued alone. -/
theorem advance (hD : Imc.KeepsRefused D) (re : st.Replays trace) (hend : st.traceEnd = false)
    (hturn : NoReadWaits st) (h : Trace.advance (frontEnd rounds D) st = .ok st') :
    st'.Replays trace := by
  unfold Trace.advance at h
  cases hwait : st.waitIdleClk with
  | true =>
      simp only [hwait, if_true] at h
      split at h <;> obtain rfl := pure_eq_ok.mp h <;> exact ⟨re.stamp, re.replay, re.passed⟩
  | false =>
      simp only [hwait, Bool.false_eq_true, if_false] at h
      cases hcrit : st.criticalStall with
      | true =>
          -- a critical read is waited for: nothing is read or issued
          simp only [hcrit, Bool.not_true, Bool.and_false, Bool.false_eq_true, if_false,
            hend] at h
          rcases issue_cases h with ⟨-, hmodel, hlog, hst, htrace, htype, haddr, harr⟩ | ⟨hno, -⟩
          · refine ⟨harr.trans re.stamp, ?_, by rw [hlog, hmodel]; exact re.passed⟩
            rw [hlog, ← re.replay, State.remaining, hst, htrace, htype, haddr, State.remaining]
          · simp [hcrit] at hno
      | false =>
          -- what is issued next is the request refused last, or the next of the trace
          have hnext : nextIssue st = if st.stall then some (st.type, st.addr)
              else st.trace.head?.map fun r => (r.type, r.addr) := by
            simp [nextIssue, hend, hwait, hcrit]
          cases hstall : st.stall with
          | true =>
              simp only [hstall, Bool.not_true, Bool.false_and, Bool.false_eq_true, if_false,
                hend] at h
              have hrem := re.replay
              simp only [State.remaining, hstall, if_true] at hrem
              refine State.Replays.issue hD re.stamp hrem re.passed hcrit (fun ht => ?_) h
              exact hturn (st.type, st.addr) (by simp [hnext, hstall]) ht
          | false =>
              obtain ⟨hmodel, hlog, hst, hcrit', hreq, hlast, hread⟩ := fetch_spec hend hstall
              simp only [hstall, hcrit, Bool.not_false, Bool.and_self, if_true] at h
              cases hfetch : (fetch st).traceEnd with
              | true =>
                  simp only [hfetch, if_true, pure_eq_ok] at h
                  subst h
                  refine ⟨hreq ▸ re.stamp, ?_, by simpa [hlog, hmodel] using re.passed⟩
                  have hrem : (fetch st).log ++ (fetch st).remaining = keys trace := by
                    rw [hlog, hlast hfetch, re.replay]
                  exact hrem
              | false =>
                  simp only [hfetch, Bool.false_eq_true, if_false] at h
                  obtain ⟨hhead, hrem⟩ := hread hfetch
                  refine State.Replays.issue hD (hreq ▸ re.stamp) ?_ (by rw [hlog, hmodel]; exact re.passed)
                    (hcrit'.trans hcrit) (fun ht => ?_) h
                  · rw [hlog, ← re.replay, hrem, State.remaining, hst]
                    rfl
                  · rw [hmodel]
                    exact hturn ((fetch st).type, (fetch st).addr) (by simpa [hnext, hstall] using hhead) ht

/-- **Every iteration keeps the replay invariant**, where writes are
issued alone. -/
theorem step (hD : Imc.KeepsRefused D) (re : st.Replays trace) (hturn : NoReadWaits st)
    {visit : Visit} (h : Trace.step (frontEnd rounds D) visit st = .ok st') :
    st'.Replays trace := by
  unfold Trace.step at h
  cases hend : st.traceEnd with
  | false =>
      simp only [hend, Bool.not_false, if_true, bind_eq_ok] at h
      obtain ⟨u, hadv, htick⟩ := h
      exact (re.advance hD hend hturn hadv).tickModel hD htick
  | true =>
      simp only [hend, Bool.not_true, Bool.false_eq_true, if_false] at h
      split at h
      · simp only [bind_eq_ok, pure_eq_ok] at h
        obtain ⟨model, hdrain, rfl⟩ := h
        exact ⟨re.stamp, re.replay, re.passed.drain hD hdrain⟩
      · split at h
        · exact re.tickModel hD h
        · exact pure_eq_ok.mp h ▸ re

theorem init {tail : Bool} {rmc : Rmc.Config} {imc : Imc.Config} {below : σ}
    (hrmc : rmc.mappingFunc = noneMapping ∨ rmc.mappingFunc = strideMapping4096)
    (himc : imc.mappingFunc = noneMapping ∨ imc.mappingFunc = strideMapping4096) :
    (State.init trace tail (Rmc.Sys.init rmc [Imc.Sys.init imc [below]])).Replays trace where
  stamp := rfl
  replay := rfl
  passed := ⟨hrmc, _, rfl, Imc.Sys.InOrder.init himc, rfl⟩

end State.Replays

/-! ## The order of the trace -/

/-- **Requests to an address are handed on in the order of the trace**,
in every run in which the iMC takes no write while a read of the same
address waits: those handed on are the first requests of the trace to
the address. -/
theorem trace_order {rmcName imcName : String} {rmc : Rmc.Config} {imc : Imc.Config}
    (hrmc : getComponentMappingFunc rmcName = .ok rmc.mappingFunc)
    (himc : getComponentMappingFunc imcName = .ok imc.mappingFunc) (hD : Imc.KeepsRefused D)
    {trace : List TraceRequest} {tail : Bool} {below : σ} {visits : List Visit}
    {st : State (Rmc.Sys (Imc.Sys Callback σ))}
    (h : (machine (frontEnd rounds D)).run
      (State.init trace tail (Rmc.Sys.init rmc [Imc.Sys.init imc [below]])) visits = .ok st)
    (hmeets : (machine (frontEnd rounds D)).Meets (fun st _ => NoReadWaits st)
      (State.init trace tail (Rmc.Sys.init rmc [Imc.Sys.init imc [below]])) visits) :
    ∃ imcState, st.model.next = [imcState] ∧ ∀ a,
      Imc.typesTo (a - st.model.ctrl.startAddr) (Imc.handedKeys imcState.log) <+:
        Imc.typesTo a (keys trace) := by
  have re : st.Replays trace := Machine.invariant_of_meets
    (P := fun st => st.Replays trace) (fun _ _ _ re hok hv => re.step hD hok hv)
    (State.Replays.init (getComponentMappingFunc_eq_ok hrmc) (getComponentMappingFunc_eq_ok himc))
    hmeets h
  obtain ⟨-, imcState, hnext, io, hacc⟩ := re.passed
  refine ⟨imcState, hnext, fun a => (io.prefix_handed _).trans ?_⟩
  have hissued : Imc.typesTo (a - st.model.ctrl.startAddr) (Imc.acceptedKeys imcState.log) =
      Imc.typesTo a st.log := by
    simp [hacc, Imc.typesTo, List.filter_map, Function.comp_def]
  rw [hissued, ← re.replay, Imc.typesTo_append]
  exact List.prefix_append _ _

/-! ### Runs over an open gate -/

/-- An iMC with four places in each queue and an ADR epoch of ten
clocks. -/
def epochConfig : Imc.Config where
  mappingFunc := strideMapping4096
  wpqEntries := 4
  rpqEntries := 4
  adrEpoch := 10

/-- The front end after some iterations of a trace. -/
def epochRun (trace : List TraceRequest) (iterations : ℕ) :
    Result (State (Rmc.Sys (Imc.Sys Callback Bool))) :=
  (machine (frontEnd 5 Imc.gate)).run
    (State.init trace false (Rmc.Sys.init ⟨noneMapping, 0⟩ [Imc.Sys.init epochConfig [false]]))
    (List.replicate iterations fun _ => .asHeld)

/-- A write and then a read of one address. -/
def writeRead : List TraceRequest := [⟨128, .write, false, clkInvalid⟩, ⟨128, .read, false, clkInvalid⟩]

theorem trace_order_writeRead :
    ∃ st, epochRun writeRead 13 = .ok st ∧ ∃ imc, st.model.next = [imc] ∧
      Imc.typesTo (128 - st.model.ctrl.startAddr) (Imc.handedKeys imc.log) <+:
        [.write, .read] := by
  obtain ⟨st, hrun⟩ : ∃ st, epochRun writeRead 13 = .ok st := ⟨_, rfl⟩
  obtain ⟨imc, hnext, hall⟩ := trace_order (rfl : getComponentMappingFunc "none_mapping" = _)
    (rfl : getComponentMappingFunc "stride_mapping(4096)" = _) Imc.gate_keepsRefused hrun (by decide)
  exact ⟨st, hrun, imc, hnext, hall 128⟩

/-- A write, and then a read and a write of another address. -/
def writeReadWrite : List TraceRequest :=
  [⟨64, .write, false, clkInvalid⟩, ⟨128, .read, false, clkInvalid⟩,
    ⟨128, .write, false, clkInvalid⟩]

/-- **The write overtakes the read**: the first write keeps the read
waiting until the epoch ends, and the flush takes both writes. -/
theorem writeReadWrite_overtakes :
    ∃ st, epochRun writeReadWrite 12 = .ok st ∧
      (st.model.next.map fun imc => Imc.typesTo 128 (Imc.handedKeys imc.log)) =
        [[.write, .read]] ∧
      Imc.typesTo 128 (keys writeReadWrite) = [.read, .write] :=
  ⟨_, rfl, by decide, by decide⟩

end Trace

end Vans
