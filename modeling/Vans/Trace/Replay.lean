import Vans.Trace.Model
import Vans.Model.Recorded
import Vans.Common.History
/-!
# The trace front end — the trace is replayed

Whatever the memory model does, the requests it takes are those of the
trace, in their order, each once; after a critical read was taken none
is issued before a critical read's callback has run; and the counters
count what was taken. The model is any component, kept with the record
of what passes between it and the front end.
-/

namespace Vans

namespace Trace

open Exchange (taken taken_concat taken_append_ran)

variable {σ : Type} {C : Component Callback σ}

/-! ## Requests, as the trace has them -/

def isCritical (req : BaseRequest Callback) : Bool := req.callback = some .criticalRead

/-- A request issued, as it is compared with the trace. -/
def traced (req : BaseRequest Callback) : BaseRequestType × Addr × Bool :=
  (req.type, req.addr, isCritical req)

def TraceRequest.traced (r : TraceRequest) : BaseRequestType × Addr × Bool :=
  (r.type, r.addr, r.critical)

/-- What the model has still to take. -/
def State.left (st : State σ) : List (BaseRequestType × Addr × Bool) :=
  (if st.stall then [(st.type, st.addr, st.criticalLoad)] else []) ++
    st.trace.map TraceRequest.traced

def isIssue : Exchange Callback → Bool
  | .issued _ _ => true
  | .ran _ => false

/-- A critical read is taken. -/
def criticalTaken : Exchange Callback → Bool
  | .issued req yes => yes && isCritical req
  | .ran _ => false

/-- The callback of a critical read runs. -/
def criticalRan : Exchange Callback → Bool
  | .issued _ _ => false
  | .ran inv => inv.callback = .criticalRead

/-- A critical read was taken, and no callback of one has run since. -/
def AwaitsCritical (record : List (Exchange Callback)) : Prop :=
  History.Owes (criticalTaken ·) (criticalRan ·) record

/-- Requests are issued only while no critical read is waited for, and
the callbacks of all those taken have run. -/
def IssuedInTurn (before : List (Exchange Callback)) (x : Exchange Callback) : Prop :=
  isIssue x → ¬ AwaitsCritical before ∧ before.countP criticalTaken ≤ before.countP criticalRan

/-- What the counters count. -/
structure Counts (cnt : Counter EventName) (reqs : List (BaseRequest Callback)) : Prop where
  writes : cnt .writeAccess = reqs.countP (·.type = .write)
  reads : cnt .readAccess = reqs.countP (·.type = .read)
  total : cnt .total = reqs.length

theorem Counts.take {cnt : Counter EventName} {reqs : List (BaseRequest Callback)}
    (c : Counts cnt reqs) (req : BaseRequest Callback) :
    Counts ((cnt.incr (match req.type with | .read => .readAccess | .write => .writeAccess)).incr
      .total) (reqs ++ [req]) := by
  cases ht : req.type with
  | read =>
      refine ⟨?_, ?_, ?_⟩
      · simpa [Counter.incr, Counter.add, ht] using c.writes
      · simpa [Counter.incr, Counter.add, ht] using c.reads
      · simpa [Counter.incr, Counter.add] using c.total
  | write =>
      refine ⟨?_, ?_, ?_⟩
      · simpa [Counter.incr, Counter.add, ht] using c.writes
      · simpa [Counter.incr, Counter.add, ht] using c.reads
      · simpa [Counter.incr, Counter.add] using c.total

/-! ## What an iteration does -/

/-- **What running callbacks does**: a critical read's ends the wait. -/
theorem foldl_runCallback_eq {st : State σ} {ran : List (Invocation Callback)} :
    ran.foldl runCallback st = { st with
      criticalStall := st.criticalStall && !ran.any (·.callback = .criticalRead)
      tailLatencyCnt := st.tailLatencyCnt + ran.countP (·.callback = .tailLatency) } := by
  induction ran generalizing st with
  | nil => simp
  | cons inv ran ih =>
      rw [List.foldl_cons, ih, List.any_cons, List.countP_cons]
      cases hcb : inv.callback with
      | criticalRead => simp [runCallback, hcb]
      | tailLatency => simp [runCallback, hcb, Nat.add_comm, Nat.add_assoc]
      | normalRead => simp [runCallback, hcb]

/-- **What issuing does**: the record grows by the request, as the front
end made it. -/
theorem issue_recorded {st st' : State (σ × List (Exchange Callback))}
    (hcrit : st.criticalStall = false) (h : issue C.recorded st = .ok st') :
    ∃ req yes, traced req = (st.type, st.addr, isCritical req) ∧
      req.callback = some (if st.criticalLoad then .criticalRead else st.callback) ∧
      st'.model.2 = st.model.2 ++ [.issued req yes] ∧ st'.stall = !yes ∧
      st'.criticalStall = (yes && st.criticalLoad) ∧
      st'.cntEvents = (if yes then (st.cntEvents.incr
        (match req.type with | .read => .readAccess | .write => .writeAccess)).incr .total
        else st.cntEvents) ∧
      st'.left = (if yes then [] else [(st.type, st.addr, st.criticalLoad)]) ++
        st.trace.map TraceRequest.traced ∧
      st'.callback = st.callback ∧ st'.traceEnd = st.traceEnd := by
  simp only [issue, hcrit, Bool.false_eq_true, if_false, Component.recorded, bind_eq_ok,
    Prod.exists, pure_eq_ok, Prod.mk.injEq] at h
  obtain ⟨resp, req', model, record, ⟨resp', req'', s', hissue, rfl, rfl, rfl, rfl⟩, h⟩ := h
  refine ⟨{ st.req with
    addr := st.addr
    type := st.type
    callback := some (if st.criticalLoad then .criticalRead else st.callback) },
    resp'.issued, rfl, rfl, ?_⟩
  split at h <;> rename_i hiss <;> obtain rfl := pure_eq_ok.mp h
  · cases st.type <;> simp [hiss, State.left]
  · simp only [Bool.not_eq_true] at hiss
    simp [hiss, State.left]

/-- **What reading does**: the next request becomes the current one, or
the trace has ended. -/
theorem fetch_cases {st : State σ} (hstall : st.stall = false) :
    (fetch st).model = st.model ∧ (fetch st).cntEvents = st.cntEvents ∧
      (fetch st).callback = st.callback ∧ (fetch st).criticalStall = st.criticalStall ∧
      (fetch st).stall = false ∧
      (((fetch st).traceEnd = true ∧ st.left = [] ∧ (fetch st).left = []) ∨
        ((fetch st).traceEnd = st.traceEnd ∧ st.left =
          ((fetch st).type, (fetch st).addr, (fetch st).criticalLoad) ::
            (fetch st).trace.map TraceRequest.traced)) := by
  unfold fetch
  cases htrace : st.trace with
  | nil => dsimp only; split <;> simp [State.left, hstall, htrace]
  | cons r rs => dsimp only; split <;> simp [State.left, hstall, htrace, TraceRequest.traced]

/-! ## The invariant -/

/-- **The replay invariant**: the trace is what was taken and what is
left; a critical read is waited for while the front end stalls. -/
structure State.Follows (trace : List TraceRequest) (st : State (σ × List (Exchange Callback))) :
    Prop where
  callback : st.callback ≠ .criticalRead
  replay : (taken st.model.2).map traced ++ st.left = trace.map TraceRequest.traced
  ended : st.traceEnd = true → st.left = []
  waits : AwaitsCritical st.model.2 → st.criticalStall = true
  answered : st.model.2.countP criticalTaken ≤
    st.model.2.countP criticalRan + if st.criticalStall then 1 else 0
  turns : History.Always IssuedInTurn st.model.2
  counts : Counts st.cntEvents (taken st.model.2)

namespace State.Follows

variable {trace : List TraceRequest} {st st' : State (σ × List (Exchange Callback))}

/-- Callbacks may end the wait. -/
theorem tickModel (fo : st.Follows trace) {visit : Visit}
    (h : Trace.tickModel C.recorded visit st = .ok st') : st'.Follows trace := by
  simp only [Trace.tickModel, Component.recorded, bind_eq_ok, Prod.exists, pure_eq_ok,
    Prod.mk.injEq] at h
  obtain ⟨s, record, ran, ⟨s', ran', htick, ⟨rfl, rfl⟩, rfl⟩, rfl⟩ := h
  rw [foldl_runCallback_eq]
  have hnone : ∀ x ∈ ran'.map Exchange.ran, criticalTaken x = false := by
    intro x hx
    obtain ⟨inv, -, rfl⟩ := List.mem_map.mp hx
    rfl
  have hran : (ran'.map Exchange.ran).countP criticalRan =
      ran'.countP (·.callback = .criticalRead) := by
    rw [List.countP_map]
    rfl
  refine ⟨fo.callback, ?_, fo.ended, fun hawaits => ?_, ?_, ?_, ?_⟩
  · rw [taken_append_ran]
    exact fo.replay
  · rcases History.owes_append.mp hawaits with hnew | ⟨hold, hno⟩
    · exact absurd hnew (History.not_owes_of_forall fun x hx => by simp [hnone x hx])
    · have hany : ran'.any (·.callback = .criticalRead) = false := by
        rw [List.any_eq_false]
        intro inv hinv
        simpa [criticalRan] using hno _ (List.mem_map_of_mem hinv)
      simp [fo.waits hold, hany]
  · have hold := fo.answered
    have hzero : (ran'.map Exchange.ran).countP criticalTaken = 0 :=
      List.countP_eq_zero.mpr fun x hx => by simp [hnone x hx]
    rw [List.countP_append, List.countP_append, hzero, hran]
    cases hany : ran'.any (·.callback = .criticalRead) with
    | false => simp only [Bool.not_false, Bool.and_true]; omega
    | true =>
        have hpos : 0 < ran'.countP (·.callback = .criticalRead) := by
          obtain ⟨inv, hinv, hcb⟩ := List.any_eq_true.mp hany
          exact List.countP_pos_iff.mpr ⟨inv, hinv, hcb⟩
        simp only [Bool.not_true, Bool.and_false, Bool.false_eq_true, if_false]
        split at hold <;> omega
  · refine History.Always.append fo.turns (History.always_of_forall fun before x hx hissue => ?_)
    obtain ⟨inv, -, rfl⟩ := List.mem_map.mp hx
    simp [isIssue] at hissue
  · simpa using fo.counts

/-- The current request is issued: refused, it is left; taken, it is
the next of the trace. -/
theorem issue (fo : st.Follows trace) (hcrit : st.criticalStall = false)
    {cur : State (σ × List (Exchange Callback))} (hmodel : cur.model = st.model)
    (hcnt : cur.cntEvents = st.cntEvents) (hcallback : cur.callback = st.callback)
    (hcrit' : cur.criticalStall = false) (hend : cur.traceEnd = false)
    (hleft : st.left = (cur.type, cur.addr, cur.criticalLoad) ::
      cur.trace.map TraceRequest.traced)
    (h : Trace.issue C.recorded cur = .ok st') : st'.Follows trace := by
  obtain ⟨req, yes, htraced, hcb, hrecord, -, hstall, hcnt', hleft', hcallback', hend'⟩ :=
    issue_recorded hcrit' h
  have hcritical : isCritical req = cur.criticalLoad := by
    have hne := fo.callback
    rw [isCritical, hcb, hcallback]
    cases hload : cur.criticalLoad <;> simp [hne]
  rw [hcritical] at htraced
  -- no critical read is awaited where one may be issued
  have hfree : ¬ AwaitsCritical st.model.2 ∧
      st.model.2.countP criticalTaken ≤ st.model.2.countP criticalRan := by
    refine ⟨fun hawaits => ?_, ?_⟩
    · rw [fo.waits hawaits] at hcrit
      cases hcrit
    · have hold := fo.answered
      simpa [hcrit] using hold
  rw [hmodel] at hrecord
  have hturns : History.Always IssuedInTurn st'.model.2 := by
    rw [hrecord]
    exact History.always_concat.mpr ⟨fo.turns, fun _ => hfree⟩
  have hran : st'.model.2.countP criticalRan = st.model.2.countP criticalRan := by
    simp [hrecord, criticalRan]
  have hreplay := fo.replay
  rw [hleft] at hreplay
  cases yes with
  | false =>
      have htaken : taken st'.model.2 = taken st.model.2 := by
        rw [hrecord, taken_concat]
        exact List.append_nil _
      refine ⟨by rw [hcallback', hcallback]; exact fo.callback, ?_, ?_, fun hawaits => ?_, ?_,
        hturns, ?_⟩
      · rw [htaken, hleft']
        exact hreplay
      · simp [hend', hend]
      · rw [hrecord] at hawaits
        rcases History.owes_concat.mp hawaits with hask | ⟨hold, -⟩
        · simp [criticalTaken] at hask
        · exact absurd hold hfree.1
      · rw [hran, hrecord]
        simpa [hstall, criticalTaken] using hfree.2
      · rw [htaken, hcnt', hcnt]
        exact fo.counts
  | true =>
      have htaken : taken st'.model.2 = taken st.model.2 ++ [req] := by
        rw [hrecord, taken_concat]
        rfl
      refine ⟨by rw [hcallback', hcallback]; exact fo.callback, ?_, ?_, fun hawaits => ?_, ?_,
        hturns, ?_⟩
      · rw [htaken, hleft', List.map_append, List.append_assoc, ← hreplay]
        simp [htraced]
      · simp [hend', hend]
      · rw [hrecord] at hawaits
        rcases History.owes_concat.mp hawaits with hask | ⟨hold, -⟩
        · rw [hstall, ← hcritical]
          simpa [criticalTaken] using hask
        · exact absurd hold hfree.1
      · rw [hran, hrecord, List.countP_append, hstall, ← hcritical]
        have hone : [Exchange.issued req true].countP criticalTaken =
            if isCritical req then 1 else 0 := by
          cases hc : isCritical req <;> simp [criticalTaken, hc]
        have hle := hfree.2
        rw [hone]
        simp only [Bool.true_and]
        omega
      · rw [htaken, hcnt', hcnt]
        exact fo.counts.take req

/-- What comes before the tick keeps the replay invariant. -/
theorem advance (fo : st.Follows trace) (hend : st.traceEnd = false)
    (h : Trace.advance C.recorded st = .ok st') : st'.Follows trace := by
  unfold Trace.advance at h
  cases hwait : st.waitIdleClk with
  | true =>
      -- the idle clocks are waited for
      simp only [hwait, if_true] at h
      split at h <;> obtain rfl := pure_eq_ok.mp h <;>
        exact ⟨fo.callback, fo.replay, fo.ended, fo.waits, fo.answered, fo.turns, fo.counts⟩
  | false =>
      simp only [hwait, Bool.false_eq_true, if_false] at h
      cases hcrit : st.criticalStall with
      | true =>
          -- a critical read is waited for: nothing is read or issued
          simp only [hcrit, Bool.not_true, Bool.and_false, Bool.false_eq_true, if_false, hend,
            Trace.issue, if_true, pure_eq_ok] at h
          subst h
          refine ⟨fo.callback, fo.replay, fun h => ?_, fun _ => rfl, ?_, fo.turns, fo.counts⟩
          · simp at h
          · simpa [hcrit] using fo.answered
      | false =>
          cases hstall : st.stall with
          | true =>
              simp only [hstall, Bool.not_true, Bool.false_and, Bool.false_eq_true, if_false,
                hend] at h
              have hleft : st.left = (st.type, st.addr, st.criticalLoad) ::
                  st.trace.map TraceRequest.traced := by
                rw [State.left, hstall]
                rfl
              exact fo.issue hcrit rfl rfl rfl hcrit hend hleft h
          | false =>
              simp only [hstall, hcrit, Bool.not_false, Bool.and_self, if_true] at h
              obtain ⟨hmodel, hcnt, hcallback, hcrit', -, hlast | ⟨hgoes, hleft⟩⟩ :=
                fetch_cases hstall
              · obtain ⟨hlast, hnone, hnone'⟩ := hlast
                simp only [hlast, if_true, pure_eq_ok] at h
                subst h
                refine ⟨by simpa [hcallback] using fo.callback, ?_, fun _ => hnone', ?_, ?_, ?_, ?_⟩
                · have hreplay := fo.replay
                  rw [hnone] at hreplay
                  change (taken (fetch st).model.2).map traced ++ (fetch st).left = _
                  rw [hnone', hmodel]
                  exact hreplay
                · simpa [hmodel, hcrit'] using fo.waits
                · simpa [hmodel, hcrit'] using fo.answered
                · simpa [hmodel] using fo.turns
                · simpa [hmodel, hcnt] using fo.counts
              · rw [hend] at hgoes
                simp only [hgoes, Bool.false_eq_true, if_false] at h
                exact fo.issue hcrit hmodel hcnt hcallback (hcrit'.trans hcrit) hgoes hleft h

/-- **Every iteration keeps the replay invariant.** -/
theorem step (fo : st.Follows trace) {visit : Visit} (h : Trace.step C.recorded visit st = .ok st') :
    st'.Follows trace := by
  unfold Trace.step at h
  cases hend : st.traceEnd with
  | false =>
      simp only [hend, Bool.not_false, if_true, bind_eq_ok] at h
      obtain ⟨u, hadv, htick⟩ := h
      exact (fo.advance hend hadv).tickModel htick
  | true =>
      simp only [hend, Bool.not_true, Bool.false_eq_true, if_false] at h
      split at h
      · simp only [Component.recorded, bind_eq_ok, pure_eq_ok, Prod.exists, Prod.mk.injEq] at h
        obtain ⟨s, record, ⟨s', hdrain, rfl, rfl⟩, rfl⟩ := h
        exact ⟨fo.callback, fo.replay, fun _ => fo.ended hend, fo.waits, fo.answered, fo.turns,
          fo.counts⟩
      · split at h
        · exact fo.tickModel h
        · exact pure_eq_ok.mp h ▸ fo

theorem init {tail : Bool} {model : σ} :
    (State.init trace tail (model, [])).Follows trace where
  callback := by
    cases tail <;> simp [State.init]
  replay := rfl
  ended h := by cases h
  waits h := absurd h History.not_owes_nil
  answered := Nat.zero_le _
  turns := History.always_nil
  counts := ⟨rfl, rfl, rfl⟩

end State.Follows

/-! ## The record is not read -/

section Unrecorded

/-- The record is forgotten. -/
def State.unrecorded (st : State (σ × List (Exchange Callback))) : State σ :=
  { st with model := st.model.1 }

variable {st : State (σ × List (Exchange Callback))} {visit : Visit}

theorem issue_unrecorded :
    (issue C.recorded st).map State.unrecorded = issue C st.unrecorded := by
  unfold issue
  cases hcrit : st.criticalStall with
  | true => simp [State.unrecorded, hcrit, Except.map, pure, Except.pure]
  | false =>
      simp only [State.unrecorded, hcrit, Component.recorded, Bool.false_eq_true, if_false]
      cases hissue : C.issueRequest { st.req with
          addr := st.addr
          type := st.type
          callback := some (if st.criticalLoad then .criticalRead else st.callback) } st.model.1 with
      | error e => rfl
      | ok out =>
          simp only [ok_bind]
          cases hiss : out.1.issued <;>
            simp [hiss, State.unrecorded, Except.map, pure, Except.pure, bind, Except.bind]

theorem fetch_unrecorded : (fetch st).unrecorded = fetch st.unrecorded := by
  unfold fetch
  cases htrace : st.trace with
  | nil => simp only [State.unrecorded, htrace]; split <;> rfl
  | cons r rs => simp only [State.unrecorded, htrace]; split <;> rfl

theorem advance_unrecorded :
    (advance C.recorded st).map State.unrecorded = advance C st.unrecorded := by
  have hgo : ∀ u : State (σ × List (Exchange Callback)),
      Except.map State.unrecorded (if u.traceEnd then pure { u with lastTraceClk := u.currClk }
        else issue C.recorded u) =
      if u.unrecorded.traceEnd then
        pure { u.unrecorded with lastTraceClk := u.unrecorded.currClk }
      else issue C u.unrecorded := by
    intro u
    cases hend : u.traceEnd with
    | true => simp [State.unrecorded, hend, Except.map, pure, Except.pure]
    | false =>
        have hend' : u.unrecorded.traceEnd = false := hend
        simp only [hend', Bool.false_eq_true, if_false]
        exact issue_unrecorded
  unfold advance
  cases hwait : st.waitIdleClk with
  | true =>
      simp only [State.unrecorded, hwait, if_true]
      split <;> rfl
  | false =>
      have hread : (if !st.stall && !st.criticalStall then fetch st else st).unrecorded =
          if !st.unrecorded.stall && !st.unrecorded.criticalStall then fetch st.unrecorded
          else st.unrecorded := by
        rw [← fetch_unrecorded]
        exact apply_ite State.unrecorded ..
      have hwait' : st.unrecorded.waitIdleClk = false := hwait
      simp only [hwait', Bool.false_eq_true, if_false, ← hread]
      exact hgo _

theorem tickModel_unrecorded :
    (tickModel C.recorded visit st).map State.unrecorded = tickModel C visit st.unrecorded := by
  simp only [tickModel, Component.recorded, State.unrecorded]
  cases htick : C.tick visit st.currClk st.model.1 with
  | error e => rfl
  | ok out =>
      simp only [ok_bind]
      change Except.ok _ = Except.ok _
      simp only [foldl_runCallback_eq]
      rfl

/-- **The record is not read**: over the recorded component the front
end does what it does over the component. -/
theorem step_unrecorded :
    (step C.recorded visit st).map State.unrecorded = step C visit st.unrecorded := by
  unfold step
  have hsame : st.unrecorded.traceEnd = st.traceEnd ∧ st.unrecorded.drained = st.drained ∧
      C.pending st.unrecorded.model = C.recorded.pending st.model := ⟨rfl, rfl, rfl⟩
  rw [hsame.1, hsame.2.1, hsame.2.2]
  split
  · rw [← advance_unrecorded]
    cases hadv : advance C.recorded st with
    | error e => rfl
    | ok u => exact tickModel_unrecorded
  · split
    · change _ = C.drain st.model.1 >>= _
      simp only [Component.recorded]
      cases C.drain st.model.1 <;> rfl
    · split
      · exact tickModel_unrecorded
      · rfl

end Unrecorded

/-! ## The trace is replayed -/

/-- **The trace is replayed.** For every trace and every memory model:
what the model has taken is a first part of the trace, and once the main
loop has ended the whole of it; requests are issued only while no
critical read is waited for; and the counters count what was taken. -/
theorem replays_trace {trace : List TraceRequest} {tail : Bool} {model : σ} {visits : List Visit}
    {st : State (σ × List (Exchange Callback))}
    (h : (machine C.recorded).run (State.init trace tail (model, [])) visits = .ok st) :
    (taken st.model.2).map traced <+: trace.map TraceRequest.traced ∧
    (st.traceEnd = true → (taken st.model.2).map traced = trace.map TraceRequest.traced) ∧
    (∀ before req yes after, st.model.2 = before ++ .issued req yes :: after →
      ¬ AwaitsCritical before ∧ before.countP criticalTaken ≤ before.countP criticalRan) ∧
    st.cntEvents .writeAccess = (taken st.model.2).countP (·.type = .write) ∧
    st.cntEvents .readAccess = (taken st.model.2).countP (·.type = .read) ∧
    st.cntEvents .total = (taken st.model.2).length := by
  have fo : st.Follows trace :=
    (machine C.recorded).invariant (P := fun st => st.Follows trace)
      (fun _ _ _ fo hv => fo.step hv) .init h
  refine ⟨⟨_, fo.replay⟩, fun hend => ?_, fun before req yes after hsplit => ?_, fo.counts.writes,
    fo.counts.reads, fo.counts.total⟩
  · have hreplay := fo.replay
    rw [fo.ended hend, List.append_nil] at hreplay
    exact hreplay
  · exact fo.turns before _ after hsplit rfl

/-! ### A critical read -/

/-- A memory that holds one request, and answers it at the next tick. -/
def holdsOne : Component Callback (Option (BaseRequest Callback)) where
  issueRequest := fun req s =>
    match s with
    | none => pure (⟨true, true, clkInvalid⟩, req, some req)
    | some _ => pure (⟨false, false, clkInvalid⟩, req, s)
  full := fun s => pure s.isSome
  pending := fun s => s.isSome
  drain := pure
  tick := fun _ clk s =>
    pure (none, (s.bind fun req => req.callback.map (⟨·, req.addr, clk⟩)).toList)

/-- A critical read, a write once two clocks have passed, and a read. -/
def critical : List TraceRequest :=
  [{ addr := 64, type := .read, critical := true },
    { addr := 128, type := .write, idleClkInjection := 2 },
    { addr := 192, type := .read }]

theorem replays_trace_critical :
    ∃ st, (machine holdsOne.recorded).run (State.init critical false (none, []))
        (List.replicate 9 fun _ => .asHeld) = .ok st ∧
      st.traceEnd = true ∧
      (taken st.model.2).map traced = [(.read, 64, true), (.write, 128, false), (.read, 192, false)] ∧
      st.cntEvents .total = 3 := by
  obtain ⟨st, hrun, hend, hlen⟩ : ∃ st,
      (machine holdsOne.recorded).run (State.init critical false (none, []))
        (List.replicate 9 fun _ => .asHeld) = .ok st ∧
      st.traceEnd = true ∧ (taken st.model.2).length = 3 := ⟨_, rfl, by decide, by decide⟩
  have hall := replays_trace hrun
  exact ⟨st, hrun, hend, hall.2.1 hend, hall.2.2.2.2.2.trans hlen⟩

end Trace

end Vans
