import Vans.Gem5.Service
import Vans.Model.Clocked
/-!
# The gem5 front end — the calls it makes

Whatever happens at the port, the memory below sees a clocked driver: one
tick for each clock, and requests of lines with a callback each, of the
clock that is next. What the driver saw of the memory is what the log of
the object says: the requests that were taken are the packets that were,
and the callbacks that were run are those that were answered, in their
order.
-/

namespace Vans

namespace Gem5

variable {δ μ σ : Type} {M : AbstractMemory δ μ} {C : Component Callback σ}
  {Q : BaseRequest Callback → Prop} {limit : ℕ} {clk₀ : Clk} {d₀ : Driven Callback σ}
  {hand : List (Callback × Addr)} {s t : Sys δ μ σ} {pkt : Packet δ} {calls : List (Packet δ)}

/-! ## What the log says of the memory -/

/-- What the memory is asked for a packet that is taken. -/
def askedAs (pkt : Packet δ) : Option (Callback × Addr) :=
  if pkt.isRead then some (.readComplete, pkt.addr)
  else if pkt.isWrite then some (.writeComplete, pkt.addr)
  else none

def asked (log : List (Obs δ)) : List (Callback × Addr) := (accepts log).filterMap askedAs

/-- What the memory called back for. -/
def completed (log : List (Obs δ)) : List (Callback × Addr) :=
  log.filterMap fun
    | .complete callback addr => some (callback, addr)
    | _ => none

section Log

variable {log new : List (Obs δ)}

theorem asked_append : asked (log ++ new) = asked log ++ asked new := by
  rw [asked, accepts_append, List.filterMap_append]
  rfl

theorem completed_append : completed (log ++ new) = completed log ++ completed new :=
  List.filterMap_append

end Log

/-! ## The driver -/

/-- The callback of a request, and its address. -/
def askedFor (req : BaseRequest Callback) : Option Callback × Addr := (req.callback, req.addr)

/-- **The object drives its memory**, from a clock and what was seen of
the memory by then; `hand` are the callbacks that were run and are still
to be answered. -/
def Sys.Drives (C : Component Callback σ) (Q : BaseRequest Callback → Prop) (limit : ℕ) (clk₀ : Clk)
    (d₀ : Driven Callback σ) (hand : List (Callback × Addr)) (s : Sys δ μ σ) : Prop :=
  ∃ calls d, Clocked Q limit clk₀ calls s.wrapper.currClk ∧ C.machine.run d₀ calls = .ok d ∧
    d.state = s.wrapper.memory ∧
    d.accepted.map askedFor = (asked s.log).map (fun p => (some p.1, p.2)) ∧
    (d.ran.map fun inv => (inv.callback, inv.addr)) = completed s.log ++ hand

/-- The requests a packet may be sent as. -/
def Sends (Q : BaseRequest Callback → Prop) (pkt : Packet δ) : Prop :=
  Aligned pkt → ∀ callback clk,
    Q { type := callback.type, addr := pkt.addr, arrive := clk, callback := some callback }

/-- **What a request that is sent does**: the memory takes or refuses it. -/
theorem send_eq_ok {req : BaseRequest Callback} {w w' : Wrapper σ} {accepted : Bool}
    (h : w.send C req = .ok (accepted, w')) : req.addr % 64 = 0 ∧ ∃ resp req' memory,
      C.issueRequest req w.memory = .ok (resp, req', memory) ∧ accepted = resp.issued ∧
      w' = { w with memory := memory } := by
  unfold Wrapper.send at h
  split at h
  · simp only [bind_eq_ok, throw_ne_ok, false_and, exists_false] at h
  · rename_i haligned
    simp only [bind_eq_ok, Prod.exists, pure_eq_ok, Prod.mk.injEq] at h
    obtain ⟨resp, req', memory, hissue, rfl, rfl⟩ := h
    exact ⟨not_not.mp haligned, resp, req', memory, hissue, rfl, rfl⟩

namespace Sys.Drives

/-- Nothing that was seen asks the memory or is answered by it. -/
theorem of_silent (seen : List (Obs δ)) (h : s.Drives C Q limit clk₀ d₀ hand)
    (hwrapper : t.wrapper = s.wrapper) (hlog : t.log = s.log ++ seen) (hasked : asked seen = [])
    (hcompleted : completed seen = []) : t.Drives C Q limit clk₀ d₀ hand := by
  obtain ⟨calls, d, hclocked, hrun, hstate, haccepted, hran⟩ := h
  refine ⟨calls, d, hwrapper ▸ hclocked, hrun, hwrapper ▸ hstate, ?_, ?_⟩
  · rw [hlog, asked_append, hasked, List.append_nil]
    exact haccepted
  · rw [hlog, completed_append, hcompleted, List.append_nil]
    exact hran

/-- **A request is sent**, and taken or refused. -/
theorem send {callback : Callback} {accepted : Bool} {wrapper : Wrapper σ} (seen : List (Obs δ))
    (h : s.Drives C Q limit clk₀ d₀ hand) (hQ : Sends Q pkt)
    (hsend : s.wrapper.send C (s.request callback pkt) = .ok (accepted, wrapper))
    (hwrapper : t.wrapper = wrapper) (hlog : t.log = s.log ++ seen)
    (hasked : asked seen = if accepted then [(callback, pkt.addr)] else [])
    (hcompleted : completed seen = []) : t.Drives C Q limit clk₀ d₀ hand := by
  obtain ⟨haligned, resp, req', memory, hissue, rfl, rfl⟩ := send_eq_ok hsend
  obtain ⟨calls, d, hclocked, hrun, hstate, haccepted, hran⟩ := h
  refine ⟨calls ++ [.issueRequest (s.request callback pkt)],
    { d with
      state := memory
      accepted := if resp.issued then d.accepted ++ [s.request callback pkt] else d.accepted },
    ?_, Machine.run_concat.mpr ⟨d, hrun, ?_⟩, ?_, ?_, ?_⟩
  · rw [hwrapper]
    exact hclocked.issueRequest (hQ haligned callback _) rfl
  · simp only [Component.machine, hstate, hissue, ok_bind]
    rfl
  · rw [hwrapper]
  · rw [hlog, asked_append, hasked]
    cases resp.issued with
    | false => simpa using haccepted
    | true =>
        simp only [if_true, List.map_append, haccepted]
        rfl
  · rw [hlog, completed_append, hcompleted, List.append_nil]
    exact hran

/-- **A packet comes**, and is sent on if it is a read or a write. -/
theorem takes {accepted : Bool} (h : s.Drives C Q limit clk₀ d₀ hand) (hQ : Sends Q pkt)
    (htakes : Takes M C s pkt accepted t) : t.Drives C Q limit clk₀ d₀ hand := by
  cases htakes with
  | ignored => exact h
  | refused hstall => exact h.of_silent [.recvTimingReq pkt false] rfl rfl rfl rfl
  | turnedDown hfree hsend =>
      exact h.send [.recvTimingReq pkt false] hQ hsend rfl rfl rfl rfl
  | read hfree hread hsend =>
      refine h.send [.recvTimingReq pkt true] hQ hsend rfl rfl ?_ rfl
      simp [asked, accepts, askedAs, hread]
  | write hfree hread hwrite hsend =>
      refine h.send [.recvTimingReq pkt true, .access pkt (M.access pkt s.store).1] hQ hsend rfl
        ?_ ?_ rfl
      · simp [Sys.accessed]
      · simp [asked, accepts, askedAs, hread, hwrite]
  | other hfree hread hwrite =>
      refine h.of_silent [.recvTimingReq pkt true, .access pkt (M.access pkt s.store).1] rfl
        ?_ ?_ rfl
      · simp [Sys.accessed, Sys.emit]
      · simp [asked, accepts, askedAs, hread, hwrite]

theorem signalIfDone (h : s.Drives C Q limit clk₀ d₀ hand) :
    s.signalIfDone.Drives C Q limit clk₀ d₀ hand := by
  rw [Sys.signalIfDone]
  split
  · exact h.of_silent [.signalDrainDone] rfl rfl rfl rfl
  · exact h

theorem answered {callback : Callback} {addr : Addr} (seen : List (Obs δ))
    (h : s.Drives C Q limit clk₀ d₀ ((callback, addr) :: hand)) (hwrapper : t.wrapper = s.wrapper)
    (hlog : t.log = s.log ++ seen) (hasked : asked seen = [])
    (hcompleted : completed seen = [(callback, addr)]) : t.Drives C Q limit clk₀ d₀ hand := by
  obtain ⟨calls, d, hclocked, hrun, hstate, haccepted, hran⟩ := h
  refine ⟨calls, d, hwrapper ▸ hclocked, hrun, hwrapper ▸ hstate, ?_, ?_⟩
  · rw [hlog, asked_append, hasked, List.append_nil]
    exact haccepted
  · rw [hlog, completed_append, hcompleted, List.append_assoc]
    exact hran

/-- **A callback is answered.** -/
theorem completes {inv : Invocation Callback}
    (h : s.Drives C Q limit clk₀ d₀ ((inv.callback, inv.addr) :: hand))
    (hdone : Completes M s inv t) : t.Drives C Q limit clk₀ d₀ hand := by
  cases hdone with
  | @read pkt reads hcb hpop hpos =>
      rw [hcb] at h
      refine h.answered [.complete .readComplete inv.addr, .access pkt (M.access pkt s.store).1]
        rfl ?_ rfl rfl
      simp [Sys.accessed]
  | write hcb hpop hpos =>
      rw [hcb] at h
      exact signalIfDone (h.answered [.complete .writeComplete inv.addr] rfl rfl rfl rfl)

theorem recvCalls (hQ : ∀ pkt ∈ calls, Sends Q pkt) (h : s.Drives C Q limit clk₀ d₀ hand)
    (hcalls : Gem5.recvCalls M C calls s = .ok t) : t.Drives C Q limit clk₀ d₀ hand :=
  recvCalls_keeps (P := fun s => s.Drives C Q limit clk₀ d₀ hand)
    (fun _ _ _ _ hu hpkt htakes => hu.takes hpkt htakes) hQ h hcalls

/-- The callbacks of a tick are answered. -/
theorem ran : ∀ {ran : List (Invocation Callback)} {s : Sys δ μ σ},
    s.Drives C Q limit clk₀ d₀ (ran.map fun inv => (inv.callback, inv.addr)) →
    ran.foldlM (fun s inv => complete M inv s) s = .ok t → t.Drives C Q limit clk₀ d₀ [] := by
  intro ran
  induction ran with
  | nil =>
      intro s h hran
      obtain rfl := pure_eq_ok.mp hran
      exact h
  | cons inv ran ih =>
      intro s h hran
      rw [List.foldlM_cons, bind_eq_ok] at hran
      obtain ⟨u, hu, hran⟩ := hran
      exact ih (h.completes (complete_completes hu)) hran

/-- **A tick** of the memory, and what follows it. -/
theorem tick {visit : Visit} (hQ : ∀ pkt ∈ calls, Sends Q pkt)
    (hclk : s.wrapper.currClk.toNat < limit) (h : s.Drives C Q limit clk₀ d₀ [])
    (htick : Gem5.tick M C visit calls s = .ok t) : t.Drives C Q limit clk₀ d₀ [] := by
  obtain ⟨wrapper, ran, u, v, hmemory, hran, hcalls, rfl⟩ := tick_eq_ok htick
  obtain ⟨calls', d, hclocked, hrun, hstate, haccepted, hran'⟩ := h
  simp only [Wrapper.tick, bind_eq_ok, Prod.exists, pure_eq_ok, Prod.mk.injEq] at hmemory
  obtain ⟨memory, ran', hticked, rfl, rfl⟩ := hmemory
  have hdrives : Sys.Drives C Q limit clk₀ d₀ (ran'.map fun inv => (inv.callback, inv.addr))
      { s with wrapper := { s.wrapper with
          memory := memory
          currClk := s.wrapper.currClk + 1 } } := by
    refine ⟨calls' ++ [.tick visit s.wrapper.currClk],
      { d with state := memory, ran := d.ran ++ ran' }, hclocked.tick hclk,
      Machine.run_concat.mpr ⟨d, hrun, ?_⟩, rfl, haccepted, ?_⟩
    · simp only [Component.machine, hstate, hticked, ok_bind]
      rfl
    · rw [List.map_append, hran', List.append_nil]
  have hretried : u.retried.Drives C Q limit clk₀ d₀ [] := by
    have hu := hdrives.ran hran
    rw [Sys.retried]
    split
    · exact hu.of_silent [.sendRetryReq] rfl rfl rfl rfl
    · exact hu
  have hQ' : ∀ pkt ∈ if u.reqStall then calls else [], Sends Q pkt := by
    split
    · exact hQ
    · exact fun _ h => absurd h List.not_mem_nil
  exact (hretried.recvCalls hQ' hcalls).of_silent [] rfl (List.append_nil _).symm rfl rfl

theorem sendResponse {taken : Bool} (hQ : ∀ pkt ∈ calls, Sends Q pkt)
    (h : s.Drives C Q limit clk₀ d₀ []) (hsend : Gem5.sendResponse M C taken calls s = .ok t) :
    t.Drives C Q limit clk₀ d₀ [] := by
  obtain ⟨-, pkt, rest, u, -, hcalls, rfl⟩ := sendResponse_eq_ok hsend
  have hu := h.recvCalls hQ hcalls
  cases taken with
  | false => exact hu.of_silent [.sendTimingResp pkt false] rfl rfl rfl rfl
  | true =>
      rw [Sys.sent, if_pos rfl]
      exact signalIfDone (hu.of_silent [.sendTimingResp pkt true] rfl rfl rfl rfl)

/-- **Every event** leaves the memory driven. -/
theorem step {ev : Event δ} (hQ : ∀ pkt ∈ ev.requests, Sends Q pkt)
    (hclk : ∀ visit calls, ev = .tick visit calls → s.wrapper.currClk.toNat < limit)
    (h : s.Drives C Q limit clk₀ d₀ [])
    (hstep : (machine M C).step s ev = .ok t) : t.Drives C Q limit clk₀ d₀ [] := by
  cases ev with
  | advance time =>
      obtain rfl := pure_eq_ok.mp hstep
      exact h.of_silent [] rfl (List.append_nil _).symm rfl rfl
  | tick visit calls =>
      refine tick (s := { s with tickEvent := none }) hQ (hclk visit calls rfl) ?_ hstep
      exact h.of_silent [] rfl (List.append_nil _).symm rfl rfl
  | sendResponse taken calls =>
      refine sendResponse (s := { s with sendRespEvent := none }) hQ ?_ hstep
      exact h.of_silent [] rfl (List.append_nil _).symm rfl rfl
  | recvTimingReq pkt =>
      simp only [machine, bind_eq_ok, Prod.exists, pure_eq_ok] at hstep
      obtain ⟨accepted, u, hrecv, rfl⟩ := hstep
      exact h.takes (hQ pkt (List.mem_singleton.mpr rfl)) (recvTimingReq_takes hrecv)
  | recvRespRetry taken calls =>
      simp only [machine, recvRespRetry] at hstep
      split at hstep
      · simp only [bind_eq_ok, throw_ne_ok, false_and, exists_false] at hstep
      · refine sendResponse (s := { s with respStall := false }) hQ ?_ hstep
        exact h.of_silent [] rfl (List.append_nil _).symm rfl rfl
  | recvAtomic pkt =>
      obtain rfl := pure_eq_ok.mp hstep
      exact h.of_silent [.recvAtomic pkt (M.access pkt s.store).1] rfl rfl rfl rfl
  | recvFunctional pkt =>
      obtain rfl := pure_eq_ok.mp hstep
      exact h.of_silent [.recvFunctional pkt _] rfl rfl rfl rfl
  | drain =>
      obtain rfl := pure_eq_ok.mp hstep
      exact h.of_silent [.drain _] rfl rfl rfl rfl

/-- **A run** leaves the memory driven. -/
theorem run {P : Sys δ μ σ → Event δ → Prop} {es : List (Event δ)}
    (hP : ∀ s ev, P s ev → (∀ pkt ∈ ev.requests, Sends Q pkt) ∧
      ∀ visit calls, ev = .tick visit calls → s.wrapper.currClk.toNat < limit)
    (h : s.Drives C Q limit clk₀ d₀ []) (hmeets : (machine M C).Meets P s es)
    (hrun : (machine M C).run s es = .ok t) : t.Drives C Q limit clk₀ d₀ [] :=
  Machine.invariant_of_meets
    (fun s ev _ h hev hstep => h.step (hP s ev hev).1 (hP s ev hev).2 hstep) h hmeets hrun

theorem new {memory : σ} {store : μ} {ticksPerClk clockEdge : Tick}
    (hnew : Sys.new memory store ticksPerClk clockEdge = .ok s) :
    s.Drives C Q limit 0 { state := memory } [] := by
  obtain rfl := Sys.new_eq_ok hnew
  exact ⟨[], { state := memory }, .nil, rfl, rfl, rfl, rfl⟩

/-- What was seen of the memory by now is where a driver may go on from. -/
theorem goOn (Q' : BaseRequest Callback → Prop) (h : s.Drives C Q limit clk₀ d₀ []) :
    ∃ d, d.state = s.wrapper.memory ∧ s.Drives C Q' limit s.wrapper.currClk d [] := by
  obtain ⟨calls, d, -, -, hstate, haccepted, hran⟩ := h
  exact ⟨d, hstate, [], d, .nil, rfl, hstate, haccepted, hran⟩

end Sys.Drives

/-- What the object asks: for a line, with a callback for what it asks. -/
def FromPort (req : BaseRequest Callback) : Prop :=
  req.addr % 64 = 0 ∧ ∃ callback, req.callback = some callback ∧ req.type = callback.type

variable {memory : σ} {store : μ} {ticksPerClk clockEdge : Tick} {s₀ : Sys δ μ σ}
  {es : List (Event δ)}

theorem sends_fromPort : Sends FromPort pkt :=
  fun haligned callback _ => ⟨haligned, callback, rfl, rfl⟩

/-- **The front end refines a clocked driver.** In every run, over
whatever memory, and whatever the peer does, the memory is in the state a
run of its own leaves it in: of one tick for each clock, and of requests
of lines, which have the clock of the next tick and a callback for what
they ask. The requests it took are those of the packets that were taken,
and the callbacks it ran are those that were answered, in their order. -/
theorem memory_is_driven (hnew : Sys.new memory store ticksPerClk clockEdge = .ok s₀)
    (hrun : (machine M C).run s₀ es = .ok s) :
    ∃ calls d, Clocked FromPort (2 ^ 64) 0 calls s.wrapper.currClk ∧
      C.machine.run { state := memory } calls = .ok d ∧ d.state = s.wrapper.memory ∧
      d.accepted.map askedFor = (asked s.log).map (fun p => (some p.1, p.2)) ∧
      (d.ran.map fun inv => (inv.callback, inv.addr)) = completed s.log := by
  obtain ⟨calls, d, hclocked, hdriven, hstate, haccepted, hran⟩ :=
    Machine.invariant (M := machine M C)
      (P := Sys.Drives C FromPort (2 ^ 64) 0 { state := memory } [])
      (fun _ _ _ h => h.step (fun _ _ => sends_fromPort) fun _ _ _ => UInt64.toNat_lt _)
      (.new hnew) hrun
  exact ⟨calls, d, hclocked, hdriven, hstate, haccepted, hran.trans (List.append_nil _)⟩

/-- The memory of a write and a read took the two requests, and ran both
callbacks. -/
theorem memory_is_driven_writeRead : ∃ (s₀ s : Sys ℕ (Addr → ℕ) (Option (BaseRequest Callback)))
    (calls : List (Call Callback)) (d : Driven Callback (Option (BaseRequest Callback))),
    emptyCells = .ok s₀ ∧ (machine cells onePlace).run s₀ writeRead = .ok s ∧
      Clocked FromPort (2 ^ 64) 0 calls 2 ∧ onePlace.machine.run { state := none } calls = .ok d ∧
      d.accepted.map askedFor = [(some .writeComplete, 64), (some .readComplete, 64)] ∧
      (d.ran.map fun inv => (inv.callback, inv.addr)) =
        [(.writeComplete, 64), (.readComplete, 64)] := by
  obtain ⟨s₀, s, hnew, hrun, hclk, hasked, hcompleted⟩ :
      ∃ s₀ s : Sys ℕ (Addr → ℕ) (Option (BaseRequest Callback)), emptyCells = .ok s₀ ∧
        (machine cells onePlace).run s₀ writeRead = .ok s ∧ s.wrapper.currClk = 2 ∧
        asked s.log = [(.writeComplete, 64), (.readComplete, 64)] ∧
        completed s.log = [(.writeComplete, 64), (.readComplete, 64)] :=
    ⟨_, _, rfl, rfl, by decide, by decide, by decide⟩
  obtain ⟨calls, d, hclocked, hdriven, -, haccepted, hran⟩ := memory_is_driven hnew hrun
  rw [hclk] at hclocked
  rw [hasked] at haccepted
  rw [hcompleted] at hran
  exact ⟨s₀, s, calls, d, hnew, hrun, hclocked, hdriven, haccepted, hran⟩

end Gem5

end Vans
