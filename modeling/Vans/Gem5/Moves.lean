import Vans.Gem5.Model
/-!
# The gem5 front end — its moves

What a packet, a callback and an answer of the peer do to the memory
object, said once; every event of a run is a sequence of these moves, and
what they keep the runs keep.
-/

namespace Vans

namespace Gem5

variable {δ μ σ : Type}

/-! ## Accessing a packet -/

/-- The delays are paid by when the response is sent. -/
def Packet.undelayed (pkt : Packet δ) : Packet δ := { pkt with headerDelay := 0, payloadDelay := 0 }

/-- The responses an access makes. -/
def responses (pkt accessed : Packet δ) : List (Packet δ) :=
  if pkt.needsResponse then [accessed.undelayed] else []

/-- The state once the packet was accessed. -/
def Sys.accessed (M : AbstractMemory δ μ) (pkt : Packet δ) (s : Sys δ μ σ) : Sys δ μ σ :=
  { s with
    store := (M.access pkt s.store).2
    log := s.log ++ [.access pkt (M.access pkt s.store).1]
    respQueue := s.respQueue ++ responses pkt (M.access pkt s.store).1
    sendRespEvent :=
      if pkt.needsResponse && !s.respStall && s.sendRespEvent.isNone then
        some (s.curTick + (M.access pkt s.store).1.headerDelay
          + (M.access pkt s.store).1.payloadDelay)
      else s.sendRespEvent }

/-- The access makes a response of the packet, if it is to have one. -/
def Answered (M : AbstractMemory δ μ) (pkt : Packet δ) : Prop :=
  ∀ store, pkt.needsResponse → (M.access pkt store).1.isResponse

/-- **What an access does**, and when it is done. -/
theorem accessAndRespond_eq {M : AbstractMemory δ μ} {pkt : Packet δ} {s : Sys δ μ σ} :
    accessAndRespond M pkt s =
      if pkt.needsResponse && !(M.access pkt s.store).1.isResponse then
        .error "Assertion failed: pkt->isResponse()"
      else .ok (s.accessed M pkt) := by
  obtain ⟨accessed, store, hacc⟩ : ∃ accessed store, M.access pkt s.store = (accessed, store) :=
    ⟨_, _, rfl⟩
  simp only [accessAndRespond, Sys.accessed, responses, hacc]
  cases hneeds : pkt.needsResponse with
  | false => simp [Sys.emit, pure, Except.pure]
  | true =>
      cases hresp : accessed.isResponse with
      | false => rfl
      | true =>
          rcases s with ⟨_, _, _, _, _, _, _, _ | _, _, _ | _, _, _, _⟩ <;>
            simp [Sys.emit, Sys.scheduleResp, schedule, Packet.undelayed, hresp, Nat.add_assoc]

theorem accessAndRespond_eq_ok {M : AbstractMemory δ μ} {pkt : Packet δ} {s t : Sys δ μ σ} :
    accessAndRespond M pkt s = .ok t ↔
      (pkt.needsResponse → (M.access pkt s.store).1.isResponse) ∧ t = s.accessed M pkt := by
  rw [accessAndRespond_eq]
  split
  · rename_i h
    simp_all
  · rename_i h
    rw [Except.ok.injEq, eq_comm]
    simp_all

/-! ## The moves -/

def Callback.type : Callback → BaseRequestType
  | .readComplete => .read
  | .writeComplete => .write

/-- The request a packet is sent as. -/
def Sys.request (callback : Callback) (pkt : Packet δ) (s : Sys δ μ σ) : BaseRequest Callback :=
  { type := callback.type, addr := pkt.addr, arrive := s.wrapper.currClk
    callback := some callback }

/-- **What becomes of a packet** that comes. -/
inductive Takes (M : AbstractMemory δ μ) (C : Component Callback σ) (s : Sys δ μ σ)
    (pkt : Packet δ) : Bool → Sys δ μ σ → Prop
  | ignored (hcache : pkt.cacheResponding) : Takes M C s pkt true s
  /-- A packet before it was refused. -/
  | refused (hstall : s.reqStall) : Takes M C s pkt false (s.emit (.recvTimingReq pkt false))
  /-- The memory refuses it. -/
  | turnedDown {callback : Callback} {wrapper : Wrapper σ} (hfree : s.reqStall = false)
      (hsend : s.wrapper.send C (s.request callback pkt) = .ok (false, wrapper)) :
      Takes M C s pkt false
        { s with
          wrapper := wrapper
          reqStall := true
          log := s.log ++ [.recvTimingReq pkt false] }
  | read {wrapper : Wrapper σ} (hfree : s.reqStall = false) (hread : pkt.isRead)
      (hsend : s.wrapper.send C (s.request .readComplete pkt) = .ok (true, wrapper)) :
      Takes M C s pkt true
        { s with
          wrapper := wrapper
          reads := s.reads.push pkt.addr pkt
          reqsInFlight := s.reqsInFlight + 1
          log := s.log ++ [.recvTimingReq pkt true] }
  | write {wrapper : Wrapper σ} (hfree : s.reqStall = false) (hread : pkt.isRead = false)
      (hwrite : pkt.isWrite)
      (hsend : s.wrapper.send C (s.request .writeComplete pkt) = .ok (true, wrapper)) :
      Takes M C s pkt true
        (({ s with
          wrapper := wrapper
          writes := s.writes.push pkt.addr pkt
          reqsInFlight := s.reqsInFlight + 1
          log := s.log ++ [.recvTimingReq pkt true] } : Sys δ μ σ).accessed M pkt)
  /-- It is neither a read nor a write. -/
  | other (hfree : s.reqStall = false) (hread : pkt.isRead = false) (hwrite : pkt.isWrite = false) :
      Takes M C s pkt true ((s.emit (.recvTimingReq pkt true)).accessed M pkt)

/-- **What a callback does.** -/
inductive Completes (M : AbstractMemory δ μ) (s : Sys δ μ σ) (inv : Invocation Callback) :
    Sys δ μ σ → Prop
  | read {pkt : Packet δ} {reads : Fifos Addr (Packet δ)} (hcb : inv.callback = .readComplete)
      (hpop : s.reads.pop inv.addr = some (pkt, reads)) (hpos : 0 < s.reqsInFlight) :
      Completes M s inv
        (({ s with
          reads := reads
          reqsInFlight := s.reqsInFlight - 1
          log := s.log ++ [.complete .readComplete inv.addr] } : Sys δ μ σ).accessed M pkt)
  | write {pkt : Packet δ} {writes : Fifos Addr (Packet δ)} (hcb : inv.callback = .writeComplete)
      (hpop : s.writes.pop inv.addr = some (pkt, writes)) (hpos : 0 < s.reqsInFlight) :
      Completes M s inv
        (({ s with
          writes := writes
          reqsInFlight := s.reqsInFlight - 1
          log := s.log ++ [.complete .writeComplete inv.addr] } : Sys δ μ σ).signalIfDone)

/-- **What the peer's answer to a response does.** -/
def Sys.sent (pkt : Packet δ) (taken : Bool) (s : Sys δ μ σ) : Sys δ μ σ :=
  if taken then
    ({ s with
      respQueue := s.respQueue.tail
      sendRespEvent :=
        if !s.respQueue.tail.isEmpty && s.sendRespEvent.isNone then some s.curTick
        else s.sendRespEvent
      log := s.log ++ [.sendTimingResp pkt true] } : Sys δ μ σ).signalIfDone
  else { s with respStall := true, log := s.log ++ [.sendTimingResp pkt false] }

/-- A signal is seen, and nothing else. -/
theorem signalIfDone_eq {s : Sys δ μ σ} :
    s.signalIfDone = { s with log := s.signalIfDone.log } := by
  rw [Sys.signalIfDone]
  split <;> rfl

/-- The moves. `Q` restricts the packets that come. -/
inductive Move (M : AbstractMemory δ μ) (C : Component Callback σ) (Q : Packet δ → Prop)
    (s : Sys δ μ σ) : Sys δ μ σ → Prop
  | takes {pkt : Packet δ} {accepted : Bool} {t : Sys δ μ σ} (hQ : Q pkt)
      (h : Takes M C s pkt accepted t) : Move M C Q s t
  | completes {inv : Invocation Callback} {t : Sys δ μ σ} (h : Completes M s inv t) : Move M C Q s t
  | sends {pkt : Packet δ} {rest : List (Packet δ)} {taken : Bool} (hfree : s.respStall = false)
      (hqueue : s.respQueue = pkt :: rest) : Move M C Q s (s.sent pkt taken)
  | retries (hstall : s.reqStall) :
      Move M C Q s { s with reqStall := false, log := s.log ++ [.sendRetryReq] }
  /-- The peer is ready for responses again. -/
  | resumes (hstall : s.respStall) : Move M C Q s { s with respStall := false }
  /-- The memory ticks. -/
  | memory {wrapper : Wrapper σ} : Move M C Q s { s with wrapper := wrapper }
  /-- An event fires or is scheduled, or time goes on. -/
  | clock {curTick : Tick} {tickEvent sendRespEvent : Option Tick} :
      Move M C Q s
        { s with curTick := curTick, tickEvent := tickEvent, sendRespEvent := sendRespEvent }
  | atomic {pkt : Packet δ} : Move M C Q s (recvAtomic M pkt s).2
  | functional {pkt : Packet δ} : Move M C Q s (recvFunctional M pkt s)
  | drain : Move M C Q s (drain s)

abbrev Moves (M : AbstractMemory δ μ) (C : Component Callback σ) (Q : Packet δ → Prop) :
    Sys δ μ σ → Sys δ μ σ → Prop :=
  Relation.ReflTransGen (Move M C Q)

/-! ## The functions -/

section Functions

variable {M : AbstractMemory δ μ} {C : Component Callback σ} {Q : Packet δ → Prop}
  {s t u : Sys δ μ σ} {pkt : Packet δ} {calls : List (Packet δ)}

theorem recvTimingReq_takes {accepted : Bool} (h : recvTimingReq M C pkt s = .ok (accepted, t)) :
    Takes M C s pkt accepted t := by
  unfold recvTimingReq at h
  split at h
  · rename_i hcache
    obtain ⟨rfl, rfl⟩ := Prod.mk.inj (pure_eq_ok.mp h)
    exact .ignored hcache
  · split at h
    · rename_i hstall
      obtain ⟨rfl, rfl⟩ := Prod.mk.inj (pure_eq_ok.mp h)
      exact .refused hstall
    · rename_i hfree
      have hfree : s.reqStall = false := by simpa using hfree
      split at h
      · rename_i hread
        simp only [bind_eq_ok, Prod.exists] at h
        obtain ⟨accepted', wrapper, hsend, h⟩ := h
        split at h
        · rename_i hyes
          obtain ⟨rfl, rfl⟩ := Prod.mk.inj (pure_eq_ok.mp h)
          subst hyes
          exact .read hfree hread hsend
        · rename_i hno
          obtain ⟨rfl, rfl⟩ := Prod.mk.inj (pure_eq_ok.mp h)
          obtain rfl : accepted' = false := by simpa using hno
          exact @Takes.turnedDown _ _ _ M C s pkt .readComplete _ hfree hsend
      · rename_i hread
        have hread : pkt.isRead = false := by simpa using hread
        split at h
        · rename_i hwrite
          simp only [bind_eq_ok, Prod.exists] at h
          obtain ⟨accepted', wrapper, hsend, h⟩ := h
          split at h
          · rename_i hyes
            subst hyes
            simp only [bind_eq_ok, pure_eq_ok, Prod.mk.injEq] at h
            obtain ⟨v, haccess, rfl, rfl⟩ := h
            obtain ⟨-, rfl⟩ := accessAndRespond_eq_ok.mp haccess
            exact .write hfree hread hwrite hsend
          · rename_i hno
            obtain ⟨rfl, rfl⟩ := Prod.mk.inj (pure_eq_ok.mp h)
            obtain rfl : accepted' = false := by simpa using hno
            exact @Takes.turnedDown _ _ _ M C s pkt .writeComplete _ hfree hsend
        · rename_i hwrite
          simp only [bind_eq_ok, pure_eq_ok, Prod.mk.injEq] at h
          obtain ⟨v, haccess, rfl, rfl⟩ := h
          obtain ⟨-, rfl⟩ := accessAndRespond_eq_ok.mp haccess
          exact .other hfree hread (by simpa using hwrite)

/-- **The requests of one call**, and what each keeps they keep. -/
theorem recvCalls_keeps {P : Sys δ μ σ → Prop}
    (htakes : ∀ u pkt accepted v, P u → Q pkt → Takes M C u pkt accepted v → P v)
    (hQ : ∀ pkt ∈ calls, Q pkt) (hs : P s) (h : recvCalls M C calls s = .ok t) : P t := by
  unfold recvCalls at h
  induction calls generalizing s with
  | nil =>
      obtain rfl := pure_eq_ok.mp h
      exact hs
  | cons pkt calls ih =>
      obtain ⟨hpkt, hcalls⟩ := List.forall_mem_cons.mp hQ
      rw [List.foldlM_cons, bind_eq_ok] at h
      obtain ⟨v, hv, h⟩ := h
      simp only [bind_eq_ok, Prod.exists, pure_eq_ok] at hv
      obtain ⟨accepted, v', hrecv, rfl⟩ := hv
      exact ih hcalls (htakes _ _ _ _ hs hpkt (recvTimingReq_takes hrecv)) h

theorem recvCalls_moves (hQ : ∀ pkt ∈ calls, Q pkt) (h : recvCalls M C calls s = .ok t) :
    Moves M C Q s t :=
  recvCalls_keeps (P := Moves M C Q s) (fun _ _ _ _ hu hpkt htakes => hu.tail (.takes hpkt htakes))
    hQ .refl h

/-- A packet that comes leaves the responses that wait, and those that
come wait behind. -/
theorem Takes.queue {accepted : Bool} (h : Takes M C s pkt accepted t) :
    (∃ new, t.respQueue = s.respQueue ++ new) ∧ t.respStall = s.respStall := by
  cases h with
  | ignored | refused | turnedDown | read => exact ⟨⟨[], (List.append_nil _).symm⟩, rfl⟩
  | write | other => exact ⟨⟨_, rfl⟩, rfl⟩

theorem recvCalls_queue (h : recvCalls M C calls s = .ok t) :
    (∃ new, t.respQueue = s.respQueue ++ new) ∧ t.respStall = s.respStall := by
  refine recvCalls_keeps (Q := fun _ => True)
    (P := fun u => (∃ new, u.respQueue = s.respQueue ++ new) ∧ u.respStall = s.respStall)
    (fun u pkt accepted v ⟨⟨new, hu⟩, hstall⟩ _ htakes => ?_) (fun _ _ => trivial)
    ⟨⟨[], (List.append_nil _).symm⟩, rfl⟩ h
  obtain ⟨⟨new', hv⟩, hstall'⟩ := htakes.queue
  refine ⟨⟨new ++ new', ?_⟩, hstall'.trans hstall⟩
  rw [hv, hu, List.append_assoc]

/-- **Sending a response**: the peer's requests come first, and then its
answer. -/
theorem sendResponse_eq {taken : Bool} {rest : List (Packet δ)} (hfree : s.respStall = false)
    (hqueue : s.respQueue = pkt :: rest) : sendResponse M C taken calls s =
      recvCalls M C calls s >>= fun u => pure (u.sent pkt taken) := by
  simp only [sendResponse, hfree, Bool.false_eq_true, if_false, hqueue]
  refine congrArg (recvCalls M C calls s >>= ·) (funext fun u => ?_)
  rw [Sys.sent]
  cases taken with
  | false => rfl
  | true =>
      cases htail : u.respQueue.tail.isEmpty <;> cases hevent : u.sendRespEvent <;>
        simp [Sys.emit, Sys.scheduleResp, schedule, htail, hevent]

theorem sendResponse_eq_ok {taken : Bool} (h : sendResponse M C taken calls s = .ok t) :
    s.respStall = false ∧ ∃ pkt rest u, s.respQueue = pkt :: rest ∧
      recvCalls M C calls s = .ok u ∧ t = u.sent pkt taken := by
  cases hstall : s.respStall with
  | true =>
      simp only [sendResponse, hstall, if_true, bind_eq_ok, throw_ne_ok, false_and, exists_false]
        at h
  | false =>
      cases hqueue : s.respQueue with
      | nil =>
          simp only [sendResponse, hstall, Bool.false_eq_true, if_false, hqueue, throw_ne_ok] at h
      | cons pkt rest =>
          rw [sendResponse_eq hstall hqueue, bind_eq_ok] at h
          obtain ⟨u, hcalls, h⟩ := h
          exact ⟨rfl, pkt, rest, u, rfl, hcalls, (pure_eq_ok.mp h).symm⟩

theorem complete_completes {inv : Invocation Callback} (h : complete M inv s = .ok t) :
    Completes M s inv t := by
  unfold complete at h
  split at h
  · rename_i hcb
    rw [readComplete] at h
    split at h
    · exact absurd h throw_ne_ok
    · rename_i pkt reads hpop
      split at h
      · simp only [bind_eq_ok, throw_ne_ok, false_and, exists_false] at h
      · rename_i hpos
        obtain ⟨-, rfl⟩ := accessAndRespond_eq_ok.mp h
        exact .read hcb hpop (Nat.pos_of_ne_zero hpos)
  · rename_i hcb
    rw [writeComplete] at h
    split at h
    · exact absurd h throw_ne_ok
    · rename_i pkt writes hpop
      split at h
      · simp only [bind_eq_ok, throw_ne_ok, false_and, exists_false] at h
      · rename_i hpos
        obtain rfl := pure_eq_ok.mp h
        exact .write hcb hpop (Nat.pos_of_ne_zero hpos)

/-- The tick's own event is scheduled again. -/
def Sys.ticked (s : Sys δ μ σ) : Sys δ μ σ :=
  { s with tickEvent := some (s.curTick + s.ticksPerClk) }

/-- The peer is told to try again, if it was refused. -/
def Sys.retried (s : Sys δ μ σ) : Sys δ μ σ :=
  if s.reqStall then { s with reqStall := false, log := s.log ++ [.sendRetryReq] } else s

/-- **A tick**: the memory ticks, its callbacks are run, and the peer is
told to try again, if it was refused. -/
theorem tick_eq_ok {visit : Visit} (h : tick M C visit calls s = .ok t) :
    ∃ wrapper ran u v, s.wrapper.tick C visit = .ok (wrapper, ran) ∧
      ran.foldlM (fun s inv => complete M inv s) { s with wrapper := wrapper } = .ok u ∧
      recvCalls M C (if u.reqStall then calls else []) u.retried = .ok v ∧ t = v.ticked := by
  simp only [tick, bind_eq_ok, Prod.exists] at h
  obtain ⟨wrapper, ran, htick, u, hran, h⟩ := h
  have hevent : ∀ {v : Sys δ μ σ} {event : Option Tick},
      schedule v.tickEvent (v.curTick + v.ticksPerClk) v.curTick = .ok event →
      event = some (v.curTick + v.ticksPerClk) := by
    intro v event hevent
    unfold schedule at hevent
    split at hevent
    · exact absurd hevent throw_ne_ok
    · split at hevent
      · exact absurd hevent throw_ne_ok
      · exact (pure_eq_ok.mp hevent).symm
  split at h
  · rename_i hstall
    simp only [bind_eq_ok, pure_eq_ok] at h
    obtain ⟨v, hcalls, event, hsched, rfl⟩ := h
    refine ⟨wrapper, ran, u, v, htick, hran, ?_, by rw [hevent hsched]; rfl⟩
    rw [Sys.retried, if_pos hstall, if_pos hstall]
    exact hcalls
  · rename_i hfree
    simp only [bind_eq_ok, pure_eq_ok] at h
    obtain ⟨v, rfl, event, hsched, rfl⟩ := h
    refine ⟨wrapper, ran, u, u, htick, hran, ?_, by rw [hevent hsched]; rfl⟩
    rw [Sys.retried, if_neg hfree, if_neg hfree]
    rfl

end Functions

/-! ## Runs -/

/-- An object as it was made: nothing was seen yet. -/
theorem Sys.new_eq_ok {memory : σ} {store : μ} {ticksPerClk clockEdge : Tick} {s : Sys δ μ σ}
    (h : Sys.new memory store ticksPerClk clockEdge = .ok s) :
    s = { wrapper := { memory := memory }, store := store, ticksPerClk := ticksPerClk
          tickEvent := some clockEdge } := by
  simp only [Sys.new, Sys.startup, bind_eq_ok, pure_eq_ok] at h
  obtain ⟨event, hevent, rfl⟩ := h
  simp only [schedule, Option.isSome_none, Bool.false_eq_true, if_false, Nat.not_lt_zero,
    pure_eq_ok] at hevent
  rw [← hevent]

/-- The packets that come with an event. -/
def Event.requests : Event δ → List (Packet δ)
  | .recvTimingReq pkt => [pkt]
  | .tick _ calls | .sendResponse _ calls | .recvRespRetry _ calls => calls
  | .advance _ | .recvAtomic _ | .recvFunctional _ | .drain => []

section Runs

variable {M : AbstractMemory δ μ} {C : Component Callback σ} {Q : Packet δ → Prop}
  {s t u : Sys δ μ σ} {calls : List (Packet δ)} {ev : Event δ}

theorem sendResponse_moves {taken : Bool} (hQ : ∀ pkt ∈ calls, Q pkt)
    (h : sendResponse M C taken calls s = .ok t) : Moves M C Q s t := by
  obtain ⟨hfree, pkt, rest, u, hqueue, hcalls, rfl⟩ := sendResponse_eq_ok h
  obtain ⟨⟨new, hnew⟩, hstall⟩ := recvCalls_queue hcalls
  have hqueue' : u.respQueue = pkt :: (rest ++ new) := by rw [hnew, hqueue, List.cons_append]
  exact (recvCalls_moves hQ hcalls).tail (.sends (hstall.trans hfree) hqueue')

theorem tick_moves {visit : Visit} (hQ : ∀ pkt ∈ calls, Q pkt)
    (h : tick M C visit calls s = .ok t) : Moves M C Q s t := by
  obtain ⟨wrapper, ran, u, v, -, hran, hcalls, rfl⟩ := tick_eq_ok h
  have hcompleted : Moves M C Q s u :=
    foldlM_keeps (P := Moves M C Q s)
      (fun _ _ _ hu hv => hu.tail (.completes (complete_completes hv)))
      (Relation.ReflTransGen.single .memory) hran
  have hretried : Moves M C Q s u.retried := by
    rw [Sys.retried]
    split
    · rename_i hstall
      exact hcompleted.tail (.retries hstall)
    · exact hcompleted
  have hQ' : ∀ pkt ∈ if u.reqStall then calls else [], Q pkt := by
    split
    · exact hQ
    · exact fun _ h => absurd h List.not_mem_nil
  exact (hretried.trans (recvCalls_moves hQ' hcalls)).tail .clock

/-- **Every event is a sequence of moves.** -/
theorem step_moves (hQ : ∀ pkt ∈ ev.requests, Q pkt) (h : (machine M C).step s ev = .ok t) :
    Moves M C Q s t := by
  cases ev with
  | advance time =>
      obtain rfl := pure_eq_ok.mp h
      exact .single .clock
  | tick visit calls => exact .head .clock (tick_moves hQ h)
  | sendResponse taken calls => exact .head .clock (sendResponse_moves hQ h)
  | recvTimingReq pkt =>
      simp only [machine, bind_eq_ok, Prod.exists, pure_eq_ok] at h
      obtain ⟨accepted, u, hrecv, rfl⟩ := h
      exact .single (.takes (hQ pkt (List.mem_singleton.mpr rfl)) (recvTimingReq_takes hrecv))
  | recvRespRetry taken calls =>
      cases hstall : s.respStall with
      | false =>
          simp only [machine, recvRespRetry, hstall, Bool.not_false, if_true, bind_eq_ok,
            throw_ne_ok, false_and, exists_false] at h
      | true =>
          simp only [machine, recvRespRetry, hstall, Bool.not_true, Bool.false_eq_true,
            if_false] at h
          exact .head (.resumes hstall) (sendResponse_moves hQ h)
  | recvAtomic pkt =>
      obtain rfl := pure_eq_ok.mp h
      exact .single .atomic
  | recvFunctional pkt =>
      obtain rfl := pure_eq_ok.mp h
      exact .single .functional
  | drain =>
      obtain rfl := pure_eq_ok.mp h
      exact .single .drain

/-- **What the moves keep, the runs keep**, whose packets all come under
the condition. -/
theorem run_keeps {P : Sys δ μ σ → Prop} (hmove : ∀ s t, P s → Move M C Q s t → P t)
    {es : List (Event δ)} (hQ : ∀ ev ∈ es, ∀ pkt ∈ ev.requests, Q pkt) (hs : P s)
    (h : (machine M C).run s es = .ok t) : P t :=
  (machine M C).invariant_of_meets (C := fun _ ev => ∀ pkt ∈ ev.requests, Q pkt)
    (fun _ _ _ hu hev hv => reflTransGen_keeps hmove (step_moves hev hv) hu) hs
    (Machine.meets_of_forall_mem hQ) h

end Runs

end Gem5

end Vans
