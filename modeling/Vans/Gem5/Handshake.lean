import Vans.Gem5.Packets
/-!
# The gem5 front end — its handshakes

A request the memory has no room for is refused, and so is every other
until the peer was told to try again, which the next tick does. A drain
that finds something outstanding is answered when nothing is any more.
A response that is refused stops the others until the peer is ready.
-/

namespace Vans

namespace Gem5

variable {δ μ σ : Type} {M : AbstractMemory δ μ} {C : Component Callback σ} {Q : Packet δ → Prop}
  {s₀ s t : Sys δ μ σ} {memory : σ} {store : μ} {ticksPerClk clockEdge : Tick}
  {es : List (Event δ)} {pkt : Packet δ} {o : Obs δ}

/-! ## Requests that are refused -/

def refuses : Obs δ → Prop
  | .recvTimingReq _ false => True
  | _ => False

def retries : Obs δ → Prop
  | .sendRetryReq => True
  | _ => False

/-- A peer is told to try again where it was refused, and nothing is
taken before. -/
def InTurn (before : List (Obs δ)) : Obs δ → Prop
  | .sendRetryReq => History.Owes refuses retries before
  | .recvTimingReq _ true => ¬ History.Owes refuses retries before
  | _ => True

/-- **What a refusal stops**, until it was answered. -/
structure Sys.Retrying (s : Sys δ μ σ) : Prop where
  owes : s.reqStall = true ↔ History.Owes refuses retries s.log
  inTurn : History.Always InTurn s.log

namespace Sys.Retrying

/-- What is seen neither refuses nor tells to try again. -/
theorem emit (h : s.Retrying) (hstall : t.reqStall = s.reqStall) (hlog : t.log = s.log ++ [o])
    (hno : ¬ refuses o ∧ ¬ retries o) (ho : InTurn s.log o) : t.Retrying := by
  refine ⟨?_, ?_⟩
  · rw [hstall, hlog, History.owes_concat, h.owes]
    exact ⟨fun hold => .inr ⟨hold, hno.2⟩, fun hnew => (hnew.resolve_left hno.1).1⟩
  · rw [hlog]
    exact History.always_concat.mpr ⟨h.inTurn, ho⟩

/-- **A packet is refused.** -/
theorem refuse (h : s.Retrying) (hstall : t.reqStall = true)
    (hlog : t.log = s.log ++ [.recvTimingReq pkt false]) : t.Retrying := by
  refine ⟨?_, ?_⟩
  · rw [hlog, History.owes_concat]
    exact ⟨fun _ => .inl trivial, fun _ => hstall⟩
  · rw [hlog]
    exact History.always_concat.mpr ⟨h.inTurn, trivial⟩

theorem accessed (h : s.Retrying) : (s.accessed M pkt).Retrying :=
  h.emit rfl rfl ⟨id, id⟩ trivial

theorem signalIfDone (h : s.Retrying) : s.signalIfDone.Retrying := by
  rw [Sys.signalIfDone]
  split
  · exact h.emit rfl rfl ⟨id, id⟩ trivial
  · exact h

theorem move (h : s.Retrying) (hm : Move M C Q s t) : t.Retrying := by
  cases hm with
  | @takes pkt _ _ hQ htakes =>
      -- nothing is owed where a packet is taken
      have hno : s.reqStall = false → InTurn s.log (.recvTimingReq pkt true) := by
        intro hfree howes
        rw [← h.owes, hfree] at howes
        exact absurd howes Bool.false_ne_true
      cases htakes with
      | ignored => exact h
      | refused hstall => exact h.refuse hstall rfl
      | turnedDown hfree hsend => exact h.refuse rfl rfl
      | read hfree hread hsend => exact h.emit rfl rfl ⟨id, id⟩ (hno hfree)
      | write hfree hread hwrite hsend =>
          exact accessed (h.emit rfl rfl ⟨id, id⟩ (hno hfree))
      | other hfree hread hwrite => exact accessed (h.emit rfl rfl ⟨id, id⟩ (hno hfree))
  | @completes inv _ hdone =>
      cases hdone with
      | read hcb hpop hpos =>
          exact accessed (h.emit (o := .complete .readComplete inv.addr) rfl rfl ⟨id, id⟩ trivial)
      | write hcb hpop hpos => exact signalIfDone (h.emit rfl rfl ⟨id, id⟩ trivial)
  | @sends pkt rest taken hfree hqueue =>
      cases taken with
      | false => exact h.emit rfl rfl ⟨id, id⟩ trivial
      | true => exact signalIfDone (h.emit rfl rfl ⟨id, id⟩ trivial)
  | retries hstall =>
      have howes := h.owes.mp hstall
      refine ⟨⟨fun hfree => absurd hfree Bool.false_ne_true, fun howes' => ?_⟩,
        History.always_concat.mpr ⟨h.inTurn, howes⟩⟩
      rcases History.owes_concat.mp howes' with hasks | ⟨-, hnot⟩
      · exact hasks.elim
      · exact absurd trivial hnot
  | resumes | memory | clock => exact ⟨h.owes, h.inTurn⟩
  | atomic | functional | drain => exact h.emit rfl rfl ⟨id, id⟩ trivial

end Sys.Retrying

/-- What one event was seen to do follows what was seen before. -/
theorem move_log (hm : Move M C Q s t) : s.log <+: t.log := by
  have hsignal : ∀ {u : Sys δ μ σ}, s.log <+: u.log → s.log <+: u.signalIfDone.log := by
    intro u hu
    rw [Sys.signalIfDone]
    split
    · exact hu.trans (List.prefix_append _ _)
    · exact hu
  cases hm with
  | takes hQ htakes =>
      cases htakes with
      | ignored => exact List.prefix_refl _
      | refused | turnedDown | read => exact List.prefix_append _ _
      | write | other => exact (List.prefix_append _ _).trans (List.prefix_append _ _)
  | completes hdone =>
      cases hdone with
      | read => exact (List.prefix_append _ _).trans (List.prefix_append _ _)
      | write => exact hsignal (List.prefix_append _ _)
  | @sends pkt rest taken hfree hqueue =>
      cases taken with
      | false => exact List.prefix_append _ _
      | true => exact hsignal (List.prefix_append _ _)
  | retries | atomic | functional | drain => exact List.prefix_append _ _
  | resumes | memory | clock => exact List.prefix_refl _

theorem moves_log (hm : Moves M C Q s t) : s.log <+: t.log :=
  reflTransGen_keeps (P := fun u => s.log <+: u.log) (fun _ _ hu hm => hu.trans (move_log hm)) hm
    (List.prefix_refl _)

/-- A callback neither refuses nor tells to try again. -/
theorem complete_reqStall {inv : Invocation Callback} (h : complete M inv s = .ok t) :
    t.reqStall = s.reqStall := by
  have hsignal : ∀ u : Sys δ μ σ, u.signalIfDone.reqStall = u.reqStall := by
    intro u
    rw [Sys.signalIfDone]
    split <;> rfl
  cases complete_completes h with
  | read => rfl
  | write => exact hsignal _

/-- **A tick answers a refusal** that was not answered before. -/
theorem tick_retries {visit : Visit} {calls : List (Packet δ)} (hstall : s.reqStall = true)
    (h : tick M C visit calls s = .ok t) :
    ∃ before after, t.log = s.log ++ before ++ .sendRetryReq :: after := by
  obtain ⟨wrapper, ran, u, v, -, hran, hcalls, rfl⟩ := tick_eq_ok h
  have hu : s.log <+: u.log ∧ u.reqStall = true := by
    refine foldlM_keeps (P := fun u : Sys δ μ σ => s.log <+: u.log ∧ u.reqStall = true) ?_
      (s := { s with wrapper := wrapper }) ⟨List.prefix_refl _, hstall⟩ hran
    intro a inv b ⟨hlog, ha⟩ hb
    exact ⟨hlog.trans (move_log (C := C) (Q := fun _ => True) (.completes (complete_completes hb))),
      (complete_reqStall hb).trans ha⟩
  obtain ⟨⟨before, hbefore⟩, hstall'⟩ := hu
  have hv := moves_log (recvCalls_moves (Q := fun _ => True) (fun _ _ => trivial) hcalls)
  rw [Sys.retried, if_pos hstall'] at hv
  obtain ⟨after, hafter⟩ := hv
  refine ⟨before, after, ?_⟩
  dsimp only at hafter
  rw [Sys.ticked, ← hafter, ← hbefore]
  simp

/-- **Every refusal is answered, by the next tick**, over whatever memory.
While a refusal is not answered the object is stalled, and only then; the
peer is told to try again only if it was refused since, no packet is taken
before it is told, and the next tick tells it. -/
theorem refusals_retried (hnew : Sys.new memory store ticksPerClk clockEdge = .ok s₀)
    (hrun : (machine M C).run s₀ es = .ok s) :
    (s.reqStall = true ↔ History.Owes refuses retries s.log) ∧ History.Always InTurn s.log ∧
      ∀ visit calls t, (machine M C).step s (.tick visit calls) = .ok t →
        History.Owes refuses retries s.log →
          ∃ before after, t.log = s.log ++ before ++ .sendRetryReq :: after := by
  obtain rfl := Sys.new_eq_ok hnew
  obtain ⟨howes, hturn⟩ := run_keeps (Q := fun _ => True) (P := Sys.Retrying)
    (fun _ _ h hm => h.move hm) (fun _ _ _ _ => trivial) ⟨by simp, History.always_nil⟩ hrun
  exact ⟨howes, hturn, fun visit calls t htick howed =>
    tick_retries (s := { s with tickEvent := none }) (howes.mpr howed) htick⟩

/-- A read finds the memory full, and the next tick has it try again. -/
theorem refusals_retried_writeRead :
    ∃ s₀ s t : Sys ℕ (Addr → ℕ) (Option (BaseRequest Callback)), emptyCells = .ok s₀ ∧
      (machine cells onePlace).run s₀ (writeRead.take 2) = .ok s ∧
      (machine cells onePlace).step s (.tick (fun _ => .asHeld) [readOf 64]) = .ok t ∧
      ∃ before after, t.log = s.log ++ before ++ .sendRetryReq :: after := by
  obtain ⟨s₀, s, t, hnew, hrun, hstall, htick⟩ :
      ∃ s₀ s t : Sys ℕ (Addr → ℕ) (Option (BaseRequest Callback)), emptyCells = .ok s₀ ∧
        (machine cells onePlace).run s₀ (writeRead.take 2) = .ok s ∧ s.reqStall = true ∧
        (machine cells onePlace).step s (.tick (fun _ => .asHeld) [readOf 64]) = .ok t :=
    ⟨_, _, _, rfl, rfl, rfl, rfl⟩
  obtain ⟨howes, -, hnext⟩ := refusals_retried hnew hrun
  exact ⟨s₀, s, t, hnew, hrun, htick, hnext _ _ t htick (howes.mp hstall)⟩

/-! ## Drains -/

def asksDrain : Obs δ → Prop
  | .drain .draining => True
  | _ => False

def signals : Obs δ → Prop
  | .signalDrainDone => True
  | _ => False

/-- What is in the memory, or waits to be sent. -/
def Sys.outstanding (s : Sys δ μ σ) : ℕ := s.reqsInFlight + s.respQueue.length

/-- A drain that was not answered has something to wait for. -/
def Sys.Draining (s : Sys δ μ σ) : Prop :=
  History.Owes asksDrain signals s.log → s.outstanding ≠ 0

/-- A packet that is answered, if it reads. -/
def AnsweredRead (pkt : Packet δ) : Prop := pkt.isRead → pkt.needsResponse

instance : DecidablePred (AnsweredRead (δ := δ)) := fun _ => inferInstanceAs (Decidable (_ → _))

namespace Sys.Draining

/-- What is seen asks for no drain, and nothing outstanding is done. -/
theorem emit (h : s.Draining) (hlog : t.log = s.log ++ [o]) (hno : ¬ asksDrain o)
    (hle : s.outstanding ≤ t.outstanding) : t.Draining := by
  intro howes
  rw [hlog, History.owes_concat] at howes
  have hpos := h (howes.resolve_left hno).1
  omega

/-- **A drain is signalled**, if nothing is outstanding any more. -/
theorem signalIfDone : s.signalIfDone.Draining := by
  intro howes
  rw [Sys.signalIfDone] at howes ⊢
  split
  · rename_i hdone
    rw [if_pos hdone, Sys.emit, History.owes_concat] at howes
    rcases howes with hnever | ⟨-, hnot⟩
    · exact hnever.elim
    · exact absurd trivial hnot
  · rename_i hsome
    intro hzero
    rw [Sys.outstanding] at hzero
    rw [Sys.numOutstanding, hzero] at hsome
    exact hsome rfl

theorem accessed (h : s.Draining) : (s.accessed M pkt).Draining := by
  refine h.emit rfl id ?_
  simp only [Sys.outstanding, Sys.accessed, List.length_append]
  omega

theorem move (h : s.Draining) (kept : s.Kept AnsweredRead [])
    (hm : Move M C AnsweredRead s t) : t.Draining := by
  cases hm with
  | takes hQ htakes =>
      cases htakes with
      | ignored => exact h
      | refused | turnedDown => exact h.emit rfl id le_rfl
      | read hfree hread hsend =>
          refine h.emit rfl id ?_
          simp only [Sys.outstanding]
          omega
      | write hfree hread hwrite hsend =>
          refine accessed (h.emit rfl id ?_)
          simp only [Sys.outstanding]
          omega
      | other hfree hread hwrite => exact accessed (h.emit rfl id le_rfl)
  | @completes inv _ hdone =>
      cases hdone with
      | @read pkt reads hcb hpop hpos =>
          obtain ⟨hfirst, -⟩ := Fifos.pop_eq_some hpop
          obtain ⟨hneeds, hread, -⟩ := kept.waiting inv.addr pkt (hfirst ▸ List.mem_cons_self)
          intro _
          simp only [Sys.outstanding, Sys.accessed, responses, hneeds hread, if_true,
            List.length_append, List.length_singleton]
          omega
      | write hcb hpop hpos => exact signalIfDone
  | @sends pkt rest taken hfree hqueue =>
      cases taken with
      | false => exact h.emit rfl id le_rfl
      | true => exact signalIfDone
  | retries => exact h.emit (o := .sendRetryReq) rfl id le_rfl
  | resumes | memory | clock => exact h
  | atomic | functional => exact h.emit rfl id le_rfl
  | drain =>
      by_cases hsome : s.numOutstanding = 0
      · refine h.emit rfl ?_ le_rfl
        simp [hsome, asksDrain]
      · intro _ hzero
        have hout : s.outstanding = 0 := hzero
        rw [Sys.outstanding] at hout
        exact hsome (by rw [Sys.numOutstanding, hout]; rfl)

end Sys.Draining

/-- **No drain hangs**, over whatever memory, where what reads is answered.
In every run: as long as a drain was answered that something is to be
waited for, and no end of it was signalled since, something is
outstanding; and where nothing is, every packet that was taken was
accessed, the memory called back for every write, and every response was
delivered. -/
theorem drains_signalled (hnew : Sys.new memory store ticksPerClk clockEdge = .ok s₀)
    (hreads : ∀ ev ∈ es, ∀ pkt ∈ ev.requests, AnsweredRead pkt)
    (hrun : (machine M C).run s₀ es = .ok s) :
    (History.Owes asksDrain signals s.log → s.outstanding ≠ 0) ∧
      (s.outstanding < 2 ^ 32 → s.numOutstanding = 0 →
        (∀ addr, readsAt addr (accepts s.log) = readsAt addr (accesses s.log)) ∧
          notReads (accepts s.log) = notReads (accesses s.log) ∧
          (∀ addr, (writesAt addr (accepts s.log)).length = written addr s.log) ∧
          answers s.log = delivered s.log) := by
  have hdraining₀ : s₀.Draining := by
    obtain rfl := Sys.new_eq_ok hnew
    intro howes
    exact absurd howes History.not_owes_nil
  obtain ⟨kept, hdraining⟩ := run_keeps (Q := AnsweredRead)
    (P := fun s => s.Kept AnsweredRead [] ∧ s.Draining)
    (fun _ _ h hm => ⟨h.1.move hm, h.2.move h.1 hm⟩) hreads ⟨.new hnew, hdraining₀⟩ hrun
  refine ⟨hdraining, fun hfew hnone => ?_⟩
  have hout : s.outstanding = 0 := by
    rw [Sys.numOutstanding, ← Sys.outstanding, Nat.mod_eq_of_lt hfew] at hnone
    exact hnone
  have hcount := kept.count
  rw [Sys.outstanding] at hout
  have hreadsNone : ∀ addr, s.reads.waiting addr = [] :=
    Fifos.size_eq_zero.mp (by omega)
  have hwritesNone : ∀ addr, s.writes.waiting addr = [] :=
    Fifos.size_eq_zero.mp (by omega)
  have hqueue : s.respQueue = [] := List.length_eq_zero_iff.mp (by omega)
  refine ⟨fun addr => ?_, ?_, fun addr => ?_, ?_⟩
  · rw [kept.reads, hreadsNone, List.append_nil, List.append_nil]
  · rw [kept.notReads, List.append_nil]
  · obtain ⟨done, hdone, hlen⟩ := kept.writes addr
    rw [hdone, hwritesNone, List.append_nil, hlen]
  · rw [kept.responses, hqueue, List.append_nil]

/-- The drain that waits for the read is signalled once it was answered. -/
theorem drains_signalled_writeRead :
    ∃ s₀ s : Sys ℕ (Addr → ℕ) (Option (BaseRequest Callback)), emptyCells = .ok s₀ ∧
      (machine cells onePlace).run s₀ writeRead = .ok s ∧ Obs.drain .draining ∈ s.log ∧
      ¬ History.Owes asksDrain signals s.log ∧ answers s.log = delivered s.log := by
  obtain ⟨s₀, s, hnew, hrun, hasked, hnone⟩ :
      ∃ s₀ s : Sys ℕ (Addr → ℕ) (Option (BaseRequest Callback)), emptyCells = .ok s₀ ∧
        (machine cells onePlace).run s₀ writeRead = .ok s ∧ Obs.drain .draining ∈ s.log ∧
        s.outstanding = 0 := ⟨_, _, rfl, rfl, by decide, rfl⟩
  have hreads : ∀ ev ∈ writeRead, ∀ pkt ∈ ev.requests, AnsweredRead pkt := by decide
  obtain ⟨hdrain, hdone⟩ := drains_signalled hnew hreads hrun
  obtain ⟨-, -, -, hanswers⟩ := hdone (by rw [hnone]; decide)
    (by rw [Sys.numOutstanding, ← Sys.outstanding, hnone]; rfl)
  exact ⟨s₀, s, hnew, hrun, hasked, fun howes => hdrain howes hnone, hanswers⟩

/-! ## Responses that are refused -/

def refusesResp : Obs δ → Prop
  | .sendTimingResp _ false => True
  | _ => False

def sendsResp : Obs δ → Prop
  | .sendTimingResp _ _ => True
  | _ => False

/-- No response was made or sent, and time has not gone on. -/
structure SameResponses (s t : Sys δ μ σ) : Prop where
  queue : t.respQueue = s.respQueue
  stall : t.respStall = s.respStall
  event : t.sendRespEvent = s.sendRespEvent
  tickEvent : t.tickEvent = s.tickEvent
  curTick : t.curTick = s.curTick
  log : ∃ new, t.log = s.log ++ new ∧ ∀ o ∈ new, ¬ sendsResp o

theorem SameResponses.owes (h : SameResponses s t) :
    History.Owes refusesResp sendsResp t.log ↔ History.Owes refusesResp sendsResp s.log := by
  obtain ⟨new, hlog, hno⟩ := h.log
  have hnone : ¬ History.Owes refusesResp sendsResp new := by
    refine History.not_owes_of_forall fun o ho hrefuses => hno o ho ?_
    cases o with
    | sendTimingResp => trivial
    | _ => exact hrefuses.elim
  rw [hlog, History.owes_append]
  exact ⟨fun hor => (hor.resolve_left hnone).1, fun hold => .inr ⟨hold, hno⟩⟩

theorem SameResponses.emit (hqueue : t.respQueue = s.respQueue) (hstall : t.respStall = s.respStall)
    (hevent : t.sendRespEvent = s.sendRespEvent) (htick : t.tickEvent = s.tickEvent)
    (hcur : t.curTick = s.curTick) (hlog : t.log = s.log ++ [o]) (ho : ¬ sendsResp o) :
    SameResponses s t :=
  ⟨hqueue, hstall, hevent, htick, hcur, [o], hlog, by simpa using ho⟩

theorem SameResponses.signalIfDone : SameResponses s s.signalIfDone := by
  rw [Sys.signalIfDone]
  split
  · exact .emit rfl rfl rfl rfl rfl rfl id
  · exact ⟨rfl, rfl, rfl, rfl, rfl, [], (List.append_nil _).symm, by simp⟩

section Keeps

variable {P : Sys δ μ σ → Prop} (hsame : ∀ {s t}, P s → SameResponses s t → P t)
  (haccess : ∀ {s pkt}, P s → P (s.accessed M pkt))

include hsame haccess

/-- **What a packet that comes does to the responses**, its access does. -/
theorem Takes.responses {accepted : Bool} (h : Takes M C s pkt accepted t) (hs : P s) : P t := by
  cases h with
  | ignored => exact hs
  | refused | turnedDown | read => exact hsame hs (.emit rfl rfl rfl rfl rfl rfl id)
  | write | other => exact haccess (hsame hs (.emit rfl rfl rfl rfl rfl rfl id))

/-- What a callback does to them, its access does. -/
theorem Completes.responses {inv : Invocation Callback} (h : Completes M s inv t) (hs : P s) :
    P t := by
  cases h with
  | read =>
      exact haccess (hsame hs
        (.emit (o := .complete .readComplete inv.addr) rfl rfl rfl rfl rfl rfl id))
  | write =>
      refine hsame (hsame (t := { s with
        writes := _, reqsInFlight := _, log := s.log ++ [.complete .writeComplete inv.addr] }) hs
        (.emit rfl rfl rfl rfl rfl rfl id)) .signalIfDone

end Keeps

/-- **Responses are sent when they can be**: the event is scheduled
exactly where one waits and the peer has not refused the last. -/
structure Sys.Ready (s : Sys δ μ σ) : Prop where
  event : s.sendRespEvent.isSome ↔ s.respQueue ≠ [] ∧ s.respStall = false
  due : ∀ time ∈ s.sendRespEvent, s.curTick ≤ time
  stalled : s.respStall = true ↔ History.Owes refusesResp sendsResp s.log
  waits : s.respStall = true → s.respQueue ≠ []

/-- One response is being sent; the event may be scheduled for others. -/
structure Sys.Sending (s : Sys δ μ σ) : Prop where
  free : s.respStall = false
  queue : s.respQueue ≠ []
  event : s.sendRespEvent.isSome → s.respQueue.tail ≠ []
  due : ∀ time ∈ s.sendRespEvent, s.curTick ≤ time

namespace Sys.Ready

theorem same (h : s.Ready) (hsame : SameResponses s t) : t.Ready := by
  refine ⟨?_, ?_, ?_, ?_⟩
  · rw [hsame.event, hsame.queue, hsame.stall]
    exact h.event
  · rw [hsame.event, hsame.curTick]
    exact h.due
  · rw [hsame.stall, hsame.owes]
    exact h.stalled
  · rw [hsame.stall, hsame.queue]
    exact h.waits

theorem accessed (h : s.Ready) : (s.accessed M pkt).Ready := by
  refine ⟨?_, fun time htime => ?_, ?_, fun hstall => List.append_ne_nil_of_left_ne_nil
    (h.waits hstall) _⟩
  · have hevent := h.event
    cases hneeds : pkt.needsResponse with
    | false => simpa [Sys.accessed, responses, hneeds] using hevent
    | true =>
        cases hstall : s.respStall <;> cases hsome : s.sendRespEvent <;>
          simp_all [Sys.accessed, responses]
  · simp only [Sys.accessed] at htime ⊢
    split at htime
    · obtain rfl := Option.some.inj htime
      exact (Nat.le_add_right _ _).trans (Nat.le_add_right _ _)
    · exact h.due time htime
  · simp only [Sys.accessed, History.owes_concat]
    rw [h.stalled]
    exact ⟨fun hold => .inr ⟨hold, id⟩, fun hor => (hor.resolve_left id).1⟩

end Sys.Ready

namespace Sys.Sending

theorem same (h : s.Sending) (hsame : SameResponses s t) : t.Sending := by
  refine ⟨?_, ?_, ?_, ?_⟩
  · rw [hsame.stall]
    exact h.free
  · rw [hsame.queue]
    exact h.queue
  · rw [hsame.event, hsame.queue]
    exact h.event
  · rw [hsame.event, hsame.curTick]
    exact h.due

theorem accessed (h : s.Sending) : (s.accessed M pkt).Sending := by
  obtain ⟨first, rest, hqueue⟩ := List.exists_cons_of_ne_nil h.queue
  have hevent := h.event
  rw [hqueue] at hevent
  refine ⟨h.free, ?_, ?_, fun time htime => ?_⟩
  · simp [Sys.accessed, hqueue]
  · cases hneeds : pkt.needsResponse with
    | false => simpa [Sys.accessed, responses, hneeds, hqueue] using hevent
    | true => simp [Sys.accessed, responses, hneeds, hqueue]
  · simp only [Sys.accessed] at htime ⊢
    split at htime
    · obtain rfl := Option.some.inj htime
      exact (Nat.le_add_right _ _).trans (Nat.le_add_right _ _)
    · exact h.due time htime

/-- **The peer took the response**, and the next is sent when it can be. -/
theorem taken (h : s.Sending) : (s.sent pkt true).Ready := by
  refine Ready.same ⟨?_, fun time htime => ?_, ?_, fun hstall => ?_⟩ .signalIfDone
  · have hevent := h.event
    cases hrest : s.respQueue.tail <;> cases hsome : s.sendRespEvent <;> simp_all [h.free]
  · dsimp only at htime ⊢
    split at htime
    · exact (Option.some.inj htime).le
    · exact h.due time htime
  · simp only [History.owes_concat, h.free, Bool.false_eq_true, false_iff]
    rintro (hrefuses | ⟨-, hno⟩)
    · exact hrefuses
    · exact hno trivial
  · exact absurd (hstall.symm.trans h.free) Bool.false_ne_true.symm

/-- The peer refused it, and no other waits to be sent. -/
theorem refused (h : s.Sending) (hevent : s.sendRespEvent = none) : (s.sent pkt false).Ready := by
  refine ⟨?_, fun time htime => ?_, ?_, fun _ => h.queue⟩
  · simp [Sys.sent, hevent]
  · simp [Sys.sent, hevent] at htime
  · simp [Sys.sent, History.owes_concat, refusesResp]

end Sys.Sending

end Gem5

end Vans
