import Vans.Gem5.Handshake
import Vans.Model.Serves
/-!
# The gem5 front end — no call fails

Over a memory that serves what it takes, the queues the callbacks look
packets up in hold what the memory still owes, so every lookup finds one;
and under the rules of the port the event that sends responses is
scheduled exactly when there is one to send and the peer is ready.
-/

namespace Vans

namespace Gem5

variable {δ μ σ : Type} {M : AbstractMemory δ μ} {C : Component Callback σ} {limit : ℕ}
  {S : C.Serves BaseRequest.due limit} {owed : Multiset (Callback × Addr)} {s t : Sys δ μ σ}
  {pkt : Packet δ} {calls : List (Packet δ)}

/-! ## What the memory owes -/

/-- The packets the callbacks look up. -/
def Sys.packets (s : Sys δ μ σ) : Callback → Fifos Addr (Packet δ)
  | .readComplete => s.reads
  | .writeComplete => s.writes

/-- **The memory owes what waits**: it has the callback of each packet
that waits in flight, or has just run it, to be `owed` by the object. -/
structure Sys.Served (M : AbstractMemory δ μ) (S : C.Serves BaseRequest.due limit)
    (owed : Multiset (Callback × Addr)) (s : Sys δ μ σ) : Prop where
  kept : s.Kept (Answered M) []
  fit : S.fit s.wrapper.currClk.toNat s.wrapper.memory
  owes : ∀ callback addr, (S.inFlight s.wrapper.memory + owed).count (callback, addr) =
    ((s.packets callback).waiting addr).length

/-- What a line of 64 bytes starts at. -/
def Aligned (pkt : Packet δ) : Prop := pkt.addr % 64 = 0

instance : DecidablePred (Aligned (δ := δ)) := fun _ => inferInstanceAs (Decidable (_ = _))

theorem send_yields {wrapper : Wrapper σ} (s : Sys δ μ σ) (callback : Callback)
    (hfit : S.fit wrapper.currClk.toNat wrapper.memory) (haligned : Aligned pkt) :
    Yields (wrapper.send C (s.request callback pkt)) fun out =>
      S.fit out.2.currClk.toNat out.2.memory ∧ S.inFlight out.2.memory =
        S.inFlight wrapper.memory + if out.1 then {(callback, pkt.addr)} else 0 := by
  obtain ⟨⟨resp, req', memory⟩, hissue, -, hfit', hflight⟩ := S.issue (s.request callback pkt) hfit
  refine ⟨(resp.issued, { wrapper with memory := memory }), ?_, hfit', hflight⟩
  have haddr : (s.request callback pkt).addr % 64 = 0 := haligned
  simp only [Wrapper.send, haddr, ne_eq, not_true_eq_false, if_false, hissue, ok_bind]
  rfl

theorem accessAndRespond_yields (hanswered : Answered M pkt) :
    accessAndRespond M pkt s = .ok (s.accessed M pkt) :=
  accessAndRespond_eq_ok.mpr ⟨hanswered _, rfl⟩

/-- **A packet that comes is taken or refused.** -/
theorem recvTimingReq_yields (h : s.Served M S owed) (hanswered : Answered M pkt)
    (haligned : Aligned pkt) : ∃ out, recvTimingReq M C pkt s = .ok out := by
  unfold recvTimingReq
  split
  · exact ⟨_, rfl⟩
  · split
    · exact ⟨_, rfl⟩
    · split
      · obtain ⟨⟨accepted, wrapper⟩, hsend, -⟩ :=
          send_yields s .readComplete h.fit haligned
        simp only [Sys.request, Callback.type] at hsend
        simp only [hsend, ok_bind]
        split <;> exact ⟨_, rfl⟩
      · split
        · obtain ⟨⟨accepted, wrapper⟩, hsend, -⟩ :=
            send_yields s .writeComplete h.fit haligned
          simp only [Sys.request, Callback.type] at hsend
          simp only [hsend, ok_bind, accessAndRespond_yields hanswered]
          split <;> exact ⟨_, rfl⟩
        · simp only [accessAndRespond_yields hanswered, ok_bind]
          exact ⟨_, rfl⟩

/-- One more waits under an address, of the packets of a callback. -/
theorem count_push {callback cb : Callback} {inFlight : Multiset (Callback × Addr)}
    {fifos : Callback → Fifos Addr (Packet δ)} {addr : Addr}
    (howes : (inFlight + owed).count (cb, addr) = ((fifos cb).waiting addr).length) :
    (inFlight + {(callback, pkt.addr)} + owed).count (cb, addr) =
      ((Function.update fifos callback ((fifos callback).push pkt.addr pkt) cb).waiting
        addr).length := by
  have hsum : inFlight + {(callback, pkt.addr)} + owed =
      inFlight + owed + {(callback, pkt.addr)} := add_right_comm _ _ _
  rw [hsum, Multiset.count_add, howes]
  by_cases hcb : cb = callback
  · subst hcb
    rw [Function.update_self, Fifos.waiting_push]
    by_cases haddr : addr = pkt.addr
    · subst haddr
      simp
    · simp [haddr]
  · rw [Function.update_of_ne hcb]
    simp [hcb]

namespace Sys.Served

/-- Nothing that was seen moves a packet, and the memory is as it was. -/
theorem of_silent {seen : List (Obs δ)} (h : s.Served M S owed)
    (hcount : t.reqsInFlight = s.reqsInFlight) (hreads : t.reads = s.reads)
    (hwrites : t.writes = s.writes) (hqueue : t.respQueue = s.respQueue)
    (hwrapper : t.wrapper = s.wrapper) (hlog : t.log = s.log ++ seen)
    (hsilent : accepts seen = [] ∧ accesses seen = [] ∧ answers seen = [] ∧ delivered seen = [] ∧
      ∀ addr, written addr seen = 0) : t.Served M S owed := by
  refine ⟨h.kept.of_silent hcount hreads hwrites hqueue hlog hsilent, ?_, fun cb addr => ?_⟩
  · rw [hwrapper]
    exact h.fit
  · rw [hwrapper, h.owes cb addr]
    cases cb
    · exact congrArg (fun m : Fifos Addr (Packet δ) => (m.waiting addr).length) hreads.symm
    · exact congrArg (fun m : Fifos Addr (Packet δ) => (m.waiting addr).length) hwrites.symm

/-- **A packet comes**, and waits for what the memory now owes. -/
theorem takes {accepted : Bool} (h : s.Served M S owed) (hanswered : Answered M pkt)
    (haligned : Aligned pkt) (htakes : Takes M C s pkt accepted t) : t.Served M S owed := by
  have kept := h.kept.takes hanswered htakes
  have hsent : ∀ {callback : Callback} {yes : Bool} {wrapper : Wrapper σ},
      s.wrapper.send C (s.request callback pkt) = .ok (yes, wrapper) →
      S.fit wrapper.currClk.toNat wrapper.memory ∧ S.inFlight wrapper.memory =
        S.inFlight s.wrapper.memory + if yes then {(callback, pkt.addr)} else 0 := by
    intro callback yes wrapper hsend
    obtain ⟨out, hout, hfacts⟩ := send_yields s callback h.fit haligned
    obtain rfl := Except.ok.inj (hsend.symm.trans hout)
    exact hfacts
  cases htakes with
  | ignored => exact h
  | refused hstall => exact ⟨kept, h.fit, h.owes⟩
  | turnedDown hfree hsend =>
      obtain ⟨hfit, hflight⟩ := hsent hsend
      refine ⟨kept, hfit, fun cb addr => ?_⟩
      rw [hflight, if_neg Bool.false_ne_true, add_zero]
      cases cb <;> exact h.owes _ addr
  | read hfree hread hsend =>
      obtain ⟨hfit, hflight⟩ := hsent hsend
      refine ⟨kept, hfit, fun cb addr => ?_⟩
      rw [hflight, if_pos rfl, count_push (h.owes cb addr)]
      cases cb <;> rfl
  | write hfree hread hwrite hsend =>
      obtain ⟨hfit, hflight⟩ := hsent hsend
      refine ⟨kept, hfit, fun cb addr => ?_⟩
      simp only [Sys.accessed]
      rw [hflight, if_pos rfl, count_push (h.owes cb addr)]
      cases cb <;> rfl
  | other hfree hread hwrite => exact ⟨kept, h.fit, h.owes⟩

/-- A packet waits for each callback that is owed. -/
theorem waits {inv : Invocation Callback}
    (h : s.Served M S ({(inv.callback, inv.addr)} + owed)) :
    (s.packets inv.callback).waiting inv.addr ≠ [] ∧ 0 < s.reqsInFlight := by
  have howes := h.owes inv.callback inv.addr
  have hpos : 0 < ((s.packets inv.callback).waiting inv.addr).length := by
    rw [← howes, Multiset.count_pos]
    simp
  have hwaits := List.ne_nil_of_length_pos hpos
  refine ⟨hwaits, ?_⟩
  -- what waits is counted
  obtain ⟨⟨pkt, rest⟩, hpop⟩ := Option.isSome_iff_exists.mp (Fifos.pop_isSome.mpr hwaits)
  obtain ⟨-, -, hsize⟩ := Fifos.pop_eq_some hpop
  rw [h.kept.count]
  cases hcb : inv.callback <;> rw [hcb] at hsize <;> simp only [Sys.packets] at hsize <;> omega

/-- **A callback that is owed finds its packet.** -/
theorem complete_ok {inv : Invocation Callback}
    (h : s.Served M S ({(inv.callback, inv.addr)} + owed)) : ∃ t, complete M inv s = .ok t := by
  obtain ⟨hwaits, hpos⟩ := h.waits
  have hne : s.reqsInFlight ≠ 0 := Nat.ne_of_gt hpos
  obtain ⟨⟨pkt, rest⟩, hpop⟩ := Option.isSome_iff_exists.mp (Fifos.pop_isSome.mpr hwaits)
  obtain ⟨hfirst, -⟩ := Fifos.pop_eq_some hpop
  obtain ⟨callback, addr, clk⟩ := inv
  cases callback with
  | readComplete =>
      have hpop : s.reads.pop addr = some (pkt, rest) := hpop
      have hfirst : s.reads.waiting addr = pkt :: rest.waiting addr := hfirst
      have hanswered : Answered M pkt :=
        (h.kept.waiting addr pkt (hfirst ▸ List.mem_cons_self)).1
      simp only [complete, readComplete, hpop, hne, if_false]
      exact ⟨_, accessAndRespond_yields hanswered⟩
  | writeComplete =>
      have hpop : s.writes.pop addr = some (pkt, rest) := hpop
      simp only [complete, writeComplete, hpop, hne, if_false]
      exact ⟨_, rfl⟩

/-- One less is owed, and one less waits. -/
theorem count_pop {inv : Invocation Callback} {rest : Fifos Addr (Packet δ)}
    (h : s.Served M S ({(inv.callback, inv.addr)} + owed))
    (hpop : (s.packets inv.callback).pop inv.addr = some (pkt, rest)) (cb : Callback)
    (addr : Addr) : (S.inFlight s.wrapper.memory + owed).count (cb, addr) =
      ((Function.update s.packets inv.callback rest cb).waiting addr).length := by
  obtain ⟨hfirst, hothers, -⟩ := Fifos.pop_eq_some hpop
  have howes := h.owes cb addr
  rw [add_left_comm, Multiset.count_add] at howes
  by_cases hcb : cb = inv.callback
  · subst hcb
    rw [Function.update_self]
    by_cases haddr : addr = inv.addr
    · subst haddr
      rw [hfirst, List.length_cons, Multiset.count_singleton_self] at howes
      omega
    · rw [hothers addr haddr]
      simpa [haddr] using howes
  · rw [Function.update_of_ne hcb]
    simpa [hcb] using howes

/-- **A callback is run** that is owed. -/
theorem completes {inv : Invocation Callback}
    (h : s.Served M S ({(inv.callback, inv.addr)} + owed)) (hdone : Completes M s inv t) :
    t.Served M S owed := by
  have kept := h.kept.completes hdone
  cases hdone with
  | @read pkt reads hcb hpop hpos =>
      have hpop : (s.packets inv.callback).pop inv.addr = some (pkt, reads) := by
        rw [hcb]
        exact hpop
      refine ⟨kept, h.fit, fun cb addr => (h.count_pop hpop cb addr).trans ?_⟩
      rw [hcb]
      cases cb <;> rfl
  | @write pkt writes hcb hpop hpos =>
      have hpop : (s.packets inv.callback).pop inv.addr = some (pkt, writes) := by
        rw [hcb]
        exact hpop
      have hcount : ∀ cb addr, (S.inFlight s.wrapper.memory + owed).count (cb, addr) =
          ((Function.update s.packets .writeComplete writes cb).waiting addr).length :=
        fun cb addr => hcb ▸ h.count_pop hpop cb addr
      rw [signalIfDone_eq] at kept ⊢
      exact ⟨kept, h.fit, fun cb addr => (hcount cb addr).trans (by cases cb <;> rfl)⟩

/-- The callbacks of a tick are run. -/
theorem ran : ∀ {ran : List (Invocation Callback)} {s : Sys δ μ σ},
    s.Served M S (calledWith ran) →
    Yields (ran.foldlM (fun s inv => complete M inv s) s) fun t => t.Served M S 0 := by
  intro ran
  induction ran with
  | nil => exact fun h => .pure h
  | cons inv ran ih =>
      intro s h
      rw [calledWith_cons] at h
      obtain ⟨u, hu⟩ := h.complete_ok
      rw [List.foldlM_cons, hu, ok_bind]
      exact ih (h.completes (complete_completes hu))

/-- **The requests of one call** are taken or refused. -/
theorem recvCalls (h : s.Served M S 0) (hcalls : ∀ pkt ∈ calls, Answered M pkt ∧ Aligned pkt) :
    Yields (recvCalls M C calls s) fun t => t.Served M S 0 := by
  refine foldlM_yields_of_mem (P := Sys.Served M S 0) (fun u pkt hpkt hu => ?_) h
  obtain ⟨hanswered, haligned⟩ := hcalls pkt hpkt
  obtain ⟨⟨accepted, v⟩, hv⟩ := recvTimingReq_yields hu hanswered haligned
  rw [hv, ok_bind]
  exact .pure (hu.takes hanswered haligned (recvTimingReq_takes hv))

end Sys.Served

/-! ## Ticks and responses -/

/-- Nothing of the responses' side, and no time, is touched by a packet
that comes or a callback. -/
theorem recvCalls_responses {P : Sys δ μ σ → Prop} (hsame : ∀ {s t}, P s → SameResponses s t → P t)
    (haccess : ∀ {s pkt}, P s → P (s.accessed M pkt)) (h : recvCalls M C calls s = .ok t)
    (hs : P s) : P t :=
  recvCalls_keeps (Q := fun _ => True)
    (fun _ _ _ _ hu _ htakes => htakes.responses hsame haccess hu) (fun _ _ => trivial) hs h

theorem ran_responses {P : Sys δ μ σ → Prop} (hsame : ∀ {s t}, P s → SameResponses s t → P t)
    (haccess : ∀ {s pkt}, P s → P (s.accessed M pkt)) {ran : List (Invocation Callback)}
    (h : ran.foldlM (fun s inv => complete M inv s) s = .ok t) (hs : P s) : P t :=
  foldlM_keeps (fun _ _ _ hu hv => (complete_completes hv).responses hsame haccess hu) hs h

/-- **A response was sent**, taken or refused: the memory is as it was. -/
theorem Sys.Served.sent {rest : List (Packet δ)} {taken : Bool} (h : s.Served M S owed)
    (hfree : s.respStall = false) (hqueue : s.respQueue = pkt :: rest) :
    (s.sent pkt taken).Served M S owed := by
  have hsame : (s.sent pkt taken).wrapper = s.wrapper ∧ (s.sent pkt taken).reads = s.reads ∧
      (s.sent pkt taken).writes = s.writes := by
    cases taken with
    | false => exact ⟨rfl, rfl, rfl⟩
    | true =>
        rw [Sys.sent, if_pos rfl, signalIfDone_eq]
        exact ⟨rfl, rfl, rfl⟩
  refine ⟨h.kept.move (M := M) (C := C) (.sends hfree hqueue), ?_, fun cb addr => ?_⟩
  · rw [hsame.1]
    exact h.fit
  · rw [hsame.1, h.owes cb addr]
    cases cb with
    | readComplete => rw [Sys.packets, Sys.packets, hsame.2.1]
    | writeComplete => rw [Sys.packets, Sys.packets, hsame.2.2]

/-- The memory object between two events. -/
structure Sys.Running (M : AbstractMemory δ μ) (S : C.Serves BaseRequest.due limit)
    (s : Sys δ μ σ) : Prop where
  served : s.Served M S 0
  ready : s.Ready
  ticking : ∃ time, s.tickEvent = some time ∧ s.curTick ≤ time

namespace Sys.Running

/-- **A tick succeeds**, and the next is scheduled. -/
theorem tick {visit : Visit} (h : s.Running M S) (hclk : s.wrapper.currClk.toNat < limit)
    (hcalls : ∀ pkt ∈ calls, Answered M pkt ∧ Aligned pkt) :
    Yields (Gem5.tick M C visit calls { s with tickEvent := none }) fun t => t.Running M S := by
  obtain ⟨⟨memory, ran⟩, hmemory, hfit, hflight⟩ := S.tick visit h.served.fit hclk
  have hnext : (s.wrapper.currClk + 1).toNat = s.wrapper.currClk.toNat + 1 := by
    have hlimit := S.limit_lt
    rw [UInt64.toNat_add]
    exact Nat.mod_eq_of_lt (by change _ + 1 < _; omega)
  obtain ⟨m, hm⟩ : ∃ m : Sys δ μ σ, m =
    { s with
      tickEvent := none
      wrapper := { memory := memory, currClk := s.wrapper.currClk + 1 } } := ⟨_, rfl⟩
  have hserved : m.Served M S (calledWith ran) := by
    subst hm
    refine ⟨h.served.kept.of_silent rfl rfl rfl rfl (List.append_nil _).symm
      ⟨rfl, rfl, rfl, rfl, fun _ => rfl⟩, ?_, fun cb addr => ?_⟩
    · exact hnext ▸ hfit
    · have howes := h.served.owes cb addr
      rw [add_zero, hflight] at howes
      refine howes.trans ?_
      cases cb <;> rfl
  obtain ⟨u, hran, hu⟩ := hserved.ran
  -- the peer is told to try again, if it was refused
  have hretried : u.retried.Served M S 0 := by
    rw [Sys.retried]
    split
    · have hlog : u.log ++ [.sendRetryReq] = u.log ++ [Obs.sendRetryReq] := rfl
      exact hu.of_silent rfl rfl rfl rfl rfl hlog ⟨rfl, rfl, rfl, rfl, fun _ => rfl⟩
    · exact hu
  have hcalls' : ∀ pkt ∈ if u.reqStall then calls else [], Answered M pkt ∧ Aligned pkt := by
    split
    · exact hcalls
    · exact fun _ h => absurd h List.not_mem_nil
  obtain ⟨v, hv, hserved'⟩ := hretried.recvCalls hcalls'
  -- the responses, and the tick's own event, are touched by accesses only
  have hside : v.Ready ∧ v.tickEvent = none := by
    have hsame : ∀ {s t : Sys δ μ σ}, s.Ready ∧ s.tickEvent = none → SameResponses s t →
        t.Ready ∧ t.tickEvent = none :=
      fun hP hsame => ⟨hP.1.same hsame, hsame.tickEvent.trans hP.2⟩
    have haccess : ∀ {s : Sys δ μ σ} {pkt}, s.Ready ∧ s.tickEvent = none →
        (s.accessed M pkt).Ready ∧ (s.accessed M pkt).tickEvent = none :=
      fun hP => ⟨hP.1.accessed, hP.2⟩
    refine recvCalls_responses hsame haccess hv (hsame (s := u) ?_ ?_)
    · refine ran_responses hsame haccess hran ?_
      subst hm
      exact ⟨⟨h.ready.event, h.ready.due, h.ready.stalled, h.ready.waits⟩, rfl⟩
    · rw [Sys.retried]
      split
      · exact .emit (o := .sendRetryReq) rfl rfl rfl rfl rfl rfl id
      · exact ⟨rfl, rfl, rfl, rfl, rfl, [], (List.append_nil _).symm, by simp⟩
  refine ⟨v.ticked, ?_, ?_, ?_, ?_⟩
  · have htick : s.wrapper.tick C visit =
        .ok ({ memory := memory, currClk := s.wrapper.currClk + 1 }, ran) := by
      simp only [Wrapper.tick, hmemory, ok_bind]
      rfl
    have hsched : schedule v.tickEvent (v.curTick + v.ticksPerClk) v.curTick =
        .ok (some (v.curTick + v.ticksPerClk)) := by
      rw [hside.2, schedule, if_neg (by simp), if_neg (Nat.not_lt.mpr (Nat.le_add_right _ _))]
      rfl
    subst hm
    simp only [Gem5.tick, htick, ok_bind, hran]
    rw [Sys.retried] at hv
    split
    · rename_i hstall
      rw [if_pos hstall, if_pos hstall] at hv
      simp only [Sys.emit, hv, ok_bind, hsched]
      rfl
    · rename_i hfree
      rw [if_neg hfree, if_neg hfree] at hv
      obtain rfl := pure_eq_ok.mp hv
      simp only [pure_bind, hsched, ok_bind]
      rfl
  · exact hserved'.of_silent rfl rfl rfl rfl rfl (List.append_nil _).symm
      ⟨rfl, rfl, rfl, rfl, fun _ => rfl⟩
  · exact ⟨hside.1.event, hside.1.due, hside.1.stalled, hside.1.waits⟩
  · exact ⟨_, rfl, Nat.le_add_right _ _⟩

/-- **A response is sent**: the event has fired, or the peer is ready
again. -/
theorem sendResponse {taken : Bool} (h : s.Served M S 0) (hfree : s.respStall = false)
    (hqueue : s.respQueue ≠ []) (hevent : s.sendRespEvent = none)
    (hticking : ∃ time, s.tickEvent = some time ∧ s.curTick ≤ time)
    (hcalls : ∀ pkt ∈ calls, Answered M pkt ∧ Aligned pkt) (hnone : taken = false → calls = []) :
    Yields (Gem5.sendResponse M C taken calls s) fun t => t.Running M S := by
  obtain ⟨first, rest, hfirst⟩ := List.exists_cons_of_ne_nil hqueue
  obtain ⟨v, hv, hserved⟩ := h.recvCalls hcalls
  have hsending : v.Sending ∧ v.tickEvent = s.tickEvent ∧ v.curTick = s.curTick := by
    refine recvCalls_responses (P := fun u =>
        u.Sending ∧ u.tickEvent = s.tickEvent ∧ u.curTick = s.curTick)
      (fun hP hsame => ⟨hP.1.same hsame, hsame.tickEvent.trans hP.2.1, hsame.curTick.trans hP.2.2⟩)
      (fun hP => ⟨hP.1.accessed, hP.2⟩) hv ⟨⟨hfree, hqueue, ?_, ?_⟩, rfl, rfl⟩ <;> simp [hevent]
  obtain ⟨sending, htick, hcur⟩ := hsending
  obtain ⟨⟨new, hnew⟩, -⟩ := recvCalls_queue hv
  have hfirst' : v.respQueue = first :: (rest ++ new) := by rw [hnew, hfirst, List.cons_append]
  rw [sendResponse_eq hfree hfirst, hv, ok_bind]
  refine .pure ⟨hserved.sent sending.free hfirst', ?_, ?_⟩
  · cases taken with
    | true => exact sending.taken
    | false =>
        refine sending.refused ?_
        rw [hnone rfl] at hv
        obtain rfl := pure_eq_ok.mp hv
        exact hevent
  · have hsame : (v.sent first taken).tickEvent = v.tickEvent ∧
        (v.sent first taken).curTick = v.curTick := by
      cases taken with
      | false => exact ⟨rfl, rfl⟩
      | true => exact ⟨SameResponses.signalIfDone.tickEvent, SameResponses.signalIfDone.curTick⟩
    rw [hsame.1, hsame.2, htick, hcur]
    exact hticking

end Sys.Running

/-! ## Runs under the rules of the port -/

/-- **The rules of the port**, up to a clock of the memory: events happen
when they may; packets are of lines, and the access makes a response of
one that needs it; the peer is ready again only for a response it has
refused, and makes no requests while it refuses one. -/
def Polite (M : AbstractMemory δ μ) (limit : ℕ) (s : Sys δ μ σ) (ev : Event δ) : Prop :=
  Enabled s ev ∧ (∀ pkt ∈ ev.requests, Answered M pkt ∧ Aligned pkt) ∧
    match ev with
    | .tick _ _ => s.wrapper.currClk.toNat < limit
    | .sendResponse taken calls => taken = false → calls = []
    | .recvRespRetry taken calls =>
        History.Owes refusesResp sendsResp s.log ∧ (taken = false → calls = [])
    | .advance _ | .recvTimingReq _ | .recvAtomic _ | .recvFunctional _ | .drain => True

/-- **Every event under the rules succeeds.** -/
theorem Sys.Running.step {ev : Event δ} (h : s.Running M S) (hev : Polite M limit s ev) :
    Yields ((machine M C).step s ev) fun t => t.Running M S := by
  obtain ⟨henabled, hpkts, hrule⟩ := hev
  have hsilent : ∀ {t : Sys δ μ σ} {o : Obs δ}, t.log = s.log ++ [o] →
      t.reqsInFlight = s.reqsInFlight → t.reads = s.reads → t.writes = s.writes →
      t.wrapper = s.wrapper → SameResponses s t →
      (accepts [o] = [] ∧ accesses [o] = [] ∧ answers [o] = [] ∧ delivered [o] = [] ∧
        ∀ addr, written addr [o] = 0) → t.Running M S := by
    intro t o hlog hcount hreads hwrites hwrapper hsame hseen
    refine ⟨h.served.of_silent hcount hreads hwrites hsame.queue hwrapper hlog hseen,
      h.ready.same hsame, ?_⟩
    rw [hsame.tickEvent, hsame.curTick]
    exact h.ticking
  cases ev with
  | advance time =>
      obtain ⟨-, hresp, htick⟩ := henabled
      obtain ⟨due, hdue, -⟩ := h.ticking
      refine .pure ⟨h.served.of_silent rfl rfl rfl rfl rfl (List.append_nil _).symm
        ⟨rfl, rfl, rfl, rfl, fun _ => rfl⟩, ⟨h.ready.event, hresp, h.ready.stalled,
        h.ready.waits⟩, due, hdue, htick due hdue⟩
  | tick visit calls => exact h.tick hrule hpkts
  | sendResponse taken calls =>
      have hsome : s.sendRespEvent.isSome := by
        rw [show s.sendRespEvent = some s.curTick from henabled]
        rfl
      obtain ⟨hqueue, hfree⟩ := h.ready.event.mp hsome
      refine sendResponse ?_ hfree hqueue rfl h.ticking hpkts hrule
      exact h.served.of_silent rfl rfl rfl rfl rfl (List.append_nil _).symm
        ⟨rfl, rfl, rfl, rfl, fun _ => rfl⟩
  | recvTimingReq pkt =>
      obtain ⟨hanswered, haligned⟩ := hpkts pkt (List.mem_singleton.mpr rfl)
      obtain ⟨⟨accepted, t⟩, ht⟩ := recvTimingReq_yields h.served hanswered haligned
      have htakes := recvTimingReq_takes ht
      simp only [machine, ht, ok_bind]
      refine .pure ⟨h.served.takes hanswered haligned htakes, ?_, ?_⟩
      · exact htakes.responses Sys.Ready.same Sys.Ready.accessed h.ready
      · exact htakes.responses (P := fun u => ∃ time, u.tickEvent = some time ∧ u.curTick ≤ time)
          (fun hP hsame => by rwa [hsame.tickEvent, hsame.curTick]) (fun hP => hP) h.ticking
  | recvRespRetry taken calls =>
      obtain ⟨howes, hnone⟩ := hrule
      have hstall := h.ready.stalled.mpr howes
      -- a response was refused, so one waits, and the event is not scheduled
      have hevent : s.sendRespEvent = none := by
        rw [← Option.not_isSome_iff_eq_none, h.ready.event, hstall]
        simp
      have hqueue := h.ready.waits hstall
      simp only [machine, recvRespRetry, hstall, Bool.not_true, Bool.false_eq_true, if_false]
      refine sendResponse ?_ rfl hqueue hevent h.ticking hpkts hnone
      exact h.served.of_silent rfl rfl rfl rfl rfl (List.append_nil _).symm
        ⟨rfl, rfl, rfl, rfl, fun _ => rfl⟩
  | recvAtomic pkt =>
      exact .pure (hsilent rfl rfl rfl rfl rfl (.emit rfl rfl rfl rfl rfl rfl id)
        ⟨rfl, rfl, rfl, rfl, fun _ => rfl⟩)
  | recvFunctional pkt =>
      exact .pure (hsilent rfl rfl rfl rfl rfl (.emit rfl rfl rfl rfl rfl rfl id)
        ⟨rfl, rfl, rfl, rfl, fun _ => rfl⟩)
  | drain =>
      exact .pure (hsilent rfl rfl rfl rfl rfl (.emit rfl rfl rfl rfl rfl rfl id)
        ⟨rfl, rfl, rfl, rfl, fun _ => rfl⟩)

/-- A new object is between two events. -/
theorem Sys.Running.new {memory : σ} {store : μ} {ticksPerClk clockEdge : Tick} {s₀ : Sys δ μ σ}
    (hfit : S.fit 0 memory) (hnone : S.inFlight memory = 0)
    (hnew : Sys.new memory store ticksPerClk clockEdge = .ok s₀) : s₀.Running M S := by
  have kept : s₀.Kept (Answered M) [] := .new hnew
  obtain rfl := Sys.new_eq_ok hnew
  refine ⟨⟨kept, hfit, fun cb addr => ?_⟩, ⟨?_, ?_, ?_, ?_⟩, clockEdge, rfl, Nat.zero_le _⟩
  · rw [hnone]
    cases cb <;> rfl
  · simp
  · simp
  · simp
  · simp

/-- **No call fails**, over a memory that serves what it takes. In every
run under the rules of the port every event succeeds: each callback finds
its packet, and no event is scheduled twice or sent with nothing to send.
The memory owes a callback for each packet that waits under its address,
and no other; a response that waits is to be sent as soon as the peer is
ready; and no event is overdue, so time can go on. -/
theorem no_event_fails (S : C.Serves BaseRequest.due limit) {memory : σ} {store : μ}
    {ticksPerClk clockEdge : Tick} (hfit : S.fit 0 memory) (hnone : S.inFlight memory = 0)
    {s₀ : Sys δ μ σ} (hnew : Sys.new memory store ticksPerClk clockEdge = .ok s₀)
    {es : List (Event δ)} (hpolite : (machine M C).Meets (Polite M limit) s₀ es) :
    ∃ s, (machine M C).run s₀ es = .ok s ∧
      (∀ callback addr, (S.inFlight s.wrapper.memory).count (callback, addr) =
        ((s.packets callback).waiting addr).length) ∧
      (s.sendRespEvent.isSome ↔ s.respQueue ≠ [] ∧ s.respStall = false) ∧
      (∀ time ∈ s.sendRespEvent, s.curTick ≤ time) ∧
      ∃ time, s.tickEvent = some time ∧ s.curTick ≤ time := by
  obtain ⟨s, hrun, h⟩ := (machine M C).run_yields (C := Polite M limit) (P := Sys.Running M S)
    (fun _ _ hs hev => hs.step hev) (.new hfit hnone hnew) hpolite
  refine ⟨s, hrun, fun cb addr => ?_, h.ready.event, h.ready.due, h.ticking⟩
  have howes := h.served.owes cb addr
  rwa [add_zero] at howes

/-- The memory of one place serves: it owes what it holds. -/
def onePlaceServes : onePlace.Serves BaseRequest.due 8 where
  limit_lt := by decide
  fit := fun _ _ => True
  inFlight := fun s => s.elim 0 BaseRequest.due
  issue := by
    intro _ s req _
    refine .pure ⟨rfl, trivial, ?_⟩
    cases s with
    | none => exact (zero_add _).symm
    | some waiting => exact (add_zero _).symm
  tick := by
    intro _ s _ _ _
    refine .pure ⟨trivial, ?_⟩
    cases s with
    | none => rfl
    | some req =>
        cases hcb : req.callback with
        | none => simp [calledWith, BaseRequest.due, hcb]
        | some callback => simp [calledWith, BaseRequest.due, hcb]

/-- The peer takes every response. -/
def Event.eager : Event δ → Bool
  | .sendResponse taken _ => taken
  | .recvRespRetry _ _ => false
  | .advance _ | .tick _ _ | .recvTimingReq _ | .recvAtomic _ | .recvFunctional _ | .drain => true

/-- An eager peer keeps the rules where its events may happen. -/
theorem polite_of_eager {σ : Type} {C : Component Callback σ} {s : Sys ℕ (Addr → ℕ) σ}
    {es : List (Event ℕ)} (hmeets : (machine cells C).Meets
      (fun s ev => Enabled s ev ∧ s.wrapper.currClk.toNat < limit ∧
        (∀ pkt ∈ ev.requests, Aligned pkt) ∧ ev.eager) s es) :
    (machine cells C).Meets (Polite cells limit) s es := by
  have hanswered : ∀ pkt, Answered cells pkt := by
    intro pkt store hneeds
    simp only [cells]
    split <;> exact hneeds
  refine Machine.meets_mono (fun s ev hev => ?_) hmeets
  obtain ⟨henabled, hclk, haligned, heager⟩ := hev
  refine ⟨henabled, fun pkt hpkt => ⟨hanswered pkt, haligned pkt hpkt⟩, ?_⟩
  cases ev with
  | tick visit calls => exact hclk
  | sendResponse taken calls => exact fun hno => absurd (hno.symm.trans heager) Bool.false_ne_true
  | recvRespRetry taken calls => exact absurd heager Bool.false_ne_true
  | advance | recvTimingReq | recvAtomic | recvFunctional | drain => trivial

/-- A line is written and read over it. -/
theorem no_event_fails_writeRead :
    ∃ s₀ s : Sys ℕ (Addr → ℕ) (Option (BaseRequest Callback)), emptyCells = .ok s₀ ∧
      (machine cells onePlace).run s₀ writeRead = .ok s ∧
      (s.sendRespEvent.isSome ↔ s.respQueue ≠ [] ∧ s.respStall = false) ∧
      ∃ time, s.tickEvent = some time ∧ s.curTick ≤ time := by
  obtain ⟨s₀, hnew, hmeets⟩ : ∃ s₀ : Sys ℕ (Addr → ℕ) (Option (BaseRequest Callback)),
      emptyCells = .ok s₀ ∧ (machine cells onePlace).Meets
        (fun s ev => Enabled s ev ∧ s.wrapper.currClk.toNat < 8 ∧
          (∀ pkt ∈ ev.requests, Aligned pkt) ∧ ev.eager) s₀ writeRead := ⟨_, rfl, by decide⟩
  obtain ⟨s, hrun, -, hevent, -, hticking⟩ :=
    no_event_fails onePlaceServes trivial rfl hnew (polite_of_eager hmeets)
  exact ⟨s₀, s, hnew, hrun, hevent, hticking⟩

end Gem5

end Vans
