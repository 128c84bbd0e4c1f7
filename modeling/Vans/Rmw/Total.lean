import Vans.Rmw.Waiting
/-!
# The RMW controller — no internal error is reached

Each throw of the controller is guarded by an invariant: the chains of
states leave no pair of a type and a state without a transfer, reads
wait in an entry exactly while a read runs, the queues and the buffer
keep their bounds, and an entry that waits for nothing has a clock to
act at. So every call succeeds, as long as no clock the controller
computes is the one reserved as invalid, and the level below calls back
only for the reads it owes an answer.
-/

namespace Vans

namespace Rmw

variable {κ σ : Type} {C : Component Callback σ}

/-! ## The environment -/

/-- The level below takes or refuses what it is asked, and answers the
reads it takes by their callback. -/
structure CallsBack (C : Component Callback σ) : Prop where
  serves : ∀ req below, ∃ r, C.issueRequest req below = .ok r
  later : ∀ req below resp req' below', C.issueRequest req below = .ok (resp, req', below') →
    req.type = .read → resp.issued → resp.deterministic = false

/-- No clock the controller computes at this clock is the invalid one. -/
def Fits (c : Controller κ) (clk : Clk) : Prop :=
  clk ≠ clkInvalid ∧ clk + 1 ≠ clkInvalid ∧
    clk + c.localMemoryModel.readLatency ≠ clkInvalid ∧
    clk + c.localMemoryModel.writeLatency ≠ clkInvalid ∧
    clk + c.timing.aitToRmwLatency ≠ clkInvalid ∧ clk + c.timing.rmwToAitLatency ≠ clkInvalid

instance {c : Controller κ} {clk : Clk} : Decidable (Fits c clk) :=
  inferInstanceAs (Decidable (_ ∧ _))

/-- Ticks come at clocks that fit, and callbacks for the reads that are
owed an answer. -/
def Expected (s : Sys κ σ) : Event κ σ → Prop
  | .issueRequest _ => True
  | .tick _ clk => Fits s.ctrl clk
  | .nextLevelReadCallback addr clk => clk + 1 ≠ clkInvalid ∧
      s.log.countP (wakes (translateToBlockAddr addr)) <
        s.log.countP (asksFor (translateToBlockAddr addr))
  | .drainCurrent => True
  | .nextLevel next => next.length = s.next.length

instance {s : Sys κ σ} : ∀ ev : Event κ σ, Decidable (Expected s ev)
  | .issueRequest _ => isTrue trivial
  | .tick _ clk => inferInstanceAs (Decidable (Fits s.ctrl clk))
  | .nextLevelReadCallback _ _ => inferInstanceAs (Decidable (_ ∧ _))
  | .drainCurrent => isTrue trivial
  | .nextLevel next => inferInstanceAs (Decidable (next.length = s.next.length))

/-! ## The invariant -/

/-- The next index is the number of entries. -/
def Sys.Counted (s : Sys κ σ) : Prop :=
  s.ctrl.buffer.nextAvailableIndex = s.ctrl.buffer.entryMap.keys.length

theorem Sys.Counted.setEntry {s : Sys κ σ} {key : Addr} {e e' : BufferEntry κ} (h : s.Counted)
    (he : s.entry key = some e) : (s.setEntry key e').Counted := by
  unfold Sys.Counted at h ⊢
  rw [Sys.setEntry, InternalBuffer.set, Keyed.length_insert he]
  exact h

theorem Sys.Counted.newEntry {s : Sys κ σ} {key : Addr} {e : BufferEntry κ} (h : s.Counted)
    (hnone : s.entry key = none) : (s.newEntry key e).Counted := by
  unfold Sys.Counted at h ⊢
  rw [Sys.newEntry, Keyed.length_insert_fresh hnone, h]

/-- The writes combined are of the queue. -/
theorem combine_length {block : Addr} : ∀ {q : List (BaseRequest κ)} {hit : BitVec blockSizeCl}
    {taken left : List (BaseRequest κ)}, combine block q = (hit, taken, left) →
      left.length ≤ q.length := by
  intro q
  induction q with
  | nil =>
      intro hit taken left h
      simp only [combine, Prod.mk.injEq] at h
      simp [← h.2.2]
  | cons req reqs ih =>
      intro hit taken left h
      obtain ⟨hit', taken', left', hrec⟩ : ∃ hit taken left,
          combine block reqs = (hit, taken, left) := ⟨_, _, _, rfl⟩
      have hle := ih hrec
      unfold combine at h
      split at h
      · simp only [hrec, Prod.mk.injEq] at h
        simpa [← h.2.2] using hle
      · split at h
        · simp [← (Prod.mk.inj (Prod.mk.inj h).2).2]
        · simp only [hrec, Prod.mk.injEq] at h
          rw [← h.2.2, List.length_cons]
          omega

/-- **The invariant of the moves**: that of the entries, the bounds of
the queues, the count of the buffer, and that what waits is owed an
answer. -/
structure Steady (s : Sys κ σ) : Prop where
  ok : s.Ok
  lsq : s.ctrl.lsq.queue.length ≤ s.ctrl.lsq.maxEntries
  roq : s.ctrl.roq.queue.length ≤ s.ctrl.roq.maxEntries
  counted : s.Counted
  room : s.ctrl.buffer.entryMap.keys.length ≤ s.ctrl.buffer.maxEntries
  mapped : ∀ addr, (s.ctrl.mappingFunc addr s.next.length).2 < s.next.length
  answered : ∀ block, s.log.countP (asksFor block) =
    s.log.countP (wakes block) + if s.waits block then 1 else 0

/-- An entry that is to act at a clock has one. -/
def BufferEntry.Clocked (e : BufferEntry κ) : Prop :=
  e.pending → e.state ≠ .init → e.waitingActionClkUpdate = false → e.nextActionClk ≠ clkInvalid

/-- Every entry that is to act at a clock has one. -/
def Sys.Clocked (s : Sys κ σ) : Prop := ∀ key e, s.entry key = some e → e.Clocked

namespace Steady

variable {s t : Sys κ σ} {key : Addr} {e e' : BufferEntry κ}

/-- No move changes the latencies. -/
theorem move_latencies (ok : s.Ok) (h : Move C alone s t) :
    t.ctrl.timing = s.ctrl.timing ∧ t.ctrl.localMemoryModel = s.ctrl.localMemoryModel := by
  cases h with
  | @transfer key e e' s' he hact hm =>
      cases hm with
      | flush h => exact absurd h (ok key e he).not_flushBack
      | _ => exact ⟨rfl, rfl⟩
  | _ => exact ⟨rfl, rfl⟩

/-- A move keeps the bounds of the queues and the count of the buffer. -/
theorem move_bounds (h : Steady s) (hmove : Move C alone s t) :
    t.ctrl.lsq.queue.length ≤ t.ctrl.lsq.maxEntries ∧
    t.ctrl.roq.queue.length ≤ t.ctrl.roq.maxEntries ∧ t.Counted ∧
    t.ctrl.buffer.entryMap.keys.length ≤ t.ctrl.buffer.maxEntries := by
  obtain ⟨ok, lsq, roq, counted, room, -, -⟩ := h
  -- the queue only gives up requests, and the buffer has room for what it takes
  have htaken : ∀ {front rest}, s.ctrl.lsq.queue = front :: rest →
      rest.length ≤ s.ctrl.lsq.maxEntries := fun hq => by
    rw [hq, List.length_cons] at lsq
    exact Nat.le_of_succ_le lsq
  have hcombined : ∀ {front hit taken left}, s.combined front = (hit, taken, left) →
      left.length ≤ s.ctrl.lsq.maxEntries := fun hcomb => (combine_length hcomb).trans lsq
  have hset : ∀ {key e e'}, s.entry key = some e →
      (s.setEntry key e').ctrl.buffer.entryMap.keys.length ≤ s.ctrl.buffer.maxEntries := fun he =>
    (Keyed.length_insert he).trans_le room
  have hnew : ∀ {key e}, s.entry key = none →
      s.ctrl.buffer.entryMap.keys.length < s.ctrl.buffer.maxEntries →
      (s.newEntry key e).ctrl.buffer.entryMap.keys.length ≤ s.ctrl.buffer.maxEntries :=
    fun hnone hroom => (Keyed.length_insert_fresh hnone).trans_le hroom
  cases hmove with
  | accept hroom hQ =>
      refine ⟨?_, roq, counted, room⟩
      rw [List.length_append, List.length_singleton]
      exact hroom
  | run hq hdue =>
      refine ⟨lsq, ?_, counted, room⟩
      rw [hq, List.length_cons] at roq
      exact Nat.le_of_succ_le roq
  | @evict key e he hend hfull =>
      have hlen := Keyed.length_erase he
      have haligned := (ok key e he).aligned
      refine ⟨lsq, roq, ?_, ?_⟩
      · unfold Sys.Counted at counted ⊢
        simp only [InternalBuffer.erase, haligned]
        omega
      · simp only [InternalBuffer.erase, haligned]
        omega
  | readCold hq ht hnone hroom =>
      exact ⟨htaken hq, roq, counted.newEntry hnone, hnew hnone hroom⟩
  | readPatch hq ht he hpend hread hne hlen hQ =>
      exact ⟨htaken hq, roq, Sys.Counted.setEntry (s := s.count .readPatch) counted he, hset he⟩
  | readFf hq ht he hnot hvalid hidx => exact ⟨htaken hq, roq, counted.setEntry he, hset he⟩
  | writeNew hq ht hcomb hnone hroom =>
      exact ⟨hcombined hcomb, roq, counted.newEntry hnone, hnew hnone hroom⟩
  | writeComb hq ht hcomb he hpatch hall | writeJoin hq ht hcomb he hpatch hall
  | writePatch hq ht hcomb he hpend =>
      exact ⟨hcombined hcomb, roq, counted.setEntry he, hset he⟩
  | @transfer key e e' s' he hact hm =>
      have hframe := hm.frame (ok key e he).not_flushBack
      have he' : s'.entry key = some e := by rw [Sys.entry, hframe.1]; exact he
      have hcounted : s'.Counted := by
        unfold Sys.Counted
        rw [hframe.1]
        exact counted
      refine ⟨by rw [Sys.setEntry, hframe.2.1]; exact lsq, ?_, hcounted.setEntry he', ?_⟩
      · cases hm with
        | flush h => exact absurd h (ok key e he).not_flushBack
        -- a transfer adds to roq only where it has found room there
        | readout hst ht hidx hroom =>
            change (s.ctrl.roq.queue ++ _).length ≤ _
            rw [List.length_append, List.length_singleton]
            exact hroom
        | _ => exact roq
      · refine (Keyed.length_insert he').trans_le ?_
        rw [Sys.setEntry, hframe.1]
        exact room
  | wake he hQ => exact hQ.elim
  | below hQ => exact hQ.elim
  | flush he hdirty hend => simp [ok.clean_of_end he hend] at hdirty
  | draining => exact ⟨lsq, roq, counted, room⟩

/-- **Every move of the controller keeps the invariant.** -/
theorem move (hback : CallsBack C) (h : Steady s) (hmove : Move C alone s t) : Steady t := by
  obtain ⟨lsq, roq, counted, room⟩ := h.move_bounds hmove
  have hmap := hmove.mappingFunc h.ok
  cases hmove.waits h.ok with
  | @fetch key e next resp he hkey hask hyes hnext hwaits hlog =>
      obtain ⟨clk, req, hissue⟩ := hask
      have hlen : t.next.length = s.next.length := by
        rw [hnext, Component.issueTo_length hissue]
      obtain ⟨below, below', -, hbelow, -⟩ := Component.issueTo_eq_ok.mp hissue
      have hlate := hback.later _ _ _ _ _ hbelow rfl hyes
      refine ⟨h.ok.move hmove, lsq, roq, counted, room, fun addr => ?_, fun block => ?_⟩
      · rw [hmap, hlen]
        exact h.mapped addr
      · rw [hlog, List.countP_append, List.countP_append, h.answered block, hwaits, hlate]
        by_cases hb : block = key
        · simp [hb, hkey, asksFor, wakes]
        · simp [hb, Ne.symm hb, asksFor, wakes]
  | still hwaits hnext hlog =>
      have hlen : t.next.length = s.next.length := by
        rcases hnext with hnext | ⟨_, _, _, _, _, _, ⟨clk, req, hissue⟩, hnext, -⟩
        · rw [hnext]
        · rw [hnext, Component.issueTo_length hissue]
      obtain ⟨new, hlog, hstill⟩ := hlog
      refine ⟨h.ok.move hmove, lsq, roq, counted, room, fun addr => ?_, fun block => ?_⟩
      · rw [hmap, hlen]
        exact h.mapped addr
      · have hask : new.countP (asksFor block) = 0 :=
          List.countP_eq_zero.mpr fun o ho => by simp [(hstill o ho block).1]
        have hwake : new.countP (wakes block) = 0 :=
          List.countP_eq_zero.mpr fun o ho => by simp [(hstill o ho block).2.1]
        rw [hlog, List.countP_append, List.countP_append, hask, hwake, hwaits]
        exact h.answered block

end Steady

/-! ## Every transfer succeeds -/

section Transfers

variable {s : Sys κ σ} {key : Addr} {e : BufferEntry κ} {clk : Clk}

/-- The level below can be asked. -/
theorem issueNextLevel_yields (hback : CallsBack C) (h : Steady s) {type : BaseRequestType}
    {callback : Option Callback} : Yields (issueNextLevel C type callback key e clk s) fun r =>
      type = .read → r.1.issued → r.1.deterministic = false := by
  unfold issueNextLevel
  have hin := h.mapped key
  obtain ⟨below, hbelow⟩ : ∃ below, s.next[(s.ctrl.mappingFunc key s.next.length).2]? = some below :=
    ⟨_, List.getElem?_eq_getElem hin⟩
  obtain ⟨⟨resp, req', below'⟩, hissue⟩ := hback.serves
    { type := type
      addr := translateToBlockAddr e.pendingRequest.logicAddr
      arrive := clk
      callback := callback } below
  refine ⟨_, bind_eq_ok.mpr ⟨_, Component.issueTo_eq_ok.mpr ⟨below, below', hbelow, hissue, rfl⟩, rfl⟩,
    fun htype hyes => hback.later _ _ _ _ _ hissue htype hyes⟩

/-- The local memory can be asked. -/
theorem issueLocalMemory_yields (hfits : Fits s.ctrl clk) {type : BaseRequestType} :
    Yields (issueLocalMemory type e clk s) fun resp =>
      resp.issued = true ∧ resp.deterministic = true ∧ resp.nextClk ≠ clkInvalid := by
  obtain ⟨hvalid, -, hread, hwrite, -⟩ := hfits
  unfold issueLocalMemory StaticMemory.issueRequest
  rw [if_neg hvalid]
  cases type with
  | read => exact .pure ⟨rfl, rfl, hread⟩
  | write => exact .pure ⟨rfl, rfl, hwrite⟩

/-- The transfer succeeds, and leaves the entry a clock to act at. -/
def Succeeds (func : StateTrans κ σ) (key : Addr) (e : BufferEntry κ) (clk : Clk) (s : Sys κ σ) :
    Prop :=
  Yields (func key e clk s) fun r => r.1.Clocked

theorem fetch_succeeds (hback : CallsBack C) (h : Steady s) (hclk : e.Clocked) {event : EventName}
    {dirty : Bool} : Succeeds (Trans.fetch C event dirty) key e clk s := by
  refine (issueNextLevel_yields hback h).bind fun r _ hlate => ?_
  obtain ⟨resp, s'⟩ := r
  cases hyes : resp.issued with
  | false =>
      simp only [hyes, Bool.not_false, if_true]
      exact .pure hclk
  | true =>
      simp only [hyes, Bool.not_true, Bool.false_eq_true, if_false]
      have hdet : resp.deterministic = false := hlate rfl hyes
      refine .pure fun _ _ hwait => ?_
      simp [hdet] at hwait

theorem advance_succeeds {duration : DurationName} {state : RequestState} {latency : Timing → Clk}
    (hfits : clk + latency s.ctrl.timing ≠ clkInvalid) :
    Succeeds (Trans.advance duration state latency) key e clk s :=
  .pure fun _ _ _ => hfits

/-- A transfer that asks the local memory. -/
theorem local_succeeds (hfits : Fits s.ctrl clk) {type : BaseRequestType}
    {f : BaseResponse → BufferEntry κ × Sys κ σ}
    (hf : ∀ resp, (f resp).1.waitingActionClkUpdate = !resp.deterministic ∧
      (f resp).1.nextActionClk = resp.actionClk) :
    Yields (do
      let resp ← issueLocalMemory type e clk s
      if !resp.issued then
        return (e, s.count .localMemoryIssueFail)
      return f resp : Result (BufferEntry κ × Sys κ σ)) fun r => r.1.Clocked := by
  refine (issueLocalMemory_yields hfits).bind fun resp _ ⟨hyes, hdet, hvalid⟩ => ?_
  simp only [hyes, Bool.not_true, Bool.false_eq_true, if_false]
  refine .pure fun _ _ _ => ?_
  rw [(hf resp).2, BaseResponse.actionClk, if_pos hdet]
  exact hvalid

theorem modify_succeeds (hback : CallsBack C) (h : Steady s) (hfits : Fits s.ctrl clk)
    (hclk : e.Clocked) {duration : DurationName} :
    Succeeds (Trans.modify C duration) key e clk s := by
  refine (issueNextLevel_yields hback h).bind fun r _ _ => ?_
  obtain ⟨resp, s'⟩ := r
  cases hyes : resp.issued with
  | false =>
      simp only [hyes, Bool.not_false, if_true]
      exact .pure hclk
  | true =>
      simp only [hyes, Bool.not_true, Bool.false_eq_true, if_false]
      exact .pure fun _ _ _ => hfits.2.1

theorem finishWrite_succeeds {duration : DurationName} :
    Succeeds (Trans.finishWrite duration) key e clk s :=
  .pure fun hpend => by simp at hpend

/-- Where a read waits in the entry, it can be read out. -/
theorem readout_succeeds (h : Steady s) (hclk : e.Clocked) (hpend : e.pending)
    (hst : e.state ≠ .init) (hwait : e.waitingActionClkUpdate = false)
    (hidx : e.pendingRequestClIndex ≠ []) {duration : DurationName} {again : RequestState} :
    Succeeds (Trans.readout duration again) key e clk s := by
  unfold Succeeds Trans.readout
  simp only [RequestQueue.full_of_le h.roq, ok_bind]
  split
  · exact .pure hclk
  · rename_i hroom
    obtain ⟨clIndex, rest, hcons⟩ := List.exists_cons_of_ne_nil hidx
    have hvalid := hclk hpend hst hwait
    simp only [issueRoq, hcons, RequestQueue.full_of_le h.roq, ok_bind, if_neg hroom, pure_bind]
    split <;> exact .pure fun _ _ _ => hvalid

/-- **Every entry that acts has a transfer, and it succeeds.** -/
theorem transfer_succeeds (hback : CallsBack C) (h : Steady s) (hfits : Fits s.ctrl clk)
    (he : s.entry key = some e) (hclk : e.Clocked)
    (hact : e.state = .init ∨ (e.pending ∧ e.waitingActionClkUpdate = false)) :
    ∃ func, stateTrans C e.pendingRequest.type e.state = some func ∧
      Succeeds func key e clk s := by
  have ok := h.ok key e he
  have hchain := ok.chain
  have hend : e.state ≠ .end_ := by
    intro hend
    rcases hact with hinit | ⟨hpend, -⟩
    · simp [hinit] at hend
    · simp [ok.pending.mpr hend] at hpend
  have hread : ∀ {duration again}, e.state = .pendingReadout → isRead e.pendingRequest.type →
      Succeeds (Trans.readout duration again) key e clk s := by
    intro duration again hst hread
    have hinit : e.state ≠ .init := by simp [hst]
    obtain ⟨hpend, hwait⟩ := hact.resolve_left hinit
    refine readout_succeeds h hclk hpend hinit hwait fun hidx => ?_
    rcases ok.idle.mp hidx with hend' | hwrite
    · exact hend hend'
    · cases hty : e.pendingRequest.type <;> simp [hty, isRead, isWrite] at hread hwrite
  have hlocal := @local_succeeds κ σ s e clk hfits
  cases hty : e.pendingRequest.type <;> cases hst : e.state <;>
    simp only [hty, hst, RequestType.chain, Bool.false_eq_true, ne_eq, not_true_eq_false]
      at hchain hend
  case writeRmw.init | readCold.init => exact ⟨_, rfl, fetch_succeeds hback h hclk⟩
  case writeRmw.pendingAitR | readCold.pendingAitR =>
      exact ⟨_, rfl, advance_succeeds hfits.2.2.2.2.1⟩
  case writeRmw.pendingAitW | writeComb.pendingAitW | writePatch.pendingAitW =>
      exact ⟨_, rfl, advance_succeeds hfits.2.2.2.2.2⟩
  case writeRmw.pendingModify | writeComb.pendingModify | writePatch.pendingModify =>
      exact ⟨_, rfl, modify_succeeds hback h hfits hclk⟩
  case writeRmw.pendingWrite | writeComb.pendingWrite | writePatch.pendingWrite =>
      exact ⟨_, rfl, finishWrite_succeeds⟩
  case writeRmw.pendingRead | writeComb.init | writePatch.init | readCold.pendingRead
      | readFf.init => exact ⟨_, rfl, hlocal fun _ => ⟨rfl, rfl⟩⟩
  case readCold.pendingReadout | readFf.pendingReadout =>
      exact ⟨_, rfl, hread hst (by simp [hty, isRead])⟩

end Transfers

/-! ## Every call succeeds -/

section Calls

variable {s t : Sys κ σ} {key : Addr} {e : BufferEntry κ} {clk : Clk} {o : VisitOrder}

/-- One entry has changed, and has a clock to act at if it is to act. -/
theorem Sys.Clocked.of_entry_ite (h : s.Clocked) (hnew : e.Clocked)
    (hentry : ∀ k, t.entry k = if k = key then some e else s.entry k) : t.Clocked := by
  intro k e' he
  rw [hentry] at he
  split at he
  · cases he
    exact hnew
  · exact h k e' he

/-- An entry in `init` acts without a clock. -/
theorem clocked_of_init (h : e.state = .init) : e.Clocked := fun _ hst => absurd h hst

/-- What holds between the calls of a tick. -/
structure Sound (clk : Clk) (s : Sys κ σ) : Prop where
  steady : Steady s
  clocked : s.Clocked
  fits : Fits s.ctrl clk

/-- The moves of the controller keep it, but for the entries' clocks. -/
theorem Sound.moves (hback : CallsBack C) (h : Sound clk s) (hmoves : Moves C alone s t)
    (hclocked : t.Clocked) : Sound clk t := by
  have hkeep : Steady t ∧ Fits t.ctrl clk := by
    refine reflTransGen_keeps (P := fun u : Sys κ σ => Steady u ∧ Fits u.ctrl clk) ?_ hmoves
      ⟨h.steady, h.fits⟩
    rintro u v ⟨hsteady, hfits⟩ hmove
    refine ⟨hsteady.move hback hmove, ?_⟩
    obtain ⟨htiming, hlocal⟩ := Steady.move_latencies hsteady.ok hmove
    rw [Fits, htiming, hlocal]
    exact hfits
  exact ⟨hkeep.1, hclocked, hkeep.2⟩

theorem acts_yields (h : e.Clocked) : Yields (e.acts clk) fun _ => True := by
  unfold BufferEntry.acts
  split
  · exact .pure trivial
  · rename_i hst
    split
    · exact .pure trivial
    · rename_i hpend
      split
      · exact .pure trivial
      · rename_i hwait
        rw [if_neg (h (by simpa using hpend) hst (by simpa using hwait))]
        exact .pure trivial

/-- **One round of the loop over the buffer succeeds.** -/
theorem tickEntry_yields (hback : CallsBack C) (h : Sound clk s) :
    Yields (tickEntry C clk s key) (Sound clk) := by
  have hclocked : Yields (tickEntry C clk s key) Sys.Clocked := by
    unfold tickEntry
    split
    · exact .pure h.clocked
    · rename_i e he
      refine (acts_yields (h.clocked key e he)).bind fun acts hacts _ => ?_
      cases acts with
      | false =>
          simp only [Bool.false_eq_true, if_false]
          exact .pure h.clocked
      | true =>
          have hact := (acts_eq_ok hacts).imp_right fun h => And.intro h.1 h.2.1
          obtain ⟨func, hfunc, hrun⟩ :=
            transfer_succeeds hback h.steady h.fits he (h.clocked key e he) hact
          simp only [if_true, hfunc]
          refine hrun.bind fun r hr hclk => .pure ?_
          obtain ⟨e', s'⟩ := r
          have hframe := (stateTrans_move hfunc hr).frame (h.steady.ok key e he).not_flushBack
          have hentry : ∀ k, (s'.setEntry key e').entry k =
              if k = key then some e' else s.entry k := fun k => by
            rw [entry_setEntry, Sys.entry, hframe.1]
            rfl
          exact h.clocked.of_entry_ite hclk hentry
  exact hclocked.mono fun t ht hclk => h.moves hback (tickEntry_moves ht) hclk

/-- **Where the buffer has room, an entry can be inserted.** -/
theorem insert_yields (h : Steady s) {addr : Addr} {mk : ℕ → BufferEntry κ}
    (hnone : s.entry (translateToBlockAddr addr) = none)
    (hroom : s.ctrl.buffer.entryMap.keys.length < s.ctrl.buffer.maxEntries) :
    Yields (s.ctrl.buffer.insert addr mk) fun r => r.1 = mk s.ctrl.buffer.nextAvailableIndex ∧
      ∀ k, ({ s with ctrl.buffer := r.2 } : Sys κ σ).entry k =
        if k = translateToBlockAddr addr then some r.1 else s.entry k := by
  refine ⟨_, InternalBuffer.insert_of_room hnone hroom h.counted, rfl, fun k => ?_⟩
  exact entry_newEntry (s := s)

/-- A read is served: where it joins none, no read waits. -/
theorem serveRead_yields {how : Served} {front : BaseRequest κ} {rest : List (BaseRequest κ)}
    (hidx : how ≠ .readPatch → e.pendingRequestClIndex = [])
    (hlen : e.pendingRequestClIndex.length < blockSizeCl) :
    Yields (serveRead how front rest e s) fun _ => True := by
  have hassign : ∀ e' : BufferEntry κ, e'.pendingRequestClIndex.length < blockSizeCl →
      Yields (e'.assignCallback (blockOffsetCl front.addr) front.callback) fun _ => True := by
    intro e' hlen'
    unfold BufferEntry.assignCallback
    dsimp only
    rw [if_neg (by rw [List.length_append, List.length_singleton]; omega)]
    exact .pure trivial
  unfold serveRead
  by_cases hhow : how = .readPatch
  · simp only [hhow, ne_eq, not_true_eq_false, if_false, pure_bind]
    exact (hassign e hlen).bind fun _ _ _ => .pure trivial
  · have hnil := hidx hhow
    simp only [hhow, ne_eq, not_false_eq_true, if_true, BufferEntry.resetCallback, hnil,
      not_true_eq_false, if_false, pure_bind]
    exact (hassign _ (by simp)).bind fun _ _ _ => .pure trivial

/-- Where eviction says there is room, there is. -/
theorem checkAndEvict_room (h : Steady s) (hev : checkAndEvict o s = (true, t)) :
    t.ctrl.buffer.entryMap.keys.length < t.ctrl.buffer.maxEntries ∧
    ∀ k, s.entry k = none → t.entry k = none := by
  obtain ⟨rfl, hfull⟩ | ⟨key, e, he, hend, hfull, rfl⟩ := checkAndEvict_cases hev
  · have hroom := hfull rfl
    simp only [InternalBuffer.full, decide_eq_false_iff_not, Nat.not_le] at hroom
    exact ⟨hroom, fun _ hk => hk⟩
  · have hlen := Keyed.length_erase he
    have hroom := h.room
    have haligned := (h.ok key e he).aligned
    refine ⟨?_, fun k hk => ?_⟩
    · simp only [InternalBuffer.erase, haligned]
      omega
    · rw [entry_erase]
      split
      · rfl
      · exact hk

/-- Eviction leaves the other entries as they were. -/
theorem checkAndEvict_clocked {room : Bool} (h : s.Clocked)
    (hev : checkAndEvict o s = (room, t)) : t.Clocked := by
  obtain ⟨rfl, -⟩ | ⟨key, e, -, -, -, rfl⟩ := checkAndEvict_cases hev
  · exact h
  · intro k e' he
    rw [entry_erase] at he
    split at he
    · cases he
    · exact h k e' he

theorem checkAndEvict_steady {room : Bool} (hback : CallsBack C) (h : Steady s)
    (hev : checkAndEvict o s = (room, t)) : Steady t :=
  reflTransGen_keeps (fun _ _ hu hmove => hu.move hback hmove)
    (checkAndEvict_moves (C := C) (Q := alone) hev) h

/-- **A read at the front can be served, or stays.** -/
theorem tickLsqRead_yields (hback : CallsBack C) (h : Sound clk s) {front : BaseRequest κ}
    {rest : List (BaseRequest κ)} : Yields (tickLsqRead o clk front rest s) Sys.Clocked := by
  unfold tickLsqRead
  dsimp only
  split
  · rename_i hnone
    split
    · rename_i s₁ hev
      obtain ⟨hroom, hstill⟩ := checkAndEvict_room h.steady hev
      refine (insert_yields (checkAndEvict_steady hback h.steady hev) (hstill _ hnone) hroom).bind
        fun r _ ⟨hnew, hentry⟩ => ?_
      obtain ⟨e, buffer⟩ := r
      obtain rfl : e = _ := hnew
      refine (serveRead_yields (fun _ => rfl) (by simp [BufferEntry.new])).mono fun t ht _ => ?_
      obtain ⟨-, rfl⟩ := serveRead_eq_ok ht
      have hbefore := (checkAndEvict_clocked h.clocked hev).of_entry_ite
        (clocked_of_init rfl) hentry
      exact hbefore.of_entry_ite (clocked_of_init rfl) fun k => by
        rw [entry_takeRead, entry_setEntry]
    · rename_i s₁ hev
      exact .pure (checkAndEvict_clocked h.clocked hev)
  · rename_i e he
    have ok := h.steady.ok _ e he
    split
    · rename_i hpend
      -- an entry pending with a read has a line waiting, so the check of the source passes
      have hne : e.pendingRequestClIndex ≠ [] := by
        intro hidx
        rcases ok.idle.mp hidx with hend | hwrite
        · simp [ok.pending.mpr hend] at hpend
        · cases hty : e.pendingRequest.type <;> simp [hty, isRead, isWrite] at hpend hwrite
      rw [if_neg hne]
      split
      · rename_i hlen
        refine (serveRead_yields (fun hhow => absurd rfl hhow) hlen.1).mono fun t ht _ => ?_
        obtain ⟨-, rfl⟩ := serveRead_eq_ok ht
        have hclk : (e.waitFor front).Clocked := h.clocked _ e he
        have hentry : ∀ k, (((s.count .readPatch).setEntry (translateToBlockAddr front.addr)
            (e.waitFor front)).takeRead .readPatch front rest).entry k =
              if k = translateToBlockAddr front.addr then some (e.waitFor front) else s.entry k :=
          fun k => by rw [entry_takeRead, entry_setEntry, entry_count]
        exact h.clocked.of_entry_ite hclk hentry
      · exact .pure h.clocked
    · rename_i hnot
      split
      · -- one at rest, or with a write, has no line waiting
        have hidx : e.pendingRequestClIndex = [] := by
          refine ok.idle.mpr ?_
          rcases ok.isWrite_or_isRead with hw | hr
          · exact .inr hw.1
          · refine .inl (ok.pending.mp ?_)
            rw [← Bool.not_eq_true]
            exact fun hpend => hnot ⟨hpend, hr.2⟩
        have hidx' : ∀ bits, (e.assignNewRequest clk .readFf front.addr bits).pendingRequestClIndex =
            [] := fun _ => hidx
        refine (serveRead_yields (fun _ => hidx' _) (by rw [hidx']; decide)).mono fun t ht _ => ?_
        obtain ⟨-, rfl⟩ := serveRead_eq_ok ht
        exact h.clocked.of_entry_ite (clocked_of_init rfl) fun k => by
          rw [entry_takeRead, entry_setEntry]
      · exact .pure h.clocked

/-- **The writes at the front can be taken, or stay.** -/
theorem tickLsqWrite_yields (hback : CallsBack C) (h : Sound clk s) {front : BaseRequest κ} :
    Yields (tickLsqWrite o clk front s) Sys.Clocked := by
  unfold tickLsqWrite
  obtain ⟨hit, taken, left, hcomb⟩ : ∃ hit taken left,
      combine (translateToBlockAddr front.addr) s.ctrl.lsq.queue = (hit, taken, left) :=
    ⟨_, _, _, rfl⟩
  simp only [hcomb]
  split
  · rename_i hnone
    split
    · rename_i s₁ hev
      exact .pure (checkAndEvict_clocked h.clocked hev)
    · rename_i s₁ hev
      obtain ⟨hroom, hstill⟩ := checkAndEvict_room h.steady hev
      refine (insert_yields (checkAndEvict_steady hback h.steady hev) (hstill _ hnone) hroom).bind
        fun r _ ⟨hnew, hentry⟩ => .pure ?_
      obtain ⟨e, buffer⟩ := r
      obtain rfl : e = _ := hnew
      exact (checkAndEvict_clocked h.clocked hev).of_entry_ite (clocked_of_init rfl) hentry
  · rename_i e he
    rw [InternalBuffer.find, translateToBlockAddr_idem] at he
    split
    · split
      · exact .pure (h.clocked.of_entry_ite (clocked_of_init rfl) fun k => entry_setEntry)
      · have hclk : BufferEntry.Clocked { e with clBitmap := hit ||| e.clBitmap } := h.clocked _ e he
        exact .pure (h.clocked.of_entry_ite hclk fun k => entry_setEntry)
    · split
      · exact .pure h.clocked
      · exact .pure (h.clocked.of_entry_ite (clocked_of_init rfl) fun k => entry_setEntry)

/-- Any read may join another. -/
theorem patchOk_alone : PatchOk alone s := fun _ _ _ _ _ _ _ => trivial

/-- **A tick succeeds.** -/
theorem tick_yields (hback : CallsBack C) (h : Sound clk s) :
    Yields (tick C o clk s) (Sound clk) := by
  have hroq : Sound clk (tickRoq clk s) :=
    h.moves hback tickRoq_moves fun key e he => h.clocked key e (tickRoq_entry ▸ he)
  have hlsq : Yields (tickLsq o clk (tickRoq clk s)) (Sound clk) := by
    have hclocked : Yields (tickLsq o clk (tickRoq clk s)) Sys.Clocked := by
      unfold tickLsq
      split
      · exact .pure hroq.clocked
      · split
        · exact tickLsqRead_yields hback hroq
        · exact tickLsqWrite_yields hback hroq
    exact hclocked.mono fun t ht hclk => hroq.moves hback (tickLsq_moves patchOk_alone ht) hclk
  exact hlsq.bind fun t _ ht => foldlM_yields (fun u key hu => tickEntry_yields hback hu) ht

end Calls

/-! ## No run fails -/

section Runs

variable {s t : Sys κ σ}

/-- The invariant of the runs. -/
structure Running (s : Sys κ σ) : Prop where
  steady : Steady s
  clocked : s.Clocked

/-- **A callback that is owed finds its entry.** -/
theorem callback_yields {addr : Addr} {clk : Clk} (h : Running s) (hvalid : clk + 1 ≠ clkInvalid)
    (howed : s.log.countP (wakes (translateToBlockAddr addr)) <
      s.log.countP (asksFor (translateToBlockAddr addr))) :
    Yields (nextLevelReadCallback addr clk s) Running := by
  obtain ⟨steady, clocked⟩ := h
  have hanswered := steady.answered (translateToBlockAddr addr)
  have hwaits : s.waits (translateToBlockAddr addr) = true := by
    rw [← Bool.not_eq_false]
    intro hno
    simp only [hno, Bool.false_eq_true, if_false] at hanswered
    omega
  obtain ⟨e, he, hwait⟩ := waits_eq_true.mp hwaits
  unfold nextLevelReadCallback
  simp only [he]
  have hentry : ∀ k, ((s.setEntry (translateToBlockAddr addr)
      { e with waitingActionClkUpdate := false, nextActionClk := clk + 1 }).emit
        (.woken (translateToBlockAddr addr) e.state e.waitingActionClkUpdate)).entry k =
      if k = translateToBlockAddr addr then
        some { e with waitingActionClkUpdate := false, nextActionClk := clk + 1 }
      else s.entry k := fun k => by rw [entry_emit, entry_setEntry]
  refine .pure ⟨⟨?_, steady.lsq, steady.roq, steady.counted.setEntry he,
    (Keyed.length_insert he).trans_le steady.room, steady.mapped, fun block => ?_⟩, ?_⟩
  · exact steady.ok.of_entry_ite (steady.ok _ e he).wake hentry
  · rw [waits_of_entry_ite hentry]
    change (s.log ++ [_]).countP _ = (s.log ++ [_]).countP _ + _
    rw [List.countP_append, List.countP_append, steady.answered block]
    by_cases hb : block = translateToBlockAddr addr
    · simp [hb, hwaits, asksFor, wakes, BufferEntry.waits]
    · simp [hb, Ne.symm hb, asksFor, wakes]
  · exact clocked.of_entry_ite (fun _ _ _ => hvalid) hentry

/-- **Every expected call succeeds.** -/
theorem step_yields (hback : CallsBack C) {ev : Event κ σ} (h : Running s) (hev : Expected s ev) :
    Yields ((machine C).step s ev) Running := by
  cases ev with
  | issueRequest req =>
      obtain ⟨⟨resp, t⟩, hissue⟩ : ∃ r, issueRequest req s = .ok r := by
        obtain ⟨p, henq⟩ := @RequestQueue.enqueue_of_le _ s.ctrl.lsq req h.steady.lsq
        unfold issueRequest
        simp only [henq, ok_bind]
        exact ⟨_, rfl⟩
      refine ⟨t, bind_eq_ok.mpr ⟨_, hissue, rfl⟩, ?_, ?_⟩
      · exact reflTransGen_keeps (fun _ _ hu hmove => hu.move hback hmove)
          (issueRequest_moves (C := C) (Q := alone) trivial hissue) h.steady
      · simp only [issueRequest, bind_eq_ok, Prod.exists, pure_eq_ok, Prod.mk.injEq] at hissue
        obtain ⟨success, lsq, -, -, rfl⟩ := hissue
        split <;> exact h.clocked
  | tick o clk =>
      exact (tick_yields hback ⟨h.steady, h.clocked, hev⟩).mono fun t _ ht => ⟨ht.steady, ht.clocked⟩
  | nextLevelReadCallback addr clk => exact callback_yields h hev.1 hev.2
  | drainCurrent =>
      refine .pure ?_
      rw [drainCurrent_eq fun _ _ => h.steady.ok.clean_of_end]
      exact h
  | nextLevel next =>
      have hlen : next.length = s.next.length := hev
      obtain ⟨ok, lsq, roq, counted, room, mapped, answered⟩ := h.steady
      refine .pure ⟨⟨ok, lsq, roq, counted, room, fun addr => ?_, answered⟩, h.clocked⟩
      change (s.ctrl.mappingFunc addr next.length).2 < next.length
      rw [hlen]
      exact mapped addr

theorem Running.init {cfg : Config} {next : List σ} (hnext : next ≠ [])
    (hmap : cfg.mappingFunc = noneMapping ∨ cfg.mappingFunc = strideMapping4096) :
    Running (Sys.init cfg next : Sys κ σ) where
  steady :=
    { ok := Sys.Ok.init
      lsq := Nat.zero_le _
      roq := Nat.zero_le _
      counted := rfl
      room := Nat.zero_le _
      mapped := mapping_lt hmap (List.length_pos_iff.mpr hnext)
      answered := fun block => by simp [Sys.waits, Sys.entry, Sys.init] }
  clocked := fun key e he => by simp [Sys.entry, Sys.init] at he

/-- **No internal error is reached.** For every configuration, every
level below that answers the reads it takes by their callback, and every
run in which callbacks come for reads that are owed an answer and no
clock or sum of a clock and a latency is the invalid one: no call fails,
and every entry at rest can be read. -/
theorem no_internal_error {cfg : Config} {next : List σ} {es : List (Event κ σ)}
    (hback : CallsBack C) (hnext : next ≠ [])
    (hmap : cfg.mappingFunc = noneMapping ∨ cfg.mappingFunc = strideMapping4096)
    (hexpected : (machine C).Meets Expected (Sys.init cfg next) es) :
    ∃ s, (machine C).run (Sys.init cfg next) es = .ok s ∧
      ∀ key e, s.entry key = some e → e.state = .end_ → e.validToRead := by
  obtain ⟨s, hrun, hs⟩ := (machine C).run_yields (fun _ _ hP hev => step_yields hback hP hev)
    (Running.init hnext hmap) hexpected
  exact ⟨s, hrun, fun key e he hend => (hs.steady.ok key e he).readable (.inr (.inr hend))⟩

/-- A level below that takes every request calls back later. -/
theorem callsBack_willing : CallsBack willing where
  serves := fun req below => ⟨_, rfl⟩
  later := by
    rintro req below resp req' below' h - -
    obtain ⟨rfl, -⟩ := Prod.mk.inj (Except.ok.inj h)
    rfl

/-- A read, from the queue to its callback, and a write to its block. -/
def readThenWriteBack : List (Event ℕ Unit) :=
  [.issueRequest { addr := 0, arrive := 0, type := .read, callback := some 0 },
    .tick .asHeld 0, .nextLevelReadCallback 0 0, .tick .asHeld 1, .tick .asHeld 2,
    .tick .asHeld 3, .issueRequest { addr := 64, arrive := 3, type := .write }, .tick .asHeld 4,
    .tick .asHeld 5, .tick .asHeld 6, .tick .asHeld 7, .tick .asHeld 8]

theorem no_internal_error_readThenWriteBack :
    ∃ s, smallRun readThenWriteBack = .ok s ∧
      ∀ key e, s.entry key = some e → e.state = .end_ → e.validToRead :=
  no_internal_error callsBack_willing (by simp) (.inl rfl) (by decide +kernel)

/-- The small configuration, with a latency of the controller's timing
that takes clock two to the invalid clock. -/
def lateConfig : Config := { smallConfig with timing := ⟨clkInvalid - 2, 1⟩ }

/-- A read whose block comes in a later tick, and two ticks more. -/
def lateRead : List (Event ℕ Unit) :=
  [.issueRequest { addr := 0, arrive := 0, type := .read, callback := some 0 },
    .tick .asHeld 0, .tick .asHeld 1, .nextLevelReadCallback 0 1, .tick .asHeld 2, .tick .asHeld 3]

/-- **A latency can reach the invalid clock**: of the controller's own
timing, where those of its local memory are one. -/
theorem lateRead_fails :
    lateConfig.localMemory.readLatency = 1 ∧ lateConfig.localMemory.writeLatency = 1 ∧
      (machine willing).run (Sys.init lateConfig [()]) lateRead =
        .error "Internal error, the next_action_clk is invalid (18446744073709551615)" := by
  have hrun : (match (machine willing).run (Sys.init lateConfig [()]) lateRead with
      | .ok _ => none
      | .error message => some message) =
        some "Internal error, the next_action_clk is invalid (18446744073709551615)" := by
    decide +kernel
  refine ⟨rfl, rfl, ?_⟩
  split at hrun
  · cases hrun
  · rename_i message heq
    rw [heq, Option.some.inj hrun]

end Runs

end Rmw

end Vans
