import Vans.Dram.Ledger
import Vans.Dram.Ddr4
/-!
# The DRAM media controller — retiring reads

The reads that wait for their answer are first in, first out: a tick
takes away at most the first of them, which it does only after calling
its callback, and adds the read it serves at the end. A read without a
callback is never taken away, and none behind it is.
-/

namespace Vans

namespace Dram

variable {κ γ ς : Type} {k : ℕ}

/-- The reads among the requests served, as they wait for their answer. -/
def awaiting (spec : Spec γ ς) (clk : Clk) (log : List (Obs κ γ)) : List (Request κ) :=
  ((servedReqs log).filter (·.type = .read)).map fun req =>
    { req with depart := (clk + UInt64.ofInt spec.readLatency).toInt64 }

/-- **The first read retires**, at this tick: its callback, if it has
one, is called, before anything else that the tick does, and the reads
behind it wait on, with those the tick serves behind them. -/
def Retires (spec : Spec γ ς) (clk : Clk) (s t : Sys κ γ ς k) : Prop :=
  ∃ req rest new, s.ctrl.pendingQueue = req :: rest ∧
    t.log = s.log ++ (invoke req.callback (req.logicAddr + s.ctrl.startAddr) clk).map .ran ++ new ∧
    ranInvocations new = [] ∧
    t.ctrl.pendingQueue = rest ++ awaiting spec clk new

/-- What does not answer a read: the reads waiting wait on. -/
structure Waits (spec : Spec γ ς) (s t : Sys κ γ ς k) (new : List (Obs κ γ)) : Prop where
  log : t.log = s.log ++ new
  ran : ranInvocations new = []
  pending : t.ctrl.pendingQueue = s.ctrl.pendingQueue ++ awaiting spec s.ctrl.currClk new
  clock : t.ctrl.currClk = s.ctrl.currClk
  start : t.ctrl.startAddr = s.ctrl.startAddr

section Ticks

variable {spec : Spec γ ς} {s t u : Sys κ γ ς k} {new new' : List (Obs κ γ)} {clk : Clk}
  {req : Request κ} {rest : List (Request κ)}

theorem awaiting_append :
    awaiting spec clk (new ++ new') = awaiting spec clk new ++ awaiting spec clk new' := by
  simp [awaiting, servedReqs_append]

theorem Waits.refl : Waits spec s s [] := by
  refine ⟨(List.append_nil _).symm, rfl, ?_, rfl, rfl⟩
  simp [awaiting, servedReqs]

theorem Waits.trans (h : Waits spec s t new) (h' : Waits spec t u new') :
    Waits spec s u (new ++ new') := by
  refine ⟨?_, ?_, ?_, h'.clock.trans h.clock, h'.start.trans h.start⟩
  · rw [h'.log, h.log, List.append_assoc]
  · rw [ranInvocations_append, h.ran, h'.ran]
    rfl
  · rw [h'.pending, h.pending, h.clock, awaiting_append, List.append_assoc]

/-- A request that is accepted and not forwarded. -/
theorem Accept.waits (h : Accept s t req) : Waits spec s t [.accepted req] := by
  obtain ⟨-, -, -, became⟩ := h
  refine ⟨became.log, rfl, ?_, became.clock, became.start⟩
  rw [became.pending]
  exact (List.append_nil _).symm

theorem issueRefresh_waits [DecidableEq γ] (h : issueRefresh spec s = .ok t) :
    ∃ new, Waits spec s t new := by
  refine issueRefresh_keeps (P := fun u => ∃ new, Waits spec s u new) h ?_ ?_ ⟨[], .refl⟩
  · rintro u v rankId ⟨new, hu⟩ hissue
    obtain ⟨req, -, haccept⟩ := refresh_accepted hissue
    exact ⟨_, hu.trans haccept.waits⟩
  · rintro u ⟨new, hu⟩
    exact ⟨new, hu.log, hu.ran, hu.pending, hu.clock, hu.start⟩

theorem chooseMode_waits : Waits spec s (chooseMode s) [] := by
  have h : Waits spec s s [] := .refl
  unfold chooseMode
  split <;> exact ⟨h.log, h.ran, h.pending, rfl, rfl⟩

/-- The read served waits for its answer, behind the others. -/
theorem afterCmd_waits {name : QueueName} {cmd : γ} :
    ∃ new, Waits spec s (afterCmd spec name cmd req rest s) new := by
  unfold afterCmd
  dsimp only
  split
  · refine ⟨[], ?_⟩
    split <;> exact ⟨by simp, rfl, by simp [awaiting, servedReqs], by simp, by simp⟩
  · refine ⟨[.served req], ?_⟩
    split
    · rename_i hread
      refine ⟨by simp [Sys.emit], rfl, ?_, by simp [Sys.emit], by simp [Sys.emit]⟩
      simp [Sys.emit, awaiting, servedReqs, Obs.servedReq, hread]
    · rename_i hread
      refine ⟨by simp [Sys.emit], rfl, ?_, by simp [Sys.emit], by simp [Sys.emit]⟩
      simp [Sys.emit, awaiting, servedReqs, Obs.servedReq, hread]

theorem schedule_waits [DecidableEq γ] {name : QueueName} (h : schedule spec name s = .ok t) :
    ∃ new, Waits spec s t new := by
  unfold schedule at h
  split at h
  · obtain rfl := pure_eq_ok.mp h
    exact ⟨[], .refl⟩
  · simp only [bind_eq_ok] at h
    obtain ⟨ready, -, h⟩ := h
    cases ready with
    | false =>
        simp only [Bool.not_false, if_true, pure_eq_ok] at h
        exact h ▸ ⟨[], .refl⟩
    | true =>
        simp only [Bool.not_true, Bool.false_eq_true, if_false, bind_eq_ok, pure_eq_ok] at h
        obtain ⟨cmd, -, u, hu, rfl⟩ := h
        simp only [issueCmd, bind_eq_ok, pure_eq_ok] at hu
        obtain ⟨channel, -, rfl⟩ := hu
        rename_i req rest _
        have hissued : Waits spec s
            (({ s with ctrl.channel := channel } : Sys κ γ ς k).emit
              (.issued cmd req.mappedAddr s.ctrl.currClk))
            [.issued cmd req.mappedAddr s.ctrl.currClk] :=
          ⟨rfl, rfl, (List.append_nil _).symm, rfl, rfl⟩
        obtain ⟨new, hnew⟩ := afterCmd_waits
        exact ⟨_, hissued.trans hnew⟩

/-- **After the first read was looked at, the others wait on.** -/
theorem tick_waits [DecidableEq γ] (h : tick spec clk s = .ok t) :
    ∃ new, Waits spec (servePending { s with ctrl.currClk := clk }) t new := by
  simp only [tick, bind_eq_ok] at h
  obtain ⟨u, hu, h⟩ := h
  obtain ⟨new, hnew⟩ := issueRefresh_waits hu
  obtain ⟨new', hnew'⟩ := schedule_waits h
  exact ⟨_, (hnew.trans chooseMode_waits).trans hnew'⟩

/-- The first read, where its answer is due and it has a callback. -/
theorem servePending_answers {callback : κ} (hq : s.ctrl.pendingQueue = req :: rest)
    (hdue : req.depart.toUInt64 ≤ s.ctrl.currClk) (hcb : req.callback = some callback) :
    servePending s = ({ s with ctrl.pendingQueue := rest }).emit
      (.ran ⟨callback, req.logicAddr + s.ctrl.startAddr, s.ctrl.currClk⟩) := by
  simp only [servePending, hq, hdue, if_true, hcb]

theorem servePending_none (hq : s.ctrl.pendingQueue = req :: rest) (hcb : req.callback = none) :
    servePending s = s := by
  simp only [servePending, hq, hcb, ite_self]

/-- **A read that is due retires at the tick exactly where it has a
callback.** -/
theorem tick_retires_iff [DecidableEq γ] (hq : s.ctrl.pendingQueue = req :: rest)
    (hdue : req.depart.toUInt64 ≤ clk) (h : tick spec clk s = .ok t) :
    Retires spec clk s t ↔ req.callback.isSome := by
  obtain ⟨new, waits⟩ := tick_waits h
  constructor
  · rintro ⟨req', rest', new', hq', hlog, -, hpend⟩
    obtain ⟨rfl, rfl⟩ := List.cons.inj (hq.symm.trans hq')
    by_contra hno
    have hcb : req.callback = none := by simpa using hno
    rw [servePending_none (s := { s with ctrl.currClk := clk }) hq hcb] at waits
    -- the tick did the same, and left the read where it was
    have hnew : new = new' := by
      have hlogs := waits.log.symm.trans hlog
      rw [hcb] at hlogs
      simpa [invoke] using hlogs
    have hpends := waits.pending.symm.trans hpend
    rw [hnew] at hpends
    have hlen := congrArg List.length hpends
    simp [hq] at hlen
  · intro hsome
    obtain ⟨callback, hcb⟩ := Option.isSome_iff_exists.mp hsome
    rw [servePending_answers (s := { s with ctrl.currClk := clk }) hq hdue hcb] at waits
    refine ⟨req, rest, new, hq, ?_, waits.ran, waits.pending⟩
    rw [waits.log, hcb]
    rfl

end Ticks

/-! ## Runs -/

def Event.isTick : Event κ → Bool
  | .tick _ => true
  | .issueRequest .. => false

/-- The callback a read is to have, and its address. -/
def answerOf (startAddr : Addr) (req : Request κ) : Option κ × Addr :=
  (req.callback, req.logicAddr + startAddr)

/-- The callbacks run, without their clocks. -/
def answers (log : List (Obs κ γ)) : List (Option κ × Addr) :=
  (ranInvocations log).map fun inv => (some inv.callback, inv.addr)

/-- Every tick of the run comes when the answers of these reads are due. -/
def AllDue (reqs : List (Request κ)) (es : List (Event κ)) : Prop :=
  ∀ clk, .tick clk ∈ es → ∀ req ∈ reqs, req.depart.toUInt64 ≤ clk

section Runs

variable [DecidableEq γ] {spec : Spec γ ς} {s t : Sys κ γ ς k} {clk : Clk} {req : Request κ}
  {rest : List (Request κ)} {es : List (Event κ)}

/-- A request that is issued answers none. -/
theorem issue_waits {logicAddr : Addr} {type : ReqType} {callback : Option κ}
    (h : (machine spec k).step s (.issueRequest logicAddr type callback) = .ok t) :
    (∃ later, t.ctrl.pendingQueue = s.ctrl.pendingQueue ++ later) ∧
      ranInvocations t.log = ranInvocations s.log ∧ t.ctrl.startAddr = s.ctrl.startAddr := by
  simp only [machine, bind_eq_ok, Prod.exists, pure_eq_ok] at h
  obtain ⟨request, -, issued, u, hissue, rfl⟩ := h
  rcases issueRequest_cases hissue with ⟨-, rfl, -⟩ | ⟨-, req, -, acc | fwd⟩
  · exact ⟨⟨[], (List.append_nil _).symm⟩, rfl, rfl⟩
  · have waits : Waits spec s u [.accepted req] := acc.waits
    refine ⟨⟨_, waits.pending⟩, ?_, acc.became.start⟩
    rw [acc.became.log, ranInvocations_append]
    exact List.append_nil _
  · refine ⟨⟨_, fwd.became.pending⟩, ?_, fwd.became.start⟩
    rw [fwd.became.log, ranInvocations_append]
    exact List.append_nil _

/-- **A first read without a callback stays**, whatever follows, and no
read is answered any more. -/
theorem run_stuck (hq : s.ctrl.pendingQueue = req :: rest) (hcb : req.callback = none)
    (h : (machine spec k).run s es = .ok t) :
    (∃ later, t.ctrl.pendingQueue = s.ctrl.pendingQueue ++ later) ∧
      ranInvocations t.log = ranInvocations s.log := by
  refine (machine spec k).invariant (P := fun u : Sys κ γ ς k =>
    (∃ later, u.ctrl.pendingQueue = s.ctrl.pendingQueue ++ later) ∧
      ranInvocations u.log = ranInvocations s.log)
    (fun u ev v hu hv => ?_) ⟨⟨[], (List.append_nil _).symm⟩, rfl⟩ h
  obtain ⟨⟨later, hpend⟩, hran⟩ := hu
  cases ev with
  | issueRequest logicAddr type callback =>
      obtain ⟨⟨later', hlater⟩, hran', -⟩ := issue_waits hv
      exact ⟨⟨later ++ later', by rw [hlater, hpend, List.append_assoc]⟩, hran'.trans hran⟩
  | tick clk =>
      obtain ⟨new, waits⟩ := tick_waits hv
      have hfront : u.ctrl.pendingQueue = req :: (rest ++ later) := by
        rw [hpend, hq]
        rfl
      rw [servePending_none (s := { u with ctrl.currClk := clk }) hfront hcb] at waits
      refine ⟨⟨later ++ awaiting spec clk new, ?_⟩, ?_⟩
      · rw [waits.pending]
        change u.ctrl.pendingQueue ++ _ = _
        rw [hpend, List.append_assoc]
      · rw [waits.log, ranInvocations_append, waits.ran, List.append_nil]
        exact hran

/-- **Reads retire in order, one a tick**, where each of them has a
callback and is due. -/
theorem run_retires : ∀ {es : List (Event κ)} {s : Sys κ γ ς k} {reqs later : List (Request κ)},
    s.ctrl.pendingQueue = reqs ++ later → (∀ req ∈ reqs, req.callback.isSome) → AllDue reqs es →
    es.countP Event.isTick ≤ reqs.length → (machine spec k).run s es = .ok t →
    (∃ later', t.ctrl.pendingQueue = reqs.drop (es.countP Event.isTick) ++ later') ∧
      answers t.log = answers s.log ++
        (reqs.take (es.countP Event.isTick)).map (answerOf s.ctrl.startAddr) := by
  intro es
  induction es with
  | nil =>
      intro s reqs later hq _ _ _ h
      obtain rfl := Except.ok.inj h
      exact ⟨⟨later, hq⟩, (List.append_nil _).symm⟩
  | cons ev es ih =>
      intro s reqs later hq hcb hdue hlen h
      rw [Machine.run_cons, bind_eq_ok] at h
      obtain ⟨u, hu, hut⟩ := h
      have hdue' : AllDue reqs es := fun clk hclk => hdue clk (List.mem_cons_of_mem _ hclk)
      cases ev with
      | issueRequest logicAddr type callback =>
          obtain ⟨⟨later', hlater⟩, hran, hstart⟩ := issue_waits hu
          rw [hq, List.append_assoc] at hlater
          obtain ⟨hpend, hans⟩ := ih hlater hcb hdue' hlen hut
          refine ⟨hpend, ?_⟩
          rw [show answers s.log = answers u.log by rw [answers, answers, hran], ← hstart]
          exact hans
      | tick clk =>
          rw [List.countP_cons_of_pos rfl] at hlen ⊢
          cases reqs with
          | nil => exact absurd hlen (Nat.not_succ_le_zero _)
          | cons req reqs =>
              obtain ⟨callback, hsome⟩ := Option.isSome_iff_exists.mp (hcb req List.mem_cons_self)
              obtain ⟨new, waits⟩ := tick_waits hu
              rw [servePending_answers (s := { s with ctrl.currClk := clk }) hq
                (hdue clk List.mem_cons_self req List.mem_cons_self) hsome] at waits
              have hpendu : u.ctrl.pendingQueue = reqs ++ (later ++ awaiting spec clk new) := by
                rw [waits.pending]
                exact List.append_assoc ..
              obtain ⟨hpend, hans⟩ := ih hpendu (fun r hr => hcb r (List.mem_cons_of_mem _ hr))
                (fun clk' hclk r hr => hdue' clk' hclk r (List.mem_cons_of_mem _ hr))
                (Nat.le_of_succ_le_succ hlen) hut
              refine ⟨hpend, ?_⟩
              have hfirst : answers u.log = answers s.log ++ [answerOf s.ctrl.startAddr req] := by
                rw [answers, waits.log, ranInvocations_append, waits.ran, List.append_nil, Sys.emit,
                  ranInvocations_append, List.map_append, answerOf, hsome]
                rfl
              have hstart : u.ctrl.startAddr = s.ctrl.startAddr := waits.start
              rw [hans, hfirst, hstart, List.append_assoc]
              rfl

/-- **Reads retire exactly where they have a callback.** Let a read be
the first that waits, in any state. At a tick it is due, it retires if
and only if it has a callback. Without one it waits for ever, and so do
all behind it, whatever follows. Where all that wait have callbacks and
are due, they retire in order, one a tick. -/
theorem reads_retire_iff (hq : s.ctrl.pendingQueue = req :: rest) :
    (∀ clk t, tick spec clk s = .ok t → req.depart.toUInt64 ≤ clk →
      (Retires spec clk s t ↔ req.callback.isSome)) ∧
    (req.callback = none → ∀ es t, (machine spec k).run s es = .ok t →
      (∃ later, t.ctrl.pendingQueue = s.ctrl.pendingQueue ++ later) ∧
        ranInvocations t.log = ranInvocations s.log) ∧
    ∀ es t, (∀ req ∈ s.ctrl.pendingQueue, req.callback.isSome) → AllDue s.ctrl.pendingQueue es →
      es.countP Event.isTick ≤ s.ctrl.pendingQueue.length → (machine spec k).run s es = .ok t →
      (∃ later, t.ctrl.pendingQueue =
        s.ctrl.pendingQueue.drop (es.countP Event.isTick) ++ later) ∧
      answers t.log = answers s.log ++
        (s.ctrl.pendingQueue.take (es.countP Event.isTick)).map (answerOf s.ctrl.startAddr) := by
  refine ⟨fun clk t h hdue => tick_retires_iff hq hdue h, fun hcb es t h => run_stuck hq hcb h,
    fun es t hcb hdue hlen h => ?_⟩
  exact run_retires (List.append_nil _).symm hcb hdue hlen h

end Runs

namespace Ddr4

/-- A write, and two reads of its line: both are forwarded, and due a
clock later. -/
def twoForwarded (first : Option ℕ) : List (Event ℕ) :=
  [.issueRequest 0 .write none, .issueRequest 0 .read first, .issueRequest 0 .read (some 7)]

abbrev vansMachine := machine (κ := ℕ) (spec (vansOrganization 1) vansTiming) 2

theorem reads_retire_iff_twoForwarded :
    ∃ s₀ s t : Memory ℕ, Sys.new (spec (vansOrganization 1) vansTiming) 2 vansConfig = .ok s₀ ∧
      vansMachine.run s₀ (twoForwarded (some 3)) = .ok s ∧
      tick (spec (vansOrganization 1) vansTiming) 1 s = .ok t ∧
      Retires (spec (vansOrganization 1) vansTiming) 1 s t := by
  obtain ⟨s₀, hnew, s, hrun, ⟨t, htick, -⟩, hhead⟩ :
      Yields (Sys.new (κ := ℕ) (spec (vansOrganization 1) vansTiming) 2 vansConfig) fun s₀ =>
        Yields (vansMachine.run s₀ (twoForwarded (some 3))) fun s =>
          Yields (tick (spec (vansOrganization 1) vansTiming) 1 s) (fun _ => True) ∧
          ∃ req ∈ s.ctrl.pendingQueue.head?, req.depart.toUInt64 ≤ 1 ∧ req.callback.isSome := by
    decide +kernel
  obtain ⟨req, hreq, hdue, hsome⟩ := hhead
  obtain ⟨rest, hq⟩ := List.head?_eq_some_iff.mp hreq
  exact ⟨s₀, s, t, hnew, hrun, htick, ((reads_retire_iff hq).1 1 t htick hdue).mpr hsome⟩

/-- **A read without a callback is never done with**, and the read
behind it is never answered. -/
theorem forwarded_stuck :
    ∃ s₀ s : Memory ℕ, Sys.new (spec (vansOrganization 1) vansTiming) 2 vansConfig = .ok s₀ ∧
      vansMachine.run s₀ (twoForwarded none) = .ok s ∧
      s.ctrl.pendingQueue.map (fun req => (req.callback, req.depart)) = [(none, 1), (some 7, 1)] ∧
      (∃ t, tick (spec (vansOrganization 1) vansTiming) 1 s = .ok t ∧
        ¬ Retires (spec (vansOrganization 1) vansTiming) 1 s t) ∧
      ∀ es t, vansMachine.run s es = .ok t →
        (∃ later, t.ctrl.pendingQueue = s.ctrl.pendingQueue ++ later) ∧
          ranInvocations t.log = [] := by
  obtain ⟨s₀, hnew, s, hrun, ⟨t, htick, -⟩, hhead, hboth, hran⟩ :
      Yields (Sys.new (κ := ℕ) (spec (vansOrganization 1) vansTiming) 2 vansConfig) fun s₀ =>
        Yields (vansMachine.run s₀ (twoForwarded none)) fun s =>
          Yields (tick (spec (vansOrganization 1) vansTiming) 1 s) (fun _ => True) ∧
          (∃ req ∈ s.ctrl.pendingQueue.head?, req.depart.toUInt64 ≤ 1 ∧ req.callback = none) ∧
          s.ctrl.pendingQueue.map (fun req => (req.callback, req.depart)) =
            [(none, 1), (some 7, 1)] ∧
          (ranInvocations s.log).length = 0 := by
    decide +kernel
  obtain ⟨req, hreq, hdue, hcb⟩ := hhead
  obtain ⟨rest, hq⟩ := List.head?_eq_some_iff.mp hreq
  refine ⟨s₀, s, hnew, hrun, hboth, ⟨t, htick, fun hret => ?_⟩, fun es t h => ?_⟩
  · have hsome := (tick_retires_iff hq hdue htick).mp hret
    rw [hcb] at hsome
    cases hsome
  · obtain ⟨hpend, hsame⟩ := run_stuck hq hcb h
    exact ⟨hpend, hsame.trans (List.length_eq_zero_iff.mp hran)⟩

end Ddr4

end Dram

end Vans
