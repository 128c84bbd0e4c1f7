import Vans.Dram.Liveness
import Vans.Dram.System
import Vans.Imc.Flush
import Vans.Model.Serves
import Mathlib.Tactic.Abel
/-!
# DDR4 — a memory that serves

What a controller owes is the callbacks of the reads in its queues, and
of those that wait for their answers. A tick takes off it what it calls
back, whatever it does, and a controller that is driven clock by clock
never fails; so a DDR4 system serves its reads. The callbacks of writes
are not its own to run.
-/

namespace Vans

namespace Dram

/-! ## What a controller owes -/

section Due

variable {κ γ ς : Type} {k : ℕ} {s t : Sys κ γ ς k} {a : Addr} {name : QueueName}
  {req : Request κ} {rest : List (Request κ)} {queue : QueueName → List (Request κ)}
  {pending : List (Request κ)} {channel : Dram γ ς (k + 1)} {new : List (Obs κ γ)}

/-- The callback of a request, with the address it came under. -/
def Request.due (startAddr : Addr) (req : Request κ) : Multiset (κ × Addr) :=
  req.callback.elim 0 fun c => {(c, req.logicAddr + startAddr)}

/-- That of a read. -/
def Request.dueRead (startAddr : Addr) (req : Request κ) : Multiset (κ × Addr) :=
  if req.type = .read then req.due startAddr else 0

def dueQueues (startAddr : Addr) (queue : QueueName → List (Request κ)) : Multiset (κ × Addr) :=
  ((queue .act ++ queue .misc ++ queue .read ++ queue .write).map (Request.dueRead startAddr)).sum

def duePending (startAddr : Addr) (pending : List (Request κ)) : Multiset (κ × Addr) :=
  (pending.map (Request.due startAddr)).sum

/-- **What the controller owes.** -/
def Sys.dueInFlight (s : Sys κ γ ς k) : Multiset (κ × Addr) :=
  dueQueues s.ctrl.startAddr s.reqs + duePending s.ctrl.startAddr s.ctrl.pendingQueue

/-- The front of a queue is owed, and the rest. -/
theorem dueQueues_cons (h : queue name = req :: rest) : dueQueues a queue =
    req.dueRead a + dueQueues a fun n => if n = name then rest else queue n := by
  cases name <;> simp [dueQueues, h] <;> abel

/-- A request enters a queue. -/
theorem dueQueues_append : dueQueues a (fun n => queue n ++ if n = name then [req] else []) =
    dueQueues a queue + req.dueRead a := by
  cases name <;> simp [dueQueues] <;> abel

theorem duePending_append : duePending a (pending ++ [req]) = duePending a pending + req.due a := by
  simp [duePending]

/-- A request is owed as it was, whatever was done for it. -/
theorem dueQueues_front {req' : Request κ} (h : queue name = req :: rest)
    (hsame : req'.dueRead a = req.dueRead a) :
    dueQueues a (fun n => if n = name then req' :: rest else queue n) = dueQueues a queue := by
  have hfront : (if name = name then req' :: rest else queue name) = req' :: rest := if_pos rfl
  rw [dueQueues_cons h, dueQueues_cons hfront, hsame]
  refine congrArg (req.dueRead a + dueQueues a ·) (funext fun n => ?_)
  split <;> rfl

theorem Became.dueInFlight (b : Became s t queue pending channel new) :
    t.dueInFlight = dueQueues s.ctrl.startAddr queue + duePending s.ctrl.startAddr pending := by
  rw [Sys.dueInFlight, b.start, b.pending, funext b.queue]

/-- **A request that is queued is owed**, if it is a read. -/
theorem Accept.dueInFlight (h : Accept s t req) :
    t.dueInFlight = s.dueInFlight + req.dueRead s.ctrl.startAddr := by
  rw [h.became.dueInFlight, dueQueues_append, Sys.dueInFlight]
  abel

theorem Forward.dueInFlight (h : Forward s t req) :
    t.dueInFlight = s.dueInFlight + req.dueRead s.ctrl.startAddr := by
  have htype : req.type = .read := by
    have hforwards := h.forwards
    rw [Sys.forwards, Bool.and_eq_true] at hforwards
    exact of_decide_eq_true hforwards.1
  rw [h.became.dueInFlight, duePending_append, Sys.dueInFlight, Request.dueRead, if_pos htype,
    add_assoc]
  rfl

/-- What a tick is seen to do, of what the controller owes. -/
structure Pays (s t : Sys κ γ ς k) : Prop where
  start : t.ctrl.startAddr = s.ctrl.startAddr
  pays : ∃ new, t.log = s.log ++ new ∧
    s.dueInFlight = t.dueInFlight + calledWith (new.filterMap ranInvocation)

theorem Pays.refl : Pays s s := ⟨rfl, [], (List.append_nil _).symm, (add_zero _).symm⟩

theorem Pays.trans {u : Sys κ γ ς k} (h : Pays s t) (h' : Pays t u) : Pays s u := by
  obtain ⟨hstart, new, hlog, hdue⟩ := h
  obtain ⟨hstart', new', hlog', hdue'⟩ := h'
  refine ⟨hstart'.trans hstart, new ++ new', ?_, ?_⟩
  · rw [hlog', hlog, List.append_assoc]
  · rw [hdue, hdue', List.filterMap_append, calledWith_append]
    abel

variable [DecidableEq γ] {spec : Spec γ ς}

/-- **A move pays what it calls back**, and nothing else. -/
theorem Move.pays (h : Move spec s t) : Pays s t := by
  cases h with
  | refresh req htype accept =>
      refine ⟨accept.became.start, _, accept.became.log, ?_⟩
      have hzero : req.dueRead s.ctrl.startAddr = 0 :=
        if_neg (by rw [htype]; exact ReqType.noConfusion)
      rw [accept.dueInFlight, hzero, add_zero]
      exact (add_zero _).symm
  | answer req rest callback hfront hdepart hcallback b =>
      refine ⟨b.start, _, b.log, ?_⟩
      have hdue : req.due s.ctrl.startAddr = {(callback, req.logicAddr + s.ctrl.startAddr)} := by
        rw [Request.due, hcallback]
        rfl
      rw [b.dueInFlight, Sys.dueInFlight, hfront, duePending, List.map_cons, List.sum_cons, hdue]
      simp only [List.filterMap_cons, ranInvocation, List.filterMap_nil, calledWith_cons]
      rw [duePending, calledWith]
      simp only [List.map_nil, Multiset.coe_nil]
      abel
  | adjust b =>
      refine ⟨b.start, _, b.log, ?_⟩
      rw [b.dueInFlight]
      exact (add_zero _).symm
  | prepare name req rest cmd channel turn hcmd hready hupdate hother b =>
      refine ⟨b.start, _, b.log, ?_⟩
      rw [b.dueInFlight, dueQueues_front turn.front]
      · exact (add_zero _).symm
      · rfl
  | activate name req rest cmd channel turn hcmd hready hupdate hother hopening b =>
      refine ⟨b.start, _, b.log, ?_⟩
      have hsame : Request.dueRead s.ctrl.startAddr { req with isFirstCmd := false } =
          req.dueRead s.ctrl.startAddr := rfl
      have hnone : calledWith ([.issued cmd req.mappedAddr s.ctrl.currClk].filterMap
          (ranInvocation : Obs κ γ → _)) = 0 := rfl
      rw [b.dueInFlight, dueQueues_append, hsame, Sys.dueInFlight, dueQueues_cons turn.front, hnone]
      abel
  | serve name req rest cmd channel turn hcmd hready hupdate hends b =>
      refine ⟨b.start, _, b.log, ?_⟩
      have hnone : calledWith ([.issued cmd req.mappedAddr s.ctrl.currClk,
          .served { req with isFirstCmd := false }].filterMap
          (ranInvocation : Obs κ γ → _)) = 0 := rfl
      rw [b.dueInFlight, Sys.dueInFlight, dueQueues_cons turn.front, hnone]
      by_cases htype : req.type = .read
      · -- the read waits for its answer now
        have hsame : ∀ depart, Request.due s.ctrl.startAddr
            { req with isFirstCmd := false, depart := depart } = req.dueRead s.ctrl.startAddr :=
          fun depart => (if_pos htype).symm
        rw [if_pos htype, duePending_append, hsame]
        abel
      · rw [if_neg htype, List.append_nil, Request.dueRead, if_neg htype, zero_add, add_zero]

theorem tick_pays {clk : Clk} (h : tick spec clk s = .ok t) : Pays s t :=
  reflTransGen_keeps (P := Pays s) (fun _ _ hu hm => hu.trans hm.pays) (tick_moves h)
    ⟨rfl, [], (List.append_nil _).symm, (add_zero _).symm⟩

end Due

end Dram

/-! ## The system -/

namespace Ddr4System

open Dram Dram.Ddr4

variable {κ : Type} {o : Organization} {t : Timing} {cfg : Dram.Config} {longest n : ℕ}

/-- The memory serves, and its next tick is that of the clock. -/
structure Fit (o : Organization) (t : Timing) (cfg : Dram.Config) (longest n : ℕ)
    (s : Sys κ Command State 2) : Prop where
  serving : ∃ last, Serving o t cfg longest s.localMemoryModel last
  start : s.localMemoryModel.ctrl.startAddr = 0
  next : s.localMemoryModel.now ≤ n ∧ n ≤ s.localMemoryModel.now + 1

/-- **What the system does with a request**: its memory refuses it, or
queues it. -/
theorem issueRequest_cases {req req' : BaseRequest κ} {resp : BaseResponse}
    {s u : Sys κ Command State 2}
    (h : (component (spec o t) 2).issueRequest req s = .ok (resp, req', u)) :
    (resp.issued = false ∧ u = s) ∨ (resp.issued = true ∧ ∃ queued : Dram.Request κ,
      queued.type = reqTypeOf req.type ∧ queued.callback = req.callback ∧
      queued.logicAddr = req.addr ∧ (Accept s.localMemoryModel u.localMemoryModel queued ∨
        Forward s.localMemoryModel u.localMemoryModel queued)) := by
  obtain ⟨memory, hissue, rfl⟩ := issueRequest_eq_ok.mp h
  simp only [Dram.component, Dram.Sys.mapped, bind_eq_ok, Prod.exists, pure_eq_ok,
    Prod.mk.injEq] at hissue
  obtain ⟨_, ⟨_, -, rfl⟩, issued, memory, hissue, rfl, -, rfl⟩ := hissue
  obtain ⟨rfl, rfl, -⟩ | ⟨rfl, queued, rfl, htaken⟩ := Dram.issueRequest_cases hissue
  · exact .inl ⟨rfl, rfl⟩
  · exact .inr ⟨rfl, _, rfl, rfl, rfl, htaken⟩

namespace Fit

variable {s : Sys κ Command State 2}

theorem issue (h : Fit o t cfg longest n s) (req : BaseRequest κ) :
    Yields ((component (spec o t) 2).issueRequest req s) fun out => out.2.1 = req ∧
      Fit o t cfg longest n out.2.2 ∧ out.2.2.localMemoryModel.dueInFlight =
        s.localMemoryModel.dueInFlight + if out.1.issued then req.dueRead else 0 := by
  obtain ⟨⟨last, hserving⟩, hstart, hnext⟩ := h
  have htype : reqTypeOf req.type = .read ∨ reqTypeOf req.type = .write := by
    cases req.type
    · exact .inl rfl
    · exact .inr rfl
  obtain ⟨u, hstep, hserving', -, -⟩ := hserving.request req.addr req.callback htype
  simp only [machine, bind_eq_ok, Prod.exists, pure_eq_ok] at hstep
  obtain ⟨request, hmapped, issued, u, hissue, rfl⟩ := hstep
  have hout : (component (spec o t) 2).issueRequest req s =
      .ok (⟨issued, false, clkInvalid⟩, req, { s with localMemoryModel := u }) := by
    refine issueRequest_eq_ok.mpr ⟨u, ?_, rfl⟩
    simp only [Dram.component, hmapped, hissue, ok_bind]
    rfl
  refine ⟨_, hout, rfl, ?_⟩
  obtain ⟨hno, hsame⟩ | ⟨hyes, queued, htype, hcallback, haddr, htaken⟩ := issueRequest_cases hout
  · obtain rfl : u = s.localMemoryModel := congrArg Sys.localMemoryModel hsame
    exact ⟨⟨⟨last, hserving⟩, hstart, hnext⟩, by rw [hno]; exact (add_zero _).symm⟩
  -- what is queued for the memory is what was requested
  have hdue : queued.dueRead s.localMemoryModel.ctrl.startAddr = req.dueRead := by
    rw [hstart]
    cases hreq : req.type <;>
      simp [Request.dueRead, BaseRequest.dueRead, reqTypeOf, hreq, Request.due, BaseRequest.due,
        htype, hcallback, haddr]
  have hmem : u.ctrl.startAddr = s.localMemoryModel.ctrl.startAddr ∧
      u.ctrl.currClk = s.localMemoryModel.ctrl.currClk ∧
      u.dueInFlight = s.localMemoryModel.dueInFlight + req.dueRead := by
    rcases htaken with haccept | hforward
    · exact ⟨haccept.became.start, haccept.became.clock, haccept.dueInFlight.trans (by rw [hdue])⟩
    · exact ⟨hforward.became.start, hforward.became.clock,
        hforward.dueInFlight.trans (by rw [hdue])⟩
  obtain ⟨hstart', hclock, hflight⟩ := hmem
  have hnow : u.now = s.localMemoryModel.now := congrArg UInt64.toNat hclock
  exact ⟨⟨⟨last, hserving'⟩, hstart'.trans hstart, by rwa [hnow]⟩, by rw [hyes]; exact hflight⟩

theorem tick (ok : Timely o t cfg longest) {clk : Clk} (h : Fit o t cfg longest clk.toNat s)
    (visit : Visit) (hclk : clk.toNat < 2 ^ 63) :
    Yields ((component (spec o t) 2).tick visit clk s) fun out =>
      Fit o t cfg longest (clk.toNat + 1) out.1 ∧ s.localMemoryModel.dueInFlight =
        out.1.localMemoryModel.dueInFlight + calledWith out.2 := by
  obtain ⟨⟨last, hserving⟩, hstart, hle, hone⟩ := h
  obtain ⟨m, u, last', hu, hticked, hserving'⟩ := hserving.tick ok hle hone hclk
  obtain ⟨hstart', new, hlog, hdue⟩ := tick_pays hu
  have hnow : u.now = clk.toNat := hticked.now_eq
  refine ⟨({ s with localMemoryModel := u }, new.filterMap Dram.ranInvocation), ?_,
    ⟨⟨last', hserving'⟩, hstart'.trans hstart, by rw [hnow]; omega⟩, hdue⟩
  simp only [component, Dram.component, hu, ok_bind, hlog, List.drop_left]
  rfl

end Fit

/-- **A DDR4 system serves its reads.** -/
def serves (ok : Timely o t cfg longest) :
    (component (spec o t) 2 : Component κ _).Serves BaseRequest.dueRead (2 ^ 63) where
  limit_lt := by decide
  fit := Fit o t cfg longest
  inFlight := fun s => s.localMemoryModel.dueInFlight
  issue := fun req h => h.issue req
  tick := fun visit h hclk => h.tick ok visit hclk

/-- What it is asked it answers, too. -/
theorem serves_answers (ok : Timely o t cfg longest) :
    Imc.Answers (component (spec o t) 2 : Component κ _) ((serves ok).fit n) where
  full := by
    rintro s ⟨⟨last, hserving⟩, -⟩
    refine Imc.ddr4System_answers.full s ⟨fun name => ?_, fun a => ?_⟩
    · rw [hserving.ord.bound]
      exact hserving.ord.length name
    · obtain ⟨x, hx⟩ := hserving.ord.mapper a
      exact ⟨x, hx⟩
  issue := fun req s hfit _ => (Fit.issue hfit req).mono fun _ _ hout => hout.2.1

/-- **A new one serves**, and owes nothing. -/
theorem serves_new (ok : Timely o t cfg longest) (hstart : cfg.startAddr = 0) :
    ∃ memory : Memory κ, Dram.Sys.new (spec o t) 2 cfg = .ok memory ∧
      (serves ok).fit 0 { localMemoryModel := memory } ∧
      (serves ok).inFlight { localMemoryModel := memory } = 0 := by
  obtain ⟨memory, hnew, hserving, hnow, hpending, hqueues⟩ := Serving.new (κ := κ) ok
  have hzero : memory.ctrl.startAddr = 0 := by
    simp only [Dram.Sys.new, bind_eq_ok] at hnew
    obtain ⟨mapper, -, hnew⟩ := hnew
    split at hnew
    · simp only [bind_eq_ok, throw_ne_ok, false_and, exists_false] at hnew
    · obtain rfl := pure_eq_ok.mp hnew
      exact hstart
  refine ⟨memory, hnew, ⟨⟨0, hserving⟩, hzero, ?_⟩, ?_⟩
  · change memory.now ≤ 0 ∧ 0 ≤ memory.now + 1
    omega
  · change memory.dueInFlight = 0
    rw [Dram.Sys.dueInFlight, hpending, funext hqueues]
    rfl

end Ddr4System

end Vans
