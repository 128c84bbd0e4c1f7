import Vans.Dram.Drain
import Vans.Dram.Serves
import Vans.Model.Clears
/-!
# DDR4 — a memory that clears

What a DDR4 system holds is what its memory has queued, of which nothing
came after a clock, and the reads that wait. It has room for more when
the queues have been served, and nothing is in flight when the reads that
were waiting then are answered.
-/

namespace Vans

namespace Dram

namespace Ddr4

variable {κ : Type} {o : Organization} {t : Timing} {cfg : Dram.Config} {longest last a a' limit : ℕ}
  {s u : Memory κ} {req : Request κ}

/-- A queued request is one more to be answered. -/
theorem unanswered_request (htype : req.type = .read ∨ req.type = .write)
    (htaken : Accept s u req ∨ Forward s u req) : unanswered u = unanswered s + 1 := by
  rw [unanswered, unanswered, columns, columns]
  rcases htaken with haccept | hforward
  · rw [haccept.became.pending, haccept.became.queue, haccept.became.queue, haccept.became.queue]
    rcases htype with htype | htype <;> simp [getQueue, htype] <;> omega
  · rw [hforward.became.pending, hforward.became.queue, hforward.became.queue,
      hforward.became.queue, List.length_append, List.length_singleton]
    omega

/-- Where all came by a clock, all came by a later one. -/
theorem Resting.later (ha : a ≤ a') (h : Resting o t cfg longest a limit s) :
    Resting o t cfg longest a' limit s := by
  refine ⟨⟨h.serves.awaits, fun n r hr htype => ?_, h.serves.unanswered⟩, fun hlate => ?_⟩
  · have hcame := h.serves.came n r hr htype
    omega
  · have answers := h.answers (by omega)
    have hfewer := answers.fewer
    refine ⟨answers.idle, answers.callback, fun r hr => ?_, by omega⟩
    have hdue := answers.due r hr
    omega

/-- A request is taken: all came by now. -/
theorem Resting.request {n : ℕ} (hserving : Serving o t cfg longest u last)
    (hnow : s.now ≤ n) (htype : req.type = .read ∨ req.type = .write)
    (hcallback : req.type = .read → req.callback.isSome)
    (htaken : Accept s u req ∨ Forward s u req) (h : Resting o t cfg longest a limit s) :
    Resting o t cfg longest n (limit + 1) u := by
  have hclock : u.now = s.now := by
    rcases htaken with haccept | hforward
    · exact congrArg UInt64.toNat haccept.became.clock
    · exact congrArg UInt64.toNat hforward.became.clock
  have hlimit := h.serves.unanswered
  have hone := unanswered_request htype htaken
  refine ⟨⟨h.serves.awaits.request hcallback htaken, fun m r hr hr' => ?_, by omega⟩,
    fun hlate => ?_⟩
  · have hcame := hserving.ord.came m r hr
    omega
  · -- the service of what came now is not over
    have hpos : 0 < serviceTime o t cfg longest := Nat.succ_pos _
    omega

end Ddr4

end Dram

namespace Ddr4System

open Dram Dram.Ddr4

variable {κ : Type} {o : Organization} {t : Timing} {cfg : Dram.Config} {longest : ℕ}

/-- Where no column is queued and no read waits, nothing is in flight. -/
theorem dueInFlight_of_idle {s : Memory κ} (sch : Scheduled s) (hidle : Idle s)
    (hnil : s.ctrl.pendingQueue = []) : s.dueInFlight = 0 := by
  have hrefresh : ∀ r ∈ s.reqs .misc, r.dueRead s.ctrl.startAddr = 0 := by
    intro r hr
    have htype : r.type = .refresh := sch.types .misc r hr
    exact if_neg (by rw [htype]; exact ReqType.noConfusion)
  rw [Dram.Sys.dueInFlight, hnil, dueQueues, hidle .act (by decide), hidle .read (by decide),
    hidle .write (by decide)]
  simp only [List.nil_append, List.append_nil, duePending, List.map_nil, List.sum_nil, add_zero]
  exact List.sum_eq_zero fun m hm => by
    obtain ⟨r, hr, rfl⟩ := List.mem_map.mp hm
    exact hrefresh r hr

/-- **What a DDR4 system holds** before a clock. -/
structure Holds (o : Organization) (t : Timing) (cfg : Dram.Config) (longest a l n : ℕ)
    (s : Sys κ Command State 2) : Prop where
  fit : Fit o t cfg longest n s
  resting : Resting o t cfg longest a l s.localMemoryModel

namespace Holds

variable {a l n : ℕ} {s s' : Sys κ Command State 2}

theorem later {a' : ℕ} (ha : a ≤ a') (h : Holds o t cfg longest a l n s) :
    Holds o t cfg longest a' l n s := ⟨h.fit, h.resting.later ha⟩

/-- All that is held came by now. -/
theorem renew (h : Holds o t cfg longest a l n s) :
    Holds o t cfg longest n (unanswered s.localMemoryModel) n s := by
  obtain ⟨last, hserving⟩ := h.fit.serving
  exact ⟨h.fit, (Resting.of_awaits hserving h.resting.serves.awaits).later h.fit.next.1⟩

theorem issue {req req' : BaseRequest κ} {resp : BaseResponse} (h : Holds o t cfg longest a l n s)
    (hreq : req.Answerable)
    (hissue : (component (spec o t) 2).issueRequest req s = .ok (resp, req', s')) :
    if resp.issued then Holds o t cfg longest n (l + 1) n s'
    else Holds o t cfg longest a l n s' := by
  obtain ⟨out, hout, -, hfit, -⟩ := h.fit.issue req
  obtain rfl := Except.ok.inj (hissue.symm.trans hout)
  obtain ⟨hno, rfl⟩ | ⟨hyes, queued, htype, hcallback, -, htaken⟩ := issueRequest_cases hissue
  · rw [hno]
    exact h
  · rw [hyes]
    obtain ⟨last, hserving⟩ := hfit.serving
    refine ⟨hfit, h.resting.request hserving h.fit.next.1 ?_ ?_ htaken⟩
    · rw [htype]
      cases req.type
      · exact .inl rfl
      · exact .inr rfl
    · rw [htype, hcallback]
      intro hread
      refine hreq ?_
      cases hq : req.type with
      | read => rfl
      | write =>
          rw [hq] at hread
          cases hread

theorem tick (ok : Timely o t cfg longest) {clk : Clk} {visit : Visit}
    {ran : List (Invocation κ)} (hclk : clk.toNat < 2 ^ 63)
    (h : Holds o t cfg longest a l clk.toNat s)
    (htick : (component (spec o t) 2).tick visit clk s = .ok (s', ran)) :
    Holds o t cfg longest a l (clk.toNat + 1) s' := by
  obtain ⟨out, hout, hfit, -⟩ := h.fit.tick ok visit hclk
  obtain rfl := Except.ok.inj (htick.symm.trans hout)
  obtain ⟨⟨last, hserving⟩, -, hle, hone⟩ := h.fit
  obtain ⟨m, u, last', hu, hticked, hserving'⟩ := hserving.tick ok hle hone hclk
  simp only [component, Dram.component, hu, ok_bind] at htick
  obtain ⟨rfl, -⟩ := htick
  exact ⟨hfit, h.resting.tick ok hle hone hticked hserving'⟩

theorem clear (h : Holds o t cfg longest a l n s)
    (hlate : a + (serviceTime o t cfg longest + 1) + (latency o t + 1) + l ≤ n) :
    s.localMemoryModel.dueInFlight = 0 := by
  obtain ⟨⟨last, hserving⟩, -, hle, hone⟩ := h.fit
  obtain ⟨hidle, hnil⟩ := h.resting.rests (by omega)
  exact dueInFlight_of_idle hserving.sch hidle hnil

/-- It has room when what it held was served. -/
theorem full (ok : Timely o t cfg longest) (h : Holds o t cfg longest a l n s)
    (hlate : a + (serviceTime o t cfg longest + 1) ≤ n) :
    (component (spec o t) 2).full s = .ok false := by
  obtain ⟨⟨last, hserving⟩, -, hle, hone⟩ := h.fit
  have hidle := h.resting.serves.idle ok hserving (by omega)
  have hroom : 0 < cfg.queueSize := by
    have hpos : o.rank ≠ 0 := by
      have hpower : isPwrOf2 o.rank = true := (ok.mappable.counts 1 (by decide)).1
      rw [isPwrOf2, Bool.and_eq_true] at hpower
      exact of_decide_eq_true hpower.1
    have hranks := ok.ranks
    omega
  refine Imc.dram_full_eq_false.mpr ⟨?_, ?_⟩
  · rw [hidle .read (by decide), hserving.ord.bound]
    exact hroom
  · rw [hidle .write (by decide), hserving.ord.bound]
    exact hroom

end Holds

/-- **A DDR4 system clears.** -/
def clears (ok : Timely o t cfg longest) : (serves (κ := κ) ok).Clears
    (serviceTime o t cfg longest + 1) (latency o t + 1) where
  load := fun s => unanswered s.localMemoryModel
  held := fun a l n s => Holds o t cfg longest a l n s
  fit := Holds.fit
  later := Holds.later
  renew := fun _ => Holds.renew
  issue := fun hreq _ h => h.issue hreq
  tick := Holds.tick ok
  clear := Holds.clear

theorem clears_frees (ok : Timely o t cfg longest) : (clears (κ := κ) ok).Frees :=
  fun h => h.full ok

/-- **A new one holds nothing.** -/
theorem clears_new (ok : Timely o t cfg longest) (hstart : cfg.startAddr = 0) :
    ∃ memory : Memory κ, Dram.Sys.new (spec o t) 2 cfg = .ok memory ∧
      (clears ok).held 0 0 0 { localMemoryModel := memory } := by
  obtain ⟨memory, hnew, hfit, -⟩ := serves_new (κ := κ) ok hstart
  obtain ⟨memory', hnew', hserving, -, hpending, hqueues⟩ := Serving.new (κ := κ) ok
  obtain rfl := Except.ok.inj (hnew.symm.trans hnew')
  have awaits : Awaits o t memory := by
    refine ⟨by simp [hpending], by simp [hpending], fun n r hr => ?_⟩
    rw [hqueues] at hr
    exact absurd hr List.not_mem_nil
  have hnone : unanswered memory = 0 := by
    simp [unanswered, columns, hpending, hqueues]
  have resting := (Resting.of_awaits hserving awaits).later hfit.next.1
  rw [hnone] at resting
  exact ⟨memory, hnew, hfit, resting⟩

end Ddr4System

end Vans
