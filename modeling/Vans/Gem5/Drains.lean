import Vans.Gem5.Calls
import Vans.Gem5.LowMemory
import Vans.Dram.Clears
import Vans.Imc.Clears
/-!
# The gem5 front end — it comes to rest

Once the peer asks for nothing more, time can go on as far as one likes;
and over a memory that clears, when it has gone on for long enough no
packet waits for the memory any more. What is outstanding then are only
responses the peer has not taken.
-/

namespace Vans

namespace Gem5

variable {δ μ σ : Type} {M : AbstractMemory δ μ} {C : Component Callback σ} {limit : ℕ}
  {S : C.Serves BaseRequest.due limit} {s t u : Sys δ μ σ} {es es' : List (Event δ)}

/-! ## Time goes on -/

/-- The rules of the port, and the peer asks for nothing. -/
def Quiet (M : AbstractMemory δ μ) (limit : ℕ) (s : Sys δ μ σ) (ev : Event δ) : Prop :=
  Polite M limit s ev ∧ ev.requests = []

/-- A response that is taken was the first that waited. -/
theorem sendResponse_taken (h : sendResponse M C true [] s = .ok t) :
    t.wrapper = s.wrapper ∧ t.respQueue = s.respQueue.tail := by
  obtain ⟨-, pkt, rest, u, -, hcalls, rfl⟩ := sendResponse_eq_ok h
  obtain rfl := pure_eq_ok.mp hcalls
  rw [Sys.sent, if_pos rfl, signalIfDone_eq]
  exact ⟨rfl, rfl⟩

/-- A callback is answered at the clock it is run at. -/
theorem Completes.wrapper {inv : Invocation Callback} (h : Completes M s inv t) :
    t.wrapper = s.wrapper := by
  cases h with
  | read hcb hpop hpos => rfl
  | write hcb hpop hpos => rw [signalIfDone_eq]

/-- A tick is one clock of the memory. -/
theorem tick_clock {visit : Visit} (h : tick M C visit [] s = .ok t) :
    t.wrapper.currClk = s.wrapper.currClk + 1 := by
  obtain ⟨wrapper, ran, u, v, hmemory, hran, hcalls, rfl⟩ := tick_eq_ok h
  simp only [Wrapper.tick, bind_eq_ok, Prod.exists, pure_eq_ok, Prod.mk.injEq] at hmemory
  obtain ⟨memory, ran', -, rfl, rfl⟩ := hmemory
  have hu : u.wrapper.currClk = s.wrapper.currClk + 1 :=
    foldlM_keeps (P := fun v : Sys δ μ σ => v.wrapper.currClk = s.wrapper.currClk + 1)
      (fun _ _ _ hv hdone => by rw [(complete_completes hdone).wrapper, hv]) rfl hran
  rw [ite_self] at hcalls
  obtain rfl := pure_eq_ok.mp hcalls
  rw [← hu, Sys.ticked, Sys.retried]
  split <;> rfl

/-- A state that is come to while the peer asks for nothing. -/
def ComesTo (M : AbstractMemory δ μ) (C : Component Callback σ) (limit : ℕ) (s u : Sys δ μ σ) :
    Prop :=
  ∃ es, (machine M C).Meets (Quiet M limit) s es ∧ (machine M C).run s es = .ok u

theorem ComesTo.refl : ComesTo M C limit s s := ⟨[], trivial, rfl⟩

theorem ComesTo.head {ev : Event δ} (hev : Quiet M limit s ev)
    (hstep : (machine M C).step s ev = .ok t) (h : ComesTo M C limit t u) :
    ComesTo M C limit s u := by
  obtain ⟨es, hes, hrun⟩ := h
  refine ⟨ev :: es, ⟨hev, fun t' ht' => ?_⟩, ?_⟩
  · obtain rfl := Except.ok.inj (hstep.symm.trans ht')
    exact hes
  · rw [Machine.run_cons, hstep, ok_bind]
    exact hrun

namespace Sys.Running

/-- Time goes on, up to the next event. -/
theorem advances {time : Tick} (h : s.Running M S) (henabled : Enabled s (.advance time)) :
    Sys.Running M S { s with curTick := time } ∧
      ∀ u, ComesTo M C limit { s with curTick := time } u → ComesTo M C limit s u := by
  have hev : Quiet M limit s (.advance time) :=
    ⟨⟨henabled, fun _ h => absurd h List.not_mem_nil, trivial⟩, rfl⟩
  obtain ⟨t, ht, hrunning⟩ := h.step hev.1
  obtain rfl := Except.ok.inj ht
  exact ⟨hrunning, fun u => .head hev rfl⟩

/-- A response is sent that is due, and taken. -/
theorem sends (h : s.Running M S) (hdue : s.sendRespEvent = some s.curTick) :
    ∃ t, t.Running M S ∧ t.wrapper = s.wrapper ∧ t.respQueue.length < s.respQueue.length ∧
      ∀ u, ComesTo M C limit t u → ComesTo M C limit s u := by
  have hev : Quiet M limit s (.sendResponse true []) :=
    ⟨⟨hdue, fun _ h => absurd h List.not_mem_nil,
      fun hno => absurd hno.symm Bool.false_ne_true⟩, rfl⟩
  obtain ⟨t, ht, hrunning⟩ := h.step hev.1
  obtain ⟨hwrapper, hqueue⟩ := sendResponse_taken ht
  have hwaits : s.respQueue ≠ [] := (h.ready.event.mp (by rw [hdue]; rfl)).1
  refine ⟨t, hrunning, hwrapper, ?_, fun u => .head hev ht⟩
  rw [hqueue, List.length_tail]
  exact Nat.sub_lt (List.length_pos_of_ne_nil hwaits) Nat.one_pos

/-- A response is sent again that was refused, and taken. -/
theorem resends (h : s.Running M S) (hstall : s.respStall = true) :
    ∃ t, t.Running M S ∧ t.wrapper = s.wrapper ∧ t.respQueue.length < s.respQueue.length ∧
      ∀ u, ComesTo M C limit t u → ComesTo M C limit s u := by
  have hev : Quiet M limit s (.recvRespRetry true []) :=
    ⟨⟨trivial, fun _ h => absurd h List.not_mem_nil, h.ready.stalled.mp hstall,
      fun hno => absurd hno.symm Bool.false_ne_true⟩, rfl⟩
  obtain ⟨t, ht, hrunning⟩ := h.step hev.1
  have hsend := ht
  simp only [machine, recvRespRetry, hstall, Bool.not_true, Bool.false_eq_true, if_false] at hsend
  obtain ⟨hwrapper, hqueue⟩ := sendResponse_taken hsend
  have hwaits : s.respQueue ≠ [] := h.ready.waits hstall
  refine ⟨t, hrunning, hwrapper, ?_, fun u => .head hev ht⟩
  rw [hqueue, List.length_tail]
  exact Nat.sub_lt (List.length_pos_of_ne_nil hwaits) Nat.one_pos

/-- The memory ticks that is to. -/
theorem ticks (h : s.Running M S) (hdue : s.tickEvent = some s.curTick)
    (hclk : s.wrapper.currClk.toNat < limit) :
    ∃ t, t.Running M S ∧ t.wrapper.currClk.toNat = s.wrapper.currClk.toNat + 1 ∧
      ∀ u, ComesTo M C limit t u → ComesTo M C limit s u := by
  have hev : Quiet M limit s (.tick (fun _ => .asHeld) []) :=
    ⟨⟨hdue, fun _ h => absurd h List.not_mem_nil, hclk⟩, rfl⟩
  obtain ⟨t, ht, hrunning⟩ := h.step hev.1
  refine ⟨t, hrunning, ?_, fun u => .head hev ht⟩
  rw [tick_clock ht]
  exact Clocked.toNat_succ S.limit_lt hclk

/-- **Something can happen**, without a request of the peer: the memory
ticks, or a response is taken. -/
theorem goesOn (h : s.Running M S) (hclk : s.wrapper.currClk.toNat < limit) :
    ∃ t, t.Running M S ∧ (∀ u, ComesTo M C limit t u → ComesTo M C limit s u) ∧
      (t.wrapper.currClk.toNat = s.wrapper.currClk.toNat + 1 ∨
        (t.wrapper = s.wrapper ∧ t.respQueue.length < s.respQueue.length)) := by
  obtain ⟨due, hdue, hle⟩ := h.ticking
  have htick : ∀ time ∈ s.tickEvent, time = due := by
    intro time htime
    rw [hdue] at htime
    exact (Option.some.inj htime).symm
  by_cases hstall : s.respStall = true
  · obtain ⟨t, ht, hwrapper, hless, hcomes⟩ := h.resends hstall
    exact ⟨t, ht, hcomes, .inr ⟨hwrapper, hless⟩⟩
  by_cases hsoon : ∀ time ∈ s.sendRespEvent, due ≤ time
  · -- the memory's tick comes first
    have henabled : Enabled s (.advance due) := ⟨hle, hsoon, fun time htime => (htick time htime).ge⟩
    obtain ⟨hrunning, hcomes⟩ := h.advances henabled
    obtain ⟨t, ht, hnext, hcomes'⟩ := hrunning.ticks hdue hclk
    exact ⟨t, ht, fun u hu => hcomes u (hcomes' u hu), .inl hnext⟩
  · -- a response is to be sent before
    simp only [not_forall, not_le] at hsoon
    obtain ⟨time, htime, hlt⟩ := hsoon
    have henabled : Enabled s (.advance time) := by
      refine ⟨h.ready.due time htime, fun event hevent => ?_, fun event hevent => ?_⟩
      · exact (Option.some.inj (htime.symm.trans hevent)).le
      · rw [htick event hevent]
        exact hlt.le
    obtain ⟨hrunning, hcomes⟩ := h.advances henabled
    obtain ⟨t, ht, hwrapper, hless, hcomes'⟩ := hrunning.sends htime
    exact ⟨t, ht, fun u hu => hcomes u (hcomes' u hu), .inr ⟨hwrapper, hless⟩⟩

/-- **Time goes on**, as far as the clocks do. The induction is on the
clocks that are left, and in each on the responses that wait. -/
theorem reaches {n : ℕ} (hlimit : n ≤ limit) : ∀ {left waiting : ℕ} {s : Sys δ μ σ},
    s.Running M S → s.wrapper.currClk.toNat + left = n → s.respQueue.length ≤ waiting →
    ∃ u, ComesTo M C limit s u ∧ u.wrapper.currClk.toNat = n := by
  intro left
  induction left with
  | zero => exact fun {_ s} _ hn _ => ⟨s, .refl, hn⟩
  | succ left ihleft =>
      intro waiting
      induction waiting with
      | zero =>
          intro s h hn hwaits
          obtain ⟨t, ht, hcomes, hnext | ⟨-, hless⟩⟩ := h.goesOn (by omega)
          · obtain ⟨u, hu, hclk⟩ := ihleft ht (by omega) le_rfl
            exact ⟨u, hcomes u hu, hclk⟩
          · exact absurd hless (by omega)
      | succ waiting ihwaiting =>
          intro s h hn hwaits
          obtain ⟨t, ht, hcomes, hnext | ⟨hwrapper, hless⟩⟩ := h.goesOn (by omega)
          · obtain ⟨u, hu, hclk⟩ := ihleft ht (by omega) le_rfl
            exact ⟨u, hcomes u hu, hclk⟩
          · obtain ⟨u, hu, hclk⟩ := ihwaiting ht (by rw [hwrapper]; exact hn) (by omega)
            exact ⟨u, hcomes u hu, hclk⟩

end Sys.Running

/-! ## What comes to rest -/

/-- **Nothing waits for the memory**: each read that was taken was
accessed, each write was called back for, and only responses are
outstanding. -/
structure Sys.Rested (s : Sys δ μ σ) : Prop where
  reqsInFlight : s.reqsInFlight = 0
  reads : ∀ addr, readsAt addr (accesses s.log) = readsAt addr (accepts s.log)
  writes : ∀ addr, written addr s.log = (writesAt addr (accepts s.log)).length
  outstanding : s.numOutstanding = s.respQueue.length % 2 ^ 32

/-- Where the memory owes nothing, nothing waits for it. -/
theorem Sys.Served.rested (h : s.Served M S 0) (hnone : S.inFlight s.wrapper.memory = 0) :
    s.Rested := by
  have hwaits : ∀ callback addr, (s.packets callback).waiting addr = [] := by
    intro callback addr
    have howes := h.owes callback addr
    rw [hnone, add_zero, Multiset.count_zero] at howes
    exact List.length_eq_zero_iff.mp howes.symm
  have hreads : s.reads.size = 0 := Fifos.size_eq_zero.mpr (hwaits .readComplete)
  have hwrites : s.writes.size = 0 := Fifos.size_eq_zero.mpr (hwaits .writeComplete)
  have hcount : s.reqsInFlight = 0 := by rw [h.kept.count, hreads, hwrites]
  refine ⟨hcount, fun addr => ?_, fun addr => ?_, ?_⟩
  · have hkept := h.kept.reads addr
    have hnil : s.reads.waiting addr = [] := hwaits .readComplete addr
    rw [hnil, List.append_nil, List.append_nil] at hkept
    exact hkept.symm
  · obtain ⟨done, hdone, hlen⟩ := h.kept.writes addr
    have hnil : s.writes.waiting addr = [] := hwaits .writeComplete addr
    rw [hnil, List.append_nil] at hdone
    rw [hdone, hlen]
  · rw [Sys.numOutstanding, hcount, Nat.zero_add]

section Rest

variable {lag rest : ℕ} {memory : σ} {store : μ} {ticksPerClk clockEdge : Tick} {s₀ : Sys δ μ σ}

/-- What the memory is asked can be answered. -/
theorem FromPort.answerable {req : BaseRequest Callback} (h : FromPort req) : req.Answerable := by
  obtain ⟨-, callback, hcb, -⟩ := h
  intro _
  rw [hcb]
  rfl

theorem polite_tick (s : Sys δ μ σ) (ev : Event δ) (h : Polite M limit s ev) (visit : Visit)
    (calls : List (Packet δ)) (hev : ev = .tick visit calls) : s.wrapper.currClk.toNat < limit := by
  subst hev
  exact h.2.2

/-- **The front end comes to rest** over a memory that clears. From every
state a run under the rules leads to, while the peer asks for nothing
more, every event succeeds; once the clock is past by what the memory
needs, nothing waits for it; and time can go on until then. -/
theorem comes_to_rest (K : S.Clears lag rest) (hheld : K.held 0 0 0 memory)
    (hnone : S.inFlight memory = 0) (hnew : Sys.new memory store ticksPerClk clockEdge = .ok s₀)
    (hpolite : (machine M C).Meets (Polite M limit) s₀ es)
    (hrun : (machine M C).run s₀ es = .ok s) :
    (∀ es', (machine M C).Meets (Quiet M limit) s es' → ∃ u, (machine M C).run s es' = .ok u ∧
      (s.wrapper.currClk.toNat + lag + rest + K.load s.wrapper.memory ≤ u.wrapper.currClk.toNat →
        S.inFlight u.wrapper.memory = 0 ∧ u.Rested)) ∧
    ∀ n, s.wrapper.currClk.toNat ≤ n → n ≤ limit →
      ∃ u, ComesTo M C limit s u ∧ u.wrapper.currClk.toNat = n := by
  have hrunning : s.Running M S := by
    obtain ⟨s', hrun', h⟩ := (machine M C).run_yields (C := Polite M limit) (P := Sys.Running M S)
      (fun _ _ hs hev => hs.step hev) (.new (K.fit hheld) hnone hnew) hpolite
    obtain rfl := Except.ok.inj (hrun.symm.trans hrun')
    exact h
  refine ⟨fun es' hquiet => ?_, fun n hn hlimit => ?_⟩
  · have hdrives : s.Drives C FromPort limit 0 { state := memory } [] :=
      .run (fun s ev hev => ⟨fun _ _ => sends_fromPort, polite_tick s ev hev⟩) (.new hnew) hpolite
        hrun
    -- all that is held came by the clock of `s`
    have hheld' : K.held s.wrapper.currClk.toNat (K.load s.wrapper.memory) s.wrapper.currClk.toNat
        s.wrapper.memory := by
      obtain ⟨calls, d, hclocked, hdriven, hstate, -⟩ := hdrives
      obtain ⟨a, l, ha, h⟩ :=
        hclocked.holds K (fun _ => FromPort.answerable) (Nat.zero_le _) hheld hdriven
      rw [hstate] at h
      exact K.renew ha h
    obtain ⟨u, hrun', hu⟩ := (machine M C).run_yields (C := Quiet M limit) (P := Sys.Running M S)
      (fun _ _ hs hev => hs.step hev.1) hrunning hquiet
    refine ⟨u, hrun', fun hlate => ?_⟩
    have hclear : S.inFlight u.wrapper.memory = 0 := by
      obtain ⟨d₀, hd₀, hagain⟩ := hdrives.goOn fun _ => False
      have hquiet' : u.Drives C (fun _ => False) limit s.wrapper.currClk d₀ [] := by
        refine hagain.run (fun s ev hev => ⟨fun pkt hpkt => ?_, polite_tick s ev hev.1⟩) hquiet
          hrun'
        rw [hev.2] at hpkt
        exact absurd hpkt List.not_mem_nil
      obtain ⟨calls, d, hclocked, hdriven, hstate, -⟩ := hquiet'
      rw [← hd₀] at hheld'
      have h := hclocked.holds_on K hheld' hdriven
      rw [hstate] at h
      rw [← hd₀] at hlate
      exact K.clear h hlate
    exact ⟨hclear, hu.served.rested hclear⟩
  · exact hrunning.reaches hlimit (Nat.add_sub_cancel' hn) le_rfl

end Rest

/-! ## The low memory -/

namespace LowMemory

open Dram Dram.Ddr4

variable {o : Organization} {t : Timing} {cfg : Dram.Config} {imc : Imc.Config}
  {longest rounds : ℕ}

/-- The requests of the iMC's queues, and the answers the DRAM is still
to give. -/
def unanswered (memory : LowMemory) : ℕ :=
  (memory.next.map fun imc =>
    imc.queued + (imc.next.map fun sys => Ddr4.unanswered sys.localMemoryModel).sum).sum

/-- **What the low memory needs** to clear: a service of the DRAM and an
epoch for each place of the iMC's queues, another service, the latency of
a read, and a clock for each answer. -/
def drainTime (o : Organization) (t : Timing) (cfg : Dram.Config) (longest : ℕ) (imc : Imc.Config)
    (memory : LowMemory) : ℕ :=
  (imc.rpqEntries + imc.wpqEntries) *
      (serviceTime o t cfg longest + 1 + imc.adrEpoch.toNat) +
    (serviceTime o t cfg longest + 1 + (latency o t + 1)) + memory.unanswered

/-- **The low memory clears**, where the iMC has epochs. -/
def clears (ok : Timely o t cfg longest) (rounds : ℕ) {epoch : ℕ} (hepoch : 0 < epoch)
    (entries : ℕ) : (serves ok rounds).Clears (entries * (serviceTime o t cfg longest + 1 + epoch))
      (serviceTime o t cfg longest + 1 + (latency o t + 1)) :=
  Rmc.clears (Imc.clears (flushable o t) (answers ok) (Ddr4System.clears ok)
    (Ddr4System.clears_frees ok) hepoch entries)

/-- A new one holds nothing. -/
theorem clears_new (ok : Timely o t cfg longest) (hstart : cfg.startAddr = 0)
    (hmapping : imc.mappingFunc = noneMapping ∨ imc.mappingFunc = strideMapping4096)
    (hrounds : imc.wpqEntries < rounds) (hepoch : 0 < imc.adrEpoch.toNat) :
    ∃ memory, new o t imc cfg = .ok memory ∧
      (clears ok rounds hepoch (imc.rpqEntries + imc.wpqEntries)).held 0 0 0 memory ∧
      (serves ok rounds).inFlight memory = 0 := by
  obtain ⟨memory, hmemory, hfit, hnone⟩ := serves_new ok hstart hmapping hrounds
  obtain ⟨dram, hdram, hheld⟩ := Ddr4System.clears_new (κ := Callback) ok hstart
  have hnew := hmemory
  simp only [new, hdram, ok_bind, pure_eq_ok] at hnew
  subst hnew
  have ⟨⟨st, hone, hpasses⟩, _, _⟩ := hfit
  obtain rfl := List.singleton_inj.mp hone
  refine ⟨_, hmemory, ⟨hfit, _, rfl, hpasses, fun _ h => absurd h List.not_mem_nil, rfl, rfl, 0, 0,
    ⟨_, rfl, hheld⟩, le_rfl, ?_, le_rfl, fun h => absurd h (Nat.lt_irrefl 0)⟩, hnone⟩
  exact Nat.add_le_add_left (Nat.mul_le_mul_right _ (Nat.zero_le _)) _

end LowMemory

open Dram Dram.Ddr4

/-- **The front end comes to rest over the low memory.** -/
theorem low_memory_drains {o : Organization} {t : Timing} {cfg : Dram.Config} {imc : Imc.Config}
    {longest rounds : ℕ} (ok : Timely o t cfg longest) (hstart : cfg.startAddr = 0)
    (hmapping : imc.mappingFunc = noneMapping ∨ imc.mappingFunc = strideMapping4096)
    (hrounds : imc.wpqEntries < rounds) (hepoch : imc.adrEpoch ≠ 0) (M : AbstractMemory δ μ)
    (store : μ) (ticksPerClk clockEdge : Tick) :
    ∃ memory s₀, LowMemory.new o t imc cfg = .ok memory ∧
      Sys.new memory store ticksPerClk clockEdge = .ok s₀ ∧ ∀ es s,
        (machine M (LowMemory.component o t rounds)).Meets (Polite M (2 ^ 63)) s₀ es →
        (machine M (LowMemory.component o t rounds)).run s₀ es = .ok s →
        (∀ es', (machine M (LowMemory.component o t rounds)).Meets (Quiet M (2 ^ 63)) s es' →
          ∃ u, (machine M (LowMemory.component o t rounds)).run s es' = .ok u ∧
            (s.wrapper.currClk.toNat + s.wrapper.memory.drainTime o t cfg longest imc ≤
                u.wrapper.currClk.toNat →
              u.wrapper.memory.inFlight = 0 ∧ u.Rested)) ∧
        ∀ n, s.wrapper.currClk.toNat ≤ n → n ≤ 2 ^ 63 →
          ∃ u, ComesTo M (LowMemory.component o t rounds) (2 ^ 63) s u ∧
            u.wrapper.currClk.toNat = n := by
  have hpos : 0 < imc.adrEpoch.toNat := by
    refine Nat.pos_of_ne_zero fun hzero => hepoch ?_
    exact UInt64.toNat_inj.mp hzero
  obtain ⟨memory, hmemory, hheld, hnone⟩ := LowMemory.clears_new ok hstart hmapping hrounds hpos
  refine ⟨memory, _, hmemory, rfl, fun es s hpolite hrun => ?_⟩
  obtain ⟨hrests, hgoes⟩ := comes_to_rest (LowMemory.clears ok rounds hpos _) hheld hnone rfl
    hpolite hrun
  refine ⟨fun es' hquiet => ?_, hgoes⟩
  obtain ⟨u, hu, hlate⟩ := hrests es' hquiet
  refine ⟨u, hu, fun hpast => hlate ?_⟩
  rw [LowMemory.drainTime, ← Nat.add_assoc, ← Nat.add_assoc] at hpast
  exact hpast

/-- A read that is in flight is answered. -/
theorem low_memory_drains_lo : ∃ memory s₀ s u,
    LowMemory.new (vansOrganization 8) vansTiming loImc vansConfig = .ok memory ∧
      Sys.new memory (fun _ => 0) 750 0 = .ok s₀ ∧
      (machine cells (LowMemory.component (vansOrganization 8) vansTiming 5)).run s₀
        [.recvTimingReq (readOf 64)] = .ok s ∧ s.reqsInFlight = 1 ∧
      ComesTo cells (LowMemory.component (vansOrganization 8) vansTiming 5) (2 ^ 63) s u ∧
      u.wrapper.memory.inFlight = 0 ∧ u.Rested := by
  have hmapping : loImc.mappingFunc = noneMapping ∨ loImc.mappingFunc = strideMapping4096 :=
    .inr rfl
  have hrounds : loImc.wpqEntries < 5 := by decide
  obtain ⟨memory, s₀, s, hmemory, hnew, hrun, hcount, hclock, hwaits⟩ : ∃ memory s₀ s,
      LowMemory.new (vansOrganization 8) vansTiming loImc vansConfig = .ok memory ∧
        Sys.new memory (fun _ => 0) 750 0 = .ok s₀ ∧
        (machine cells (LowMemory.component (vansOrganization 8) vansTiming 5)).run s₀
          [.recvTimingReq (readOf 64)] = .ok s ∧ s.reqsInFlight = 1 ∧ s.wrapper.currClk = 0 ∧
        s.wrapper.memory.unanswered = 1 := ⟨_, _, _, rfl, rfl, rfl, rfl, rfl, rfl⟩
  obtain ⟨memory', s₀', hmemory', hnew', hall⟩ :=
    low_memory_drains lo_timely rfl hmapping hrounds (by decide) cells (fun _ => 0) 750 0
  obtain rfl := Except.ok.inj (hmemory.symm.trans hmemory')
  obtain rfl := Except.ok.inj (hnew.symm.trans hnew')
  obtain ⟨hrests, hgoes⟩ := hall _ s read_polite hrun
  have hlong : s.wrapper.memory.drainTime (vansOrganization 8) vansTiming vansConfig 467 loImc ≤
      2 ^ 63 := by
    rw [LowMemory.drainTime, hwaits]
    decide +kernel
  obtain ⟨u, ⟨es', hquiet, hu⟩, hlate⟩ := hgoes (2 ^ 63) (by rw [hclock]; decide) le_rfl
  obtain ⟨u', hu', hrested⟩ := hrests es' hquiet
  obtain rfl := Except.ok.inj (hu.symm.trans hu')
  refine ⟨memory, s₀, s, u, hmemory, hnew, hrun, hcount, ⟨es', hquiet, hu⟩, hrested ?_⟩
  rw [hlate, hclock]
  exact (Nat.zero_add _).le.trans hlong

end Gem5

end Vans
