import Vans.Gem5.Service
import Vans.Dram.Serves
import Vans.Imc.Serves
import Vans.Rmc.Serves
/-!
# The gem5 front end — the low memory

The memory below 3GB: a DDR4 system under an iMC under an RMC that moves
no address. Each serves what it takes, so the front end never fails over
it, and every packet that waits is in one of the queues of the iMC or of
the DRAM.
-/

namespace Vans

namespace Gem5

open Dram Dram.Ddr4

/-- The memory as the factory makes it of the low configuration. -/
abbrev LowMemory := Rmc.Sys (Imc.Sys Callback (Ddr4System.Sys Callback Command State 2))

namespace LowMemory

/-- What the components do; a flush runs for so many rounds. -/
abbrev component (o : Organization) (t : Timing) (rounds : ℕ) : Component Callback LowMemory :=
  Rmc.component (Imc.component rounds (Ddr4System.component (spec o t) 2))

/-- A new memory, its addresses from zero on. -/
def new (o : Organization) (t : Timing) (imc : Imc.Config) (cfg : Dram.Config) :
    Result LowMemory := do
  let memory ← Dram.Sys.new (spec o t) 2 cfg
  return Rmc.Sys.init { mappingFunc := noneMapping, startAddr := 0 }
    [Imc.Sys.init imc [{ localMemoryModel := memory }]]

/-- The callbacks of the iMC's queues, and those the DRAM owes. -/
def inFlight (memory : LowMemory) : Multiset (Callback × Addr) :=
  (memory.next.map fun imc => dueAll imc.ctrl.rpq.queue + dueAll imc.ctrl.wpq.queue +
    (imc.next.map fun sys => sys.localMemoryModel.dueInFlight).sum).sum

variable {o : Organization} {t : Timing} {cfg : Dram.Config} {imc : Imc.Config}
  {longest rounds : ℕ}

/-- The iMC finds room in the DRAM where it asks for it. -/
theorem flushable (o : Organization) (t : Timing) :
    Imc.Flushable (Ddr4System.component (κ := Callback) (spec o t) 2) :=
  Imc.ddr4System_flushable

/-- The DRAM answers whether it has room, whenever it serves. -/
theorem answers (ok : Timely o t cfg longest) (n : ℕ) :
    Imc.Answers (Ddr4System.component (κ := Callback) (spec o t) 2)
      ((Ddr4System.serves ok).fit n) :=
  Ddr4System.serves_answers ok

/-- **The low memory serves what it takes.** -/
def serves (ok : Timely o t cfg longest) (rounds : ℕ) :
    (component o t rounds).Serves BaseRequest.due (2 ^ 63) :=
  Rmc.serves (Imc.serves (flushable o t) (Ddr4System.serves ok) (answers ok) rounds)

/-- **A new one serves**, and owes nothing. -/
theorem serves_new (ok : Timely o t cfg longest) (hstart : cfg.startAddr = 0)
    (hmapping : imc.mappingFunc = noneMapping ∨ imc.mappingFunc = strideMapping4096)
    (hrounds : imc.wpqEntries < rounds) : ∃ memory, new o t imc cfg = .ok memory ∧
      (serves ok rounds).fit 0 memory ∧ (serves ok rounds).inFlight memory = 0 := by
  obtain ⟨dram, hdram, hfit, hnone⟩ := Ddr4System.serves_new (κ := Callback) ok hstart
  refine ⟨_, by rw [new, hdram]; rfl, ⟨⟨_, rfl, ⟨_, rfl, hfit⟩, hmapping, ?_, ?_, Nat.zero_le _,
    Nat.zero_le _, hrounds⟩, .inl rfl, rfl⟩, ?_⟩
  · exact fun _ h => absurd h List.not_mem_nil
  · exact fun _ h => absurd h List.not_mem_nil
  · change 0 + 0 + ((Ddr4System.serves ok).inFlight _ + 0) + 0 = 0
    rw [hnone]
    rfl

end LowMemory

variable {δ μ : Type} {o : Organization} {t : Timing} {cfg : Dram.Config} {imc : Imc.Config}
  {longest rounds : ℕ}

/-- **Over the low memory no call fails.** For every configuration that
leaves the DRAM time for its refreshes, in every run under the rules of
the port every event succeeds, whatever is read and written. The iMC and
the DRAM hold the callbacks of the packets that wait, each as often as
packets wait for it, and no other. -/
theorem low_memory_never_fails (ok : Timely o t cfg longest) (hstart : cfg.startAddr = 0)
    (hmapping : imc.mappingFunc = noneMapping ∨ imc.mappingFunc = strideMapping4096)
    (hrounds : imc.wpqEntries < rounds) (M : AbstractMemory δ μ) (store : μ)
    (ticksPerClk clockEdge : Tick) :
    ∃ memory s₀, LowMemory.new o t imc cfg = .ok memory ∧
      Sys.new memory store ticksPerClk clockEdge = .ok s₀ ∧ ∀ es,
        (machine M (LowMemory.component o t rounds)).Meets (Polite M (2 ^ 63)) s₀ es →
        ∃ s, (machine M (LowMemory.component o t rounds)).run s₀ es = .ok s ∧
          ∀ callback addr, s.wrapper.memory.inFlight.count (callback, addr) =
            ((s.packets callback).waiting addr).length := by
  obtain ⟨memory, hmemory, hfit, hnone⟩ := LowMemory.serves_new ok hstart hmapping hrounds
  refine ⟨memory, _, hmemory, rfl, fun es hpolite => ?_⟩
  obtain ⟨s, hrun, hcount, -⟩ :=
    no_event_fails (LowMemory.serves ok rounds) hfit hnone rfl hpolite
  exact ⟨s, hrun, hcount⟩

/-- The low configuration. -/
def loImc : Imc.Config where
  mappingFunc := strideMapping4096
  wpqEntries := 4
  rpqEntries := 4
  adrEpoch := 10

theorem lo_timely : Timely (vansOrganization 8) vansTiming vansConfig 467 :=
  ⟨⟨by decide, by decide +kernel, by decide⟩, vans_timely.delay, by decide, by decide, by decide,
    by decide⟩

theorem read_polite {s : Sys ℕ (Addr → ℕ) LowMemory} :
    (machine cells (LowMemory.component (vansOrganization 8) vansTiming 5)).Meets
      (Polite cells (2 ^ 63)) s [.recvTimingReq (readOf 64)] := by
  refine ⟨⟨trivial, fun pkt hpkt => ?_, trivial⟩, fun _ _ => trivial⟩
  obtain rfl := List.mem_singleton.mp hpkt
  exact ⟨fun _ hneeds => hneeds, rfl⟩

/-- A read, the ticks until it is called back, and its response. -/
def readToResponse : List (Event ℕ) :=
  [.recvTimingReq (readOf 64), .tick (fun _ => .asHeld) []] ++
    ((List.range 24).flatMap fun i => [.advance (750 * (i + 1)), .tick (fun _ => .asHeld) []]) ++
    [.sendResponse true []]

/-- A read is called back by it, and nothing of it is in flight any more. -/
theorem low_memory_never_fails_lo :
    ∃ memory s₀ s, LowMemory.new (vansOrganization 8) vansTiming loImc vansConfig = .ok memory ∧
      Sys.new memory (fun _ => 0) 750 0 = .ok s₀ ∧
      (machine cells (LowMemory.component (vansOrganization 8) vansTiming 5)).run s₀
        readToResponse = .ok s ∧
      .complete .readComplete 64 ∈ s.log ∧ s.respQueue = [] ∧
      s.wrapper.memory.inFlight.count (.readComplete, 64) = 0 := by
  have hmapping : loImc.mappingFunc = noneMapping ∨ loImc.mappingFunc = strideMapping4096 :=
    .inr rfl
  have hrounds : loImc.wpqEntries < 5 := by decide
  obtain ⟨memory, s₀, hmemory, hnew, hall⟩ :=
    low_memory_never_fails lo_timely rfl hmapping hrounds cells (fun _ => 0) 750 0
  obtain ⟨memory', hmemory', s₀', hnew', hmeets, s', hrun', hcalled, hsent, hwaits⟩ :
      Yields (LowMemory.new (vansOrganization 8) vansTiming loImc vansConfig) fun memory =>
        Yields (Sys.new memory (fun _ : Addr => 0) 750 0) fun s₀ =>
          (machine cells (LowMemory.component (vansOrganization 8) vansTiming 5)).Meets
            (fun s ev => Enabled s ev ∧ s.wrapper.currClk.toNat < 2 ^ 63 ∧
              (∀ pkt ∈ ev.requests, Aligned pkt) ∧ ev.eager) s₀ readToResponse ∧
          Yields ((machine cells (LowMemory.component (vansOrganization 8) vansTiming 5)).run s₀
            readToResponse) fun s => .complete .readComplete 64 ∈ s.log ∧ s.respQueue = [] ∧
              ((s.packets .readComplete).waiting 64).length = 0 := by
    decide +kernel
  obtain rfl := Except.ok.inj (hmemory.symm.trans hmemory')
  obtain rfl := Except.ok.inj (hnew.symm.trans hnew')
  obtain ⟨s, hrun, hcount⟩ := hall readToResponse (polite_of_eager hmeets)
  obtain rfl := Except.ok.inj (hrun.symm.trans hrun')
  exact ⟨memory, s₀, s, hmemory, hnew, hrun, hcalled, hsent, (hcount _ _).trans hwaits⟩

end Gem5

end Vans
