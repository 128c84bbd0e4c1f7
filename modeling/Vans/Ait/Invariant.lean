import Vans.Ait.Moves
import Mathlib.Tactic.Abel
/-!
# The AIT controller — every callback is run once

What holds of every entry; and the balance of callbacks: a request that
carries one is in the load/store queue, is the pending request of an
entry, or has had its callback run. Each is weighed by the callback and
the 256-byte block, and the three weights make up those of the requests
accepted. Nothing is asked of the local memory or of the media.
-/

namespace Vans

namespace Ait

variable {κ τ μ : Type}

/-- A transfer leaves the load/store queue and the buffer as they were,
and records nothing but the callback it runs. -/
theorem EntryMove.frame {s s' : Sys κ τ μ} {e e' : BufferEntry κ} (hm : EntryMove s e e' s') :
    s'.ctrl.buffer = s.ctrl.buffer ∧ s'.ctrl.lsq = s.ctrl.lsq ∧
      ∃ invs : List (Invocation κ), s'.log = s.log ++ invs.map Obs.ran := by
  cases hm with
  | finish => exact ⟨rfl, rfl, _, rfl⟩
  | _ => exact ⟨rfl, rfl, [], (List.append_nil _).symm⟩

/-! ## Every entry -/

/-- **The entry invariant.** -/
structure EntryOk (key : Addr) (e : BufferEntry κ) : Prop where
  /-- The request is for a block of the entry. -/
  block : translateToBlockAddr e.pendingRequest.rmwBlockAddr = key
  /-- The entry is pending until its request ends. -/
  pending : e.pending = false ↔ e.state = .end_

namespace EntryOk

variable {key : Addr} {e e' : BufferEntry κ} {s s' : Sys κ τ μ} {clk : Clk} {type : RequestType}
  {bits : BitVec blockSizeRmw} {front : BaseRequest κ}

theorem aligned (ok : EntryOk key e) : translateToBlockAddr key = key := by
  rw [← ok.block, translateToBlockAddr_idem]

theorem transfer (ok : EntryOk key e) (hm : EntryMove s e e' s') : EntryOk key e' := by
  obtain ⟨block, pending⟩ := ok
  cases hm with
  | lmemqFull => exact ⟨block, pending⟩
  | readMedia hst ht => exact ⟨block, by simp⟩
  | queueMiss hst ht => exact ⟨block, by split <;> simp_all⟩
  | queueHit hst ht => exact ⟨block, by split <;> simp⟩
  | migrate hst ht => exact ⟨block, by simp_all⟩
  | writeMedia hst ht => exact ⟨block, by simp_all⟩
  | finish hst => exact ⟨block, by simp⟩

theorem new {index : ℕ} :
    EntryOk (aitBlock front.addr)
      ((BufferEntry.new clk type (Rmw.translateToBlockAddr front.addr) bits index).assignCallback
        front.callback) :=
  ⟨rfl, by simp [BufferEntry.new, BufferEntry.assignCallback]⟩

theorem assigned :
    EntryOk (aitBlock front.addr)
      (e.assigned clk type (Rmw.translateToBlockAddr front.addr) bits front.callback) :=
  ⟨rfl, by simp [BufferEntry.assigned]⟩

theorem wake (ok : EntryOk key e) :
    EntryOk key { e with waitingActionClkUpdate := false, nextActionClk := clk } :=
  ⟨ok.block, ok.pending⟩

end EntryOk

/-- Every entry of the buffer satisfies the entry invariant. -/
def Sys.Ok (s : Sys κ τ μ) : Prop := ∀ key e, s.entry key = some e → EntryOk key e

namespace Sys.Ok

variable {s t : Sys κ τ μ} {key : Addr} {e : BufferEntry κ} {Q : BaseRequest κ → Prop}

theorem of_entry_eq (ok : s.Ok) (h : ∀ k, t.entry k = s.entry k) : t.Ok :=
  fun k e he => ok k e (h k ▸ he)

theorem of_entry_ite (ok : s.Ok) (hnew : EntryOk key e)
    (h : ∀ k, t.entry k = if k = key then some e else s.entry k) : t.Ok := by
  intro k e' he
  rw [h] at he
  split at he
  · rename_i hk
    cases he
    exact hk ▸ hnew
  · exact ok k e' he

/-- **Every move keeps the entry invariant.** -/
theorem move (ok : s.Ok) (h : Move Q s t) : t.Ok := by
  cases h with
  | accept | lmem | below | draining => exact ok.of_entry_eq fun _ => rfl
  | evict he hend hfull =>
      intro k e' hk
      rw [entry_erase] at hk
      split at hk
      · cases hk
      · exact ok k e' hk
  | miss hq ht hnone hroom => exact ok.of_entry_ite .new fun _ => entry_take
  | hit hq ht he hpend => exact ok.of_entry_ite .assigned fun _ => entry_take
  | wake he =>
      exact ok.of_entry_ite (ok _ _ he).wake fun _ => entry_setEntry
  | @transfer key e e' s' he hact hm =>
      refine ok.of_entry_ite ((ok key e he).transfer hm) fun k => ?_
      rw [entry_setEntry, Sys.entry, hm.frame.1]
      rfl

theorem moves (ok : s.Ok) (h : Moves Q s t) : t.Ok :=
  reflTransGen_keeps (fun _ _ ok hm => ok.move hm) h ok

theorem init {cfg : Config} {localMemory : τ} {next : List μ} :
    (Sys.init cfg localMemory next : Sys κ τ μ).Ok := by
  intro k e he
  simp [Sys.entry, Sys.init] at he

end Sys.Ok

/-! ## The balance of callbacks -/

/-- The callback runs of a record. -/
def ran (log : List (Obs κ)) : List (Invocation κ) := log.filterMap ranInvocation

def Obs.acceptedReq : Obs κ → Option (BaseRequest κ)
  | .accepted req => some req
  | _ => none

/-- The requests accepted, in order. -/
def accepted (log : List (Obs κ)) : List (BaseRequest κ) := log.filterMap Obs.acceptedReq

section Weights

variable {M : Type} [AddCommMonoid M]

/-- The weight of a request, by its callback and its block; without a
callback, none. -/
def share (weight : κ → Addr → M) (callback : Option κ) (block : Addr) : M :=
  callback.elim 0 fun c => weight c block

/-- The requests of a list, weighed. -/
def requestsWeight (weight : κ → Addr → M) (reqs : List (BaseRequest κ)) : M :=
  (reqs.map fun r => share weight r.callback (Rmw.translateToBlockAddr r.addr)).sum

/-- The pending request of an entry, weighed. -/
def BufferEntry.pendingWeight (weight : κ → Addr → M) (_ : Addr) (e : BufferEntry κ) : M :=
  if e.pending then share weight e.cb e.pendingRequest.rmwBlockAddr else 0

/-- The requests in progress, weighed. -/
def Sys.inFlight (weight : κ → Addr → M) (s : Sys κ τ μ) : M :=
  requestsWeight weight s.ctrl.lsq.queue
    + Keyed.total (BufferEntry.pendingWeight weight) s.ctrl.buffer.entryMap

/-- The callbacks run, weighed. -/
def ranWeight (weight : κ → Addr → M) (invs : List (Invocation κ)) : M :=
  (invs.map fun inv => weight inv.callback inv.addr).sum

/-- **The balance**: what was accepted is in progress or done. -/
def Sys.Balanced (weight : κ → Addr → M) (s : Sys κ τ μ) : Prop :=
  requestsWeight weight (accepted s.log) = s.inFlight weight + ranWeight weight (ran s.log)

variable {weight : κ → Addr → M} {s t : Sys κ τ μ} {e e' : BufferEntry κ} {key : Addr}

theorem requestsWeight_append {reqs reqs' : List (BaseRequest κ)} :
    requestsWeight weight (reqs ++ reqs') =
      requestsWeight weight reqs + requestsWeight weight reqs' := by
  simp [requestsWeight]

theorem requestsWeight_cons {req : BaseRequest κ} {reqs : List (BaseRequest κ)} :
    requestsWeight weight (req :: reqs) =
      share weight req.callback (Rmw.translateToBlockAddr req.addr)
        + requestsWeight weight reqs := by
  simp [requestsWeight]

theorem ranWeight_append {invs invs' : List (Invocation κ)} :
    ranWeight weight (invs ++ invs') = ranWeight weight invs + ranWeight weight invs' := by
  simp [ranWeight]

theorem ranWeight_invoke {callback : Option κ} {block : Addr} {clk : Clk} :
    ranWeight weight (invoke callback block clk) = share weight callback block := by
  cases callback <;> simp [invoke, ranWeight, share]

theorem ran_append {log log' : List (Obs κ)} : ran (log ++ log') = ran log ++ ran log' :=
  List.filterMap_append

theorem accepted_append {log log' : List (Obs κ)} :
    accepted (log ++ log') = accepted log ++ accepted log' :=
  List.filterMap_append

@[simp] theorem ran_map_ran {invs : List (Invocation κ)} : ran (invs.map Obs.ran) = invs := by
  induction invs with
  | nil => rfl
  | cons inv invs ih => simpa [ran, ranInvocation] using ih

@[simp] theorem accepted_map_ran {invs : List (Invocation κ)} : accepted (invs.map Obs.ran) = [] := by
  simp [accepted, List.filterMap_eq_nil_iff, Obs.acceptedReq]

theorem BufferEntry.pendingWeight_of_not_pending (h : e.pending = false) :
    e.pendingWeight weight key = 0 := by
  simp [pendingWeight, h]

/-- **A transfer runs the callback of its request, or leaves it to be
run.** -/
theorem EntryMove.weighed {s' : Sys κ τ μ} (hm : EntryMove s e e' s')
    (weight : κ → Addr → M) (ok : EntryOk key e) :
    ∃ invs : List (Invocation κ), s'.log = s.log ++ invs.map Obs.ran ∧
      e'.pendingWeight weight key + ranWeight weight invs = e.pendingWeight weight key := by
  have hpend : e.state ≠ .end_ → e.pending = true := fun h => by
    simpa using mt ok.pending.mp h
  cases hm with
  | finish hst =>
      refine ⟨_, rfl, ?_⟩
      rw [BufferEntry.pendingWeight_of_not_pending rfl, zero_add, ranWeight_invoke,
        BufferEntry.pendingWeight, if_pos (hpend ?_)]
      rw [hst]
      split <;> nofun
  | readMedia hst ht | queueHit hst ht =>
      refine ⟨[], (List.append_nil _).symm, ?_⟩
      simp [BufferEntry.pendingWeight, hpend (by rw [hst]; nofun), ranWeight]
  | lmemqFull | queueMiss | migrate | writeMedia =>
      exact ⟨[], (List.append_nil _).symm, add_zero _⟩

namespace Sys.Balanced

/-- The request at the front is taken, into an entry whose weight grows
by the request's. -/
theorem take {front : BaseRequest κ} {rest : List (BaseRequest κ)} {event : EventName} {index : ℕ}
    {table : IndirectionTable} (bal : s.Balanced weight) (hq : s.ctrl.lsq.queue = front :: rest)
    (hbuf : Keyed.total (BufferEntry.pendingWeight weight) (s.ctrl.buffer.entryMap.insert key e) =
      share weight front.callback (Rmw.translateToBlockAddr front.addr) +
        Keyed.total (BufferEntry.pendingWeight weight) s.ctrl.buffer.entryMap) :
    (s.take key e front rest event index table).Balanced weight := by
  unfold Sys.Balanced Sys.inFlight at *
  change requestsWeight weight (accepted (s.log ++ [.taken front])) =
    requestsWeight weight rest
      + Keyed.total (BufferEntry.pendingWeight weight) (s.ctrl.buffer.entryMap.insert key e)
      + ranWeight weight (ran (s.log ++ [.taken front]))
  rw [hbuf, accepted_append, ran_append]
  change requestsWeight weight (accepted s.log ++ []) = _ + ranWeight weight (ran s.log ++ [])
  rw [List.append_nil, List.append_nil, bal, hq, requestsWeight_cons]
  abel

/-- **Every move keeps the balance.** -/
theorem move {Q : BaseRequest κ → Prop} (bal : s.Balanced weight) (ok : s.Ok) (h : Move Q s t) :
    t.Balanced weight := by
  cases h with
  | @accept req room =>
      unfold Sys.Balanced Sys.inFlight at *
      rw [accepted_append, ran_append]
      change requestsWeight weight (accepted s.log ++ [req]) =
        requestsWeight weight (s.ctrl.lsq.queue ++ [req]) + _ + ranWeight weight (ran s.log ++ [])
      rw [requestsWeight_append, requestsWeight_append, bal, List.append_nil]
      abel
  | lmem | below | draining => exact bal
  | @evict key e he hend hfull =>
      have herase := Keyed.total_erase (f := BufferEntry.pendingWeight weight) he
      rw [BufferEntry.pendingWeight_of_not_pending ((ok key e he).pending.mpr hend),
        zero_add] at herase
      unfold Sys.Balanced Sys.inFlight at *
      rw [bal, ← herase]
      simp only [InternalBuffer.erase, (ok key e he).aligned]
  | miss hq ht hnone hroom => exact bal.take hq (Keyed.total_insert_fresh hnone)
  | hit hq ht he hpend =>
      refine bal.take hq (Keyed.total_insert_add he ?_)
      rw [BufferEntry.pendingWeight_of_not_pending hpend, add_zero]
      rfl
  | wake he =>
      unfold Sys.Balanced Sys.inFlight at *
      exact bal.trans (congrArg (_ + · + _) (Keyed.total_insert_eq he rfl).symm)
  | @transfer key e e' s' he hact hm =>
      obtain ⟨invs, hlog, hw⟩ := hm.weighed weight (ok key e he)
      obtain ⟨hbuf, hlsq, -⟩ := hm.frame
      unfold Sys.Balanced Sys.inFlight at *
      change requestsWeight weight (accepted s'.log) =
        requestsWeight weight s'.ctrl.lsq.queue
          + Keyed.total (BufferEntry.pendingWeight weight) (s'.ctrl.buffer.entryMap.insert key e')
          + ranWeight weight (ran s'.log)
      rw [hbuf, hlsq, hlog, accepted_append, ran_append, accepted_map_ran, ran_map_ran,
        List.append_nil, bal, Keyed.total_insert, ← Keyed.total_erase he, ranWeight_append, ← hw]
      abel

theorem moves {Q : BaseRequest κ → Prop} (bal : s.Balanced weight) (ok : s.Ok)
    (h : Moves Q s t) : t.Balanced weight :=
  (reflTransGen_keeps (P := fun u : Sys κ τ μ => u.Ok ∧ u.Balanced weight)
    (fun _ _ hu hm => ⟨hu.1.move hm, hu.2.move hu.1 hm⟩) h ⟨ok, bal⟩).2

theorem init {cfg : Config} {localMemory : τ} {next : List μ} :
    (Sys.init cfg localMemory next : Sys κ τ μ).Balanced weight := by
  simp [Sys.Balanced, Sys.inFlight, Sys.init, requestsWeight, ranWeight, accepted, ran, Keyed.total]

end Sys.Balanced

end Weights

/-! ## Only reads carry callbacks -/

/-- Where only reads are accepted with a callback, only reads in
progress carry one. -/
structure Sys.ReadsOnly (s : Sys κ τ μ) : Prop where
  queued : ∀ req ∈ s.ctrl.lsq.queue, req.callback.isSome → req.type = .read
  entries : ∀ key e, s.entry key = some e → e.cb.isSome → isWrite e.pendingRequest.type = false

/-- A request that may carry a callback. -/
def readsOnly (req : BaseRequest κ) : Prop := req.callback.isSome → req.type = .read

/-- A transfer leaves the request of its entry. -/
theorem EntryMove.request {s s' : Sys κ τ μ} {e e' : BufferEntry κ} (hm : EntryMove s e e' s') :
    e'.cb = e.cb ∧ e'.pendingRequest = e.pendingRequest := by
  cases hm <;> exact ⟨rfl, rfl⟩

namespace Sys.ReadsOnly

variable {s t : Sys κ τ μ} {key : Addr} {e : BufferEntry κ} {front : BaseRequest κ}
  {rest : List (BaseRequest κ)}

/-- The request at the front is taken, into an entry. -/
theorem take {event : EventName} {index : ℕ} {table : IndirectionTable} (ro : s.ReadsOnly)
    (hq : s.ctrl.lsq.queue = front :: rest)
    (he : front.callback.isSome → front.type = .read → e.cb.isSome →
      isWrite e.pendingRequest.type = false) (hcb : e.cb = front.callback) :
    (s.take key e front rest event index table).ReadsOnly where
  queued req hreq := ro.queued req (by rw [hq]; exact List.mem_cons_of_mem _ hreq)
  entries k e' hk hsome := by
    rw [entry_take] at hk
    split at hk
    · cases hk
      have hfront : front.callback.isSome := hcb ▸ hsome
      exact he hfront (ro.queued front (by simp [hq]) hfront) hsome
    · exact ro.entries k e' hk hsome

/-- An entry of the same request. -/
theorem setEntry {e' : BufferEntry κ} (ro : s.ReadsOnly) (he : s.entry key = some e)
    (hentry : ∀ k, t.entry k = if k = key then some e' else s.entry k)
    (hlsq : t.ctrl.lsq = s.ctrl.lsq) (hcb : e'.cb = e.cb)
    (hreq : e'.pendingRequest = e.pendingRequest) : t.ReadsOnly where
  queued := by rw [hlsq]; exact ro.queued
  entries k e'' hk hsome := by
    rw [hentry] at hk
    split at hk
    · cases hk
      rw [hreq]
      exact ro.entries key e he (hcb ▸ hsome)
    · exact ro.entries k e'' hk hsome

theorem move (ro : s.ReadsOnly) (h : Move readsOnly s t) : t.ReadsOnly := by
  cases h with
  | accept room hQ =>
      refine ⟨fun req hreq => ?_, ro.entries⟩
      rcases List.mem_append.mp hreq with hreq | hreq
      · exact ro.queued req hreq
      · rw [List.mem_singleton.mp hreq]
        exact hQ
  | lmem | below | draining => exact ⟨ro.queued, ro.entries⟩
  | evict he hend hfull =>
      refine ⟨ro.queued, fun k e' hk => ?_⟩
      rw [entry_erase] at hk
      split at hk
      · cases hk
      · exact ro.entries k e' hk
  | miss hq ht hnone hroom =>
      refine ro.take hq (fun _ hread _ => ?_) rfl
      simp only [BufferEntry.assignCallback, BufferEntry.new, ht, hread, isWrite]
  | hit hq ht he hpend =>
      refine ro.take hq (fun _ hread _ => ?_) rfl
      simp only [BufferEntry.assigned, ht, hread, isWrite]
  | wake he => exact ro.setEntry he (fun _ => entry_setEntry) rfl rfl rfl
  | transfer he hact hm =>
      obtain ⟨hbuf, hlsq, -⟩ := hm.frame
      refine ro.setEntry he (fun k => ?_) hlsq hm.request.1 hm.request.2
      rw [entry_setEntry, Sys.entry, hbuf]
      rfl

theorem init {cfg : Config} {localMemory : τ} {next : List μ} :
    (Sys.init cfg localMemory next : Sys κ τ μ).ReadsOnly :=
  ⟨nofun, fun k e he => by simp [Sys.entry, Sys.init] at he⟩

end Sys.ReadsOnly

/-! ## What a tick leaves outstanding -/

/-- What accepting a request adds to what is in progress. -/
theorem inFlight_accept {M : Type} [AddCommMonoid M] {weight : κ → Addr → M} {s : Sys κ τ μ}
    {req : BaseRequest κ} {log : List (Obs κ)} :
    ({ s with ctrl.lsq.queue := s.ctrl.lsq.queue ++ [req], log := log } : Sys κ τ μ).inFlight
        weight =
      s.inFlight weight + share weight req.callback (Rmw.translateToBlockAddr req.addr) := by
  simp only [Sys.inFlight, requestsWeight_append, requestsWeight_cons]
  simp only [requestsWeight, List.map_nil, List.sum_nil, add_zero]
  abel

/-- Moves that accept nothing only add to the record, and add no
acceptance. -/
theorem Moves.log {s t : Sys κ τ μ} (h : Moves (fun _ => False) s t) :
    ∃ new, t.log = s.log ++ new ∧ accepted new = [] := by
  refine reflTransGen_keeps (P := fun u : Sys κ τ μ => ∃ new, u.log = s.log ++ new ∧
    accepted new = []) ?_ h ⟨[], (List.append_nil _).symm, rfl⟩
  rintro a b ⟨new, hlog, hnew⟩ hm
  have hadd : ∀ more, b.log = a.log ++ more → accepted more = [] →
      ∃ new, b.log = s.log ++ new ∧ accepted new = [] := fun more hb hmore =>
    ⟨new ++ more, by rw [hb, hlog, List.append_assoc], by rw [accepted_append, hnew, hmore]; rfl⟩
  cases hm with
  | accept room hQ => exact hQ.elim
  | miss | hit => exact hadd [.taken _] rfl rfl
  | transfer he hact hm =>
      obtain ⟨-, -, invs, hb⟩ := hm.frame
      exact hadd _ hb accepted_map_ran
  | evict | lmem | wake | below | draining => exact hadd [] (List.append_nil _).symm rfl

/-- **Moves that accept nothing run what they no longer leave to be
run.** -/
theorem inFlight_of_moves {s t : Sys κ τ μ} {weight : κ → Addr → ℕ} (bal : s.Balanced weight)
    (ok : s.Ok) (h : Moves (fun _ => False) s t) :
    t.inFlight weight + ranWeight weight ((t.log.drop s.log.length).filterMap ranInvocation) =
      s.inFlight weight := by
  have hbal := bal.moves ok h
  obtain ⟨new, hlog, hacc⟩ := h.log
  unfold Sys.Balanced at bal hbal
  rw [hlog, accepted_append, ran_append, hacc, List.append_nil, bal, ranWeight_append] at hbal
  rw [hlog, List.drop_left]
  change t.inFlight weight + ranWeight weight (ran new) = _
  omega

end Ait

end Vans
