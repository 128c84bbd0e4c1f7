import Vans.Ait.Total
import Vans.Dram.Ddr4
import Vans.Dram.Ledger
import Mathlib.Data.Multiset.AddSub
/-!
# The AIT controller — the reads its local memory has to answer

The reads a local memory has taken and not called back, by address. A
call comes with the address of its read, moved by where the memory
starts. The DRAM keeps this, for every standard.
-/

namespace Vans

namespace Ait

/-- The local memory calls the callback of each read it takes once, in a
later tick, with the address of the read moved by where the memory
starts; and makes no other call. -/
structure AnswersInPlace {τ : Type} (L : Component SubreqCallback τ) where
  start : τ → Addr
  outstanding : τ → Multiset Addr
  issue : ∀ {req mem resp req' mem'}, L.issueRequest req mem = .ok (resp, req', mem') →
    start mem' = start mem ∧ outstanding mem' = outstanding mem +
      if resp.issued ∧ req.type = .read ∧ req.callback.isSome then {req.addr} else 0
  tick : ∀ {visit clk mem mem' ran}, L.tick visit clk mem = .ok (mem', ran) →
    start mem' = start mem ∧
      outstanding mem = outstanding mem' + (ran.map fun inv => inv.addr - start mem : List Addr)

end Ait

namespace Dram

variable {κ γ ς : Type} {k : ℕ}

/-- A read that is to be called back. -/
def Request.isOwed (req : Request κ) : Bool := req.type = .read && req.callback.isSome

/-- The reads of a queue that are to be called back, by address. -/
def owedReads (reqs : List (Request κ)) : Multiset Addr :=
  ((reqs.filter (·.isOwed)).map (·.logicAddr) : List Addr)

/-- The reads to be called back of what is queued, and of what waits. -/
def outstandingIn (queue : QueueName → List (Request κ)) (pending : List (Request κ)) :
    Multiset Addr :=
  owedReads (queue .act) + owedReads (queue .misc) + owedReads (queue .read)
    + owedReads (queue .write)
    + ((pending.filter (·.callback.isSome)).map (·.logicAddr) : List Addr)

/-- **The reads outstanding**: taken, and not called back. -/
def Sys.outstanding (s : Sys κ γ ς k) : Multiset Addr :=
  outstandingIn s.reqs s.ctrl.pendingQueue

section Outstanding

variable {queue : QueueName → List (Request κ)} {pending rest reqs : List (Request κ)}
  {req : Request κ} {name : QueueName}

theorem owedReads_append : owedReads (reqs ++ [req]) =
    owedReads reqs + if req.isOwed then {req.logicAddr} else 0 := by
  rw [owedReads, List.filter_append, List.map_append, ← Multiset.coe_add]
  cases h : req.isOwed <;> simp [owedReads, h]

theorem owedReads_cons : owedReads (req :: reqs) =
    owedReads reqs + if req.isOwed then {req.logicAddr} else 0 := by
  cases h : req.isOwed
  · simp [owedReads, h]
  · simp [owedReads, h, ← Multiset.cons_coe, ← Multiset.singleton_add, add_comm]

theorem outstandingIn_append :
    outstandingIn (fun n => queue n ++ if n = name then [req] else []) pending =
      outstandingIn queue pending + if req.isOwed then {req.logicAddr} else 0 := by
  cases name <;> simp [outstandingIn, owedReads_append] <;> abel

theorem outstandingIn_cons :
    outstandingIn (fun n => if n = name then req :: rest else queue n) pending =
      outstandingIn (fun n => if n = name then rest else queue n) pending +
        if req.isOwed then {req.logicAddr} else 0 := by
  cases name <;> simp [outstandingIn, owedReads_cons] <;> abel

theorem outstandingIn_front (h : queue name = req :: rest) :
    outstandingIn queue pending =
      outstandingIn (fun n => if n = name then rest else queue n) pending +
        if req.isOwed then {req.logicAddr} else 0 := by
  rw [← outstandingIn_cons]
  congr 1
  funext n
  split
  · rename_i hn
    rw [hn, h]
  · rfl

/-- A read waits for its answer, and any other request waits for none. -/
theorem outstandingIn_pending {depart : Int64} {first : Bool} :
    outstandingIn queue (pending ++
        if req.type = .read then [{ req with isFirstCmd := first, depart := depart }] else []) =
      outstandingIn queue pending + if req.isOwed then {req.logicAddr} else 0 := by
  by_cases htype : req.type = .read
  · rw [if_pos htype, outstandingIn, List.filter_append, List.map_append, ← Multiset.coe_add,
      ← add_assoc]
    refine congrArg (outstandingIn queue pending + ·) ?_
    cases hcb : req.callback.isSome <;> simp [Request.isOwed, htype, hcb]
  · simp [Request.isOwed, htype]

variable {s t : Sys κ γ ς k}

theorem Became.outstanding {channel : Dram γ ς (k + 1)} {new : List (Obs κ γ)}
    (b : Became s t queue pending channel new) : t.outstanding = outstandingIn queue pending := by
  rw [Sys.outstanding, b.pending, funext b.queue]

/-- The reads answered in a record, by address. -/
def answeredReads (start : Addr) (log : List (Obs κ γ)) : Multiset Addr :=
  ((ranInvocations log).map fun inv => inv.addr - start : List Addr)

theorem answeredReads_append {start : Addr} {log log' : List (Obs κ γ)} :
    answeredReads start (log ++ log') = answeredReads start log + answeredReads start log' := by
  rw [answeredReads, ranInvocations_append, List.map_append, ← Multiset.coe_add]
  rfl

variable [DecidableEq γ] {spec : Spec γ ς}

/-- **A move takes the reads it answers off what is outstanding.** -/
theorem Move.outstanding (h : Move spec s t) : t.ctrl.startAddr = s.ctrl.startAddr ∧
    t.outstanding + answeredReads s.ctrl.startAddr t.log =
      s.outstanding + answeredReads s.ctrl.startAddr s.log := by
  have hnew : ∀ {new : List (Obs κ γ)}, ranInvocations new = [] →
      answeredReads s.ctrl.startAddr (s.log ++ new) = answeredReads s.ctrl.startAddr s.log := by
    intro new hnone
    rw [answeredReads_append]
    simp [answeredReads, hnone]
  cases h with
  | refresh req htype accept =>
      refine ⟨accept.became.start, ?_⟩
      rw [accept.became.outstanding, accept.became.log, hnew rfl, outstandingIn_append]
      simp [Request.isOwed, htype, Sys.outstanding]
  | answer req rest callback hfront hdepart hcallback b =>
      refine ⟨b.start, ?_⟩
      rw [b.outstanding, b.log, answeredReads_append, Sys.outstanding, hfront]
      simp [outstandingIn, answeredReads, ranInvocations, ranInvocation, hcallback,
        ← Multiset.cons_coe, ← Multiset.singleton_add]
      abel
  | adjust b =>
      refine ⟨b.start, ?_⟩
      rw [b.outstanding, b.log, List.append_nil, Sys.outstanding]
  | prepare name req rest cmd channel turn hcmd hready hupdate hother b =>
      refine ⟨b.start, ?_⟩
      rw [b.outstanding, b.log, hnew rfl, Sys.outstanding, outstandingIn_front turn.front,
        outstandingIn_cons]
      rfl
  | activate name req rest cmd channel turn hcmd hready hupdate hother hopening b =>
      refine ⟨b.start, ?_⟩
      rw [b.outstanding, b.log, hnew rfl, Sys.outstanding, outstandingIn_front turn.front]
      exact congrArg (· + _)
        (@outstandingIn_append _ _ _ { req with isFirstCmd := false } .act)
  | serve name req rest cmd channel turn hcmd hready hupdate hends b =>
      refine ⟨b.start, ?_⟩
      rw [b.outstanding, b.log, hnew rfl, Sys.outstanding, outstandingIn_front turn.front,
        outstandingIn_pending]

end Outstanding

end Dram

end Vans
