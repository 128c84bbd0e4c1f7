import Vans.Dram.Moves
import Vans.Dram.Safety
/-!
# The DRAM media controller — requests are conserved

A ledger is kept beside the controller: which requests it queued, which
reads it forwarded, and which reads came to wait for their answer, each
in order. What was queued is at every moment what was served and what
is queued still, queue by queue; what waited is what was answered and
what waits.
-/

namespace Vans

namespace Dram

variable {κ γ ς : Type} {k : ℕ}

/-! ## The ledger -/

/-- The requests the controller has taken, by what it did with them. -/
structure Ledger (κ : Type) where
  queued : List (Request κ) := []
  forwarded : List (Request κ) := []
  /-- The reads that came to wait, with the clock their answer is due. -/
  awaited : List (Request κ) := []

/-- What an observation adds to the ledger: a request accepted was
queued or forwarded, and a read served waits from then on. -/
def Ledger.note (spec : Spec γ ς) (forwards : Request κ → Bool) (clk : Clk) (l : Ledger κ) :
    Obs κ γ → Ledger κ
  | .accepted req =>
    if forwards req then
      { l with
        forwarded := l.forwarded ++ [req]
        awaited := l.awaited ++ [{ req with depart := (clk + 1).toInt64 }] }
    else { l with queued := l.queued ++ [req] }
  | .served req =>
    if req.type = .read then
      { l with awaited := l.awaited ++
        [{ req with depart := (clk + UInt64.ofInt spec.readLatency).toInt64 }] }
    else l
  | .issued _ _ _ => l
  | .ran _ => l

/-- The ledger, of a call that took the memory from `s` to `t`. -/
def Ledger.extend (spec : Spec γ ς) (l : Ledger κ) (s t : Sys κ γ ς k) : Ledger κ :=
  (t.log.drop s.log.length).foldl (Ledger.note spec s.forwards t.ctrl.currClk) l

/-- The memory, and the ledger beside it. -/
structure Audited (κ γ ς : Type) (k : ℕ) where
  sys : Sys κ γ ς k
  ledger : Ledger κ := {}

/-- The memory, audited. -/
def audited [DecidableEq γ] (spec : Spec γ ς) (k : ℕ) :
    Machine (Audited κ γ ς k) (Event κ) String where
  step := fun a ev => do
    let s ← (machine spec k).step a.sys ev
    return ⟨s, a.ledger.extend spec a.sys s⟩

def Obs.acceptedReq : Obs κ γ → Option (Request κ)
  | .accepted req => some req
  | _ => none

def Obs.servedReq : Obs κ γ → Option (Request κ)
  | .served req => some req
  | _ => none

/-- The requests accepted, in order. -/
def acceptedReqs (log : List (Obs κ γ)) : List (Request κ) := log.filterMap Obs.acceptedReq

/-- The requests whose own command was issued, in order. -/
def servedReqs (log : List (Obs κ γ)) : List (Request κ) := log.filterMap Obs.servedReq

/-- The callbacks run, in order. -/
def ranInvocations (log : List (Obs κ γ)) : List (Invocation κ) := log.filterMap ranInvocation

/-- A request, without the mark that a command has been issued for it. -/
def unmarked (req : Request κ) : Request κ := { req with isFirstCmd := false }

/-- A read, without the clock its answer is due. -/
def undated (req : Request κ) : Request κ := { req with isFirstCmd := false, depart := -1 }

/-- Requests of the queue. -/
def isOf (name : QueueName) (req : Request κ) : Bool := getQueue req.type = name

/-- The read was answered: its callback ran, for its address, and not
before the answer was due. -/
def Answered (startAddr : Addr) (req : Request κ) (inv : Invocation κ) : Prop :=
  req.callback = some inv.callback ∧ inv.addr = req.logicAddr + startAddr ∧
    req.depart.toUInt64 ≤ inv.clk

/-- **The ledger is kept.** -/
structure Kept (s : Sys κ γ ς k) (l : Ledger κ) : Prop where
  sorted : ∀ name ≠ .act, ∀ req ∈ s.reqs name, isOf name req
  single : (s.reqs .act).length ≤ 1
  bound : ∀ name, (s.reqs name).length ≤ (s.ctrl.queue name).maxEntries
  same : ∀ name, (s.ctrl.queue name).maxEntries = (s.ctrl.queue .act).maxEntries
  accepted : (l.queued ++ l.forwarded).Perm (acceptedReqs s.log)
  queued : ∀ name ≠ .act, (l.queued.filter (isOf name)).map unmarked =
    ((servedReqs s.log ++ s.reqs .act).filter (isOf name) ++ s.reqs name).map unmarked
  awaited : ∃ answered, l.awaited = answered ++ s.ctrl.pendingQueue ∧
    List.Forall₂ (Answered s.ctrl.startAddr) answered (ranInvocations s.log)
  forwards : ∀ req ∈ l.forwarded, isOf .read req
  reads : (l.awaited.map undated).Perm
    ((l.forwarded ++ (servedReqs s.log).filter (isOf .read)).map undated)

section Lists

variable {log new : List (Obs κ γ)}

theorem perm_append_right_comm {A : Type} {as bs cs : List A} :
    ((as ++ bs) ++ cs).Perm ((as ++ cs) ++ bs) := by
  rw [List.append_assoc, List.append_assoc]
  exact List.perm_append_comm.append_left as

theorem acceptedReqs_append : acceptedReqs (log ++ new) = acceptedReqs log ++ acceptedReqs new :=
  List.filterMap_append

theorem servedReqs_append : servedReqs (log ++ new) = servedReqs log ++ servedReqs new :=
  List.filterMap_append

theorem ranInvocations_append :
    ranInvocations (log ++ new) = ranInvocations log ++ ranInvocations new :=
  List.filterMap_append

/-- An acceptance is recorded, and nothing else. -/
theorem Became.accepts {s t : Sys κ γ ς k} {queue : QueueName → List (Request κ)}
    {pending : List (Request κ)} {channel : Dram γ ς (k + 1)} {req : Request κ}
    (b : Became s t queue pending channel [.accepted req]) :
    acceptedReqs t.log = acceptedReqs s.log ++ [req] ∧ servedReqs t.log = servedReqs s.log ∧
      ranInvocations t.log = ranInvocations s.log := by
  rw [b.log, acceptedReqs_append, servedReqs_append, ranInvocations_append]
  exact ⟨rfl, List.append_nil _, List.append_nil _⟩

/-- The requests accepted for a queue. -/
def acceptedFor (name : QueueName) (log : List (Obs κ γ)) : List (Request κ) :=
  (acceptedReqs log).filter (isOf name)

theorem acceptedFor_append {name : QueueName} :
    acceptedFor name (log ++ new) = acceptedFor name log ++ acceptedFor name new := by
  rw [acceptedFor, acceptedReqs_append, List.filter_append]
  rfl

/-- **A move accepts refreshes only**, and the memory stays where it starts. -/
theorem Move.accepts [DecidableEq γ] {spec : Spec γ ς} {s t : Sys κ γ ς k} (h : Move spec s t)
    {name : QueueName} (hname : name ≠ .misc) :
    acceptedFor name t.log = acceptedFor name s.log ∧ t.ctrl.startAddr = s.ctrl.startAddr := by
  have hnone : ∀ {queue pending channel} {obs : List (Obs κ γ)},
      Became s t queue pending channel obs → acceptedFor name obs = [] →
      acceptedFor name t.log = acceptedFor name s.log ∧ t.ctrl.startAddr = s.ctrl.startAddr := by
    intro queue pending channel obs became hobs
    refine ⟨?_, became.start⟩
    rw [became.log, acceptedFor_append, hobs, List.append_nil]
  cases h with
  | refresh req htype accept =>
      refine hnone accept.became (List.filter_eq_nil_iff.mpr fun r hr => ?_)
      obtain rfl := List.mem_singleton.mp hr
      have hmisc : getQueue r.type = .misc := by rw [htype]; rfl
      simpa [isOf, hmisc] using hname.symm
  | answer _ _ _ _ _ _ became => exact hnone became rfl
  | adjust became => exact hnone became rfl
  | prepare _ _ _ _ _ _ _ _ _ _ became => exact hnone became rfl
  | activate _ _ _ _ _ _ _ _ _ _ _ became => exact hnone became rfl
  | serve _ _ _ _ _ _ _ _ _ _ became => exact hnone became rfl

end Lists

namespace Kept

variable {s t : Sys κ γ ς k} {l : Ledger κ} {req : Request κ} {spec : Spec γ ς}

theorem accept (kept : Kept s l) (h : Accept s t req) :
    Kept t { l with queued := l.queued ++ [req] } := by
  have b := h.became
  obtain ⟨hacc, hserved, hran⟩ := b.accepts
  have hact : t.reqs .act = s.reqs .act := by
    rw [b.queue, if_neg (by cases req.type <;> simp [getQueue]), List.append_nil]
  refine ⟨fun name hname r hr => ?_, ?_, fun name => ?_, fun name => ?_, ?_, fun name hname => ?_, ?_,
    kept.forwards, ?_⟩
  · rw [b.queue] at hr
    rcases List.mem_append.mp hr with hr | hr
    · exact kept.sorted name hname r hr
    · split at hr
      · rename_i hn
        rw [List.mem_singleton.mp hr, isOf]
        exact decide_eq_true hn.symm
      · simp at hr
  · rw [hact]
    exact kept.single
  · rw [b.queue, b.bound]
    split
    · rename_i hn
      subst hn
      have hroom := h.room
      simp only [List.length_append, List.length_singleton]
      omega
    · rw [List.append_nil]
      exact kept.bound name
  · rw [b.bound, b.bound]
    exact kept.same name
  · rw [hacc]
    exact perm_append_right_comm.trans (kept.accepted.append_right _)
  · rw [hserved, hact, b.queue, List.filter_append, List.map_append, kept.queued name hname]
    by_cases hn : name = getQueue req.type
    · subst hn
      simp [isOf]
    · have hne : isOf name req = false := by simp [isOf, Ne.symm hn]
      simp [hn, hne]
  · rw [b.pending, b.start, hran]
    exact kept.awaited
  · rw [hserved]
    exact kept.reads

theorem forward (kept : Kept s l) (h : Forward s t req) :
    Kept t { l with
      forwarded := l.forwarded ++ [req]
      awaited := l.awaited ++ [{ req with depart := (s.ctrl.currClk + 1).toInt64 }] } := by
  have b := h.became
  have hreqs : t.reqs = s.reqs := funext b.queue
  obtain ⟨hacc, hserved, hran⟩ := b.accepts
  refine ⟨hreqs ▸ kept.sorted, hreqs ▸ kept.single, fun name => ?_, fun name => ?_, ?_, ?_, ?_,
    fun r hr => ?_, ?_⟩
  · rw [hreqs, b.bound]
    exact kept.bound name
  · rw [b.bound, b.bound]
    exact kept.same name
  · rw [hacc, ← List.append_assoc]
    exact kept.accepted.append_right _
  · rw [hserved, hreqs]
    exact kept.queued
  · obtain ⟨answered, hawaited, hran'⟩ := kept.awaited
    refine ⟨answered, ?_, ?_⟩
    · rw [b.pending, hawaited, List.append_assoc]
    · rw [b.start, hran]
      exact hran'
  · rcases List.mem_append.mp hr with hr | hr
    · exact kept.forwards r hr
    · have hread := h.forwards
      rw [Sys.forwards, Bool.and_eq_true, decide_eq_true_eq] at hread
      rw [List.mem_singleton.mp hr, isOf, hread.1]
      rfl
  · rw [hserved]
    simp only [List.map_append]
    refine (kept.reads.append_right _).trans ?_
    rw [List.map_append]
    exact perm_append_right_comm

theorem answer {rest : List (Request κ)} {callback : κ} (kept : Kept s l)
    (hfront : s.ctrl.pendingQueue = req :: rest) (hdepart : req.depart.toUInt64 ≤ s.ctrl.currClk)
    (hcallback : req.callback = some callback)
    (b : Became s t s.reqs rest s.ctrl.channel
      [.ran ⟨callback, req.logicAddr + s.ctrl.startAddr, s.ctrl.currClk⟩]) : Kept t l := by
  have hreqs : t.reqs = s.reqs := funext b.queue
  have hacc : acceptedReqs t.log = acceptedReqs s.log := by
    rw [b.log, acceptedReqs_append]
    exact List.append_nil _
  have hserved : servedReqs t.log = servedReqs s.log := by
    rw [b.log, servedReqs_append]
    exact List.append_nil _
  refine ⟨hreqs ▸ kept.sorted, hreqs ▸ kept.single, fun name => ?_, fun name => ?_, hacc ▸ kept.accepted,
    ?_, ?_, kept.forwards, hserved ▸ kept.reads⟩
  · rw [hreqs, b.bound]
    exact kept.bound name
  · rw [b.bound, b.bound]
    exact kept.same name
  · rw [hserved, hreqs]
    exact kept.queued
  · obtain ⟨answered, hawaited, hran⟩ := kept.awaited
    refine ⟨answered ++ [req], ?_, ?_⟩
    · rw [b.pending, hawaited, hfront, List.append_assoc]
      rfl
    · rw [b.start, b.log, ranInvocations_append]
      exact List.rel_append hran (.cons ⟨hcallback, rfl, hdepart⟩ .nil)

/-- A command is issued for the front of a queue, which is still
queued. -/
theorem command {queue : QueueName → List (Request κ)} {channel : Dram γ ς (k + 1)} {cmd : γ}
    {addr : MappedAddr} {clk : Clk} (kept : Kept s l)
    (b : Became s t queue s.ctrl.pendingQueue channel [.issued cmd addr clk])
    (hsorted : ∀ name ≠ .act, ∀ r ∈ queue name, isOf name r) (hsingle : (queue .act).length ≤ 1)
    (hbound : ∀ name, (queue name).length ≤ (s.ctrl.queue name).maxEntries)
    (hqueued : ∀ name ≠ .act, ((queue .act).filter (isOf name) ++ queue name).map unmarked =
      ((s.reqs .act).filter (isOf name) ++ s.reqs name).map unmarked) : Kept t l := by
  have hacc : acceptedReqs t.log = acceptedReqs s.log := by
    rw [b.log, acceptedReqs_append]
    exact List.append_nil _
  have hserved : servedReqs t.log = servedReqs s.log := by
    rw [b.log, servedReqs_append]
    exact List.append_nil _
  have hran : ranInvocations t.log = ranInvocations s.log := by
    rw [b.log, ranInvocations_append]
    exact List.append_nil _
  refine ⟨fun name hname => b.queue name ▸ hsorted name hname, b.queue .act ▸ hsingle,
    fun name => ?_, fun name => ?_, hacc ▸ kept.accepted, fun name hname => ?_, ?_, kept.forwards,
    hserved ▸ kept.reads⟩
  · rw [b.queue, b.bound]
    exact hbound name
  · rw [b.bound, b.bound]
    exact kept.same name
  · have hold := kept.queued name hname
    have hnew := hqueued name hname
    simp only [hserved, b.queue, List.filter_append, List.map_append, List.append_assoc] at hold hnew ⊢
    rw [hold, hnew]
  · rw [b.pending, b.start, hran]
    exact kept.awaited

theorem prepare {name : QueueName} {rest : List (Request κ)} {channel : Dram γ ς (k + 1)} {cmd : γ}
    (kept : Kept s l) (turn : Turn s name req rest)
    (b : Became s t
      (fun n => if n = name then { req with isFirstCmd := false } :: rest else s.reqs n)
      s.ctrl.pendingQueue channel [.issued cmd req.mappedAddr s.ctrl.currClk]) : Kept t l := by
  have hlen : ∀ n, (if n = name then { req with isFirstCmd := false } :: rest
      else s.reqs n).length = (s.reqs n).length := by
    intro n
    split
    · rename_i hn
      rw [hn, turn.front]
      rfl
    · rfl
  have hmap : ∀ n, (if n = name then { req with isFirstCmd := false } :: rest
      else s.reqs n).map unmarked = (s.reqs n).map unmarked := by
    intro n
    split
    · rename_i hn
      rw [hn, turn.front]
      rfl
    · rfl
  refine kept.command b (fun n hn r hr => ?_) ((hlen .act).trans_le kept.single)
    (fun n => (hlen n).trans_le (kept.bound n)) fun n hn => ?_
  · split at hr
    · rename_i hname
      subst hname
      have hsorted := kept.sorted n hn
      rw [turn.front] at hsorted
      rcases List.mem_cons.mp hr with rfl | hr
      · exact hsorted req List.mem_cons_self
      · exact hsorted r (List.mem_cons_of_mem _ hr)
    · exact kept.sorted n hn r hr
  · rw [List.map_append, List.map_append, hmap n]
    refine congrArg (· ++ _) ?_
    -- the mark does not decide the queue
    have hfilter : ∀ rs : List (Request κ), (rs.filter (isOf n)).map unmarked =
        (rs.map unmarked).filter (isOf n) := fun rs =>
      (@List.filter_map _ _ unmarked (isOf n) rs).symm
    rw [hfilter, hfilter, hmap .act]

theorem rest_eq_nil {rest : List (Request κ)} (kept : Kept s l) (turn : Turn s .act req rest) :
    rest = [] := by
  have hlen := kept.single
  rw [turn.front, List.length_cons] at hlen
  exact List.length_eq_zero_iff.mp (by omega)

/-- The front of another queue than the activation queue is of it. -/
theorem isOf_front {name : QueueName} {rest : List (Request κ)} (kept : Kept s l)
    (turn : Turn s name req rest) (hname : name ≠ .act) {n : QueueName} :
    isOf n req = decide (n = name) := by
  have hsorted := kept.sorted name hname req (turn.front ▸ List.mem_cons_self)
  simp only [isOf, decide_eq_true_eq] at hsorted ⊢
  rw [hsorted]
  exact decide_eq_decide.mpr eq_comm

theorem activate {name : QueueName} {rest : List (Request κ)} {channel : Dram γ ς (k + 1)}
    {cmd : γ} (kept : Kept s l) (turn : Turn s name req rest)
    (b : Became s t
      (fun n => (if n = name then rest else s.reqs n) ++
        if n = .act then [{ req with isFirstCmd := false }] else [])
      s.ctrl.pendingQueue channel [.issued cmd req.mappedAddr s.ctrl.currClk]) : Kept t l := by
  by_cases hname : name = .act
  · -- the request is at the activation queue already
    subst hname
    have hrest := kept.rest_eq_nil turn
    subst hrest
    refine kept.command b (fun n hn r hr => ?_) (by simp) (fun n => ?_) fun n hn => ?_
    · rw [if_neg hn, if_neg hn, List.append_nil] at hr
      exact kept.sorted n hn r hr
    · split
      · rename_i hn
        subst hn
        have hbound := kept.bound .act
        rw [turn.front] at hbound
        exact hbound
      · rw [List.append_nil]
        exact kept.bound n
    · simp only [if_neg hn, List.append_nil, if_true, List.nil_append, turn.front]
      have hmark : isOf n { req with isFirstCmd := false } = isOf n req := rfl
      cases hof : isOf n req <;> simp [hof, hmark, unmarked]
  · -- it comes from its own queue, and the activation queue is empty
    have hact := turn.act hname
    have hof : ∀ n, isOf n req = decide (n = name) := fun n => kept.isOf_front turn hname
    -- the activation queue has room, since its own queue has the same bound
    have hlen := kept.bound name
    rw [turn.front, List.length_cons, kept.same name] at hlen
    refine kept.command b (fun n hn r hr => ?_) ?_ (fun n => ?_) fun n hn => ?_
    · rw [if_neg hn, List.append_nil] at hr
      split at hr
      · rename_i hn'
        subst hn'
        exact kept.sorted n hn r (turn.front ▸ List.mem_cons_of_mem _ hr)
      · exact kept.sorted n hn r hr
    · simp [hact, Ne.symm hname]
    · by_cases hn : n = .act
      · subst hn
        simp only [Ne.symm hname, if_false, hact, if_true, List.nil_append, List.length_singleton]
        omega
      · rw [if_neg hn, List.append_nil]
        split
        · rename_i hn'
          subst hn'
          have hbound := kept.bound n
          rw [turn.front, List.length_cons] at hbound
          omega
        · exact kept.bound n
    · have hof' : isOf n { req with isFirstCmd := false } = decide (n = name) := hof n
      simp only [Ne.symm hname, if_false, hact, if_true, List.nil_append, hn, List.append_nil]
      by_cases hn' : n = name
      · subst hn'
        simp [hof', turn.front, unmarked]
      · simp [hof', hn']

theorem serve {name : QueueName} {rest : List (Request κ)} {channel : Dram γ ς (k + 1)} {cmd : γ}
    (kept : Kept s l) (turn : Turn s name req rest)
    (b : Became s t (fun n => if n = name then rest else s.reqs n)
      (s.ctrl.pendingQueue ++ if req.type = .read then
        [{ req with
          isFirstCmd := false
          depart := (s.ctrl.currClk + UInt64.ofInt spec.readLatency).toInt64 }] else [])
      channel
      [.issued cmd req.mappedAddr s.ctrl.currClk, .served { req with isFirstCmd := false }]) :
    Kept t { l with awaited := l.awaited ++ if req.type = .read then
      [{ req with
        isFirstCmd := false
        depart := (s.ctrl.currClk + UInt64.ofInt spec.readLatency).toInt64 }] else [] } := by
  have hacc : acceptedReqs t.log = acceptedReqs s.log := by
    rw [b.log, acceptedReqs_append]
    exact List.append_nil _
  have hserved : servedReqs t.log = servedReqs s.log ++ [{ req with isFirstCmd := false }] := by
    rw [b.log, servedReqs_append]
    rfl
  have hran : ranInvocations t.log = ranInvocations s.log := by
    rw [b.log, ranInvocations_append]
    exact List.append_nil _
  -- a queue is never longer than it was
  have hlen : ∀ n, (if n = name then rest else s.reqs n).length ≤ (s.reqs n).length := by
    intro n
    split
    · rename_i hn
      rw [hn, turn.front]
      exact Nat.le_succ _
    · rfl
  have hmark : ∀ n, isOf n { req with isFirstCmd := false } = isOf n req := fun n => rfl
  refine ⟨fun n hn r hr => ?_, ?_, fun n => ?_, fun n => ?_, hacc ▸ kept.accepted, fun n hn => ?_,
    ?_, kept.forwards, ?_⟩
  · rw [b.queue] at hr
    split at hr
    · rename_i hn'
      subst hn'
      exact kept.sorted n hn r (turn.front ▸ List.mem_cons_of_mem _ hr)
    · exact kept.sorted n hn r hr
  · rw [b.queue]
    exact (hlen .act).trans kept.single
  · rw [b.queue, b.bound]
    exact (hlen n).trans (kept.bound n)
  · rw [b.bound, b.bound]
    exact kept.same n
  · rw [hserved, b.queue, b.queue, kept.queued n hn]
    by_cases hname : name = .act
    · subst hname
      have hrest := kept.rest_eq_nil turn
      subst hrest
      simp only [if_true, hn, if_false, turn.front, List.append_nil, List.filter_append]
      cases hof : isOf n req <;> simp [hof, hmark, unmarked]
    · -- it leaves its own queue
      have hact := turn.act hname
      have hof := kept.isOf_front turn hname (n := n)
      simp only [Ne.symm hname, if_false, hact, List.append_nil, List.filter_append]
      by_cases hn' : n = name
      · subst hn'
        simp [hmark, hof, turn.front, unmarked]
      · simp [hmark, hof, hn']
  · obtain ⟨answered, hawaited, hran'⟩ := kept.awaited
    refine ⟨answered, ?_, ?_⟩
    · rw [b.pending, hawaited, List.append_assoc]
    · rw [b.start, hran]
      exact hran'
  · have hread : isOf .read { req with isFirstCmd := false } = decide (req.type = .read) := by
      rw [hmark, isOf]
      cases req.type <;> rfl
    rw [hserved, List.filter_append, List.map_append, ← List.append_assoc, List.map_append]
    by_cases htype : req.type = .read
    · simp only [htype, decide_true] at hread
      simpa [htype, hread, undated] using kept.reads.append_right [undated req]
    · simp only [htype, decide_false] at hread
      simpa [htype, hread] using kept.reads

/-- The clocks and the mode are not in the ledger. -/
theorem steady (kept : Kept s l) (hreqs : t.reqs = s.reqs)
    (hbound : ∀ n, (t.ctrl.queue n).maxEntries = (s.ctrl.queue n).maxEntries)
    (hpending : t.ctrl.pendingQueue = s.ctrl.pendingQueue) (hlog : t.log = s.log)
    (hstart : t.ctrl.startAddr = s.ctrl.startAddr) : Kept t l := by
  refine ⟨hreqs ▸ kept.sorted, hreqs ▸ kept.single, fun n => ?_, fun n => ?_, hlog ▸ kept.accepted,
    ?_, ?_, kept.forwards, hlog ▸ kept.reads⟩
  · rw [hreqs, hbound]
    exact kept.bound n
  · rw [hbound, hbound]
    exact kept.same n
  · rw [hlog, hreqs]
    exact kept.queued
  · rw [hlog, hpending, hstart]
    exact kept.awaited

end Kept

/-! ## What every run keeps -/

section Runs

variable [DecidableEq γ] {spec : Spec γ ς} {s t u : Sys κ γ ς k} {l : Ledger κ}

/-- A move adds to the record. -/
theorem Move.grows (h : Move spec s t) :
    ∃ new, t.log = s.log ++ new ∧ t.ctrl.currClk = s.ctrl.currClk := by
  cases h with
  | refresh req _ accept => exact ⟨_, accept.became.log, accept.became.clock⟩
  | answer _ _ _ _ _ _ b | adjust b | prepare _ _ _ _ _ _ _ _ _ _ b
  | activate _ _ _ _ _ _ _ _ _ _ _ b | serve _ _ _ _ _ _ _ _ _ _ b => exact ⟨_, b.log, b.clock⟩

/-- **What every move keeps of the memory and its ledger, the moves of a
tick keep.** -/
theorem Moves.keeps {P : Sys κ γ ς k → Ledger κ → Prop}
    (hmove : ∀ s t l new, Move spec s t → t.log = s.log ++ new → P s l →
      P t (new.foldl (Ledger.note spec u.forwards t.ctrl.currClk) l))
    (h : Moves spec s t) (hs : P s l) : ∃ new, t.log = s.log ++ new ∧
      t.ctrl.currClk = s.ctrl.currClk ∧
      P t (new.foldl (Ledger.note spec u.forwards t.ctrl.currClk) l) := by
  induction h with
  | refl => exact ⟨[], (List.append_nil _).symm, rfl, hs⟩
  | tail _ hlast ih =>
      obtain ⟨new, hlog, hclk, hP⟩ := ih
      obtain ⟨new', hlog', hclk'⟩ := hlast.grows
      refine ⟨new ++ new', by rw [hlog', hlog, List.append_assoc], hclk'.trans hclk, ?_⟩
      rw [List.foldl_append]
      rw [← hclk'] at hP
      exact hmove _ _ _ _ hlast hlog' hP

/-- **A move keeps the ledger.** -/
theorem Kept.move {new : List (Obs κ γ)} (kept : Kept s l) (h : Move spec s t)
    (hlog : t.log = s.log ++ new) :
    Kept t (new.foldl (Ledger.note spec u.forwards t.ctrl.currClk) l) := by
  have hnew : ∀ {obs}, t.log = s.log ++ obs → new = obs := fun h =>
    List.append_cancel_left (hlog.symm.trans h)
  cases h with
  | refresh req htype accept =>
      obtain rfl := hnew accept.became.log
      have hfwd : u.forwards req = false := by simp [Sys.forwards, htype]
      simpa [Ledger.note, hfwd] using kept.accept accept
  | answer req rest callback hfront hdepart hcallback b =>
      obtain rfl := hnew b.log
      exact kept.answer hfront hdepart hcallback b
  | adjust b =>
      obtain rfl := hnew b.log
      exact kept.steady (funext b.queue) b.bound b.pending (b.log.trans (List.append_nil _)) b.start
  | prepare name req rest cmd channel turn _ _ _ _ b =>
      obtain rfl := hnew b.log
      exact kept.prepare turn b
  | activate name req rest cmd channel turn _ _ _ _ _ b =>
      obtain rfl := hnew b.log
      exact kept.activate turn b
  | serve name req rest cmd channel turn _ _ _ _ b =>
      obtain rfl := hnew b.log
      have hkept := kept.serve turn b
      rw [← b.clock] at hkept
      simp only [List.foldl_cons, List.foldl_nil, Ledger.note]
      split
      · rename_i htype
        simpa [htype] using hkept
      · rename_i htype
        simpa [htype] using hkept

omit [DecidableEq γ] in
theorem drop_log {new : List (Obs κ γ)} (h : t.log = s.log ++ new) :
    t.log.drop s.log.length = new := by
  rw [h, List.drop_left]

/-- **Every call keeps the ledger.** -/
theorem Kept.step {a b : Audited κ γ ς k} {ev : Event κ} (kept : Kept a.sys a.ledger)
    (h : (audited spec k).step a ev = .ok b) : Kept b.sys b.ledger := by
  simp only [audited, bind_eq_ok, pure_eq_ok] at h
  obtain ⟨t, ht, rfl⟩ := h
  change Kept t (a.ledger.extend spec a.sys t)
  cases ev with
  | issueRequest logicAddr type callback =>
      simp only [machine, bind_eq_ok, Prod.exists, pure_eq_ok] at ht
      obtain ⟨request, -, issued, t', hissue, rfl⟩ := ht
      obtain ⟨-, rfl, -⟩ | ⟨-, req, -, haccept | hforward⟩ := issueRequest_cases hissue
      · simpa [Ledger.extend] using kept
      · have hkept := kept.accept haccept
        rw [Ledger.extend, drop_log haccept.became.log]
        simpa [Ledger.note, haccept.direct] using hkept
      · have hkept := kept.forward hforward
        rw [Ledger.extend, drop_log hforward.became.log]
        simpa [Ledger.note, hforward.forwards, hforward.became.clock] using hkept
  | tick clk =>
      have hstart : Kept { a.sys with ctrl.currClk := clk } a.ledger :=
        kept.steady rfl (fun _ => rfl) rfl rfl rfl
      obtain ⟨new, hlog, -, hkept⟩ := Moves.keeps (u := a.sys) (P := Kept)
        (fun _ _ _ _ hmove hlog hP => hP.move hmove hlog) (tick_moves ht) hstart
      rw [Ledger.extend, drop_log hlog]
      exact hkept

omit [DecidableEq γ] in
/-- A new memory has taken nothing. -/
theorem Kept.new {cfg : Config} (h : Sys.new spec k cfg = .ok s) : Kept s {} := by
  simp only [Sys.new, bind_eq_ok] at h
  obtain ⟨mapper, -, h⟩ := h
  split at h
  · simp only [bind_eq_ok, throw_ne_ok, false_and, exists_false] at h
  · obtain rfl := pure_eq_ok.mp h
    refine ⟨fun n _ r hr => ?_, Nat.zero_le _, fun n => ?_, fun n => ?_, .refl _, fun n _ => ?_,
      ⟨[], rfl, .nil⟩, fun r hr => absurd hr List.not_mem_nil, .refl _⟩
    · cases n <;> simp [Sys.reqs, Controller.queue] at hr
    · cases n <;> exact Nat.zero_le _
    · cases n <;> rfl
    · cases n <;> rfl

theorem Kept.run {a b : Audited κ γ ς k} {es : List (Event κ)} (kept : Kept a.sys a.ledger)
    (h : (audited spec k).run a es = .ok b) : Kept b.sys b.ledger :=
  (audited spec k).invariant (P := fun a => Kept a.sys a.ledger) (fun _ _ _ hP hv => hP.step hv) kept h

/-! ## The commands of the requests served -/

/-- The command ends a request. -/
def Spec.ends (spec : Spec γ ς) (cmd : γ) : Bool := spec.isAccessing cmd || spec.isRefreshing cmd

/-- A request is ended by its own command, and by no other. -/
def Spec.EndsOwn (spec : Spec γ ς) (k : ℕ) : Prop :=
  ∀ (type : ReqType) addr (d : Dram γ ς (k + 1)) cmd,
    decode spec (spec.reqToCmd type) addr (k + 1) 0 d = .ok cmd → spec.ends cmd = true →
      cmd = spec.reqToCmd type

/-- **Each request served was issued its own command once**, and no other
command that ends a request was issued. -/
def Commanded (spec : Spec γ ς) (log : List (Obs κ γ)) : Prop :=
  ((issued log).filter (spec.ends ·.cmd)).map (fun i => (i.cmd, i.addr)) =
    (servedReqs log).map fun req => (spec.reqToCmd req.type, req.mappedAddr)

omit [DecidableEq γ] in
theorem Commanded.append {log new : List (Obs κ γ)} (h : Commanded spec log)
    (hnew : Commanded spec new) : Commanded spec (log ++ new) := by
  rw [Commanded, issued_append, servedReqs_append, List.filter_append, List.map_append,
    List.map_append, h, hnew]

theorem Commanded.move (hown : spec.EndsOwn k) (h : Commanded spec s.log) (hmove : Move spec s t) :
    Commanded spec t.log := by
  have hquiet : ∀ {cmd : γ} {addr : MappedAddr} {clk : Clk}, spec.ends cmd = false →
      Commanded (κ := κ) spec [.issued cmd addr clk] := by
    intro cmd addr clk hends
    simp [Commanded, issued, Obs.issuedCmd, servedReqs, Obs.servedReq, hends]
  cases hmove with
  | refresh req _ accept =>
      rw [accept.became.log]
      exact h.append rfl
  | answer _ _ _ _ _ _ b => exact b.log ▸ h.append rfl
  | adjust b => exact b.log ▸ h.append rfl
  | prepare _ _ _ _ _ _ _ _ _ hother b =>
      exact b.log ▸ h.append (hquiet (by simp [Spec.ends, hother]))
  | activate _ _ _ _ _ _ _ _ _ hother _ b =>
      exact b.log ▸ h.append (hquiet (by simp [Spec.ends, hother]))
  | serve name req rest cmd channel turn hcmd _ _ hends b =>
      have hends' : spec.ends cmd = true := by simpa [Spec.ends] using hends
      obtain rfl := hown req.type req.mappedAddr _ cmd hcmd hends'
      rw [b.log]
      refine h.append ?_
      change List.map _ (List.filter _
        [(⟨spec.reqToCmd req.type, req.mappedAddr, s.ctrl.currClk⟩ : Issued γ)]) = _
      rw [List.filter_singleton, hends']
      rfl

theorem Commanded.step {ev : Event κ} (hown : spec.EndsOwn k) (h : Commanded spec s.log)
    (hstep : (machine spec k).step s ev = .ok t) : Commanded spec t.log := by
  cases ev with
  | issueRequest logicAddr type callback =>
      simp only [machine, bind_eq_ok, Prod.exists, pure_eq_ok] at hstep
      obtain ⟨request, -, issued, t', hissue, rfl⟩ := hstep
      obtain ⟨-, rfl, -⟩ | ⟨-, req, -, haccept | hforward⟩ := issueRequest_cases hissue
      · exact h
      · exact haccept.became.log ▸ h.append rfl
      · exact hforward.became.log ▸ h.append rfl
  | tick clk =>
      exact reflTransGen_keeps (P := fun s : Sys κ γ ς k => Commanded spec s.log)
        (fun _ _ hP hmove => Commanded.move hown hP hmove) (tick_moves hstep) h

end Runs

end Dram

end Vans
