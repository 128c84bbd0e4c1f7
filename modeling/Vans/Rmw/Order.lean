import Vans.Rmw.Writes
/-!
# The RMW controller — the order kept within a block

The requests to one block leave the load/store queue in the order they
came, although combining takes writes from anywhere in it; and a read
leaves it only when every write taken before it has been written below.
-/

namespace Vans

namespace Rmw

variable {κ σ : Type} {C : Component Callback σ}

/-! ## The requests of a record -/

def Obs.acceptedReq : Obs κ → Option (BaseRequest κ)
  | .accepted req => some req
  | _ => none

def Obs.takenReq : Obs κ → Option (BaseRequest κ)
  | .taken _ req => some req
  | _ => none

/-- The requests accepted, in order. -/
def accepted (log : List (Obs κ)) : List (BaseRequest κ) := log.filterMap Obs.acceptedReq

/-- The requests that left the load/store queue, in order. -/
def taken (log : List (Obs κ)) : List (BaseRequest κ) := log.filterMap Obs.takenReq

/-- The requests of a list that are to the block. -/
def ofBlock (block : Addr) (reqs : List (BaseRequest κ)) : List (BaseRequest κ) :=
  reqs.filter (translateToBlockAddr ·.addr = block)

section Lists

variable {block : Addr} {log log' : List (Obs κ)} {reqs reqs' : List (BaseRequest κ)}
  {req : BaseRequest κ} {how : Served} {o : Obs κ}

theorem accepted_append : accepted (log ++ log') = accepted log ++ accepted log' :=
  List.filterMap_append

theorem taken_append : taken (log ++ log') = taken log ++ taken log' :=
  List.filterMap_append

theorem ofBlock_append : ofBlock block (reqs ++ reqs') = ofBlock block reqs ++ ofBlock block reqs' :=
  List.filter_append ..

theorem ofBlock_cons_self :
    ofBlock (translateToBlockAddr req.addr) (req :: reqs) =
      req :: ofBlock (translateToBlockAddr req.addr) reqs := by
  simp [ofBlock]

@[simp] theorem accepted_map_taken :
    accepted (reqs.map (Obs.taken how)) = ([] : List (BaseRequest κ)) := by
  simp [accepted, List.filterMap_eq_nil_iff, Obs.acceptedReq]

@[simp] theorem taken_map_taken : taken (reqs.map (Obs.taken how)) = reqs := by
  induction reqs with
  | nil => rfl
  | cons req reqs ih => simpa [taken, Obs.takenReq] using ih

@[simp] theorem accepted_map_ran {invs : List (Invocation κ)} :
    accepted (invs.map Obs.ran) = ([] : List (BaseRequest κ)) := by
  simp [accepted, List.filterMap_eq_nil_iff, Obs.acceptedReq]

@[simp] theorem taken_map_ran {invs : List (Invocation κ)} :
    taken (invs.map Obs.ran) = ([] : List (BaseRequest κ)) := by
  simp [taken, List.filterMap_eq_nil_iff, Obs.takenReq]

end Lists

/-! ## What leaves the queue -/

/-- What each observation of a request leaving the queue stands for, on
the record before it: the request is the oldest of its block still
waiting; and where it is a read, its block owes no write. -/
def InTurn (log : List (Obs κ)) (o : Obs κ) : Prop :=
  ∀ how req, o = .taken how req →
    (∃ later, ofBlock (translateToBlockAddr req.addr) (accepted log) =
      ofBlock (translateToBlockAddr req.addr) (taken log) ++ req :: later) ∧
    (req.type = .read → ¬ OwesWrite (translateToBlockAddr req.addr) log)

/-- **The queue's invariant**: of each block, what was accepted is what
was taken and then what waits; and everything taken was in turn. -/
structure Sys.InOrder (s : Sys κ σ) : Prop where
  split : ∀ block, ofBlock block (accepted s.log) =
    ofBlock block (taken s.log) ++ ofBlock block s.ctrl.lsq.queue
  turns : History.Always InTurn s.log

namespace Sys.InOrder

variable {s t : Sys κ σ}

/-- The queue is as it was, and nothing was accepted or taken. -/
theorem quiet (io : s.InOrder) {new : List (Obs κ)} (hlog : t.log = s.log ++ new)
    (hacc : accepted new = []) (htak : taken new = [])
    (hlsq : t.ctrl.lsq.queue = s.ctrl.lsq.queue) : t.InOrder where
  split block := by
    rw [hlog, hlsq, accepted_append, taken_append, hacc, htak, List.append_nil, List.append_nil]
    exact io.split block
  turns := by
    rw [hlog]
    refine io.turns.append (History.always_of_forall fun before o ho how req heq => ?_)
    have hmem : req ∈ taken new := List.mem_filterMap.mpr ⟨o, ho, by rw [heq]; rfl⟩
    simp [htak] at hmem

/-- The read at the front is taken, and its block owes no write. -/
theorem takeRead (io : s.InOrder) {how : Served} {front : BaseRequest κ}
    {rest : List (BaseRequest κ)} (hq : s.ctrl.lsq.queue = front :: rest)
    (hlog : t.log = s.log ++ [.taken how front]) (hlsq : t.ctrl.lsq.queue = rest)
    (howes : ¬ OwesWrite (translateToBlockAddr front.addr) s.log) : t.InOrder where
  split block := by
    have h := io.split block
    rw [hq] at h
    rw [hlog, hlsq, accepted_append, taken_append]
    change ofBlock block (accepted s.log ++ []) = ofBlock block (taken s.log ++ [front]) ++ _
    rw [List.append_nil, h, ofBlock_append, List.append_assoc]
    exact congrArg _ (ofBlock_append : ofBlock block ([front] ++ rest) = _)
  turns := by
    rw [hlog]
    refine History.always_concat.mpr ⟨io.turns, ?_⟩
    rintro how' req ⟨⟩
    have h := io.split (translateToBlockAddr front.addr)
    rw [hq, ofBlock_cons_self] at h
    exact ⟨⟨_, h⟩, fun _ => howes⟩

/-- The writes combined are taken. -/
theorem takeWrites (io : s.InOrder) {block : Addr} {hit : BitVec blockSizeCl}
    {reqs left : List (BaseRequest κ)} (hcomb : combine block s.ctrl.lsq.queue = (hit, reqs, left))
    (hlog : t.log = s.log ++ reqs.map (Obs.taken .write)) (hlsq : t.ctrl.lsq.queue = left) :
    t.InOrder := by
  obtain ⟨hall, hsame⟩ := combine_spec hcomb
  have hsplit : ∀ b, ofBlock b (accepted s.log) =
      ofBlock b (taken s.log) ++ (ofBlock b reqs ++ ofBlock b left) := fun b => by
    rw [io.split b]
    exact congrArg _ ((hsame b).trans ofBlock_append)
  refine ⟨fun b => ?_, ?_⟩
  · rw [hlog, hlsq, accepted_append, taken_append, accepted_map_taken, taken_map_taken,
      List.append_nil, hsplit b, ofBlock_append, List.append_assoc]
  · rw [hlog]
    refine io.turns.append fun before o after heq how req ho => ?_
    subst ho
    -- the batch splits at the request, and so does the queue
    obtain ⟨reqs₁, reqs', rfl, rfl, heq'⟩ := List.map_eq_append_iff.mp heq
    obtain ⟨w, reqs₂, rfl, hw, rfl⟩ := List.map_eq_cons_iff.mp heq'
    cases hw
    obtain ⟨htype, -⟩ := hall req (by simp)
    refine ⟨⟨ofBlock (translateToBlockAddr req.addr) reqs₂ ++
      ofBlock (translateToBlockAddr req.addr) left, ?_⟩, fun hread => by simp [htype] at hread⟩
    rw [accepted_append, taken_append, accepted_map_taken, taken_map_taken, List.append_nil,
      hsplit, ofBlock_append, ofBlock_append, ofBlock_cons_self]
    simp only [List.append_assoc, List.cons_append]

/-- **Every move keeps it.** -/
theorem move {Q : Env κ} (io : s.InOrder) (ok : s.Ok)
    (ow : s.Owing) (h : Move C Q s t) : t.InOrder := by
  cases h with
  | @accept req room =>
      refine ⟨fun block => ?_, History.always_concat.mpr ⟨io.turns, fun _ _ h => by cases h⟩⟩
      rw [accepted_append, taken_append]
      change ofBlock block (accepted s.log ++ [req]) =
        ofBlock block (taken s.log ++ []) ++ ofBlock block (s.ctrl.lsq.queue ++ [req])
      rw [ofBlock_append, io.split block, List.append_nil, ofBlock_append, List.append_assoc]
  | run => exact io.quiet rfl (by simp) (by simp) rfl
  | below | draining | evict => exact io.quiet (List.append_nil _).symm rfl rfl rfl
  | readCold hq ht hnone hroom =>
      -- a block with a write owed has an entry
      refine io.takeRead hq rfl rfl fun howes => ?_
      obtain ⟨e, he, -⟩ := ow _ howes
      simp [hnone] at he
  | readPatch hq ht he hpend hread hne hlen hQ =>
      refine io.takeRead hq rfl rfl fun howes => ?_
      obtain ⟨e', he', hun⟩ := ow _ howes
      rw [he] at he'
      cases he'
      rcases (ok _ _ he).isWrite_or_isRead with h | h
      · simp [h.2] at hread
      · simp [hun.1] at h
  | readFf hq ht he hnot hvalid hidx =>
      refine io.takeRead hq rfl rfl fun howes => ?_
      obtain ⟨e', he', hun⟩ := ow _ howes
      rw [he] at he'
      cases he'
      -- what is owed a write cannot be read fast forward
      simp [(ok _ _ he).unreadable hun] at hvalid
  | writeNew hq ht hcomb hnone hroom => exact io.takeWrites hcomb rfl rfl
  | writeComb hq ht hcomb he hpatch hall => exact io.takeWrites hcomb rfl rfl
  | writeJoin hq ht hcomb he hpatch hall => exact io.takeWrites hcomb rfl rfl
  | writePatch hq ht hcomb he hpend => exact io.takeWrites hcomb rfl rfl
  | @transfer key e e' s' he hact hm =>
      have hlsq : (s'.setEntry key e').ctrl.lsq.queue = s.ctrl.lsq.queue :=
        congrArg _ (hm.frame (ok key e he).not_flushBack).2.1
      rcases hm.log (ok key e he) with hlog | ⟨hlog, -⟩ | ⟨hlog, -⟩
      · exact io.quiet (hlog.trans (List.append_nil _).symm) rfl rfl hlsq
      · exact io.quiet hlog rfl rfl hlsq
      · exact io.quiet hlog rfl rfl hlsq
  | wake => exact io.quiet rfl rfl rfl rfl
  | flush => exact io.quiet (List.append_nil _).symm rfl rfl rfl

theorem init {cfg : Config} {next : List σ} : (Sys.init cfg next : Sys κ σ).InOrder :=
  ⟨fun _ => rfl, History.always_nil⟩

/-- What every run keeps, with the entries and the writes they owe. -/
theorem run {es : List (Event κ σ)} (io : s.InOrder) (ok : s.Ok) (ow : s.Owing)
    (h : (machine C).run s es = .ok t) : t.InOrder :=
  (run_keeps (P := fun u => (u.Ok ∧ u.Owing) ∧ u.InOrder)
    (fun _ _ hu hm =>
      ⟨⟨hu.1.1.move hm, hu.1.2.move hu.1.1 hm⟩, hu.2.move hu.1.1 hu.1.2 hm⟩) ⟨⟨ok, ow⟩, io⟩ h).2

end Sys.InOrder

/-- **Order within a block, and reads after writes.** Of each block, the
requests taken are the first of those accepted, in their order, and the
rest wait. Whatever is taken, the requests to its block taken before it
are exactly those accepted before it. When a read is taken, each write
to its block taken earlier has been written below since. -/
theorem block_order {cfg : Config} {next : List σ} {es : List (Event κ σ)} {s : Sys κ σ}
    (h : (machine C).run (Sys.init cfg next) es = .ok s) :
    (∀ block, ofBlock block (accepted s.log) =
      ofBlock block (taken s.log) ++ ofBlock block s.ctrl.lsq.queue) ∧
    (∀ before how req after, s.log = before ++ .taken how req :: after →
      (∃ later, ofBlock (translateToBlockAddr req.addr) (accepted before) =
        ofBlock (translateToBlockAddr req.addr) (taken before) ++ req :: later) ∧
      (req.type = .read → ∀ earlier w since, before = earlier ++ .taken .write w :: since →
        translateToBlockAddr w.addr = translateToBlockAddr req.addr →
        Obs.nextLevel .write (translateToBlockAddr req.addr) ∈ since)) := by
  have io : s.InOrder := Sys.InOrder.init.run Sys.Ok.init Sys.Owing.init h
  refine ⟨io.split, fun before how req after hlog => ?_⟩
  obtain ⟨hturn, howes⟩ := io.turns before _ after hlog how req rfl
  refine ⟨hturn, fun hread earlier w since hbefore hw => ?_⟩
  obtain ⟨o, hmem, rfl⟩ := History.answered (howes hread) hbefore ⟨w, rfl, hw⟩
  exact hmem

/-- The two requests of one block. -/
def aWrite : BaseRequest ℕ := { addr := 64, arrive := 0, type := .write }

def aRead : BaseRequest ℕ := { addr := 128, arrive := 0, type := .read, callback := some 0 }

/-- A write of a block, a read of it that has to wait, and the ticks
until the write is written below and the read is taken. -/
def writeThenRead : List (Event ℕ Unit) :=
  [.issueRequest aWrite, .issueRequest aRead, .tick .asHeld 0, .nextLevelReadCallback 0 0] ++
  (List.range 6).map fun i => .tick .asHeld (UInt64.ofNat (i + 1))

/-- The read is the last taken, after the write was written below. -/
theorem block_order_writeThenRead :
    ∃ s earlier since, smallRun writeThenRead = .ok s ∧
      s.log = (earlier ++ .taken .write aWrite :: since) ++ [.taken .readFf aRead] ∧
      ofBlock 0 (accepted s.log) = ofBlock 0 (taken s.log) ∧
      Obs.nextLevel .write 0 ∈ since := by
  obtain ⟨s, hrun, hlog, hempty⟩ : Yields (smallRun writeThenRead) fun s =>
      s.log = ([.accepted aWrite, .accepted aRead] ++ .taken .write aWrite ::
        [.nextLevel .read 0, .woken 0 .pendingAitR true, .nextLevel .write 0]) ++
        [.taken .readFf aRead] ∧
      s.ctrl.lsq.queue = [] := by decide +kernel
  obtain ⟨hsplit, hturns⟩ := block_order hrun
  refine ⟨s, _, _, hrun, hlog, by simpa [hempty, ofBlock] using hsplit 0, ?_⟩
  exact (hturns _ _ _ _ hlog).2 rfl _ aWrite _ rfl rfl

end Rmw

end Vans
