import Vans.Dram.Controller
/-!
# The DRAM media controller — its moves

What the controller does to its queues and to the tree. A request issued
to it is refused, queued or forwarded. A tick makes moves and nothing
else: a read that waits is answered; a refresh is queued; a command is
issued for the front of a queue, which then stays, goes to the
activation queue or is done.
-/

namespace Vans

namespace Dram

variable {κ γ ς : Type} {k : ℕ}

/-- The requests of a queue. -/
def Sys.reqs (s : Sys κ γ ς k) (name : QueueName) : List (Request κ) := (s.ctrl.queue name).queue

/-- What a move leaves: the queues, the pending queue, the tree and what
is new in the record. Nothing else that the controller reads changes but
the mode. -/
structure Became (s t : Sys κ γ ς k) (queue : QueueName → List (Request κ))
    (pending : List (Request κ)) (channel : Dram γ ς (k + 1)) (new : List (Obs κ γ)) : Prop where
  queue : ∀ n, t.reqs n = queue n
  bound : ∀ n, (t.ctrl.queue n).maxEntries = (s.ctrl.queue n).maxEntries
  pending : t.ctrl.pendingQueue = pending
  channel : t.ctrl.channel = channel
  log : t.log = s.log ++ new
  clock : t.ctrl.currClk = s.ctrl.currClk
  start : t.ctrl.startAddr = s.ctrl.startAddr
  mapper : t.mapper = s.mapper

/-- A read of a line that a queued write is for. -/
def Sys.forwards (s : Sys κ γ ς k) (req : Request κ) : Bool :=
  req.type = .read && (s.reqs .write).any (req.logicAddr == ·.logicAddr)

/-- A request enters its queue. -/
structure Accept (s t : Sys κ γ ς k) (req : Request κ) : Prop where
  arrive : req.arrive = s.ctrl.currClk.toInt64
  room : (s.reqs (getQueue req.type)).length < (s.ctrl.queue (getQueue req.type)).maxEntries
  direct : s.forwards req = false
  became : Became s t (fun n => s.reqs n ++ if n = getQueue req.type then [req] else [])
    s.ctrl.pendingQueue s.ctrl.channel [.accepted req]

/-- A read is accepted, and waits for its answer at once. -/
structure Forward (s t : Sys κ γ ς k) (req : Request κ) : Prop where
  arrive : req.arrive = s.ctrl.currClk.toInt64
  room : (s.reqs .read).length < (s.ctrl.queue .read).maxEntries
  forwards : s.forwards req = true
  became : Became s t s.reqs
    (s.ctrl.pendingQueue ++ [{ req with depart := (s.ctrl.currClk + 1).toInt64 }])
    s.ctrl.channel [.accepted req]

/-- The request of the queue's front is the one the controller turns to. -/
structure Turn (s : Sys κ γ ς k) (name : QueueName) (req : Request κ) (rest : List (Request κ)) :
    Prop where
  front : s.reqs name = req :: rest
  act : name ≠ .act → s.reqs .act = []
  misc : name ≠ .act → name ≠ .misc → s.reqs .misc = []
  older : name = .write → ∀ r ∈ (s.reqs .read).head?, req.arrive < r.arrive

section Moves

variable [DecidableEq γ] (spec : Spec γ ς)

/-- A move of a tick. -/
inductive Move (s t : Sys κ γ ς k) : Prop where
  /-- A refresh enters its queue. -/
  | refresh (req : Request κ) (htype : req.type = .refresh) (accept : Accept s t req)
  /-- The read that waits longest is answered. -/
  | answer (req : Request κ) (rest : List (Request κ)) (callback : κ)
      (hfront : s.ctrl.pendingQueue = req :: rest)
      (hdepart : req.depart.toUInt64 ≤ s.ctrl.currClk) (hcallback : req.callback = some callback)
      (became : Became s t s.reqs rest s.ctrl.channel
        [.ran ⟨callback, req.logicAddr + s.ctrl.startAddr, s.ctrl.currClk⟩])
  /-- The mode changes, or the clock of the last refresh. -/
  | adjust (became : Became s t s.reqs s.ctrl.pendingQueue s.ctrl.channel [])
  /-- A command on the way to the request's own: the request stays. -/
  | prepare (name : QueueName) (req : Request κ) (rest : List (Request κ)) (cmd : γ)
      (channel : Dram γ ς (k + 1)) (turn : Turn s name req rest)
      (hcmd : getFirstCmd spec req s = .ok cmd)
      (hready : check spec cmd req.mappedAddr s.ctrl.currClk (k + 1) 0 s.ctrl.channel = .ok true)
      (hupdate : update spec cmd req.mappedAddr s.ctrl.currClk (k + 1) s.ctrl.channel = .ok channel)
      (hother : spec.isAccessing cmd = false ∧ spec.isRefreshing cmd = false ∧
        spec.isOpening cmd = false)
      (became : Became s t
        (fun n => if n = name then { req with isFirstCmd := false } :: rest else s.reqs n)
        s.ctrl.pendingQueue channel [.issued cmd req.mappedAddr s.ctrl.currClk])
  /-- The row is opened: the request goes to the activation queue. -/
  | activate (name : QueueName) (req : Request κ) (rest : List (Request κ)) (cmd : γ)
      (channel : Dram γ ς (k + 1)) (turn : Turn s name req rest)
      (hcmd : getFirstCmd spec req s = .ok cmd)
      (hready : check spec cmd req.mappedAddr s.ctrl.currClk (k + 1) 0 s.ctrl.channel = .ok true)
      (hupdate : update spec cmd req.mappedAddr s.ctrl.currClk (k + 1) s.ctrl.channel = .ok channel)
      (hother : spec.isAccessing cmd = false ∧ spec.isRefreshing cmd = false)
      (hopening : spec.isOpening cmd = true)
      (became : Became s t
        (fun n => (if n = name then rest else s.reqs n) ++
          if n = .act then [{ req with isFirstCmd := false }] else [])
        s.ctrl.pendingQueue channel [.issued cmd req.mappedAddr s.ctrl.currClk])
  /-- The request's own command: it leaves its queue, and a read waits
  for its answer. -/
  | serve (name : QueueName) (req : Request κ) (rest : List (Request κ)) (cmd : γ)
      (channel : Dram γ ς (k + 1)) (turn : Turn s name req rest)
      (hcmd : getFirstCmd spec req s = .ok cmd)
      (hready : check spec cmd req.mappedAddr s.ctrl.currClk (k + 1) 0 s.ctrl.channel = .ok true)
      (hupdate : update spec cmd req.mappedAddr s.ctrl.currClk (k + 1) s.ctrl.channel = .ok channel)
      (hends : spec.isAccessing cmd = true ∨ spec.isRefreshing cmd = true)
      (became : Became s t (fun n => if n = name then rest else s.reqs n)
        (s.ctrl.pendingQueue ++ if req.type = .read then
          [{ req with
            isFirstCmd := false
            depart := (s.ctrl.currClk + UInt64.ofInt spec.readLatency).toInt64 }] else [])
        channel
        [.issued cmd req.mappedAddr s.ctrl.currClk, .served { req with isFirstCmd := false }])

/-- Moves one after another. -/
abbrev Moves : Sys κ γ ς k → Sys κ γ ς k → Prop := Relation.ReflTransGen (Move spec)

end Moves

/-! ## Every call makes moves -/

section Calls

variable [DecidableEq γ] {spec : Spec γ ς} {s t : Sys κ γ ς k}

omit [DecidableEq γ] in
/-- **A request is refused where its queue is full, and nothing changes;
otherwise it is queued or forwarded.** -/
theorem issueRequest_cases {request : Request κ} {b : Bool}
    (h : issueRequest request s = .ok (b, t)) :
    (b = false ∧ t = s ∧ (s.reqs (getQueue request.type)).length =
      (s.ctrl.queue (getQueue request.type)).maxEntries) ∨
    (b = true ∧ ∃ req, req = { request with arrive := s.ctrl.currClk.toInt64 } ∧
      (Accept s t req ∨ Forward s t req)) := by
  simp only [issueRequest, bind_eq_ok, Prod.exists] at h
  obtain ⟨success, queue, henq, h⟩ := h
  obtain ⟨-, ⟨rfl, hfull, -⟩ | ⟨rfl, hroom, rfl⟩⟩ := RequestQueue.enqueue_eq_ok.mp henq
  · simp only [Bool.not_false, if_true, pure_eq_ok, Prod.mk.injEq] at h
    exact .inl ⟨h.1.symm, h.2.symm, hfull⟩
  · refine .inr ⟨?_, _, rfl, ?_⟩
    · simp only [Bool.not_true, Bool.false_eq_true, if_false] at h
      split at h <;> exact (Prod.mk.inj (pure_eq_ok.mp h)).1.symm
    simp only [Bool.not_true, Bool.false_eq_true, if_false] at h
    split at h <;> rename_i hfwd <;> obtain ⟨rfl, rfl⟩ := Prod.mk.inj (pure_eq_ok.mp h)
    · -- the read goes from the end of its queue to the pending queue
      obtain ⟨htype, hany⟩ := hfwd
      have hname : getQueue request.type = .read := by rw [htype]; rfl
      simp only [hname] at hany hroom
      refine .inr ⟨rfl, hroom, ?_, ?_⟩
      · simp only [Sys.forwards, htype, decide_true, Bool.true_and]
        exact hany
      · refine ⟨fun n => ?_, fun n => ?_, ?_, ?_, rfl, ?_, ?_, rfl⟩
        · cases n <;> simp [Sys.reqs, Sys.emit, hname, Controller.queue, Controller.setQueue]
        · cases n <;> simp [Sys.emit, hname, Controller.queue, Controller.setQueue]
        all_goals simp [Sys.emit, hname, Controller.setQueue]
    · refine .inl ⟨rfl, hroom, ?_, ?_⟩
      · rw [Sys.forwards, Bool.and_eq_false_imp]
        intro htype
        simp only [decide_eq_true_eq] at htype
        have hname : getQueue request.type = .read := by rw [htype]; rfl
        rw [← Bool.not_eq_true]
        refine fun hany => hfwd ⟨htype, ?_⟩
        simp only [Sys.emit, hname]
        exact hany
      · refine ⟨fun n => ?_, fun n => maxEntries_setQueue, pendingQueue_setQueue, channel_setQueue,
          rfl, currClk_setQueue, startAddr_setQueue, rfl⟩
        simp only [Sys.reqs, Sys.emit, queue_setQueue]
        split
        · rename_i hn
          rw [hn]
        · exact (List.append_nil _).symm

theorem servePending_moves : Moves spec s (servePending s) := by
  unfold servePending
  split
  · exact .refl
  · rename_i request rest hpend
    split
    · rename_i hdepart
      split
      · exact .refl
      · rename_i callback hcb
        exact .single (.answer request rest callback hpend hdepart hcb
          ⟨fun n => rfl, fun n => rfl, rfl, rfl, rfl, rfl, rfl, rfl⟩)
    · exact .refl

omit [DecidableEq γ] in
/-- A refresh that is taken is queued. -/
theorem refresh_accepted {rankId : ℕ}
    (h : issueRequest (refreshRequest spec s.ctrl.channel.node.id rankId) s = .ok (true, t)) :
    ∃ req : Request κ, req.type = .refresh ∧ Accept s t req := by
  obtain ⟨hfalse, -⟩ | ⟨-, req, rfl, haccept | hforward⟩ := issueRequest_cases h
  · cases hfalse
  · exact ⟨_, rfl, haccept⟩
  · cases hforward.forwards

theorem issueRefresh_moves (h : issueRefresh spec s = .ok t) : Moves spec s t := by
  refine issueRefresh_keeps (P := Moves spec s) h ?_ ?_ .refl
  · intro u v rankId hu hissue
    obtain ⟨req, htype, haccept⟩ := refresh_accepted hissue
    exact hu.tail (.refresh req htype haccept)
  · intro u hu
    exact hu.tail (.adjust ⟨fun n => rfl, fun n => rfl, rfl, rfl, (List.append_nil _).symm,
      rfl, rfl, rfl⟩)

theorem chooseMode_moves : Moves spec s (chooseMode s) := by
  have hadjust : ∀ mode : Bool, Move spec s { s with ctrl.writePriorMode := mode } := fun _ =>
    .adjust ⟨fun n => by cases n <;> rfl, fun n => by cases n <;> rfl, rfl, rfl,
      (List.append_nil _).symm, rfl, rfl, rfl⟩
  unfold chooseMode
  split
  · exact .single (hadjust _)
  · exact .single (hadjust _)
  · exact .single (hadjust _)
  · exact .refl

omit [DecidableEq γ] in
theorem size_eq_false {q : RequestQueue (Request κ)} (h : ¬ q.size = true) : q.queue = [] := by
  simpa [RequestQueue.size] using h

omit [DecidableEq γ] in
/-- Writes come first only where the write is older. -/
theorem chooseMode_older {req : Request κ} {rest : List (Request κ)}
    (hmode : (chooseMode s).ctrl.writePriorMode = true) (h : s.reqs .write = req :: rest) :
    ∀ r ∈ (s.reqs .read).head?, req.arrive < r.arrive := by
  have hw : s.ctrl.writeQueue.queue = req :: rest := h
  intro r hr
  change r ∈ s.ctrl.readQueue.queue.head? at hr
  unfold chooseMode at hmode
  rw [hw] at hmode
  cases hread : s.ctrl.readQueue.queue with
  | nil => simp [hread] at hr
  | cons r' rs =>
      obtain rfl : r' = r := by simpa [hread] using hr
      simpa [hread] using hmode

omit [DecidableEq γ] in
/-- **The front of the queue that is chosen is the one to turn to.** -/
theorem chooseMode_turn {req : Request κ} {rest : List (Request κ)}
    (h : (chooseMode s).reqs (chooseQueue (chooseMode s)) = req :: rest) :
    Turn (chooseMode s) (chooseQueue (chooseMode s)) req rest := by
  have hreqs : ∀ n, (chooseMode s).reqs n = s.reqs n := by
    intro n
    unfold chooseMode
    split <;> rfl
  refine ⟨h, fun hname => ?_, fun hname hname' => ?_, fun hname => ?_⟩
  · unfold chooseQueue at hname
    split at hname
    · exact absurd rfl hname
    · rename_i hsize
      exact size_eq_false hsize
  · unfold chooseQueue at hname hname'
    split at hname'
    · rename_i hsize
      simp [hsize] at hname
    · rename_i hsize
      simp only [hsize] at hname
      split at hname'
      · exact absurd rfl hname'
      · rename_i hsize'
        exact size_eq_false hsize'
  · rw [hname, hreqs] at h
    rw [hreqs]
    refine chooseMode_older ?_ h
    unfold chooseQueue at hname
    split at hname
    · cases hname
    · split at hname
      · cases hname
      · split at hname
        · assumption
        · cases hname

/-- What follows a command makes it a move. -/
theorem schedule_moves {name : QueueName}
    (hturn : ∀ req rest, s.reqs name = req :: rest → Turn s name req rest)
    (h : schedule spec name s = .ok t) : Moves spec s t := by
  unfold schedule at h
  split at h
  · obtain rfl := pure_eq_ok.mp h
    exact .refl
  · rename_i req rest hq
    have turn := hturn req rest hq
    simp only [bind_eq_ok] at h
    obtain ⟨ready, hready, h⟩ := h
    cases ready with
    | false =>
        simp only [Bool.not_false, if_true, pure_eq_ok] at h
        exact h ▸ .refl
    | true =>
        simp only [Bool.not_true, Bool.false_eq_true, if_false, bind_eq_ok, pure_eq_ok] at h
        obtain ⟨cmd, hcmd, u, hu, rfl⟩ := h
        simp only [isReady, bind_eq_ok] at hready
        obtain ⟨cmd', hcmd', hcheck⟩ := hready
        -- the command that is issued is the one that was checked
        obtain rfl : cmd' = cmd := Except.ok.inj (hcmd'.symm.trans hcmd)
        simp only [issueCmd, bind_eq_ok, pure_eq_ok] at hu
        obtain ⟨channel, hupdate, rfl⟩ := hu
        refine .single ?_
        unfold afterCmd
        dsimp only
        split
        · rename_i hends
          simp only [Bool.not_eq_true', Bool.or_eq_false_iff] at hends
          split
          · rename_i hopen
            refine .activate name req rest cmd' channel turn hcmd hcheck hupdate hends hopen ?_
            refine ⟨fun n => ?_, fun n => ?_, ?_, ?_, rfl, ?_, ?_, rfl⟩
            · cases name <;> cases n <;>
                simp [Sys.reqs, Sys.emit, Controller.queue, Controller.setQueue]
            all_goals simp; rfl
          · rename_i hopen
            simp only [Bool.not_eq_true] at hopen
            refine .prepare name req rest cmd' channel turn hcmd hcheck hupdate
              ⟨hends.1, hends.2, hopen⟩ ?_
            refine ⟨fun n => queue_setQueue, fun n => ?_, ?_, ?_, rfl, ?_, ?_, rfl⟩
            all_goals simp; rfl
        · rename_i hends
          simp only [Bool.not_eq_true', Bool.or_eq_false_iff, not_and_or, Bool.not_eq_false] at hends
          refine .serve name req rest cmd' channel turn hcmd hcheck hupdate hends ?_
          -- a read waits for its answer, and the queues are the same
          split
          all_goals
            refine ⟨fun n => ?_, fun n => ?_, ?_, ?_, ?_, ?_, ?_, rfl⟩
            · cases name <;> cases n <;>
                simp [Sys.reqs, Sys.emit, Controller.queue, Controller.setQueue]
            · cases name <;> cases n <;> rfl
            all_goals simp [Sys.emit]

/-- **A tick makes moves**, at its clock. -/
theorem tick_moves {clk : Clk} (h : tick spec clk s = .ok t) :
    Moves spec { s with ctrl.currClk := clk } t := by
  simp only [tick, bind_eq_ok] at h
  obtain ⟨u, hu, h⟩ := h
  exact ((servePending_moves.trans (issueRefresh_moves hu)).trans chooseMode_moves).trans
    (schedule_moves (fun _ _ => chooseMode_turn) h)

end Calls

end Dram

end Vans
