import Vans.Dram.Backlog
/-!
# DDR4 — service in time

The controller is driven by a clock that goes on one at a time. Every
tick either issues a command or waits for a delay that ends; so what is
still to be issued shrinks with the clock, and only the refreshes add to
it. Where a refresh of all ranks takes less than the interval between
refreshes: each is done before the next is due, its queue never
overflows, and no request waits longer than a bound that does not depend
on what is requested after it.
-/

namespace Vans

namespace Dram

variable {κ γ ς : Type} {k : ℕ}

/-- The clock of the last tick, as a number. -/
def Sys.now (s : Sys κ γ ς k) : ℕ := s.ctrl.currClk.toNat

/-! ## Requests are added -/

/-- Requests were added to the queues, and nothing else changed that a
command depends on. -/
structure Adds (s u : Sys κ γ ς k) (new : QueueName → List (Request κ)) : Prop where
  queue : ∀ n, u.reqs n = s.reqs n ++ new n
  bound : ∀ n, (u.ctrl.queue n).maxEntries = (s.ctrl.queue n).maxEntries
  channel : u.ctrl.channel = s.ctrl.channel
  commands : issued u.log = issued s.log
  mapper : u.mapper = s.mapper

namespace Adds

variable {s u v : Sys κ γ ς k} {new new' : QueueName → List (Request κ)} {req : Request κ}

theorem refl : Adds s s fun _ => [] :=
  ⟨fun _ => (List.append_nil _).symm, fun _ => rfl, rfl, rfl, rfl⟩

theorem trans (h : Adds s u new) (h' : Adds u v new') : Adds s v fun n => new n ++ new' n :=
  ⟨fun n => by rw [h'.queue, h.queue, List.append_assoc], fun n => (h'.bound n).trans (h.bound n),
    h'.channel.trans h.channel, h'.commands.trans h.commands, h'.mapper.trans h.mapper⟩

theorem of_accept (h : Accept s u req) :
    Adds s u fun n => if n = getQueue req.type then [req] else [] := by
  refine ⟨h.became.queue, h.became.bound, h.became.channel, ?_, h.became.mapper⟩
  rw [h.became.log, issued_append]
  exact List.append_nil _

theorem of_forward (h : Forward s u req) : Adds s u fun _ => [] := by
  refine ⟨fun n => (h.became.queue n).trans (List.append_nil _).symm, h.became.bound,
    h.became.channel, ?_, h.became.mapper⟩
  rw [h.became.log, issued_append]
  exact List.append_nil _

end Adds

section Refresh

variable [DecidableEq γ] {spec : Spec γ ς} {s u : Sys κ γ ς k}

omit [DecidableEq γ] in
/-- Within its bound, the queue of a request can be asked. -/
theorem issueRequest_yields {request : Request κ}
    (h : (s.reqs (getQueue request.type)).length ≤
      (s.ctrl.queue (getQueue request.type)).maxEntries) :
    ∃ b u, issueRequest request s = .ok (b, u) := by
  obtain ⟨⟨taken, queue⟩, henq⟩ :=
    RequestQueue.enqueue_of_le (r := { request with arrive := s.ctrl.currClk.toInt64 }) h
  rw [issueRequest]
  simp only [henq, ok_bind]
  cases taken with
  | false => exact ⟨_, _, rfl⟩
  | true =>
      simp only [Bool.not_true, Bool.false_eq_true, if_false]
      split <;> exact ⟨_, _, rfl⟩

/-- The refresh of a rank, as it is queued. -/
def refreshAt (spec : Spec γ ς) (channelId : ℕ) (clk : Clk) (rankId : ℕ) : Request κ :=
  { refreshRequest spec channelId rankId with arrive := clk.toInt64 }

/-- One round of the loop over the ranks. -/
def refreshOne (spec : Spec γ ς) (s : Sys κ γ ς k) (rank : Dram γ ς k) : Result (Sys κ γ ς k) := do
  let (res, s) ← issueRequest (refreshRequest spec s.ctrl.channel.node.id rank.node.id) s
  if !res then throw "DRAM: Queue full, cannot issue refresh request."
  return s

omit [DecidableEq γ] in
theorem issueRefresh_eq : issueRefresh spec s =
    if s.ctrl.currClk - s.ctrl.lastRefreshedClk ≥ UInt64.ofInt spec.nREFI then do
      let s ← s.ctrl.channel.2.foldlM (refreshOne spec) s
      return { s with ctrl.lastRefreshedClk := s.ctrl.currClk }
    else pure s := rfl

omit [DecidableEq γ] in
/-- **The ranks are refreshed in turn**, where the queue has room for all. -/
theorem refreshAll (spec : Spec γ ς) (ranks : List (Dram γ ς k)) : ∀ {s : Sys κ γ ς k},
    (s.reqs .misc).length + ranks.length ≤ (s.ctrl.queue .misc).maxEntries →
    ∃ u, ranks.foldlM (refreshOne spec) s = .ok u ∧
      Adds s u (fun n => if n = .misc then
        ranks.map fun rank => refreshAt spec s.ctrl.channel.node.id s.ctrl.currClk rank.node.id
        else []) ∧
      u.ctrl.currClk = s.ctrl.currClk ∧ u.ctrl.pendingQueue = s.ctrl.pendingQueue := by
  induction ranks with
  | nil =>
      intro s _
      refine ⟨s, rfl, ?_, rfl, rfl⟩
      simpa using Adds.refl (s := s)
  | cons rank ranks ih =>
      intro s hroom
      rw [List.length_cons] at hroom
      obtain ⟨b, v, hissue⟩ : ∃ b v, issueRequest
          (refreshRequest spec s.ctrl.channel.node.id rank.node.id) s = .ok (b, v) :=
        issueRequest_yields (by
          change (s.reqs .misc).length ≤ (s.ctrl.queue .misc).maxEntries
          omega)
      have hv : b = true ∧ Accept s v
          (refreshAt spec s.ctrl.channel.node.id s.ctrl.currClk rank.node.id) := by
        rcases issueRequest_cases hissue with ⟨-, -, hfull⟩ | ⟨rfl, req, rfl, haccept | hforward⟩
        · change (s.reqs .misc).length = (s.ctrl.queue .misc).maxEntries at hfull
          omega
        · exact ⟨rfl, haccept⟩
        · cases hforward.forwards
      obtain ⟨rfl, haccept⟩ := hv
      have hadds := Adds.of_accept haccept
      have hmisc : (v.reqs .misc).length = (s.reqs .misc).length + 1 := by
        rw [hadds.queue, List.length_append]
        rfl
      obtain ⟨u, hfold, hrest, hclk, hpending⟩ := ih (s := v) (by
        rw [hmisc, hadds.bound]
        omega)
      refine ⟨u, ?_, ?_, hclk.trans haccept.became.clock, hpending.trans haccept.became.pending⟩
      · rw [List.foldlM_cons, refreshOne, hissue]
        exact hfold
      · have hall := hadds.trans hrest
        rw [hadds.channel, haccept.became.clock] at hall
        refine ⟨fun n => (hall.queue n).trans (congrArg _ ?_), hall.bound, hall.channel,
          hall.commands, hall.mapper⟩
        cases n <;> rfl

omit [DecidableEq γ] in
/-- **Ranks that were refreshed had room**: the queue takes no request
past its bound. -/
theorem refreshAll_room {ranks : List (Dram γ ς k)} (hne : ranks ≠ []) :
    ∀ {s u : Sys κ γ ς k}, ranks.foldlM (refreshOne spec) s = .ok u →
      (s.reqs .misc).length + ranks.length ≤ (s.ctrl.queue .misc).maxEntries := by
  induction ranks with
  | nil => exact absurd rfl hne
  | cons rank ranks ih =>
      intro s u h
      rw [List.foldlM_cons, bind_eq_ok] at h
      obtain ⟨v, hv, hrest⟩ := h
      simp only [refreshOne, bind_eq_ok, Prod.exists] at hv
      obtain ⟨res, w, hissue, hv⟩ := hv
      cases res with
      | false =>
          simp only [Bool.not_false, if_true, bind_eq_ok, throw_ne_ok, false_and,
            exists_false] at hv
      | true =>
          simp only [Bool.not_true, Bool.false_eq_true, if_false, pure_eq_ok] at hv
          subst hv
          obtain ⟨req, htype, haccept⟩ := refresh_accepted hissue
          have hroom := haccept.room
          have hname : getQueue req.type = .misc := by rw [htype]; rfl
          rw [hname] at hroom
          have hadds := Adds.of_accept haccept
          have hmisc : (w.reqs .misc).length = (s.reqs .misc).length + 1 := by
            rw [hadds.queue, List.length_append, if_pos hname.symm, List.length_singleton]
          rw [List.length_cons]
          rcases eq_or_ne ranks [] with rfl | hmore
          · exact hroom
          · have hlater := ih hmore hrest
            rw [hmisc, hadds.bound] at hlater
            omega

/-! ## A tick, up to its command -/

/-- The refreshes are due. -/
def Due (spec : Spec γ ς) (s : Sys κ γ ς k) (clk : Clk) : Prop :=
  clk - s.ctrl.lastRefreshedClk ≥ UInt64.ofInt spec.nREFI

instance {clk : Clk} : Decidable (Due spec s clk) :=
  inferInstanceAs (Decidable (clk - s.ctrl.lastRefreshedClk ≥ UInt64.ofInt spec.nREFI))

/-- There is room for the refreshes that are due. -/
def Room (spec : Spec γ ς) (s : Sys κ γ ς k) (clk : Clk) : Prop :=
  Due spec s clk →
    (s.reqs .misc).length + s.ctrl.channel.2.length ≤ (s.ctrl.queue .misc).maxEntries

instance {clk : Clk} : Decidable (Room spec s clk) := inferInstanceAs (Decidable (_ → _))

/-- **What a tick does before it turns to a queue**: the refreshes of all
ranks are added, if they are due. -/
structure Begun (spec : Spec γ ς) (s : Sys κ γ ς k) (clk : Clk) (m : Sys κ γ ς k) : Prop where
  tick : tick spec clk s = schedule spec (chooseQueue m) m
  mode : chooseMode m = m
  clock : m.ctrl.currClk = clk
  pending : m.ctrl.pendingQueue = (servePending { s with ctrl.currClk := clk }).ctrl.pendingQueue
  refresh : (¬ Due spec s clk ∧ Adds s m (fun _ => []) ∧
      m.ctrl.lastRefreshedClk = s.ctrl.lastRefreshedClk) ∨
    (Due spec s clk ∧ m.ctrl.lastRefreshedClk = clk ∧
      Adds s m fun n => if n = .misc then
        s.ctrl.channel.2.map fun rank => refreshAt spec s.ctrl.channel.node.id clk rank.node.id
        else [])

omit [DecidableEq γ] in
theorem servePending_adds : Adds s (servePending s) (fun _ => []) ∧
    (servePending s).ctrl.currClk = s.ctrl.currClk ∧
    (servePending s).ctrl.lastRefreshedClk = s.ctrl.lastRefreshedClk := by
  unfold servePending
  split
  · exact ⟨.refl, rfl, rfl⟩
  · split
    · split
      · exact ⟨.refl, rfl, rfl⟩
      · refine ⟨⟨fun n => (List.append_nil _).symm, fun _ => rfl, rfl, ?_, rfl⟩, rfl, rfl⟩
        rw [Sys.emit, issued_append]
        exact List.append_nil _
    · exact ⟨.refl, rfl, rfl⟩

omit [DecidableEq γ] in
theorem chooseMode_adds : Adds s (chooseMode s) (fun _ => []) ∧
    (chooseMode s).ctrl.currClk = s.ctrl.currClk ∧
    (chooseMode s).ctrl.lastRefreshedClk = s.ctrl.lastRefreshedClk ∧
    (chooseMode s).ctrl.pendingQueue = s.ctrl.pendingQueue := by
  have hset : ∀ mode, Adds s { s with ctrl.writePriorMode := mode } fun _ => [] := fun _ =>
    ⟨fun n => by cases n <;> exact (List.append_nil _).symm, fun n => by cases n <;> rfl,
      rfl, rfl, rfl⟩
  unfold chooseMode
  split
  · exact ⟨hset _, rfl, rfl, rfl⟩
  · exact ⟨hset _, rfl, rfl, rfl⟩
  · exact ⟨hset _, rfl, rfl, rfl⟩
  · exact ⟨.refl, rfl, rfl, rfl⟩

omit [DecidableEq γ] in
/-- The mode is chosen once. -/
theorem chooseMode_idem : chooseMode (chooseMode s) = chooseMode s := by
  cases hw : s.ctrl.writeQueue.queue <;> cases hr : s.ctrl.readQueue.queue <;>
    simp [chooseMode, hw, hr]

/-- **A tick comes to its command**, where the refreshes that are due have
room. -/
theorem tick_begun {clk : Clk} (hroom : Room spec s clk) : ∃ m, Begun spec s clk m := by
  have hstart : Adds s { s with ctrl.currClk := clk } fun _ => [] :=
    ⟨fun n => by cases n <;> exact (List.append_nil _).symm, fun n => by cases n <;> rfl,
      rfl, rfl, rfl⟩
  obtain ⟨hserve, hclk, hrefreshed⟩ := servePending_adds (s := { s with ctrl.currClk := clk })
  have hserved := hstart.trans hserve
  dsimp only at hclk hrefreshed
  by_cases hdue : Due spec s clk
  · have hdue' : (servePending { s with ctrl.currClk := clk }).ctrl.currClk -
        (servePending { s with ctrl.currClk := clk }).ctrl.lastRefreshedClk ≥
          UInt64.ofInt spec.nREFI := by
      rw [hclk, hrefreshed]
      exact hdue
    obtain ⟨u, hfold, hadds, huclk, hpending⟩ := refreshAll spec
      (servePending { s with ctrl.currClk := clk }).ctrl.channel.2
      (s := servePending { s with ctrl.currClk := clk }) (by
        rw [hserved.queue, hserved.bound, hserved.channel]
        simpa using hroom hdue)
    obtain ⟨hmode, hmclk, hmrefreshed, hmpending⟩ :=
      chooseMode_adds (s := { u with ctrl.lastRefreshedClk := u.ctrl.currClk })
    have hnoted : Adds u { u with ctrl.lastRefreshedClk := u.ctrl.currClk } fun _ => [] :=
      ⟨fun n => by cases n <;> exact (List.append_nil _).symm, fun n => by cases n <;> rfl,
        rfl, rfl, rfl⟩
    have hall := ((hserved.trans hadds).trans hnoted).trans hmode
    rw [hserved.channel, hclk] at hall
    refine ⟨_, ?_, chooseMode_idem, hmclk.trans (huclk.trans hclk), hmpending.trans hpending,
      .inr ⟨hdue, hmrefreshed.trans (huclk.trans hclk), ?_⟩⟩
    · rw [tick]
      simp only [issueRefresh_eq, if_pos hdue', hfold, ok_bind]
      rfl
    · refine ⟨fun n => (hall.queue n).trans (congrArg _ ?_), hall.bound, hall.channel,
        hall.commands, hall.mapper⟩
      simp
  · have hdue' : ¬ (servePending { s with ctrl.currClk := clk }).ctrl.currClk -
        (servePending { s with ctrl.currClk := clk }).ctrl.lastRefreshedClk ≥
          UInt64.ofInt spec.nREFI := by
      rw [hclk, hrefreshed]
      exact hdue
    obtain ⟨hmode, hmclk, hmrefreshed, hmpending⟩ :=
      chooseMode_adds (s := servePending { s with ctrl.currClk := clk })
    have hall := hserved.trans hmode
    refine ⟨_, ?_, chooseMode_idem, hmclk.trans hclk, hmpending,
      .inl ⟨hdue, ?_, hmrefreshed.trans hrefreshed⟩⟩
    · rw [tick]
      simp only [issueRefresh_eq, if_neg hdue']
      rfl
    · simpa using hall

/-- **A tick that succeeds had room** for the refreshes that were due. -/
theorem room_of_tick {clk : Clk} (hranks : s.ctrl.channel.2 ≠ [])
    (h : tick spec clk s = .ok u) : Room spec s clk := by
  intro hdue
  obtain ⟨hserve, hclk, hrefreshed⟩ := servePending_adds (s := { s with ctrl.currClk := clk })
  have hdue' : (servePending { s with ctrl.currClk := clk }).ctrl.currClk -
      (servePending { s with ctrl.currClk := clk }).ctrl.lastRefreshedClk ≥
        UInt64.ofInt spec.nREFI := by
    rw [hclk, hrefreshed]
    exact hdue
  rw [tick, issueRefresh_eq, if_pos hdue', bind_eq_ok] at h
  obtain ⟨v, hv, -⟩ := h
  obtain ⟨w, hfold, -⟩ := bind_eq_ok.mp hv
  have hroom := refreshAll_room (by rw [hserve.channel]; exact hranks) hfold
  rw [hserve.queue, hserve.bound, hserve.channel] at hroom
  -- setting the clock changes no queue
  have hmisc : ({ s with ctrl.currClk := clk } : Sys κ γ ς k).reqs .misc = s.reqs .misc := rfl
  have hbound : (({ s with ctrl.currClk := clk } : Sys κ γ ς k).ctrl.queue .misc).maxEntries =
      (s.ctrl.queue .misc).maxEntries := rfl
  rwa [List.append_nil, hmisc, hbound] at hroom

/-- What a tick adds are the refreshes of the ranks, where they are due. -/
theorem begun_adds {clk : Clk} {m : Sys κ γ ς k} (begun : Begun spec s clk m) : ∃ new, Adds s m new ∧
    (∀ n, ∀ r ∈ new n, n = .misc ∧ ∃ rank ∈ s.ctrl.channel.2,
      r = refreshAt spec s.ctrl.channel.node.id clk rank.node.id) ∧
    (new .misc).length ≤ s.ctrl.channel.2.length ∧ (¬ Due spec s clk → ∀ n, new n = []) := by
  rcases begun.refresh with ⟨-, hadds, -⟩ | ⟨hdue, -, hadds⟩
  · exact ⟨_, hadds, fun n r hr => absurd hr List.not_mem_nil, Nat.zero_le _, fun _ _ => rfl⟩
  · refine ⟨_, hadds, fun n r hr => ?_, ?_, fun hno => absurd hdue hno⟩
    · split at hr
      · rename_i hn
        obtain ⟨rank, hrank, rfl⟩ := List.mem_map.mp hr
        exact ⟨hn, rank, hrank, rfl⟩
      · exact absurd hr List.not_mem_nil
    · rw [if_pos rfl, List.length_map]

omit [DecidableEq γ] in
/-- A request that is issued leaves the clock of the last refresh. -/
theorem issueRequest_refreshed {request : Request κ} {b : Bool}
    (h : issueRequest request s = .ok (b, u)) :
    u.ctrl.lastRefreshedClk = s.ctrl.lastRefreshedClk := by
  simp only [issueRequest, bind_eq_ok, Prod.exists] at h
  obtain ⟨taken, queue, -, h⟩ := h
  split at h
  · exact (Prod.mk.inj (pure_eq_ok.mp h)).2 ▸ rfl
  · split at h <;> obtain ⟨-, rfl⟩ := Prod.mk.inj (pure_eq_ok.mp h) <;> simp [Sys.emit]

end Refresh

namespace Ddr4

/-! ## Which queue is turned to -/

/-- The queue the controller turns to: the activated row first, then the
refreshes, then the older column; an empty one only where all are. -/
structure TurnsTo (s : Memory κ) (name : QueueName) : Prop where
  act : name ≠ .act → s.reqs .act = []
  misc : name ≠ .act → name ≠ .misc → s.reqs .misc = []
  column : s.reqs name ≠ [] → name = .act ∨ name = .misc ∨ name = columnName s
  idle : s.reqs name = [] → ∀ n, s.reqs n = []

theorem turnsTo {s : Memory κ} (hmode : chooseMode s = s) : TurnsTo s (chooseQueue s) := by
  have hsize : ∀ {q : RequestQueue (Request κ)}, q.size = true ↔ q.queue ≠ [] := by
    intro q
    simp [RequestQueue.size]
  unfold chooseQueue
  split
  · rename_i hact
    rw [hsize] at hact
    exact ⟨fun h => absurd rfl h, fun h => absurd rfl h, fun _ => .inl rfl, fun h => absurd h hact⟩
  rename_i hact
  have hact : s.reqs .act = [] := size_eq_false hact
  split
  · rename_i hmisc
    rw [hsize] at hmisc
    exact ⟨fun _ => hact, fun _ h => absurd rfl h, fun _ => .inr (.inl rfl),
      fun h => absurd h hmisc⟩
  rename_i hmisc
  have hmisc : s.reqs .misc = [] := size_eq_false hmisc
  have hwrites : s.ctrl.writeQueue.queue = s.reqs .write := rfl
  have hreads : s.ctrl.readQueue.queue = s.reqs .read := rfl
  have hflag := congrArg (fun u : Memory κ => u.ctrl.writePriorMode) hmode
  simp only [chooseMode, hwrites, hreads] at hflag
  -- the mode says which column is older
  cases hw : s.reqs .write with
  | nil =>
      cases hr : s.reqs .read with
      | nil =>
          have hall : ∀ n, s.reqs n = [] := by
            intro n
            cases n <;> assumption
          split <;>
            exact ⟨fun _ => hact, fun _ _ => hmisc, fun h => absurd (hall _) h, fun _ => hall⟩
      | cons r rs =>
          rw [hw, hr] at hflag
          rw [if_neg (by simpa using hflag.symm)]
          exact ⟨fun _ => hact, fun _ _ => hmisc,
            fun _ => .inr (.inr (by rw [columnName, hw])), fun h => by rw [hr] at h; cases h⟩
  | cons w ws =>
      cases hr : s.reqs .read with
      | nil =>
          rw [hw, hr] at hflag
          rw [if_pos hflag.symm]
          exact ⟨fun _ => hact, fun _ _ => hmisc,
            fun _ => .inr (.inr (by rw [columnName, hw, hr])), fun h => by rw [hw] at h; cases h⟩
      | cons r rs =>
          rw [hw, hr] at hflag
          have hname : columnName s = if w.arrive < r.arrive then .write else .read := by
            rw [columnName, hw, hr]
          split
          · rename_i hwrite
            rw [hwrite] at hflag
            refine ⟨fun _ => hact, fun _ _ => hmisc, fun _ => .inr (.inr ?_),
              fun h => by rw [hw] at h; cases h⟩
            rw [hname, if_pos (by simpa using hflag)]
          · rename_i hwrite
            rw [Bool.not_eq_true] at hwrite
            rw [hwrite] at hflag
            refine ⟨fun _ => hact, fun _ _ => hmisc, fun _ => .inr (.inr ?_),
              fun h => by rw [hr] at h; cases h⟩
            rw [hname, if_neg (by simpa using hflag)]

/-! ## Places in the tree -/

/-- **What is requested is in the tree**: below each node there are as
many as the counts say, and the requests are for places among them. -/
structure Placed (o : Organization) (t : Timing) (s : Memory κ) : Prop where
  rank : 0 < o.rank
  group : 0 < o.bankGroup
  bank : 0 < o.bank
  sized : Sized (spec o t) 3 0 s.ctrl.channel
  ranks : s.ctrl.channel.2.map (fun rank => rank.node.id) = List.range o.rank
  mapped : ∀ a x, s.mapper.map a = .ok x → InRange (spec o t) 3 0 x
  inRange : ∀ name, ∀ req ∈ s.reqs name, InRange (spec o t) 3 0 req.mappedAddr

section Placed

variable {o : Organization} {t : Timing} {s u : Memory κ} {name : QueueName} {req : Request κ}
  {rest : List (Request κ)} {cmd : Command} {clk : Clk}

/-- What is queued after a command was queued before it, but for the
mark. -/
theorem mem_of_issues (h : Issues (spec o t) s u name req rest cmd) {n : QueueName} {r : Request κ}
    (hr : r ∈ u.reqs n) : ∃ n', ∃ r' ∈ s.reqs n', r = r' ∨ r = marked r' := by
  have hreq : req ∈ s.reqs name := h.front ▸ List.mem_cons_self
  have hrest : ∀ r ∈ rest, r ∈ s.reqs name := fun r hr => h.front ▸ List.mem_cons_of_mem _ hr
  rw [h.queue] at hr
  rcases List.mem_append.mp hr with hr | hr
  · split at hr
    · split at hr
      · exact ⟨name, r, hrest r hr, .inl rfl⟩
      · rcases List.mem_cons.mp hr with rfl | hr
        · exact ⟨name, req, hreq, .inr rfl⟩
        · exact ⟨name, r, hrest r hr, .inl rfl⟩
    · exact ⟨n, r, hr, .inl rfl⟩
  · split at hr
    · exact ⟨name, req, hreq, .inr (List.mem_singleton.mp hr)⟩
    · exact absurd hr List.not_mem_nil

/-- The ranks keep their numbers. -/
theorem ranks_update {d d' : Dram Command State 3} {addr : MappedAddr} {clk : Clk}
    (h : update (spec o t) cmd addr clk 3 d = .ok d') :
    d'.2.map (fun rank => rank.node.id) = d.2.map (fun rank => rank.node.id) := by
  simp only [update, bind_eq_ok, pure_eq_ok] at h
  obtain ⟨v, hv, rfl⟩ := h
  have hsame := updateState_sameTiming hv
  have hids : ∀ {as bs : List (Dram Command State 2)}, List.Forall₂ SameTiming as bs →
      as.map (fun rank => rank.node.id) = bs.map (fun rank => rank.node.id) := by
    intro as bs hall
    induction hall with
    | nil => rfl
    | cons hhead _ ih => rw [List.map_cons, List.map_cons, ih, hhead.id_eq]
  rw [← hids hsame.2]
  unfold updateTiming
  split
  · rfl
  · rw [List.map_map]
    exact List.map_congr_left fun rank _ => updateTiming_id

namespace Placed

theorem new {cfg : Config} (h : Sys.new (spec o t) 2 cfg = .ok s) : Placed o t s := by
  simp only [Sys.new, bind_eq_ok] at h
  obtain ⟨mapper, hmapper, h⟩ := h
  split at h
  · simp only [bind_eq_ok, throw_ne_ok, false_and, exists_false] at h
  · obtain rfl := pure_eq_ok.mp h
    have hcount := (Mapping.new_count hmapper).1
    refine ⟨hcount 1 (by decide), hcount 2 (by decide), hcount 3 (by decide), .new,
      ?_, fun a x hx => Mapping.map_inRange hmapper hx, fun n req hreq => ?_⟩
    · simp only [Dram.new, List.map_map]
      exact List.map_id _
    · cases n <;> exact absurd hreq List.not_mem_nil

/-- Requests for places in the tree are added. -/
theorem adds {new : QueueName → List (Request κ)} (h : Placed o t s) (hadds : Adds s u new)
    (hnew : ∀ n, ∀ r ∈ new n, InRange (spec o t) 3 0 r.mappedAddr) : Placed o t u := by
  refine ⟨h.rank, h.group, h.bank, hadds.channel ▸ h.sized, hadds.channel ▸ h.ranks,
    hadds.mapper ▸ h.mapped, fun n r hr => ?_⟩
  rw [hadds.queue] at hr
  rcases List.mem_append.mp hr with hr | hr
  · exact h.inRange n r hr
  · exact hnew n r hr

theorem ranks_ne (h : Placed o t s) : s.ctrl.channel.2 ≠ [] := by
  intro hnil
  have hlen := congrArg List.length h.ranks
  rw [List.length_map, hnil, List.length_range] at hlen
  exact h.rank.ne hlen

/-- The refreshes of the ranks are for places in the tree. -/
theorem refresh_inRange (h : Placed o t s) {rank : Dram Command State 2}
    (hrank : rank ∈ s.ctrl.channel.2) : InRange (spec o t) 3 0
      (refreshAt (κ := κ) (spec o t) s.ctrl.channel.node.id clk rank.node.id).mappedAddr := by
  have hid : rank.node.id ∈ List.range o.rank := by
    rw [← h.ranks]
    exact List.mem_map_of_mem hrank
  exact refreshRequest_inRange (κ := κ) (List.mem_range.mp hid) h.group h.bank

/-- **A command leaves the places.** -/
theorem issue (h : Placed o t s) (hissues : Issues (spec o t) s u name req rest cmd) :
    Placed o t u := by
  refine ⟨h.rank, h.group, h.bank, ?_, (ranks_update hissues.updated).trans h.ranks,
    hissues.mapper ▸ h.mapped, fun n r hr => ?_⟩
  · have hupdated := hissues.updated
    simp only [update, bind_eq_ok, pure_eq_ok] at hupdated
    obtain ⟨d, hd, hchannel⟩ := hupdated
    rw [← hchannel]
    exact (h.sized.congr (updateState_sameTiming hd)).updateTiming
  · obtain ⟨n', r', hr', rfl | rfl⟩ := mem_of_issues hissues hr
    · exact h.inRange n' r hr'
    · exact h.inRange n' r' hr'

/-- **What the controller comes to when it turns to a queue**: it issues
the command the front needs next, unless a check does not let it through
or there is nothing to do. -/
theorem schedule_yields (sch : Scheduled s) (h : Placed o t s) (name : QueueName) :
    ∃ u, schedule (spec o t) name s = .ok u ∧
      ((u = s ∧ (s.reqs name = [] ∨ ∃ req ∈ s.reqs name,
        check (spec o t) (nextCmd (rowsOf s) req) req.mappedAddr s.ctrl.currClk 3 0
          s.ctrl.channel = .ok false)) ∨
      ∃ req rest, Issues (spec o t) s u name req rest (nextCmd (rowsOf s) req)) := by
  cases hfront : s.reqs name with
  | nil =>
      have hnil : (s.ctrl.queue name).queue = [] := hfront
      refine ⟨s, ?_, .inl ⟨rfl, .inl rfl⟩⟩
      unfold schedule
      rw [hnil]
      rfl
  | cons req rest =>
      have hmem : req ∈ s.reqs name := hfront ▸ List.mem_cons_self
      have hin := h.inRange name req hmem
      have htype : req.type = .read ∨ req.type = .write ∨ req.type = .refresh := by
        have hholds := sch.types name req hmem
        cases name <;> simp only [holds] at hholds <;> tauto
      have hfirst := firstCmd_eq sch h.sized hin htype
      obtain ⟨ready, hcheck⟩ : ∃ ready, check (spec o t) (nextCmd (rowsOf s) req) req.mappedAddr
          s.ctrl.currClk 3 0 s.ctrl.channel = .ok ready := h.sized.check hin
      cases ready with
      | true =>
          obtain ⟨d, hd, -⟩ : ∃ d, updateState (spec o t) (nextCmd (rowsOf s) req) req.mappedAddr
              3 0 s.ctrl.channel = .ok d ∧ _ := h.sized.updateState hin
          obtain ⟨u, hu, hissues⟩ := schedule_issues hfront hfirst hcheck ⟨d, hd⟩
          exact ⟨u, hu, .inr ⟨req, rest, hissues⟩⟩
      | false =>
          have hready : isReady (spec o t) req s = .ok false := by
            rw [isReady, hfirst, ok_bind]
            exact hcheck
          have hfront' : (s.ctrl.queue name).queue = req :: rest := hfront
          refine ⟨s, ?_, .inl ⟨rfl, .inr ⟨req, List.mem_cons_self, hcheck⟩⟩⟩
          unfold schedule
          rw [hfront']
          simp only [hready, ok_bind]
          rfl

end Placed

/-- A tick comes to its command with the queues the scheduler's. -/
theorem Scheduled.begun {m : Memory κ} (sch : Scheduled s) (begun : Begun (spec o t) s clk m) :
    Scheduled m := by
  obtain ⟨new, hadds, hnew, -⟩ := begun_adds begun
  refine sch.quiet hadds.channel hadds.commands ?_ fun n r hr => ?_
  · have hnil : new .act = [] :=
      List.eq_nil_iff_forall_not_mem.mpr fun r hr => by cases (hnew _ r hr).1
    rw [hadds.queue, hnil, List.append_nil]
  · rw [hadds.queue] at hr
    rcases List.mem_append.mp hr with hr | hr
    · exact sch.types n r hr
    · obtain ⟨rfl, rank, -, rfl⟩ := hnew n r hr
      rfl

end Placed

/-! ## Queues in order -/

/-- **What the queues and the tree keep**: the requests are for places in
the tree, and are held in the order they came in; and the tree is ready
again `longest` clocks after the last command. -/
structure Orderly (o : Organization) (t : Timing) (longest size last : ℕ) (s : Memory κ) : Prop
    extends Placed o t s where
  mapper : ∀ a, ∃ x, s.mapper.map a = .ok x
  length : ∀ name, (s.reqs name).length ≤ size
  bound : ∀ name, (s.ctrl.queue name).maxEntries = size
  settled : Settled (spec o t) longest last 3 0 s.ctrl.channel
  past : last ≤ s.now
  came : ∀ name, ∀ req ∈ s.reqs name, req.arrive.toInt ≤ s.now
  sorted : ∀ name, name = .read ∨ name = .write →
    (s.reqs name).Pairwise fun req later => req.arrive.toInt ≤ later.arrive.toInt

section Orderly

variable {o : Organization} {t : Timing} {longest size last : ℕ} {s u : Memory κ} {name : QueueName}
  {req : Request κ} {rest : List (Request κ)} {cmd : Command}

/-- A clock that is positive as a signed number is the same number. -/
theorem toInt_toInt64 {clk : Clk} (h : clk.toNat < 2 ^ 63) : clk.toInt64.toInt = clk.toNat := by
  have hint : clk.toInt64.toInt = clk.toBitVec.toInt := rfl
  have hnat : clk.toBitVec.toNat = clk.toNat := rfl
  rw [hint, BitVec.toInt_eq_toNat_of_lt (by rw [hnat]; omega), hnat]

namespace Orderly

/-- Requests are added, in order, at the clock. -/
theorem adds {new : QueueName → List (Request κ)} (h : Orderly o t longest size last s)
    (hadds : Adds s u new) (hclk : s.now ≤ u.now)
    (hnew : ∀ n, ∀ r ∈ new n, InRange (spec o t) 3 0 r.mappedAddr ∧ r.arrive.toInt = u.now)
    (hroom : ∀ n, (s.reqs n).length + (new n).length ≤ size) :
    Orderly o t longest size last u := by
  have hcame : ∀ n, ∀ r ∈ s.reqs n, r.arrive.toInt ≤ u.now := fun n r hr => by
    have hle := h.came n r hr
    omega
  refine ⟨h.toPlaced.adds hadds fun n r hr => (hnew n r hr).1, hadds.mapper ▸ h.mapper,
    fun n => ?_, fun n => (hadds.bound n).trans (h.bound n),
    hadds.channel ▸ h.settled, h.past.trans hclk, fun n r hr => ?_, fun n hn => ?_⟩
  · rw [hadds.queue, List.length_append]
    exact hroom n
  · rw [hadds.queue] at hr
    rcases List.mem_append.mp hr with hr | hr
    · exact hcame n r hr
    · exact (hnew n r hr).2.le
  · rw [hadds.queue]
    refine List.pairwise_append.mpr ⟨h.sorted n hn, ?_, fun r hr r' hr' => ?_⟩
    · refine List.pairwise_of_forall_mem_list fun r hr r' hr' => ?_
      rw [(hnew n r hr).2, (hnew n r' hr').2]
    · rw [(hnew n r' hr').2]
      exact hcame n r hr

/-- **A command keeps the order.** -/
theorem issue (h : Orderly o t longest size last s)
    (hissues : Issues (spec o t) s u name req rest cmd) (turn : TurnsTo s name)
    (hsingle : (s.reqs .act).length ≤ 1)
    (hproper : (spec o t).Proper 3) (hlongest : (spec o t).Longest 3 longest)
    (hlong : longest < 2 ^ 64) : Orderly o t longest size u.now u := by
  have hnow : u.now = s.now := congrArg UInt64.toNat hissues.clock
  have hlen : ∀ n, (u.reqs n).length ≤ size := by
    intro n
    have hold := h.length n
    have hfront := h.length name
    rw [hissues.front, List.length_cons] at hfront
    rw [hissues.queue n]
    by_cases hn : n = .act
    · -- at the activation queue there is one request, before and after
      subst hn
      have hone : ((if QueueName.act = name then (if (spec o t).ends cmd || (spec o t).isOpening cmd
          then rest else marked req :: rest) else s.reqs .act) ++
          if QueueName.act = .act ∧ (spec o t).ends cmd = false ∧ (spec o t).isOpening cmd = true
          then [marked req] else []).length ≤ 1 := by
        by_cases hname : QueueName.act = name
        · subst hname
          rw [hissues.front, List.length_cons] at hsingle
          obtain rfl : rest = [] := List.length_eq_zero_iff.mp (by omega)
          cases (spec o t).ends cmd <;> cases (spec o t).isOpening cmd <;> simp
        · rw [if_neg hname, turn.act (Ne.symm hname)]
          split <;> simp
      omega
    · have hnone : (if n = .act ∧ (spec o t).ends cmd = false ∧ (spec o t).isOpening cmd = true
          then [marked req] else []) = [] := if_neg fun hact => hn hact.1
      rw [hnone, List.append_nil]
      split
      · split
        · omega
        · exact hfront
      · exact hold
  refine ⟨h.toPlaced.issue hissues, hissues.mapper ▸ h.mapper, hlen,
    fun n => (hissues.bound n).trans (h.bound n), ?_, le_rfl, fun n r hr => ?_, fun n hn => ?_⟩
  · rw [hnow]
    exact h.settled.update hproper hlongest hlong h.past hissues.updated
  · rw [hnow]
    obtain ⟨n', r', hr', rfl | rfl⟩ := mem_of_issues hissues hr
    · exact h.came n' r hr'
    · exact h.came n' r' hr'
  · have hne : n ≠ .act := by rcases hn with rfl | rfl <;> decide
    have hold := h.sorted n hn
    have hnone : (if n = .act ∧ (spec o t).ends cmd = false ∧ (spec o t).isOpening cmd = true
        then [marked req] else []) = [] := if_neg fun hact => hne hact.1
    rw [hissues.queue, hnone, List.append_nil]
    split
    · rename_i hname
      rw [hname, hissues.front] at hold
      split
      · exact (List.pairwise_cons.mp hold).2
      · exact List.pairwise_cons.mpr (List.pairwise_cons.mp hold)
    · exact hold

end Orderly

/-- **What the controller comes to when it turns to a queue**: it issues
the command the front needs next, unless a delay has not passed or there
is nothing to do. -/
theorem schedule_outcome (sch : Scheduled s) (ord : Orderly o t longest size last s)
    (turn : TurnsTo s name) : ∃ u, schedule (spec o t) name s = .ok u ∧
      ((u = s ∧ ((∀ n, s.reqs n = []) ∨ s.now < last + longest)) ∨
        ∃ req rest cmd, Issues (spec o t) s u name req rest cmd ∧
          cmd = nextCmd (rowsOf s) req) := by
  obtain ⟨u, hu, ⟨hsame, hidle⟩ | ⟨req, rest, hissues⟩⟩ := ord.toPlaced.schedule_yields sch name
  · refine ⟨u, hu, .inl ⟨hsame, ?_⟩⟩
    rcases hidle with hnil | ⟨req, hmem, hcheck⟩
    · exact .inl (turn.idle hnil)
    · -- a tree whose delays have passed would have let it through
      refine .inr ?_
      by_contra hlate
      have htrue : check (spec o t) (nextCmd (rowsOf s) req) req.mappedAddr s.ctrl.currClk 3 0
          s.ctrl.channel = .ok true :=
        ord.settled.check (Nat.not_lt.mp hlate) ord.sized (ord.inRange name req hmem)
      cases hcheck.symm.trans htrue
  · exact ⟨u, hu, .inr ⟨req, rest, _, hissues, rfl⟩⟩

/-! ## The columns that came by a clock -/

/-- No column is queued that came by the clock. -/
def Quiet (a : ℤ) (s : Memory κ) : Prop :=
  ∀ n, ∀ req ∈ s.reqs n, req.type ≠ .refresh → a < req.arrive.toInt

variable {a : ℤ}

theorem Quiet.issues (h : Quiet a s) (hissues : Issues (spec o t) s u name req rest cmd) :
    Quiet a u := by
  intro n r hr htype
  obtain ⟨n', r', hr', rfl | rfl⟩ := mem_of_issues hissues hr
  · exact h n' r hr' htype
  · exact h n' r' hr' htype

theorem Quiet.adds {new : QueueName → List (Request κ)} (h : Quiet a s) (hadds : Adds s u new)
    (hnew : ∀ n, ∀ r ∈ new n, r.type ≠ .refresh → a < r.arrive.toInt) : Quiet a u := by
  intro n r hr htype
  rw [hadds.queue] at hr
  rcases List.mem_append.mp hr with hr | hr
  · exact h n r hr htype
  · exact hnew n r hr htype

/-- **The front is the oldest.** -/
theorem front_older (ord : Orderly o t longest size last s) (h : 0 < olderCount a s) :
    ∃ req rest, s.reqs (columnName s) = req :: rest ∧ req.arrive.toInt ≤ a := by
  have hhead : ∀ {name}, name = .read ∨ name = .write → 0 < (cameBy a (s.reqs name)).length →
      ∃ req rest, s.reqs name = req :: rest ∧ req.arrive.toInt ≤ a := by
    intro name hname hpos
    obtain ⟨r, hr⟩ := List.exists_mem_of_length_pos hpos
    obtain ⟨hmem, hle⟩ := List.mem_filter.mp hr
    have hsorted := ord.sorted name hname
    cases hq : s.reqs name with
    | nil =>
        rw [hq] at hmem
        exact absurd hmem List.not_mem_nil
    | cons req rest =>
        rw [hq] at hmem hsorted
        refine ⟨req, rest, rfl, ?_⟩
        rcases List.mem_cons.mp hmem with rfl | hmem
        · exact of_decide_eq_true hle
        · exact ((List.pairwise_cons.mp hsorted).1 r hmem).trans (of_decide_eq_true hle)
  rw [olderCount] at h
  unfold columnName
  split
  · rename_i w ws r rs hw hr
    split
    · rename_i hlt
      refine ⟨w, ws, hw, ?_⟩
      rw [Int64.lt_iff_toInt_lt] at hlt
      by_cases hread : 0 < (cameBy a (s.reqs .read)).length
      · obtain ⟨r', rs', hr', hle⟩ := hhead (.inl rfl) hread
        obtain ⟨rfl, -⟩ := List.cons.inj (hr.symm.trans hr')
        omega
      · obtain ⟨w', ws', hw', hle⟩ := hhead (.inr rfl) (by omega)
        obtain ⟨rfl, -⟩ := List.cons.inj (hw.symm.trans hw')
        exact hle
    · rename_i hlt
      refine ⟨r, rs, hr, ?_⟩
      rw [Int64.lt_iff_toInt_lt] at hlt
      by_cases hread : 0 < (cameBy a (s.reqs .read)).length
      · obtain ⟨r', rs', hr', hle⟩ := hhead (.inl rfl) hread
        obtain ⟨rfl, -⟩ := List.cons.inj (hr.symm.trans hr')
        exact hle
      · obtain ⟨w', ws', hw', hle⟩ := hhead (.inr rfl) (by omega)
        obtain ⟨rfl, -⟩ := List.cons.inj (hw.symm.trans hw')
        omega
  · rename_i w ws hw hr
    exact hhead (.inr rfl) (by rw [hr] at h; simpa [cameBy] using h)
  · rename_i hw
    exact hhead (.inl rfl) (by rw [hw] at h; simpa [cameBy] using h)

/-- **A command shrinks what is still to be issued**, for the refreshes
when it is turned to them, and for the columns that came by any clock. -/
theorem issue_shrinks (sch : Scheduled s) (ord : Orderly o t longest size last s)
    (turn : TurnsTo s name) (hissues : Issues (spec o t) s u name req rest cmd)
    (hnext : cmd = nextCmd (rowsOf s) req) :
    (s.reqs .misc ≠ [] → urgentWork u + 1 ≤ urgentWork s) ∧
      (Quiet a s ∨ urgentWork u + columnWork a u + 1 ≤ urgentWork s + columnWork a s) := by
  by_cases hact : name = .act
  · subst hact
    obtain ⟨hurgent, hcolumn⟩ := act_work (a := a) hissues sch hnext
    exact ⟨fun _ => hurgent, .inr (by omega)⟩
  by_cases hmisc : name = .misc
  · subst hmisc
    obtain ⟨hurgent, hwork⟩ := misc_work (a := a) hissues sch (turn.act hact) hnext
    exact ⟨fun _ => hurgent, .inr hwork⟩
  -- a column is turned to where no refresh is queued
  refine ⟨fun hne => absurd (turn.misc hact hmisc) hne, ?_⟩
  obtain rfl : name = columnName s := by
    rcases turn.column (by rw [hissues.front]; simp) with h | h | h
    · exact absurd h hact
    · exact absurd h hmisc
    · exact h
  by_cases hle : req.arrive.toInt ≤ a
  · exact .inr (column_work hissues sch (turn.act hact) (turn.misc hact hmisc) hnext hle)
  · -- the front is the oldest, so none came by the clock
    refine .inl fun n r hr htype => ?_
    by_contra hlt
    have hname : n = .read ∨ n = .write := by
      cases n with
      | act => rw [turn.act hact] at hr; exact absurd hr List.not_mem_nil
      | misc => exact absurd (sch.types .misc r hr) htype
      | read => exact .inl rfl
      | write => exact .inr rfl
    have hmem : r ∈ cameBy a (s.reqs n) := List.mem_filter.mpr ⟨hr, decide_eq_true (not_lt.mp hlt)⟩
    have hpos : 0 < olderCount a s := by
      have hlen := List.length_pos_of_mem hmem
      rcases hname with rfl | rfl <;> rw [olderCount] <;> omega
    obtain ⟨req', rest', hfront, hold⟩ := front_older ord hpos
    obtain ⟨rfl, -⟩ := List.cons.inj (hissues.front.symm.trans hfront)
    exact hle hold

end Orderly

end Ddr4

end Dram

end Vans
