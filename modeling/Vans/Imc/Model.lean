import Vans.Model.Component
/-!
# The iMC

The integrated memory controller: a queue of pending reads and one of
pending writes, merged again in front of the components below. Reads
leave one a tick; writes leave together, when their queue is full and
at the end of each ADR epoch.

The flush loop asks the component below again for as long as it is not
full and refuses, so a flush need not end. It runs for as many rounds
as it is given, and has failed when they are used up; every statement
holds for any number of rounds.
-/

namespace Vans

namespace Imc

structure Config where
  mappingFunc : ComponentMapping
  wpqEntries : ℕ
  rpqEntries : ℕ
  adrEpoch : Clk

structure Controller (κ : Type) where
  mappingFunc : ComponentMapping
  wpq : RequestQueue (BaseRequest κ)
  rpq : RequestQueue (BaseRequest κ)
  imcCurrClk : Clk := 0
  adrEpoch : Clk
  isDraining : Bool := false

/-- What the controller is seen to do. -/
inductive Obs (κ : Type) where
  /-- A request enters its queue. -/
  | accepted (req : BaseRequest κ)
  /-- A component below takes a request, given to it with this address. -/
  | handed (type : BaseRequestType) (component : ℕ) (addr : Addr)
  /-- The read at the front is tried, and stays. -/
  | heldBack
  /-- A callback is run. -/
  | ran (inv : Invocation κ)
  deriving DecidableEq, Repr

structure Sys (κ σ : Type) where
  ctrl : Controller κ
  next : List σ
  log : List (Obs κ) := []

variable {κ σ : Type}

def Sys.init (cfg : Config) (next : List σ) : Sys κ σ where
  ctrl :=
    { mappingFunc := cfg.mappingFunc
      wpq := { maxEntries := cfg.wpqEntries }
      rpq := { maxEntries := cfg.rpqEntries }
      adrEpoch := cfg.adrEpoch }
  next := next

def issueRequest (request : BaseRequest κ) (s : Sys κ σ) : Result (BaseResponse × Sys κ σ) :=
  match request.type with
  | .read => do
      let (success, rpq) ← s.ctrl.rpq.enqueue request
      return (⟨success, false, clkInvalid⟩,
        if success then { s with ctrl.rpq := rpq, log := s.log ++ [.accepted request] } else s)
  | .write => do
      let (success, wpq) ← s.ctrl.wpq.enqueue request
      return (⟨success, false, clkInvalid⟩,
        if success then { s with ctrl.wpq := wpq, log := s.log ++ [.accepted request] } else s)

/-- The loop of `flush_wpq`. -/
def flushWpq (C : Component κ σ) : ℕ → Sys κ σ → Result (Sys κ σ)
  | 0, _ => throw "flush_wpq does not end"
  | rounds + 1, s =>
    match s.ctrl.wpq.queue with
    | [] => pure s
    | req :: rest =>
      if (s.ctrl.rpq.queue.head?.any fun r => r.arrive < req.arrive) then pure s
      else do
        let (_, component) := s.ctrl.mappingFunc req.addr s.next.length
        if ← C.fullAt s.next component then pure s
        else do
          let (resp, req', next) ← C.issueTo s.next component req
          if resp.issued then
            flushWpq C rounds { s with
              ctrl.wpq.queue := rest
              next := next
              log := s.log ++ .handed .write component req.addr ::
                (invoke req'.callback req'.addr s.ctrl.imcCurrClk).map Obs.ran }
          else
            flushWpq C rounds { s with ctrl.wpq.queue := req' :: rest, next := next }

def adr (C : Component κ σ) (rounds : ℕ) (s : Sys κ σ) : Result (Sys κ σ) :=
  if s.ctrl.adrEpoch ≠ 0 then
    if (s.ctrl.imcCurrClk + 1) % s.ctrl.adrEpoch = 0 then flushWpq C rounds s else pure s
  else pure s

/-- The queue a tick serves: first come, first served. -/
def queueToTick (s : Sys κ σ) : Option BaseRequestType :=
  match s.ctrl.rpq.queue, s.ctrl.wpq.queue with
  | [], [] => none
  | [], _ :: _ => some .write
  | _ :: _, [] => some .read
  | r :: _, w :: _ => if r.arrive < w.arrive then some .read else some .write

/-- The read branch of the tick. -/
def tickRead (C : Component κ σ) (s : Sys κ σ) : Result (Sys κ σ) :=
  match s.ctrl.rpq.queue with
  | [] => throw "undefined behaviour: front() of an empty rpq"
  | req :: rest => do
      let (nextAddr, component) := s.ctrl.mappingFunc req.addr s.next.length
      let req := { req with addr := nextAddr }
      if ← C.fullAt s.next component then
        return { s with ctrl.rpq.queue := req :: rest, log := s.log ++ [.heldBack] }
      else
        let (resp, req, next) ← C.issueTo s.next component req
        if resp.issued then
          return { s with
            ctrl.rpq.queue := rest
            next := next
            log := s.log ++ [.handed .read component nextAddr] }
        else
          return { s with
            ctrl.rpq.queue := req :: rest
            next := next
            log := s.log ++ [.heldBack] }

/-- The queue chosen is served. -/
def tickQueue (C : Component κ σ) (rounds : ℕ) (s : Sys κ σ) : Result (Sys κ σ) :=
  match queueToTick s with
  | some .read => tickRead C s
  | some .write => do
      if ← s.ctrl.wpq.full then flushWpq C rounds s else pure s
  | none => pure s

def tick (C : Component κ σ) (rounds : ℕ) (currClk : Clk) (s : Sys κ σ) : Result (Sys κ σ) := do
  let s ← tickQueue C rounds { s with ctrl.imcCurrClk := currClk }
  if !s.ctrl.wpq.empty then adr C rounds s else pure s

/-! ## What the iMC offers its parent -/

def pendingCurrent (s : Sys κ σ) : Bool := s.ctrl.wpq.pending || s.ctrl.rpq.pending

/-- Full when both queues are. -/
def full (s : Sys κ σ) : Result Bool := do
  if ← s.ctrl.wpq.full then s.ctrl.rpq.full else pure false

def drain (C : Component κ σ) (s : Sys κ σ) : Result (Sys κ σ) := do
  if s.ctrl.isDraining then
    throw "Internal error, should not call drain() twice."
  let next ← s.next.mapM C.drain
  return { s with ctrl.isDraining := true, next := next }

def ranInvocation : Obs κ → Option (Invocation κ)
  | .ran inv => some inv
  | _ => none

/-- The component over its children: the controller ticks, then they do.
The callbacks of the requests below are the requests' own. -/
def component (rounds : ℕ) (C : Component κ σ) : Component κ (Sys κ σ) where
  issueRequest := fun req s => do
    let (resp, s) ← issueRequest req s
    return (resp, req, s)
  full := full
  pending := fun s => pendingCurrent s || s.next.any C.pending
  drain := drain C
  tick := fun visit currClk s => do
    let s' ← tick C rounds currClk s
    let (next, ran) ← C.tickNext visit currClk s'.next
    return ({ s' with next := next },
      (s'.log.drop s.log.length).filterMap ranInvocation ++ ran)

/-! ## Runs of the controller -/

/-- The calls the controller receives, and changes of a component below. -/
inductive Event (κ σ : Type) where
  | issueRequest (req : BaseRequest κ)
  | tick (currClk : Clk)
  | child (i : ℕ) (state : σ)

def machine (rounds : ℕ) (C : Component κ σ) : Machine (Sys κ σ) (Event κ σ) String where
  step := fun s ev =>
    match ev with
    | .issueRequest req => do
        let (_, s) ← issueRequest req s
        return s
    | .tick currClk => tick C rounds currClk s
    | .child i state => pure { s with next := s.next.set i state }

/-! ## What a step can do -/

/-- Reads are served: no write waits, or the read came before the first
of them. -/
def ReadsFirst (s : Sys κ σ) (req : BaseRequest κ) : Prop :=
  ∀ w ∈ s.ctrl.wpq.queue.head?, req.arrive < w.arrive

/-- Writes are served: the first read did not come before the write. -/
def WritesFirst (s : Sys κ σ) (req : BaseRequest κ) : Prop :=
  ∀ r ∈ s.ctrl.rpq.queue.head?, ¬ r.arrive < req.arrive

/-- **What a tick of the controller does**: it takes no request, and the
components below change only by what they are asked. -/
inductive Hands (C : Component κ σ) (s : Sys κ σ) : Sys κ σ → Prop
  | clock {clk : Clk} : Hands C s { s with ctrl.imcCurrClk := clk }
  /-- The component of the read at the front is full. -/
  | holdRead {req : BaseRequest κ} {rest : List (BaseRequest κ)}
      (hq : s.ctrl.rpq.queue = req :: rest)
      (hfull : C.fullAt s.next (s.ctrl.mappingFunc req.addr s.next.length).2 = .ok true) :
      Hands C s
        { s with
          ctrl.rpq.queue :=
            { req with addr := (s.ctrl.mappingFunc req.addr s.next.length).1 } :: rest
          log := s.log ++ [.heldBack] }
  /-- The component refuses the read, with room for it. -/
  | refuseRead {req req' : BaseRequest κ} {rest : List (BaseRequest κ)} {resp : BaseResponse}
      {next : List σ} (hq : s.ctrl.rpq.queue = req :: rest)
      (hfull : C.fullAt s.next (s.ctrl.mappingFunc req.addr s.next.length).2 = .ok false)
      (hissue : C.issueTo s.next (s.ctrl.mappingFunc req.addr s.next.length).2
        { req with addr := (s.ctrl.mappingFunc req.addr s.next.length).1 } = .ok (resp, req', next))
      (hno : resp.issued = false) :
      Hands C s
        { s with
          ctrl.rpq.queue := req' :: rest
          next := next
          log := s.log ++ [.heldBack] }
  | handRead {req req' : BaseRequest κ} {rest : List (BaseRequest κ)} {resp : BaseResponse}
      {next : List σ} (hq : s.ctrl.rpq.queue = req :: rest) (hfirst : ReadsFirst s req)
      (hissue : C.issueTo s.next (s.ctrl.mappingFunc req.addr s.next.length).2
        { req with addr := (s.ctrl.mappingFunc req.addr s.next.length).1 } = .ok (resp, req', next))
      (hyes : resp.issued = true) :
      Hands C s
        { s with
          ctrl.rpq.queue := rest
          next := next
          log := s.log ++ [.handed .read (s.ctrl.mappingFunc req.addr s.next.length).2
            (s.ctrl.mappingFunc req.addr s.next.length).1] }
  | refuseWrite {req req' : BaseRequest κ} {rest : List (BaseRequest κ)} {resp : BaseResponse}
      {next : List σ} (hq : s.ctrl.wpq.queue = req :: rest)
      (hfull : C.fullAt s.next (s.ctrl.mappingFunc req.addr s.next.length).2 = .ok false)
      (hissue : C.issueTo s.next (s.ctrl.mappingFunc req.addr s.next.length).2 req =
        .ok (resp, req', next)) (hno : resp.issued = false) :
      Hands C s { s with ctrl.wpq.queue := req' :: rest, next := next }
  | handWrite {req req' : BaseRequest κ} {rest : List (BaseRequest κ)} {resp : BaseResponse}
      {next : List σ} (hq : s.ctrl.wpq.queue = req :: rest) (hfirst : WritesFirst s req)
      (hissue : C.issueTo s.next (s.ctrl.mappingFunc req.addr s.next.length).2 req =
        .ok (resp, req', next)) (hyes : resp.issued = true) :
      Hands C s
        { s with
          ctrl.wpq.queue := rest
          next := next
          log := s.log ++ .handed .write (s.ctrl.mappingFunc req.addr s.next.length).2 req.addr ::
            (invoke req'.callback req'.addr s.ctrl.imcCurrClk).map Obs.ran }

/-- **The moves of the controller.** `Q` restricts the requests it
accepts. -/
inductive Move (C : Component κ σ) (Q : Sys κ σ → BaseRequest κ → Prop) (s : Sys κ σ) :
    Sys κ σ → Prop
  | acceptRead {req : BaseRequest κ} (ht : req.type = .read)
      (room : s.ctrl.rpq.queue.length < s.ctrl.rpq.maxEntries) (hQ : Q s req) :
      Move C Q s
        { s with ctrl.rpq.queue := s.ctrl.rpq.queue ++ [req], log := s.log ++ [.accepted req] }
  | acceptWrite {req : BaseRequest κ} (ht : req.type = .write)
      (room : s.ctrl.wpq.queue.length < s.ctrl.wpq.maxEntries) (hQ : Q s req) :
      Move C Q s
        { s with ctrl.wpq.queue := s.ctrl.wpq.queue ++ [req], log := s.log ++ [.accepted req] }
  /-- The controller ticks. -/
  | hands {t : Sys κ σ} (hm : Hands C s t) : Move C Q s t
  /-- A component below changes by itself. -/
  | child {next : List σ} (hlen : next.length = s.next.length) : Move C Q s { s with next := next }
  | draining : Move C Q s { s with ctrl.isDraining := true }

abbrev Moves (C : Component κ σ) (Q : Sys κ σ → BaseRequest κ → Prop) :
    Sys κ σ → Sys κ σ → Prop :=
  Relation.ReflTransGen (Move C Q)

/-- No condition. -/
abbrev Any : Sys κ σ → BaseRequest κ → Prop := fun _ _ => True

section Functions

variable {C : Component κ σ} {Q : Sys κ σ → BaseRequest κ → Prop} {s t : Sys κ σ} {rounds : ℕ}
  {clk : Clk}

/-- A condition weaker on the requests allows more moves. -/
theorem Move.mono {Q' : Sys κ σ → BaseRequest κ → Prop} (hQ : ∀ s req, Q s req → Q' s req)
    (h : Move C Q s t) : Move C Q' s t := by
  cases h with
  | acceptRead ht room h => exact .acceptRead ht room (hQ _ _ h)
  | acceptWrite ht room h => exact .acceptWrite ht room (hQ _ _ h)
  | hands hm => exact .hands hm
  | child hlen => exact .child hlen
  | draining => exact .draining

theorem Moves.mono {Q' : Sys κ σ → BaseRequest κ → Prop} (hQ : ∀ s req, Q s req → Q' s req)
    (h : Moves C Q s t) : Moves C Q' s t :=
  reflTransGen_keeps (fun _ _ hu hm => hu.tail (hm.mono hQ)) h .refl

/-- What a tick observes comes after what was observed. -/
theorem Hands.log_prefix (h : Hands C s t) : s.log <+: t.log := by
  cases h <;> first | exact List.prefix_append .. | exact List.prefix_refl _

/-- The requests handed on: their queue, the component and the address
given to it. -/
def handed (log : List (Obs κ)) : List (BaseRequestType × ℕ × Addr) :=
  log.filterMap fun
    | .handed type i addr => some (type, i, addr)
    | _ => none

/-- **What is recorded as handed on was taken**: where a component is
asked, the request is recorded exactly where the call was accepted; and
elsewhere nothing is. -/
theorem Hands.handed (h : Hands C s t) :
    (t.next = s.next ∧ handed t.log = handed s.log) ∨
    ∃ type i req resp req', C.issueTo s.next i req = .ok (resp, req', t.next) ∧
      handed t.log = handed s.log ++
        if resp.issued then [(type, i, req.addr)] else [] := by
  have hran : ∀ invs : List (Invocation κ), Imc.handed (invs.map Obs.ran) = [] := fun invs => by
    simp [Imc.handed]
  have happend : ∀ l l' : List (Obs κ), Imc.handed (l ++ l') = Imc.handed l ++ Imc.handed l' :=
    fun l l' => List.filterMap_append
  cases h with
  | clock => exact .inl ⟨rfl, rfl⟩
  | holdRead => exact .inl ⟨rfl, by rw [happend]; exact List.append_nil _⟩
  | refuseRead hq hfull hissue hno =>
      refine .inr ⟨.read, _, _, _, _, hissue, ?_⟩
      rw [happend, hno]
      rfl
  | handRead hq hfirst hissue hyes =>
      refine .inr ⟨.read, _, _, _, _, hissue, ?_⟩
      rw [happend, hyes]
      rfl
  | refuseWrite hq hfull hissue hno =>
      refine .inr ⟨.write, _, _, _, _, hissue, ?_⟩
      rw [hno]
      exact (List.append_nil _).symm
  | @handWrite req req' rest resp next hq hfirst hissue hyes =>
      refine .inr ⟨.write, _, _, _, _, hissue, ?_⟩
      rw [happend, hyes, if_pos rfl]
      exact congrArg _ (congrArg _ (hran _))

/-- **A request is taken, or changes nothing.** -/
theorem issueRequest_cases {req : BaseRequest κ} {resp : BaseResponse}
    (h : issueRequest req s = .ok (resp, t)) :
    (resp.issued = true ∧ t.log = s.log ++ [.accepted req]) ∨ (resp.issued = false ∧ t = s) := by
  unfold issueRequest at h
  split at h
  all_goals
    simp only [bind_eq_ok, Prod.exists, pure_eq_ok, Prod.mk.injEq] at h
    obtain ⟨success, q, henq, rfl, rfl⟩ := h
    cases success
    · exact .inr ⟨rfl, rfl⟩
    · exact .inl ⟨rfl, rfl⟩

theorem issueRequest_moves {req : BaseRequest κ} {resp : BaseResponse} (hQ : Q s req)
    (h : issueRequest req s = .ok (resp, t)) : Moves C Q s t := by
  unfold issueRequest at h
  split at h <;> rename_i ht
  all_goals
    simp only [bind_eq_ok, Prod.exists, pure_eq_ok, Prod.mk.injEq] at h
    obtain ⟨success, q, henq, rfl, rfl⟩ := h
    obtain ⟨-, ⟨rfl, -, rfl⟩ | ⟨rfl, hlt, rfl⟩⟩ := RequestQueue.enqueue_eq_ok.mp henq
  · exact .refl
  · exact .single (.acceptRead ht hlt hQ)
  · exact .refl
  · exact .single (.acceptWrite ht hlt hQ)

theorem flushWpq_hands : ∀ {rounds : ℕ} {s : Sys κ σ}, flushWpq C rounds s = .ok t →
    Relation.ReflTransGen (Hands C) s t := by
  intro rounds
  induction rounds with
  | zero => exact fun h => absurd h throw_ne_ok
  | succ rounds ih =>
      intro s h
      rw [flushWpq] at h
      split at h
      · obtain rfl := pure_eq_ok.mp h
        exact .refl
      · rename_i req rest hq
        split at h
        · obtain rfl := pure_eq_ok.mp h
          exact .refl
        · rename_i hfirst
          have hfirst : WritesFirst s req := by
            intro r hr hlt
            rw [Option.mem_def] at hr
            simp [hr, hlt] at hfirst
          simp only [bind_eq_ok] at h
          obtain ⟨full, hfull, h⟩ := h
          cases full with
          | true =>
              obtain rfl := pure_eq_ok.mp h
              exact .refl
          | false =>
              simp only [Bool.false_eq_true, if_false, bind_eq_ok, Prod.exists] at h
              obtain ⟨resp, req', next, hissue, h⟩ := h
              split at h
              · rename_i hyes
                exact .head (.handWrite hq hfirst hissue hyes) (ih h)
              · rename_i hno
                exact .head (.refuseWrite hq hfull hissue (by simpa using hno)) (ih h)

theorem adr_hands (h : adr C rounds s = .ok t) : Relation.ReflTransGen (Hands C) s t := by
  unfold adr at h
  split at h
  · split at h
    · exact flushWpq_hands h
    · obtain rfl := pure_eq_ok.mp h
      exact .refl
  · obtain rfl := pure_eq_ok.mp h
    exact .refl

theorem tickRead_hands (hread : queueToTick s = some .read) (h : tickRead C s = .ok t) :
    Relation.ReflTransGen (Hands C) s t := by
  unfold tickRead at h
  split at h
  · exact absurd h throw_ne_ok
  · rename_i req rest hq
    have hfirst : ReadsFirst s req := by
      intro w hw
      unfold queueToTick at hread
      rw [hq] at hread
      cases hwpq : s.ctrl.wpq.queue with
      | nil => simp [hwpq] at hw
      | cons w' ws =>
          simp only [hwpq, List.head?_cons, Option.mem_def, Option.some.injEq] at hw
          subst hw
          simpa [hwpq] using hread
    simp only [bind_eq_ok] at h
    obtain ⟨full, hfull, h⟩ := h
    cases full with
    | true =>
        obtain rfl := pure_eq_ok.mp h
        exact .single (.holdRead hq hfull)
    | false =>
        simp only [Bool.false_eq_true, if_false, bind_eq_ok, Prod.exists] at h
        obtain ⟨resp, req', next, hissue, h⟩ := h
        split at h
        · rename_i hyes
          obtain rfl := pure_eq_ok.mp h
          exact .single (.handRead hq hfirst hissue hyes)
        · rename_i hno
          obtain rfl := pure_eq_ok.mp h
          exact .single (.refuseRead hq hfull hissue (by simpa using hno))

theorem tickQueue_hands (h : tickQueue C rounds s = .ok t) : Relation.ReflTransGen (Hands C) s t := by
  unfold tickQueue at h
  split at h
  · rename_i hread
    exact tickRead_hands hread h
  · simp only [bind_eq_ok] at h
    obtain ⟨full, -, h⟩ := h
    split at h
    · exact flushWpq_hands h
    · obtain rfl := pure_eq_ok.mp h
      exact .refl
  · obtain rfl := pure_eq_ok.mp h
    exact .refl

theorem tick_hands (h : tick C rounds clk s = .ok t) : Relation.ReflTransGen (Hands C) s t := by
  simp only [tick, bind_eq_ok] at h
  obtain ⟨u, hserve, h⟩ := h
  refine .trans (.head .clock (tickQueue_hands hserve)) ?_
  · split at h
    · exact adr_hands h
    · obtain rfl := pure_eq_ok.mp h
      exact .refl

theorem tick_moves (h : tick C rounds clk s = .ok t) : Moves C Q s t :=
  reflTransGen_keeps (fun _ _ hu hm => hu.tail (.hands hm)) (tick_hands h) .refl

/-- **Every call of the controller is a sequence of moves.** -/
theorem step_moves {ev : Event κ σ} (h : (machine rounds C).step s ev = .ok t) : Moves C Any s t := by
  cases ev with
  | issueRequest req =>
      simp only [machine, bind_eq_ok, Prod.exists, pure_eq_ok] at h
      obtain ⟨resp, u, hu, rfl⟩ := h
      exact issueRequest_moves trivial hu
  | tick clk => exact tick_moves h
  | child i state =>
      obtain rfl := pure_eq_ok.mp h
      exact .single (.child (by simp))

/-- **What the moves keep, the runs keep.** -/
theorem run_keeps {P : Sys κ σ → Prop} (hmove : ∀ s t, P s → Move C Any s t → P t)
    {es : List (Event κ σ)} (hs : P s) (h : (machine rounds C).run s es = .ok t) : P t :=
  (machine rounds C).invariant
    (fun _ _ _ hu hv => reflTransGen_keeps hmove (step_moves hv) hu) hs h

/-- The children are drained, once. -/
theorem drain_eq_ok (h : drain C s = .ok t) :
    ∃ next, s.next.mapM C.drain = .ok next ∧
      t = { s with ctrl.isDraining := true, next := next } := by
  unfold drain at h
  split at h
  · simp only [bind_eq_ok, throw_ne_ok, false_and, exists_false] at h
  · simp only [bind_eq_ok, pure_eq_ok] at h
    obtain ⟨next, hnext, rfl⟩ := h
    exact ⟨next, hnext, rfl⟩

theorem drain_moves (h : drain C s = .ok t) : Moves C Q s t := by
  obtain ⟨next, hnext, rfl⟩ := drain_eq_ok h
  exact .head .draining (.single (.child (mapM_eq_ok.mp hnext).length_eq.symm))

/-- A tick of the component, with its children, is a sequence of moves. -/
theorem component_tick_moves {visit : Visit} {ran : List (Invocation κ)}
    (h : (component rounds C).tick visit clk s = .ok (t, ran)) : Moves C Q s t := by
  simp only [component, bind_eq_ok, Prod.exists, pure_eq_ok, Prod.mk.injEq] at h
  obtain ⟨u, htick, next, ran', hnext, rfl, -⟩ := h
  exact (tick_moves htick).tail (.child (Component.tickNext_length hnext))

end Functions

end Imc

end Vans
