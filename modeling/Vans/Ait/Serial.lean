import Vans.Ait.Engine
/-!
# The AIT controller — one request after another

The controller is run beside the history of its requests: which were
taken from the load/store queue, which accesses the local memory took,
and which requests reached their end, with the callbacks run there. The
part of the history that is about one 4096-byte block is one execution
after another, each complete but the last: the request is taken, makes
its four accesses in order, and ends.
-/

namespace Vans

namespace Ait

variable {κ τ μ : Type} {L : Component SubreqCallback τ} {M : Component Callback μ}

/-! ## The history -/

/-- What is seen of a request. -/
inductive Step (κ : Type) where
  /-- It leaves the load/store queue. -/
  | taken (req : BaseRequest κ)
  /-- The local memory takes an access. -/
  | access (type : BaseRequestType) (addr : Addr)
  /-- The request of an entry ends, and these callbacks are run. -/
  | ended (block : Addr) (invs : List (Invocation κ))
  deriving DecidableEq

namespace Step

/-- The 4096-byte block the step is about. -/
def block : Step κ → Addr
  | .taken req => aitBlock req.addr
  | .access _ addr => translateToBlockAddr addr
  | .ended block _ => block

def takenReq : Step κ → Option (BaseRequest κ)
  | .taken req => some req
  | _ => none

def accessed : Step κ → Option (BaseRequestType × Addr)
  | .access type addr => some (type, addr)
  | _ => none

def ran : Step κ → List (Invocation κ)
  | .ended _ invs => invs
  | _ => []

end Step

/-- A request is taken, and its four cache lines are accessed in order. -/
def opening (req : BaseRequest κ) : List (Step κ) :=
  let block := Rmw.translateToBlockAddr req.addr
  [.taken req,
    .access req.type block, .access req.type (block + 64),
    .access req.type (block + 128), .access req.type (block + 192)]

/-- **The execution of a request**: after its accesses it ends, where its
callback, if it has one, is run with its 256-byte block. -/
def life (req : BaseRequest κ) (clk : Clk) : List (Step κ) :=
  opening req ++
    [.ended (aitBlock req.addr) (invoke req.callback (Rmw.translateToBlockAddr req.addr) clk)]

/-- Executions one after another, each complete but the last. -/
def Serial (steps : List (Step κ)) : Prop :=
  ∃ (done : List (BaseRequest κ × Clk)) (last : List (Step κ)),
    steps = done.flatMap (fun d => life d.1 d.2) ++ last ∧ ∃ req clk, last <+: life req clk

/-! ## The controller beside the history -/

/-- The controller over a local memory that is kept with its record. -/
abbrev Recorded (κ τ μ : Type) := Sys κ (τ × List (Exchange SubreqCallback)) μ

def Obs.takenStep : Obs κ → Option (Step κ)
  | .taken req => some (.taken req)
  | _ => none

def accessStep (req : BaseRequest SubreqCallback) : Step κ := .access req.type req.addr

/-- Requests leave the load/store queue. -/
def noteTaken (s t : Recorded κ τ μ) (H : List (Step κ)) : List (Step κ) :=
  H ++ (t.log.drop s.log.length).filterMap Obs.takenStep

/-- The local memory takes accesses. -/
def noteAccess (s t : Recorded κ τ μ) (H : List (Step κ)) : List (Step κ) :=
  H ++ (Exchange.taken (t.localMemory.2.drop s.localMemory.2.length)).map accessStep

/-- Whether the entry under the key has reached state `end`. -/
def Sys.atEnd (s : Sys κ τ μ) (key : Addr) : Bool := (s.entry key).any (·.state = .end_)

/-- The entry under the key reaches state `end`. -/
def noteEnded (key : Addr) (s t : Recorded κ τ μ) (H : List (Step κ)) : List (Step κ) :=
  H ++ if t.atEnd key && !s.atEnd key then [.ended key (ran (t.log.drop s.log.length))] else []

section Watched

variable {T : Type}

/-- The controller beside an account of what it does. A tick is noted in
its micro-steps: the load/store queue, the queue of the local memory,
then entry by entry. -/
def watched (L : Component SubreqCallback τ) (M : Component Callback μ)
    (noteLsq noteLmemq : Recorded κ τ μ → Recorded κ τ μ → T → T)
    (noteEntry : Addr → Recorded κ τ μ → Recorded κ τ μ → T → T)
    (noteElse : Recorded κ τ μ → Recorded κ τ μ → T → T) :
    Machine (Recorded κ τ μ × T) (Event κ) String where
  step := fun p ev =>
    match ev with
    | .tick o currClk => do
        let p ← audited (tickLsq o currClk) noteLsq p
        let p ← audited (tickLmemq L.recorded currClk) noteLmemq p
        (o.visit p.1.ctrl.buffer.entryMap.keys).foldlM
          (fun p key => audited (tickEntry M currClk · key) (noteEntry key) p) p
    | ev => audited ((machine L.recorded M).step · ev) noteElse p

variable {noteLsq noteLmemq noteElse : Recorded κ τ μ → Recorded κ τ μ → T → T}
  {noteEntry : Addr → Recorded κ τ μ → Recorded κ τ μ → T → T}

/-- **The account changes nothing.** -/
theorem watched_run {s : Recorded κ τ μ} {a : T} {es : List (Event κ)} :
    ((watched L M noteLsq noteLmemq noteEntry noteElse).run (s, a) es).map Prod.fst =
      (machine L.recorded M).run s es := by
  refine Machine.run_map (π := Prod.fst) ?_
  rintro ⟨s, a⟩ ev
  cases ev with
  | tick o clk =>
      simp only [watched, machine, tick, tickInternalBuffer]
      rw [← @audited_map _ _ _ (tickLsq o clk) noteLsq (s, a)]
      cases audited (tickLsq o clk) noteLsq (s, a) with
      | error e => rfl
      | ok p =>
          simp only [Except.map, ok_bind]
          rw [← @audited_map _ _ _ (tickLmemq L.recorded clk) noteLmemq p]
          cases audited (tickLmemq L.recorded clk) noteLmemq p with
          | error e => rfl
          | ok p => exact foldlM_map fun _ _ => audited_map
  | issueRequest | localMemory =>
      simp only [watched]
      exact audited_map

end Watched

/-- The controller beside the history. -/
def accounted (L : Component SubreqCallback τ) (M : Component Callback μ) :
    Machine (Recorded κ τ μ × List (Step κ)) (Event κ) String :=
  watched L M noteTaken noteAccess noteEnded fun _ _ H => H

/-- **The history changes nothing.** -/
theorem accounted_run {s : Recorded κ τ μ} {H : List (Step κ)} {es : List (Event κ)} :
    ((accounted L M).run (s, H) es).map Prod.fst = (machine L.recorded M).run s es :=
  watched_run

/-! ## Where a request stands -/

/-- The entry is running the request. -/
structure BufferEntry.Runs (e : BufferEntry κ) (req : BaseRequest κ) : Prop where
  addr : e.pendingRequest.rmwBlockAddr = Rmw.translateToBlockAddr req.addr
  cb : e.cb = req.callback
  type : e.accessType = req.type

/-- The accesses made for the block whose request is at the front. -/
def Sys.made (s : Sys κ τ μ) (block : Addr) : ℕ :=
  match s.ctrl.lmemq.queue with
  | [] => 0
  | front :: _ =>
    if s.ctrl.lmemqState.pendingFront ∧ queueBlock front = block then
      (s.ctrl.lmemqState.subreqPendingIndex + 1).toNat
    else 0

/-- The accesses made for the request of an entry. -/
def Sys.progress (s : Sys κ τ μ) (block : Addr) (e : BufferEntry κ) : ℕ :=
  match e.state with
  | .init | .pendingReadMedia => 0
  | .pendingReadDram | .pendingWriteDram => if e.waitingActionClkUpdate then s.made block else 4
  | .pendingMigration | .pendingWriteMedia | .end_ => 4

/-- The last steps about a block: those of the request being executed. -/
structure Sys.Current (s : Sys κ τ μ) (block : Addr) (last : List (Step κ)) : Prop where
  rest : (∀ e, s.entry block = some e → e.state = .end_) → last = []
  running : ∀ e, s.entry block = some e → e.state ≠ .end_ →
    ∃ req, e.Runs req ∧ aitBlock req.addr = block ∧
      last = (opening req).take (1 + s.progress block e)

/-- **The history agrees with the controller.** -/
structure Books (s : Recorded κ τ μ) (H : List (Step κ)) : Prop where
  taken : accepted s.log = H.filterMap Step.takenReq ++ s.ctrl.lsq.queue
  accessed : (Exchange.taken s.localMemory.2).map (fun req => (req.type, req.addr)) =
    H.filterMap Step.accessed
  ran : Ait.ran s.log = H.flatMap Step.ran
  serial : ∀ block, ∃ (done : List (BaseRequest κ × Clk)) (last : List (Step κ)),
    H.filter (·.block = block) = done.flatMap (fun d => life d.1 d.2) ++ last ∧
      s.Current block last

/-! ## The steps of one request -/

section Life

variable {req : BaseRequest κ} {clk : Clk} {steps : List (Step κ)}

/-- The next access in its place. -/
theorem opening_next {index : ℤ} (hlow : -1 ≤ index) (hhigh : index < 3) :
    (opening req).take (1 + (index + 1).toNat) ++
        [.access req.type (Rmw.translateToBlockAddr req.addr +
          UInt64.ofNat (index + 1).toNat * cpuClSize)] =
      (opening req).take (1 + (index + 1 + 1).toNat) := by
  have hone : UInt64.ofNat 1 * cpuClSize = 64 := by decide
  have htwo : UInt64.ofNat 2 * cpuClSize = 128 := by decide
  have hthree : UInt64.ofNat 3 * cpuClSize = 192 := by decide
  obtain rfl | rfl | rfl | rfl : index = -1 ∨ index = 0 ∨ index = 1 ∨ index = 2 := by omega
  · simp [opening]
  · change (opening req).take 2 ++ [.access req.type (_ + UInt64.ofNat 1 * cpuClSize)] = _
    rw [hone]
    rfl
  · change (opening req).take 3 ++ [.access req.type (_ + UInt64.ofNat 2 * cpuClSize)] = _
    rw [htwo]
    rfl
  · change (opening req).take 4 ++ [.access req.type (_ + UInt64.ofNat 3 * cpuClSize)] = _
    rw [hthree]
    rfl

/-- The accesses of a request are to its block. -/
theorem block_access (a : Addr) {n : ℕ} (hn : n < 4) :
    translateToBlockAddr (Rmw.translateToBlockAddr a + UInt64.ofNat n * cpuClSize) = aitBlock a := by
  have htrans : ∀ b : Addr, (translateToBlockAddr b).toNat = b.toNat / 4096 * 4096 := fun b =>
    Word.toNat_shr_shl (s := 12) (by decide)
  have hlt : a.toNat < 2 ^ 64 := a.toNat_lt
  have hmul : (UInt64.ofNat n * cpuClSize).toNat = n * 64 := by
    rw [UInt64.toNat_mul, UInt64.toNat_ofNat_of_lt' (by change _ < 2 ^ 64; omega)]
    exact Nat.mod_eq_of_lt (by change n * 64 < 2 ^ 64; omega)
  apply UInt64.toNat_inj.mp
  rw [aitBlock, htrans, htrans, UInt64.toNat_add, hmul, Rmw.translateToBlockAddr_toNat]
  omega

end Life

/-! ## Keeping the books -/

section Keeping

variable {s t : Recorded κ τ μ} {H : List (Step κ)} {block : Addr} {last : List (Step κ)}

/-- The request of a block stands where it stood. -/
theorem Sys.Current.same (h : s.Current block last) (hentry : t.entry block = s.entry block)
    (hmade : t.made block = s.made block) : t.Current block last where
  rest := fun hend => h.rest (hentry ▸ hend)
  running := by
    intro e he hst
    rw [hentry] at he
    obtain ⟨req, hruns, hblock, hlast⟩ := h.running e he hst
    refine ⟨req, hruns, hblock, ?_⟩
    rw [hlast, Sys.progress, Sys.progress, hmade]

/-- An entry at rest left. -/
theorem Sys.Current.gone (h : s.Current block last)
    (hend : ∀ e, s.entry block = some e → e.state = .end_) (hnone : t.entry block = none) :
    t.Current block last where
  rest := fun _ => h.rest hend
  running := fun e he => by simp [hnone] at he

/-- **What is seen is about one block**, and the others stand where they
stood. -/
theorem Books.note {new : List (Step κ)} (key : Addr) (h : Books s H)
    (hnew : ∀ st ∈ new, st.block = key)
    (htaken : accepted t.log =
      H.filterMap Step.takenReq ++ new.filterMap Step.takenReq ++ t.ctrl.lsq.queue)
    (haccessed : (Exchange.taken t.localMemory.2).map (fun req => (req.type, req.addr)) =
      (Exchange.taken s.localMemory.2).map (fun req => (req.type, req.addr)) ++
        new.filterMap Step.accessed)
    (hran : Ait.ran t.log = Ait.ran s.log ++ new.flatMap Step.ran)
    (hother : ∀ b last, b ≠ key → s.Current b last → t.Current b last)
    (hkey : ∀ last, s.Current key last → ∃ (done : List (BaseRequest κ × Clk)) (last' : _),
      last ++ new = done.flatMap (fun d => life d.1 d.2) ++ last' ∧ t.Current key last') :
    Books t (H ++ new) where
  taken := by rw [List.filterMap_append, htaken]
  accessed := by rw [List.filterMap_append, haccessed, h.accessed]
  ran := by rw [List.flatMap_append, hran, h.ran]
  serial := by
    intro b
    obtain ⟨done, last, hfilter, hcurrent⟩ := h.serial b
    rw [List.filter_append, hfilter]
    by_cases hb : b = key
    · subst hb
      obtain ⟨done', last', hsplit, hcurrent'⟩ := hkey last hcurrent
      refine ⟨done ++ done', last', ?_, hcurrent'⟩
      rw [List.filter_eq_self.mpr fun st hst => by simpa using hnew st hst, List.append_assoc,
        hsplit, List.flatMap_append, List.append_assoc]
    · refine ⟨done, last, ?_, hother b last hb hcurrent⟩
      rw [List.filter_eq_nil_iff.mpr fun st hst => by simpa [hnew st hst] using Ne.symm hb,
        List.append_nil]

/-- Nothing is seen, and every block stands where it stood. -/
theorem Books.quiet (h : Books s H) (htaken : accepted t.log =
      H.filterMap Step.takenReq ++ t.ctrl.lsq.queue)
    (haccessed : Exchange.taken t.localMemory.2 = Exchange.taken s.localMemory.2)
    (hran : Ait.ran t.log = Ait.ran s.log)
    (hcurrent : ∀ b last, s.Current b last → t.Current b last) : Books t H where
  taken := htaken
  accessed := by rw [haccessed, h.accessed]
  ran := by rw [hran, h.ran]
  serial := by
    intro b
    obtain ⟨done, last, hfilter, hb⟩ := h.serial b
    exact ⟨done, last, hfilter, hcurrent b last hb⟩

/-- A request is taken into an entry that was at rest, or is new. -/
theorem Books.take {u : Recorded κ τ μ} {front : BaseRequest κ} {rest : List (BaseRequest κ)}
    {e : BufferEntry κ} {event : EventName} {index : ℕ} {table : IndirectionTable}
    (h : Books s H) (hq : s.ctrl.lsq.queue = front :: rest) (hlog : u.log = s.log)
    (hmem : u.localMemory = s.localMemory)
    (hrest : ∀ e, s.entry (aitBlock front.addr) = some e → e.state = .end_)
    (hother : ∀ b last, b ≠ aitBlock front.addr → s.Current b last → u.Current b last)
    (hst : e.state = .init) (hruns : e.Runs front) :
    Books (u.take (aitBlock front.addr) e front rest event index table)
      (noteTaken s (u.take (aitBlock front.addr) e front rest event index table) H) := by
  have hlog' : (u.take (aitBlock front.addr) e front rest event index table).log =
      s.log ++ [.taken front] := by
    rw [← hlog]
    rfl
  rw [noteTaken, hlog', List.drop_left]
  refine h.note (aitBlock front.addr) (by simp [Obs.takenStep, Step.block]) ?_ ?_ ?_ ?_ ?_
  · rw [hlog', accepted_append, h.taken, hq]
    simp [accepted, Obs.acceptedReq, Obs.takenStep, Step.takenReq, Sys.take]
  · change (Exchange.taken u.localMemory.2).map _ = _
    rw [hmem]
    simp [Obs.takenStep, Step.accessed]
  · rw [hlog', ran_append]
    simp [Ait.ran, ranInvocation, Obs.takenStep, Step.ran]
  · intro b last hb hcurrent
    refine (hother b last hb hcurrent).same ?_ rfl
    rw [entry_take, if_neg hb]
  · intro last hcurrent
    refine ⟨[], [.taken front], by rw [hcurrent.rest hrest]; rfl, ?_, ?_⟩
    · intro hend
      have := hend e (by rw [entry_take, if_pos rfl])
      simp [hst] at this
    · intro e' he' _
      rw [entry_take, if_pos rfl] at he'
      cases he'
      exact ⟨front, hruns, rfl, by simp [Sys.progress, hst, opening]⟩

theorem Books.serve (h : Books s H) (ok : s.Ok) (hs : Serve s t) :
    Books t (noteTaken s t H) := by
  cases hs with
  | wait => simpa [noteTaken] using h
  | @miss u front rest clk type bits event table hroom hq ht hnone hlen htable =>
      have htype : (if isWrite type then BaseRequestType.write else .read) = front.type := by
        cases hf : front.type <;> simp [ht, hf, isWrite]
      have hruns : ((BufferEntry.new clk type (Rmw.translateToBlockAddr front.addr) bits
          u.ctrl.buffer.nextAvailableIndex).assignCallback front.callback).Runs front :=
        ⟨rfl, rfl, htype⟩
      cases hroom with
      | had =>
          exact h.take hq rfl rfl (fun e he => by simp [hnone] at he)
            (fun _ _ _ hb => hb) rfl hruns
      | @evict key e he hend hfull =>
          refine h.take hq rfl rfl (fun e' he' => ?_) (fun b last _ hb => ?_) rfl
            hruns
          · -- the block may be the one just evicted, which had ended
            rw [entry_erase] at hnone
            split at hnone
            · rename_i hk
              rw [(ok key e he).aligned] at hk
              rw [hk, he] at he'
              cases he'
              exact hend
            · simp [hnone] at he'
          · by_cases hk : b = key
            · subst hk
              refine hb.gone (fun e' he' => ?_) ?_
              · rw [he] at he'
                cases he'
                exact hend
              · rw [entry_erase, (ok b e he).aligned, if_pos rfl]
            · refine hb.same ?_ rfl
              rw [entry_erase, (ok key e he).aligned, if_neg hk]
  | @hit front rest e clk type bits event table hq ht he hpend htable =>
      have htype : (if isWrite type then BaseRequestType.write else .read) = front.type := by
        cases hf : front.type <;> simp [ht, hf, isWrite]
      refine h.take hq rfl rfl (fun e' he' => ?_) (fun _ _ _ hb => hb) rfl
        ⟨rfl, rfl, htype⟩
      rw [he] at he'
      cases he'
      exact (ok _ _ he).pending.mp hpend

/-- The set-up of the queue makes no access. -/
theorem made_setUp {owed : τ × List (Exchange SubreqCallback) → ℕ} (hengine : s.Engine owed)
    (b : Addr) : (lmemqSetUp s).made b = s.made b := by
  rw [lmemqSetUp_eq hengine.state]
  unfold Sys.made LmemqState.setUp
  dsimp only
  split
  · rfl
  · by_cases hfront : s.ctrl.lmemqState.pendingFront
    · rw [if_pos hfront]
    · simp [hfront]

/-- The front's accesses are counted for its block only. -/
theorem made_of_front {front : BaseRequest κ} {rest : List (BaseRequest κ)} {b : Addr}
    (hq : s.ctrl.lmemq.queue = front :: rest) (hb : b ≠ queueBlock front) : s.made b = 0 := by
  rw [Sys.made, hq]
  exact if_neg fun h => hb h.2.symm

theorem made_front {front : BaseRequest κ} {rest : List (BaseRequest κ)}
    (hq : s.ctrl.lmemq.queue = front :: rest) (hfront : s.ctrl.lmemqState.pendingFront = true) :
    s.made (queueBlock front) = (s.ctrl.lmemqState.subreqPendingIndex + 1).toNat := by
  rw [Sys.made, hq]
  exact if_pos ⟨hfront, rfl⟩

theorem progress_front {front : BaseRequest κ} {rest : List (BaseRequest κ)} {e : BufferEntry κ}
    (hq : s.ctrl.lmemq.queue = front :: rest) (hfront : s.ctrl.lmemqState.pendingFront = true)
    (hawait : e.Awaits front) :
    s.progress (queueBlock front) e = (s.ctrl.lmemqState.subreqPendingIndex + 1).toNat := by
  rw [← made_front hq hfront]
  rcases hawait.dram with h | h <;> simp [Sys.progress, h, hawait.waiting]

/-- No access is made. -/
theorem Books.unaccessed (h : Books t H) (hmem : t.localMemory = s.localMemory) :
    Books t (noteAccess s t H) := by
  simpa [noteAccess, hmem, Exchange.taken] using h

/-- **Serving the queue of the local memory keeps the books.** -/
theorem Books.lmemqStep {clk : Clk} (hL : AnswersOnce L) (h : Books s H)
    (hengine : s.Engine hL.recorded.owed) (hfront : s.ctrl.lmemqState.pendingFront = true)
    (hs : LmemqStep L.recorded clk s t) : Books t (noteAccess s t H) := by
  -- the entry of the request at the front, and where its request stands
  have hawaits : ∀ {front : BaseRequest κ} {rest e}, s.ctrl.lmemq.queue = front :: rest →
      s.entry (queueBlock front) = some e → e.Awaits front ∧ e.state ≠ .end_ := by
    intro front rest e hq he
    obtain ⟨e₀, he₀, hawait⟩ := hengine.queued front (by rw [hq]; exact List.mem_cons_self)
    rw [he] at he₀
    cases he₀
    exact ⟨hawait, by rcases hawait.dram with h | h <;> simp [h]⟩
  cases hs with
  | wait => exact h.unaccessed rfl
  | @finish front rest e hq hindex hserved he =>
      refine Books.unaccessed (h.quiet h.taken rfl rfl fun b last hcurrent => ?_) rfl
      obtain ⟨hawait, hend⟩ := hawaits hq he
      by_cases hb : b = queueBlock front
      · -- the four accesses were made
        subst hb
        obtain ⟨req, hruns, hblock, hlast⟩ := hcurrent.running e he hend
        refine ⟨fun hrest => absurd (hrest _ (entry_setEntry.trans (if_pos rfl))) hend,
          fun e' he' _ => ?_⟩
        obtain rfl := Option.some.inj ((entry_setEntry.trans (if_pos rfl)).symm.trans he')
        refine ⟨req, ⟨hruns.addr, hruns.cb, hruns.type⟩, hblock, ?_⟩
        rw [hlast, progress_front hq hfront hawait, hindex]
        rcases hawait.dram with hst | hst <;> simp [Sys.progress, hst]
      · refine hcurrent.same (entry_setEntry.trans (if_neg hb)) ?_
        rw [made_of_front hq hb]
        simp only [Sys.made, Sys.setEntry]
        split <;> simp
  | @start front rest e resp req localMemory st cnt hq hturn hindex he hissue hyes hst =>
      obtain ⟨hawait, hend⟩ := hawaits hq he
      have hrange := (hengine.state.range hfront).1
      -- the memory takes the access, and its record says so
      obtain ⟨mem', hmem⟩ : ∃ mem', localMemory = (mem', s.localMemory.2 ++ [.issued
          { type := front.type
            addr := nextAccess s.ctrl.lmemqState front
            arrive := clk
            callback := some .subreqServed } true]) := by
        simp only [Component.recorded, bind_eq_ok, Prod.exists, pure_eq_ok,
          Prod.mk.injEq] at hissue
        obtain ⟨_, _, mem', -, rfl, -, rfl⟩ := hissue
        exact ⟨mem', by rw [hyes]⟩
      have hstate : st.pendingFront = true ∧
          st.subreqPendingIndex = s.ctrl.lmemqState.subreqPendingIndex + 1 := by
        rw [hst]
        cases front.type <;> exact ⟨hfront, rfl⟩
      have haddr : ∀ {req : BaseRequest κ}, e.Runs req →
          front.addr = Rmw.translateToBlockAddr req.addr := fun hruns =>
        hawait.addr.trans hruns.addr
      subst hmem
      rw [noteAccess]
      simp only [List.drop_left]
      change Books _ (H ++ [.access front.type (nextAccess s.ctrl.lmemqState front)])
      refine h.note (queueBlock front) ?_ ?_ ?_ ?_ ?_ ?_
      · obtain ⟨-, _, -, hcurrent⟩ := h.serial (queueBlock front)
        obtain ⟨req, hruns, -⟩ := hcurrent.running e he hend
        intro st hst
        obtain rfl := List.mem_singleton.mp hst
        rw [Step.block, nextAccess, queueBlock, haddr hruns]
        exact block_access _ (by omega)
      · change accepted s.log = H.filterMap Step.takenReq ++ [] ++ s.ctrl.lsq.queue
        rw [List.append_nil]
        exact h.taken
      · rw [Exchange.taken_concat, List.map_append]
        rfl
      · exact (List.append_nil _).symm
      · intro b last hb hcurrent
        refine hcurrent.same rfl ?_
        rw [made_of_front hq hb]
        exact @made_of_front _ _ _ _ front rest b hq hb
      · intro last hcurrent
        obtain ⟨req, hruns, hblock, hlast⟩ := hcurrent.running e he hend
        refine ⟨[], last ++ [.access front.type (nextAccess s.ctrl.lmemqState front)], rfl,
          fun hrest => absurd (hrest e he) hend, fun e' he' _ => ?_⟩
        obtain rfl := Option.some.inj (he.symm.trans he')
        refine ⟨req, hruns, hblock, ?_⟩
        -- the next of the four accesses the request opens with
        have hnext := @opening_next _ req _ hrange hindex
        rw [← hruns.type, ← hawait.type, ← haddr hruns] at hnext
        rw [hlast, progress_front hq hfront hawait, nextAccess, hnext]
        refine congrArg (fun n => (opening req).take (1 + n)) ?_
        symm
        refine (@progress_front _ _ _ _ front rest e ?_ ?_ hawait).trans ?_
        · exact hq
        · exact hstate.1
        · rw [hstate.2]

/-- **The queue of the local memory, set up first, keeps the books.** -/
theorem Books.tickLmemq {clk : Clk} (hL : AnswersOnce L) (h : Books s H)
    (hengine : s.Engine hL.recorded.owed) (hs : Ait.tickLmemq L.recorded clk s = .ok t) :
    Books t (noteAccess s t H) := by
  obtain ⟨-, rfl⟩ | ⟨hne, hstep⟩ := tickLmemq_cases hs
  · exact h.unaccessed rfl
  · have hframe := lmemqSetUp_eq hengine.state
    have hmem : (lmemqSetUp s).localMemory = s.localMemory := by rw [hframe]
    obtain ⟨hset, hfront⟩ := hengine.setUp hne
    have hbooks : Books (lmemqSetUp s) H :=
      h.quiet (by rw [hframe]; exact h.taken) (by rw [hmem]) (by rw [hframe])
        fun b last hcurrent => hcurrent.same (by rw [hframe]; rfl) (made_setUp hengine b)
    have hkeep := hbooks.lmemqStep hL hset hfront hstep
    rwa [noteAccess, hmem] at hkeep

/-! ### The transfers -/

section Transfer

variable {owed : τ × List (Exchange SubreqCallback) → ℕ} {s' : Recorded κ τ μ}
  {e e' : BufferEntry κ} {clk : Clk} {key : Addr}

/-- **The last transfer ends the request and runs its callback**; the
others do neither. -/
theorem EntryMove.ending (hm : EntryMove s e e' s') (hnot : e.state ≠ .end_) :
    (e'.state ≠ .end_ ∧ s'.log = s.log) ∨
      (e'.state = .end_ ∧
        (e.state = if isWrite e.pendingRequest.type then .pendingWriteMedia
          else .pendingReadDram) ∧
        ∃ clk, s'.log =
          s.log ++ (invoke e.cb e.pendingRequest.rmwBlockAddr clk).map Obs.ran) := by
  cases hm with
  | lmemqFull => exact .inl ⟨hnot, rfl⟩
  | readMedia | migrate | writeMedia => exact .inl ⟨by simp, rfl⟩
  | queueMiss | queueHit => exact .inl ⟨by dsimp only; split <;> simp, rfl⟩
  | finish hst => exact .inr ⟨rfl, hst, _, rfl⟩

/-- The queue is not busy for an entry that acts. -/
theorem made_of_acting (hengine : s.Engine owed) (he : s.entry key = some e)
    (hact : e.state = .init ∨ (e.pending ∧ e.waitingActionClkUpdate = false)) :
    s.made key = 0 := by
  unfold Sys.made
  split
  · rfl
  · rename_i front rest hq
    refine if_neg ?_
    rintro ⟨-, rfl⟩
    obtain ⟨e₀, he₀, hawait⟩ := hengine.queued front (by rw [hq]; exact List.mem_cons_self)
    obtain rfl := Option.some.inj (he.symm.trans he₀)
    rcases hact with hact | ⟨-, hact⟩
    · rcases hawait.dram with h | h <;> simp [hact] at h
    · simp [hawait.waiting] at hact

/-- A transfer makes no access. -/
theorem made_transfer (hengine : s.Engine owed) (hqueues : Queues clk s e e' s') (b : Addr) :
    (s'.setEntry key e').made b = s.made b := by
  cases hqueues with
  | no hq hst hmem he => simp only [Sys.made, Sys.setEntry, hq, hst]
  | yes hq hst hmem hlen hdram hwait =>
      cases hqueue : s.ctrl.lmemq.queue with
      | nil =>
          have hfront : s.ctrl.lmemqState.pendingFront = false := by
            rw [← Bool.not_eq_true]
            exact fun hfront => hengine.busy hfront hqueue
          simp [Sys.made, Sys.setEntry, hq, hst, hqueue, hfront]
      | cons front rest => simp [Sys.made, Sys.setEntry, hq, hst, hqueue]

/-- The request of an entry stands where it stood, short of its end. -/
theorem progress_transfer (hm : EntryMove s e e' s')
    (hact : e.state = .init ∨ (e.pending ∧ e.waitingActionClkUpdate = false))
    (hmade : t.made key = 0) (hnot : e'.state ≠ .end_) :
    t.progress key e' = s.progress key e := by
  have hwait : e.state ≠ .init → e.waitingActionClkUpdate = false := fun h =>
    (hact.resolve_left h).2
  cases hm with
  | lmemqFull =>
      by_cases hinit : e.state = .init
      · simp [Sys.progress, hinit]
      · simp [Sys.progress, hwait hinit]
  | readMedia hst ht => simp [Sys.progress, hst]
  | queueMiss hst ht =>
      by_cases hw : e.pendingRequest.type = .writeMiss <;> simp [Sys.progress, hst, hmade, hw]
  | queueHit hst ht =>
      by_cases hw : e.pendingRequest.type = .writeHit <;> simp [Sys.progress, hst, hmade, hw]
  | migrate hst ht => simp [Sys.progress, hst, hwait (by simp [hst])]
  | writeMedia hst ht => simp [Sys.progress, hst]
  | finish hst => exact absurd rfl hnot

/-- **A round of the loop keeps the books.** -/
theorem Books.tickEntry (h : Books s H) (ok : s.Ok) (hengine : s.Engine owed)
    (hs : Ait.tickEntry M clk s key = .ok t) : Books t (noteEnded key s t H) := by
  obtain rfl | ⟨e, e', s', func, he, hact, hfunc, hrun, rfl⟩ := tickEntry_cases hs
  · simpa [noteEnded] using h
  have hm := stateTrans_move hfunc hrun
  have hqueues := stateTrans_queues hfunc hrun
  -- an entry that acts is not at rest
  have hnot : e.state ≠ .end_ := by
    rcases hact with hact | ⟨hact, -⟩
    · simp [hact]
    · exact fun hend => by simp [(ok key e he).pending.mpr hend] at hact
  have hentry : ∀ k, (s'.setEntry key e').entry k = if k = key then some e' else s.entry k := by
    intro k
    rw [entry_setEntry, Sys.entry, hm.frame.1]
    rfl
  have hmade : ∀ b, (s'.setEntry key e').made b = s.made b := made_transfer hengine hqueues
  -- no other block is touched
  have hother : ∀ b last, b ≠ key → s.Current b last → (s'.setEntry key e').Current b last :=
    fun b last hb hcurrent => hcurrent.same (by rw [hentry, if_neg hb]) (hmade b)
  have hmem : (s'.setEntry key e').localMemory = s.localMemory := by
    change s'.localMemory = _
    cases hqueues <;> assumption
  have hlsq : (s'.setEntry key e').ctrl.lsq = s.ctrl.lsq := hm.frame.2.1
  have hfrom : s.atEnd key = false := by simp [Sys.atEnd, he, hnot]
  have hto : (s'.setEntry key e').atEnd key = decide (e'.state = .end_) := by
    simp [Sys.atEnd, hentry]
  obtain ⟨hnot', hlog⟩ | ⟨hend, hst, now, hlog⟩ := hm.ending hnot
  · -- the request goes on
    have hlog' : (s'.setEntry key e').log = s.log := hlog
    rw [noteEnded, hto, decide_eq_false hnot', Bool.false_and, if_neg Bool.false_ne_true,
      List.append_nil]
    refine h.quiet (by rw [hlog', hlsq]; exact h.taken) (by rw [hmem]) (by rw [hlog'])
      fun b last hcurrent => ?_
    by_cases hb : b = key
    · subst hb
      obtain ⟨req, hruns, hblock, hlast⟩ := hcurrent.running e he hnot
      refine ⟨fun hrest => absurd (hrest e' (by rw [hentry, if_pos rfl])) hnot',
        fun e₀ he₀ _ => ?_⟩
      rw [hentry, if_pos rfl, Option.some.injEq] at he₀
      subst he₀
      obtain ⟨hcb, hreq⟩ := hm.request
      refine ⟨req, ⟨hreq ▸ hruns.addr, hcb ▸ hruns.cb, ?_⟩, hblock, ?_⟩
      · rw [BufferEntry.accessType, hreq]
        exact hruns.type
      · rw [hlast, progress_transfer hm hact ((hmade b).trans (made_of_acting hengine he hact))
          hnot']
    · exact hother b last hb hcurrent
  · -- the request ends
    have hlog' : (s'.setEntry key e').log =
        s.log ++ (invoke e.cb e.pendingRequest.rmwBlockAddr now).map Obs.ran := hlog
    rw [noteEnded, hto, hfrom, decide_eq_true hend, Bool.not_false, Bool.and_self, if_pos rfl,
      hlog', List.drop_left, ran_map_ran]
    refine h.note key (by simp [Step.block]) ?_ ?_ ?_ hother ?_
    · rw [hlog', accepted_append, accepted_map_ran, List.append_nil, hlsq, h.taken]
      simp [Step.takenReq]
    · rw [hmem]
      simp [Step.accessed]
    · rw [hlog', ran_append, ran_map_ran]
      simp [Step.ran]
    · intro last hcurrent
      obtain ⟨req, hruns, hblock, hlast⟩ := hcurrent.running e he hnot
      refine ⟨[(req, now)], [], ?_, fun _ => rfl, fun e₀ he₀ hst₀ => ?_⟩
      · have hprogress : s.progress key e = 4 := by
          have hne : e.state ≠ .init := by
            rw [hst]
            split <;> simp
          rw [Sys.progress, hst, (hact.resolve_left hne).2]
          cases isWrite e.pendingRequest.type <;> rfl
        rw [hlast, hprogress, hruns.cb, hruns.addr, ← hblock]
        simp [life, opening]
      · rw [hentry, if_pos rfl, Option.some.injEq] at he₀
        exact absurd (he₀ ▸ hend) hst₀

end Transfer

/-! ### The calls from outside -/

theorem Books.issueRequest {req : BaseRequest κ} {resp : BaseResponse} (h : Books s H)
    (hs : Ait.issueRequest req s = .ok (resp, t)) : Books t H := by
  obtain ⟨-, ⟨-, rfl⟩ | ⟨-, -, rfl⟩⟩ := issueRequest_cases hs
  · exact h
  · refine h.quiet ?_ rfl ?_ fun b last hcurrent => hcurrent.same rfl rfl
    · rw [accepted_append, h.taken, List.append_assoc]
      rfl
    · rw [ran_append]
      exact List.append_nil _

theorem Books.tickLocalMemory {visit : Visit} {clk : Clk} (h : Books s H)
    (hs : Ait.tickLocalMemory L.recorded visit clk s = .ok t) : Books t H := by
  simp only [Ait.tickLocalMemory, Component.recorded, bind_eq_ok, Prod.exists, pure_eq_ok,
    Prod.mk.injEq] at hs
  obtain ⟨_, _, served, ⟨mem', served', -, ⟨rfl, rfl⟩, rfl⟩, rfl⟩ := hs
  rw [foldl_served]
  refine h.quiet h.taken Exchange.taken_append_ran rfl fun b last hcurrent =>
    hcurrent.same rfl ?_
  obtain ⟨hfront, hindex⟩ := @LmemqState.markAll_frame s.ctrl.lmemqState served'
  simp only [Sys.made, hfront, hindex]

end Keeping

/-! ## Every run -/

section Runs

variable {s t : Recorded κ τ μ} {H H' : List (Step κ)} {ev : Event κ} {es : List (Event κ)}

/-- **What holds of the controller beside its history.** -/
structure Kept (hL : AnswersOnce L) (p : Recorded κ τ μ × List (Step κ)) : Prop where
  ok : p.1.Ok
  engine : p.1.Engine hL.recorded.owed
  books : Books p.1 p.2

theorem Kept.init {cfg : Config} {mem : τ} {next : List μ} (hL : AnswersOnce L)
    (hmem : hL.owed mem = 0) : Kept hL ((Sys.init cfg (mem, []) next : Recorded κ τ μ), []) where
  ok := .init
  engine := .init hmem
  books :=
    { taken := rfl
      accessed := rfl
      ran := rfl
      serial := fun block => ⟨[], [], rfl, fun _ => rfl, fun e he => by
        simp [Sys.entry, Sys.init] at he⟩ }

/-- **Every step keeps it.** -/
theorem Kept.step (hL : AnswersOnce L) (h : Kept hL (s, H))
    (hs : (accounted L M).step (s, H) ev = .ok (t, H')) : Kept hL (t, H') := by
  obtain ⟨ok, engine, books⟩ := h
  cases ev with
  | issueRequest req =>
      simp only [accounted, watched] at hs
      obtain ⟨hstep, rfl⟩ := audited_eq_ok.mp hs
      simp only [machine, bind_eq_ok, Prod.exists, pure_eq_ok] at hstep
      obtain ⟨resp, u, hissue, rfl⟩ := hstep
      refine ⟨?_, ?_, books.issueRequest hissue⟩
      all_goals obtain ⟨-, ⟨-, rfl⟩ | ⟨-, -, rfl⟩⟩ := issueRequest_cases hissue
      · exact ok
      · exact ok.of_entry_eq fun _ => rfl
      · exact engine
      · exact engine.of_entries rfl rfl rfl fun _ _ he _ _ => he
  | localMemory visit clk =>
      simp only [accounted, watched] at hs
      obtain ⟨hstep, rfl⟩ := audited_eq_ok.mp hs
      refine ⟨?_, engine.tickLocalMemory hL.recorded hstep, books.tickLocalMemory hstep⟩
      simp only [machine, tickLocalMemory, bind_eq_ok, Prod.exists, pure_eq_ok] at hstep
      obtain ⟨mem, record, served, -, rfl⟩ := hstep
      rw [foldl_served]
      exact ok.of_entry_eq fun _ => rfl
  | tick o clk =>
      simp only [accounted, watched, bind_eq_ok] at hs
      obtain ⟨⟨u, H₁⟩, haudit, ⟨v, H₂⟩, haudit', hloop⟩ := hs
      obtain ⟨hlsq, rfl⟩ := audited_eq_ok.mp haudit
      obtain ⟨hlmemq, rfl⟩ := audited_eq_ok.mp haudit'
      have hserve := tickLsq_serve hlsq
      have hu : Kept hL (u, noteTaken s u H) :=
        ⟨ok.moves (Q := fun _ => False) hserve.moves, engine.serve ok hserve,
          books.serve ok hserve⟩
      have hv : Kept hL (v, noteAccess u v (noteTaken s u H)) :=
        ⟨hu.ok.moves (Q := fun _ => False) (tickLmemq_moves hlmemq),
          hu.engine.tickLmemq hL.recorded hlmemq, hu.books.tickLmemq hL hu.engine hlmemq⟩
      refine foldlM_keeps (P := Kept hL) ?_ hv hloop
      rintro ⟨w, Hw⟩ key ⟨w', Hw'⟩ hw haudit
      obtain ⟨hround, rfl⟩ := audited_eq_ok.mp haudit
      exact ⟨hw.ok.moves (Q := fun _ => False) (tickEntry_moves hround),
        hw.engine.tickEntry hw.ok hround, hw.books.tickEntry hw.ok hw.engine hround⟩

/-- Where a request stands is a part of its execution. -/
theorem Books.serial_filter (h : Books s H) (block : Addr) :
    Serial (H.filter (·.block = block)) := by
  obtain ⟨done, last, hfilter, hcurrent⟩ := h.serial block
  refine ⟨done, last, hfilter, ?_⟩
  by_cases hrest : ∀ e, s.entry block = some e → e.state = .end_
  · exact ⟨{ type := .read, addr := 0, arrive := 0 }, 0, by rw [hcurrent.rest hrest]; exact List.nil_prefix⟩
  · push Not at hrest
    obtain ⟨e, he, hst⟩ := hrest
    obtain ⟨req, -, -, hlast⟩ := hcurrent.running e he hst
    refine ⟨req, 0, ?_⟩
    rw [hlast]
    exact (List.take_prefix _ _).trans (List.prefix_append _ _)

/-- **One request after another.** In every run of the controller over
static media and any local memory that answers each read it takes once:
requests leave the load/store queue in the order of acceptance, and for
each 4096-byte block one is executed after another. Each is taken, makes
its four accesses in order, and then ends, when its callback is run. -/
theorem serial_per_block {L : Component SubreqCallback τ} (hL : AnswersOnce L) {cfg : Config}
    {mem : τ} {next : List StaticMemory} {s : Recorded κ τ StaticMemory} {es : List (Event κ)}
    (hmem : hL.owed mem = 0)
    (h : (machine L.recorded StaticMemory.component).run (Sys.init cfg (mem, []) next) es =
      .ok s) :
    ∃ H : List (Step κ),
      (accounted L StaticMemory.component).run (Sys.init cfg (mem, []) next, []) es =
        .ok (s, H) ∧
      accepted s.log = H.filterMap Step.takenReq ++ s.ctrl.lsq.queue ∧
      (Exchange.taken s.localMemory.2).map (fun req => (req.type, req.addr)) =
        H.filterMap Step.accessed ∧
      Ait.ran s.log = H.flatMap Step.ran ∧
      ∀ block, Serial (H.filter (·.block = block)) := by
  rw [← accounted_run (H := []), map_eq_ok] at h
  obtain ⟨⟨s, H⟩, hrun, rfl⟩ := h
  have hkept : Kept hL (s, H) :=
    Machine.invariant (fun p ev q hp hq => Kept.step hL hp hq) (Kept.init hL hmem) hrun
  exact ⟨H, hrun, hkept.books.taken, hkept.books.accessed, hkept.books.ran,
    hkept.books.serial_filter⟩

end Runs

/-- A small configuration, to run. -/
def smallConfig : Config where
  mappingFunc := noneMapping
  bufferEntries := 1
  lsqEntries := 2
  lmemqEntries := 1
  wearLevelingThreshold := 2
  migrationBlockEntries := 1
  migrationLatency := 1

/-- A local memory that answers the reads it took at its next tick. -/
def answering : Component SubreqCallback (List (BaseRequest SubreqCallback)) where
  issueRequest := fun req q =>
    pure (⟨true, false, clkInvalid⟩, req,
      if req.type = .read ∧ req.callback.isSome then q ++ [req] else q)
  full := fun _ => pure false
  pending := fun q => !q.isEmpty
  drain := pure
  tick := fun _ clk q => pure ([], q.map fun req => ⟨.subreqServed, req.addr, clk⟩)

def answeringOnce : AnswersOnce answering where
  owed := List.length
  issue := by
    intro req mem resp req' mem' h
    simp only [answering, pure_eq_ok, Prod.mk.injEq] at h
    obtain ⟨rfl, rfl, rfl⟩ := h
    simp only [true_and]
    split <;> simp
  tick := by
    intro visit clk mem mem' ran h
    simp only [answering, pure_eq_ok, Prod.mk.injEq] at h
    obtain ⟨rfl, rfl⟩ := h
    simp

/-- Two reads of one 4096-byte block, the first of its second 256 bytes. -/
def firstRead : BaseRequest ℕ := { addr := 320, arrive := 0, type := .read, callback := some 0 }

def secondRead : BaseRequest ℕ := { addr := 64, arrive := 0, type := .read, callback := some 1 }

/-- Both wait, and the ticks see them through. -/
def twoReads : List (Event ℕ) :=
  [.issueRequest firstRead, .issueRequest secondRead] ++
    (List.range 16).flatMap fun i =>
      [.tick .asHeld (UInt64.ofNat i), .localMemory (fun _ => .asHeld) (UInt64.ofNat i)]

/-- The whole of the first, and then the whole of the second. -/
theorem serial_per_block_twoReads :
    ∃ s H, (accounted answering StaticMemory.component).run
        (Sys.init smallConfig ([], []) [⟨1, 1⟩], []) twoReads = .ok (s, H) ∧
      H = life firstRead 7 ++ life secondRead 14 ∧
      Ait.ran s.log = [⟨0, 256, 7⟩, ⟨1, 0, 14⟩] ∧ Serial (H.filter (·.block = 0)) := by
  obtain ⟨⟨s, H⟩, hrun, hH⟩ : Yields ((accounted answering StaticMemory.component).run
      (Sys.init smallConfig ([], []) [⟨1, 1⟩], []) twoReads) fun p =>
        p.2 = life firstRead 7 ++ life secondRead 14 := by decide +kernel
  have hmachine : (machine answering.recorded StaticMemory.component).run
      (Sys.init smallConfig ([], []) [⟨1, 1⟩]) twoReads = .ok s := by
    rw [← accounted_run (H := []), hrun]
    rfl
  obtain ⟨H', haccounted, -, -, hran, hserial⟩ := serial_per_block answeringOnce rfl hmachine
  obtain rfl : H = H' := congrArg Prod.snd (Except.ok.inj (hrun.symm.trans haccounted))
  have hcalled : Ait.ran s.log = (life firstRead 7 ++ life secondRead 14).flatMap Step.ran :=
    hran.trans (congrArg (List.flatMap Step.ran) hH)
  exact ⟨s, H, hrun, hH, hcalled, hserial 0⟩

end Ait

end Vans
