import Vans.Ait.Invariant
import Vans.Model.Recorded
/-!
# The AIT controller — the accesses to its local memory

A request in the queue of the local memory is served by four accesses of
a cache line, made one after another: the next is made once the one
before it is marked as served. This file states the calls the controller
receives, what it relies on of its local memory, and what holds of the
queue throughout every run: the request at its front, and every other,
is that of an entry of the buffer that waits for it.
-/

namespace Vans

namespace Ait

variable {κ τ μ : Type} {L : Component SubreqCallback τ} {M : Component Callback μ}

/-! ## The calls the controller receives -/

/-- A tick of the local memory, whose callbacks mark accesses as
served. -/
def tickLocalMemory (L : Component SubreqCallback τ) (visit : Visit) (currClk : Clk)
    (s : Sys κ τ μ) : Result (Sys κ τ μ) := do
  let (localMemory, served) ← L.tick visit currClk s.localMemory
  return served.foldl (fun s inv => subreqServedCallback inv.addr s)
    { s with localMemory := localMemory }

/-- Requests, ticks of the controller, and ticks of its local memory. -/
inductive Event (κ : Type) where
  | issueRequest (req : BaseRequest κ)
  | tick (order : VisitOrder) (currClk : Clk)
  | localMemory (visit : Visit) (currClk : Clk)

/-- The controller over media that answer at once, and call nothing
back. -/
def machine (L : Component SubreqCallback τ) (M : Component Callback μ) :
    Machine (Sys κ τ μ) (Event κ) String where
  step := fun s ev =>
    match ev with
    | .issueRequest req => do
        let (_, s) ← issueRequest req s
        return s
    | .tick o currClk => tick L M o currClk s
    | .localMemory visit currClk => tickLocalMemory L visit currClk s

/-! ## What is relied on of the local memory -/

/-- The local memory calls the callback of each read it takes once, in a
later tick, and no other: it keeps count of the calls it owes. -/
structure AnswersOnce (L : Component SubreqCallback τ) where
  owed : τ → ℕ
  issue : ∀ {req mem resp req' mem'}, L.issueRequest req mem = .ok (resp, req', mem') →
    owed mem' = owed mem + if resp.issued ∧ req.type = .read ∧ req.callback.isSome then 1 else 0
  tick : ∀ {visit clk mem mem' ran}, L.tick visit clk mem = .ok (mem', ran) →
    owed mem' + ran.length = owed mem

/-- So does the local memory kept with its record. -/
def AnswersOnce.recorded (h : AnswersOnce L) : AnswersOnce L.recorded where
  owed := fun mem => h.owed mem.1
  issue := by
    rintro req ⟨mem, record⟩ resp req' ⟨mem', record'⟩ hissue
    simp only [Component.recorded, bind_eq_ok, Prod.exists, pure_eq_ok, Prod.mk.injEq] at hissue
    obtain ⟨_, _, _, hissue, rfl, rfl, rfl, -⟩ := hissue
    exact h.issue hissue
  tick := by
    rintro visit clk ⟨mem, record⟩ ⟨mem', record'⟩ ran htick
    simp only [Component.recorded, bind_eq_ok, Prod.exists, pure_eq_ok, Prod.mk.injEq] at htick
    obtain ⟨_, _, htick, ⟨rfl, -⟩, rfl⟩ := htick
    exact h.tick htick

/-! ## The accesses of one request -/

namespace LmemqState

/-- An access to the line of the address is marked as served. -/
def mark (st : LmemqState) (addr : Addr) : LmemqState :=
  { st with subreqServed := Function.update st.subreqServed (Rmw.blockOffsetCl addr) true }

def markAll (st : LmemqState) (served : List (Invocation SubreqCallback)) : LmemqState :=
  served.foldl (fun st inv => st.mark inv.addr) st

/-- Marking leaves the rest. -/
theorem markAll_frame {st : LmemqState} {served : List (Invocation SubreqCallback)} :
    (st.markAll served).pendingFront = st.pendingFront ∧
      (st.markAll served).subreqPendingIndex = st.subreqPendingIndex := by
  unfold markAll
  refine foldl_keeps (P := fun u : LmemqState => u.pendingFront = st.pendingFront ∧
    u.subreqPendingIndex = st.subreqPendingIndex) (fun u inv h => ?_) ⟨rfl, rfl⟩
  exact h

/-- The set-up for a request at the front. -/
def setUp (st : LmemqState) : LmemqState :=
  if st.pendingFront then st else { st with pendingFront := true, subreqPendingIndex := -1 }

/-- The access in progress, if any, is served. -/
def Turn (st : LmemqState) : Prop :=
  st.subreqPendingIndex = -1 ∨
    ∃ i : Fin 4, st.subreqPendingIndex = i.val ∧ st.subreqServed i = true

/-- **The accesses are made one by one**, and answers are owed for the
one in progress only. -/
structure Ok (st : LmemqState) (owed : ℕ) : Prop where
  range : st.pendingFront → -1 ≤ st.subreqPendingIndex ∧ st.subreqPendingIndex ≤ 3
  quiet : st.pendingFront = false ∨ st.subreqPendingIndex = -1 →
    owed = 0 ∧ ∀ j, st.subreqServed j = false
  single : ∀ i : Fin 4, st.pendingFront → st.subreqPendingIndex = i.val →
    owed ≤ 1 ∧ (st.subreqServed i = true → owed = 0) ∧
      ∀ j, i < j → st.subreqServed j = true → owed = 0 ∧ st.subreqServed i = false

namespace Ok

variable {st : LmemqState} {owed owed' : ℕ}

theorem init : Ok {} 0 := ⟨nofun, fun _ => ⟨rfl, fun _ => rfl⟩, fun _ => nofun⟩

theorem setUp (h : st.Ok owed) : st.setUp.Ok owed := by
  unfold LmemqState.setUp
  split
  · exact h
  · rename_i hfront
    have hquiet := h.quiet (.inl (by simpa using hfront))
    refine ⟨fun _ => ?_, fun _ => hquiet, fun i _ hi => ?_⟩
    · change (-1 : ℤ) ≤ -1 ∧ (-1 : ℤ) ≤ 3
      omega
    · change (-1 : ℤ) = _ at hi
      omega

/-- Before the next access nothing is owed, and nothing is served ahead
of it. -/
theorem of_turn (h : st.Ok owed) (hfront : st.pendingFront) (hturn : st.Turn) :
    owed = 0 ∧ ∀ j : Fin 4, st.subreqPendingIndex < j.val → st.subreqServed j = false := by
  obtain hi | ⟨i, hi, hserved⟩ := hturn
  · exact ⟨(h.quiet (.inr hi)).1, fun j _ => (h.quiet (.inr hi)).2 j⟩
  · obtain ⟨-, hzero, hahead⟩ := h.single i hfront hi
    refine ⟨hzero hserved, fun j hj => ?_⟩
    rw [← Bool.not_eq_true]
    intro hj'
    have hlt : i < j := by
      rw [hi] at hj
      exact Fin.lt_def.mpr (by omega)
    simp [hserved] at hahead
    exact absurd hj' (by simpa using hahead j hlt)

/-- The next access is made. -/
theorem next (h : st.Ok owed) (hfront : st.pendingFront) (hturn : st.Turn)
    (hlt : st.subreqPendingIndex < 3) (howed : owed' ≤ 1) :
    Ok { st with subreqPendingIndex := st.subreqPendingIndex + 1 } owed' := by
  have hrange := h.range hfront
  obtain ⟨-, hahead⟩ := h.of_turn hfront hturn
  refine ⟨fun _ => ⟨?_, ?_⟩, fun hquiet => ?_, fun i _ hi => ?_⟩
  · change -1 ≤ st.subreqPendingIndex + 1
    omega
  · change st.subreqPendingIndex + 1 ≤ 3
    omega
  · rcases hquiet with hquiet | hquiet
    · simp [hfront] at hquiet
    · change st.subreqPendingIndex + 1 = -1 at hquiet
      omega
  · change st.subreqPendingIndex + 1 = i.val at hi
    refine ⟨howed, fun hserved => ?_, fun j hj hserved => ?_⟩
    · simp [hahead i (by omega)] at hserved
    · have := Fin.lt_def.mp hj
      simp [hahead j (by omega)] at hserved

/-- The access in progress is marked, which is the only one ahead. -/
theorem mark_of_ahead {addr : Addr} (h : st.Ok owed) (hfront : st.pendingFront)
    (hindex : st.subreqPendingIndex ≠ -1)
    (hahead : ∀ j : Fin 4, st.subreqPendingIndex ≤ j.val → st.subreqServed j = false) :
    (st.mark addr).Ok 0 := by
  refine ⟨h.range, fun hquiet => ?_, fun i _ hi => ⟨Nat.zero_le _, fun _ => rfl, ?_⟩⟩
  · rcases hquiet with hquiet | hquiet
    · simp [mark, hfront] at hquiet
    · exact absurd hquiet hindex
  · intro j hj hserved
    change st.subreqPendingIndex = i.val at hi
    have hlt := Fin.lt_def.mp hj
    have hi' := hahead i (by omega)
    have hj' := hahead j (by omega)
    refine ⟨rfl, ?_⟩
    simp only [mark, Function.update_apply] at hserved ⊢
    split at hserved
    · rename_i hb
      rw [if_neg (by rw [← hb]; exact Fin.ne_of_lt hj), hi']
    · simp [hj'] at hserved

/-- An answer that is owed comes. -/
theorem answered {addr : Addr} (h : st.Ok (owed + 1)) : (st.mark addr).Ok owed := by
  have hquiet : ¬ (st.pendingFront = false ∨ st.subreqPendingIndex = -1) := fun hq => by
    have := (h.quiet hq).1
    omega
  rw [not_or] at hquiet
  have hfront : st.pendingFront = true := by simpa using hquiet.1
  obtain ⟨hlow, hhigh⟩ := h.range hfront
  obtain ⟨i, hi⟩ : ∃ i : Fin 4, st.subreqPendingIndex = i.val :=
    ⟨⟨st.subreqPendingIndex.toNat, by omega⟩, by simp; omega⟩
  obtain ⟨hle, hserved, hahead⟩ := h.single i hfront hi
  obtain rfl : owed = 0 := by omega
  refine h.mark_of_ahead hfront hquiet.2 fun j hj => ?_
  rw [← Bool.not_eq_true]
  intro hj'
  rcases Nat.eq_or_lt_of_le (by omega : i.val ≤ j.val) with heq | hlt
  · have := hserved (Fin.ext heq ▸ hj')
    omega
  · have := (hahead j (Fin.lt_def.mpr hlt) hj').1
    omega

theorem markAll {served : List (Invocation SubreqCallback)} :
    ∀ {st : LmemqState}, st.Ok (owed + served.length) → (st.markAll served).Ok owed := by
  induction served with
  | nil => exact fun h => h
  | cons inv served ih => exact fun {st} h => ih (@answered st (owed + served.length) _ h)

/-- The last access is served. -/
theorem finish (h : st.Ok owed) (hfront : st.pendingFront) (hindex : st.subreqPendingIndex = 3)
    (hserved : st.subreqServed 3 = true) :
    Ok { st with pendingFront := false, subreqServed := fun _ => false } owed :=
  ⟨nofun, fun _ => ⟨(h.single 3 hfront hindex).2.1 hserved, fun _ => rfl⟩, fun _ => nofun⟩

end Ok

end LmemqState

/-! ## What serving the queue of the local memory does -/

/-- The address of the access after the one in progress. -/
def nextAccess (st : LmemqState) (front : BaseRequest κ) : Addr :=
  front.addr + UInt64.ofNat (st.subreqPendingIndex + 1).toNat * cpuClSize

/-- **What serving the queue does**, once set up: nothing, or the request
at the front is finished, or its next access is made. -/
inductive LmemqStep (L : Component SubreqCallback τ) (clk : Clk) (s : Sys κ τ μ) :
    Sys κ τ μ → Prop
  | wait : LmemqStep L clk s s
  | finish {front : BaseRequest κ} {rest : List (BaseRequest κ)} {e : BufferEntry κ}
      (hq : s.ctrl.lmemq.queue = front :: rest)
      (hindex : s.ctrl.lmemqState.subreqPendingIndex = 3)
      (hserved : s.ctrl.lmemqState.subreqServed 3 = true)
      (he : s.entry (translateToBlockAddr front.addr) = some e) :
      LmemqStep L clk s
        (({ s with
          ctrl.lmemqState :=
            { s.ctrl.lmemqState with pendingFront := false, subreqServed := fun _ => false }
          ctrl.lmemq.queue := rest } : Sys κ τ μ).setEntry (translateToBlockAddr front.addr)
            { e with nextActionClk := clk + 1, waitingActionClkUpdate := false })
  | start {front : BaseRequest κ} {rest : List (BaseRequest κ)} {e : BufferEntry κ}
      {resp : BaseResponse} {req : BaseRequest SubreqCallback} {localMemory : τ}
      {st : LmemqState} {cnt : Counter EventName} (hq : s.ctrl.lmemq.queue = front :: rest)
      (hturn : s.ctrl.lmemqState.Turn) (hindex : s.ctrl.lmemqState.subreqPendingIndex < 3)
      (he : s.entry (translateToBlockAddr front.addr) = some e)
      (hissue : L.issueRequest
        { type := front.type
          addr := nextAccess s.ctrl.lmemqState front
          arrive := clk
          callback := some .subreqServed } s.localMemory = .ok (resp, req, localMemory))
      (hyes : resp.issued = true)
      (hst : st =
        let next := { s.ctrl.lmemqState with
          subreqPendingIndex := s.ctrl.lmemqState.subreqPendingIndex + 1 }
        match front.type with
        | .write => next.mark (nextAccess s.ctrl.lmemqState front)
        | .read => next) :
      LmemqStep L clk s
        { s with
          ctrl.lmemqState := st
          ctrl.cntEvents := cnt
          localMemory := localMemory }

section Functions

variable {s t : Sys κ τ μ} {clk : Clk}

/-- The answers of a tick, all at once. -/
theorem foldl_served {served : List (Invocation SubreqCallback)} :
    served.foldl (fun s inv => subreqServedCallback inv.addr s) s =
      { s with ctrl.lmemqState := s.ctrl.lmemqState.markAll served } := by
  induction served generalizing s with
  | nil => rfl
  | cons inv served ih => exact ih

/-- Nothing is left of an earlier request at the set-up. -/
theorem lmemqSetUp_eq {owed : ℕ} (h : s.ctrl.lmemqState.Ok owed) :
    lmemqSetUp s = { s with ctrl.lmemqState := s.ctrl.lmemqState.setUp } := by
  unfold lmemqSetUp LmemqState.setUp
  split
  · rfl
  · rename_i hfront
    have hserved := (h.quiet (.inl (by simpa using hfront))).2 0
    rw [hserved]
    rfl

theorem lmemqFinish_step {front : BaseRequest κ} {rest : List (BaseRequest κ)}
    (hq : s.ctrl.lmemq.queue = front :: rest)
    (hindex : s.ctrl.lmemqState.subreqPendingIndex = 3)
    (hserved : s.ctrl.lmemqState.subreqServed 3 = true) (h : lmemqFinish clk front s = .ok t) :
    LmemqStep L clk s t := by
  unfold lmemqFinish at h
  dsimp only at h
  split at h
  · exact absurd h throw_ne_ok
  · rename_i e he
    have hstep := @LmemqStep.finish _ _ _ L clk s front rest e hq hindex hserved he
    obtain rfl := pure_eq_ok.mp h
    simpa [Sys.setEntry, hq] using hstep

theorem lmemqStart_step {front : BaseRequest κ} {rest : List (BaseRequest κ)}
    (hq : s.ctrl.lmemq.queue = front :: rest) (hturn : s.ctrl.lmemqState.Turn)
    (hindex : s.ctrl.lmemqState.subreqPendingIndex < 3) (h : lmemqStart L clk front s = .ok t) :
    LmemqStep L clk s t := by
  unfold lmemqStart at h
  dsimp only at h
  split at h
  · exact absurd h throw_ne_ok
  · rename_i e he
    simp only [bind_eq_ok, Prod.exists] at h
    obtain ⟨resp, req, localMemory, hissue, h⟩ := h
    split at h
    · exact absurd h throw_ne_ok
    · rename_i hyes
      split at h <;> rename_i ht <;> obtain rfl := pure_eq_ok.mp h
      · exact .start hq hturn hindex he hissue (by simpa using hyes) (by rw [ht]; rfl)
      · exact .start hq hturn hindex he hissue (by simpa using hyes) (by rw [ht])

/-- **The queue is empty, or it is set up and served.** -/
theorem tickLmemq_cases (h : tickLmemq L clk s = .ok t) :
    (s.ctrl.lmemq.queue = [] ∧ t = s) ∨
      (s.ctrl.lmemq.queue ≠ [] ∧ LmemqStep L clk (lmemqSetUp s) t) := by
  unfold tickLmemq at h
  split at h
  · rename_i hempty
    exact .inl ⟨by simpa [RequestQueue.empty] using hempty, (pure_eq_ok.mp h).symm⟩
  · rename_i hne
    refine .inr ⟨by simpa [RequestQueue.empty] using hne, ?_⟩
    simp only [bind_eq_ok] at h
    obtain ⟨full, -, h⟩ := h
    split at h
    · exact pure_eq_ok.mp h ▸ .wait
    · split at h
      · exact absurd h throw_ne_ok
      · rename_i front rest hq
        split at h
        · rename_i hrange
          split at h
          · exact pure_eq_ok.mp h ▸ .wait
          · rename_i hserved
            simp only [Bool.not_eq_true', Bool.not_eq_false] at hserved
            split at h
            · rename_i hthree
              refine lmemqFinish_step hq hthree ?_ h
              simpa [hthree] using hserved
            · refine lmemqStart_step hq (.inr ⟨_, ?_, hserved⟩) (by omega) h
              simp
              omega
        · split at h
          · rename_i hminus
            exact lmemqStart_step hq (.inl hminus) (by omega) h
          · exact absurd h throw_ne_ok

end Functions

/-! ## What a transfer does to the queue -/

/-- The entry waits for the local memory, or is done with it. -/
def BufferEntry.inDram (e : BufferEntry κ) : Prop :=
  e.state = .pendingReadDram ∨ e.state = .pendingWriteDram

/-- What the request of an entry does to the local memory. -/
def BufferEntry.accessType (e : BufferEntry κ) : BaseRequestType :=
  if isWrite e.pendingRequest.type then .write else .read

/-- Whether a transfer queues its entry for the local memory; nothing
else of the queue changes. -/
inductive Queues (clk : Clk) (s : Sys κ τ μ) (e e' : BufferEntry κ) (s' : Sys κ τ μ) : Prop
  | no (hq : s'.ctrl.lmemq = s.ctrl.lmemq) (hst : s'.ctrl.lmemqState = s.ctrl.lmemqState)
      (hmem : s'.localMemory = s.localMemory) (he : e' = e ∨ ¬ e'.inDram)
  | yes (hq : s'.ctrl.lmemq =
        { s.ctrl.lmemq with queue := s.ctrl.lmemq.queue ++ [e.lmemRequest e.accessType clk] })
      (hst : s'.ctrl.lmemqState = s.ctrl.lmemqState) (hmem : s'.localMemory = s.localMemory)
      (hlen : s.ctrl.lmemq.queue.length < s.ctrl.lmemq.maxEntries) (hdram : e'.inDram)
      (hwait : e'.waitingActionClkUpdate = true)

section Table

variable {s s' : Sys κ τ μ} {e e' : BufferEntry κ} {key : Addr} {clk : Clk}

theorem issueLmemq_queues {type : BaseRequestType} {resp : BaseResponse} {u : Sys κ τ μ}
    (hissue : issueLmemq e type clk s = .ok (resp, u)) (htype : type = e.accessType)
    (hfail : resp.issued = false → e' = e ∧ s'.ctrl.lmemq = u.ctrl.lmemq ∧
      s'.ctrl.lmemqState = u.ctrl.lmemqState ∧ s'.localMemory = u.localMemory)
    (hdone : resp.issued = true → e'.inDram ∧
      e'.waitingActionClkUpdate = !resp.deterministic ∧ s'.ctrl.lmemq = u.ctrl.lmemq ∧
      s'.ctrl.lmemqState = u.ctrl.lmemqState ∧ s'.localMemory = u.localMemory) :
    Queues clk s e e' s' := by
  obtain ⟨hdet, ⟨hiss, rfl⟩ | ⟨hiss, hlen, rfl⟩⟩ := issueLmemq_cases hissue
  · obtain ⟨he, hq, hst, hmem⟩ := hfail hiss
    exact .no hq hst hmem (.inl he)
  · obtain ⟨hdram, hwait, hq, hst, hmem⟩ := hdone hiss
    exact .yes (by rw [hq, htype]) hst hmem hlen hdram (by rw [hwait, hdet]; rfl)

/-- **The table queues for the local memory** in the transfers into its
two states, and in no others. -/
theorem stateTrans_queues {func : StateTrans κ τ μ}
    (hfunc : stateTrans M e.pendingRequest.type e.state = some func)
    (h : func key e clk s = .ok (e', s')) : Queues clk s e e' s' := by
  unfold stateTrans at hfunc
  split at hfunc <;> rename_i ht hst <;> cases hfunc
  case h_1 | h_10 =>
      simp only [Trans.readMedia, bind_eq_ok, Prod.exists] at h
      obtain ⟨resp, u, hissue, h⟩ := h
      obtain ⟨next, rfl⟩ := issueNextLevel_eq_ok hissue
      split at h
      · exact absurd h throw_ne_ok
      · obtain ⟨rfl, rfl⟩ := Prod.mk.inj (pure_eq_ok.mp h)
        exact .no rfl rfl rfl (.inr (by simp [BufferEntry.inDram]))
  case h_4 | h_8 =>
      simp only [Trans.writeMedia, bind_eq_ok, Prod.exists] at h
      obtain ⟨resp, u, hissue, h⟩ := h
      obtain ⟨next, rfl⟩ := issueNextLevel_eq_ok hissue
      split at h
      · exact absurd h throw_ne_ok
      · obtain ⟨rfl, rfl⟩ := Prod.mk.inj (pure_eq_ok.mp h)
        exact .no rfl rfl rfl (.inr (by simp [BufferEntry.inDram]))
  case h_3 | h_7 =>
      simp only [Trans.migrate, bind_eq_ok] at h
      obtain ⟨delay, -, h⟩ := h
      obtain ⟨rfl, rfl⟩ := Prod.mk.inj (pure_eq_ok.mp h)
      split <;> exact .no rfl rfl rfl (.inr (by simp [BufferEntry.inDram]))
  case h_5 | h_9 | h_12 | h_14 =>
      obtain ⟨rfl, rfl⟩ := Prod.mk.inj (pure_eq_ok.mp h)
      exact .no rfl rfl rfl (.inr (by simp [BufferEntry.inDram]))
  case h_2 | h_6 | h_11 | h_13 =>
      simp only [Trans.writeMissPendingReadMedia, Trans.writeHitInit,
        Trans.readMissPendingReadMedia, Trans.readHitInit, bind_eq_ok, Prod.exists] at h
      obtain ⟨resp, u, hissue, h⟩ := h
      refine issueLmemq_queues hissue (by simp [BufferEntry.accessType, ht, isWrite]) ?_ ?_
      all_goals
        intro hiss
        simp only [hiss, Bool.not_true, Bool.not_false, if_true, Bool.false_eq_true, if_false] at h
        obtain ⟨rfl, rfl⟩ := Prod.mk.inj (pure_eq_ok.mp h)
      · exact ⟨rfl, rfl, rfl, rfl⟩
      · exact ⟨by simp [BufferEntry.inDram], rfl, rfl, rfl, rfl⟩

end Table

/-! ## The invariant -/

/-- The entry waits for the request to be served. -/
structure BufferEntry.Awaits (e : BufferEntry κ) (q : BaseRequest κ) : Prop where
  dram : e.inDram
  waiting : e.waitingActionClkUpdate = true
  addr : q.addr = e.pendingRequest.rmwBlockAddr
  type : q.type = e.accessType

/-- The entry's block of a request in the queue. -/
def queueBlock (q : BaseRequest κ) : Addr := translateToBlockAddr q.addr

/-- **The queue of the local memory**: the accesses are made one by one
for the request at its front; each request is that of an entry, which
waits for it, and no two are of one entry. -/
structure Sys.Engine (owed : τ → ℕ) (s : Sys κ τ μ) : Prop where
  state : s.ctrl.lmemqState.Ok (owed s.localMemory)
  busy : s.ctrl.lmemqState.pendingFront → s.ctrl.lmemq.queue ≠ []
  queued : ∀ q ∈ s.ctrl.lmemq.queue, ∃ e, s.entry (queueBlock q) = some e ∧ e.Awaits q
  distinct : (s.ctrl.lmemq.queue.map queueBlock).Nodup

namespace Sys.Engine

variable {owed : τ → ℕ} {s t u : Sys κ τ μ} {clk : Clk} {key : Addr} {e e' : BufferEntry κ}

theorem init {cfg : Config} {localMemory : τ} {next : List μ} (h : owed localMemory = 0) :
    (Sys.init cfg localMemory next : Sys κ τ μ).Engine owed where
  state := h.symm ▸ LmemqState.Ok.init
  busy := nofun
  queued := nofun
  distinct := List.nodup_nil

/-- The queue and the memory are as they were, and no entry that waits
has changed. -/
theorem of_entries (h : s.Engine owed) (hq : t.ctrl.lmemq.queue = s.ctrl.lmemq.queue)
    (hst : t.ctrl.lmemqState = s.ctrl.lmemqState) (hmem : t.localMemory = s.localMemory)
    (hentry : ∀ k e, s.entry k = some e → e.inDram → e.waitingActionClkUpdate = true →
      t.entry k = some e) : t.Engine owed where
  state := by rw [hst, hmem]; exact h.state
  busy := by rw [hst, hq]; exact h.busy
  queued := by
    rw [hq]
    intro q hmem
    obtain ⟨e, he, hawait⟩ := h.queued q hmem
    exact ⟨e, hentry _ e he hawait.dram hawait.waiting, hawait⟩
  distinct := by rw [hq]; exact h.distinct

/-- An entry that is not at rest stays where room is made. -/
theorem makeRoom_entry (h : MakeRoom s t) (ok : s.Ok) (he : s.entry key = some e)
    (hst : e.state ≠ .end_) : t.entry key = some e := by
  cases h with
  | had => exact he
  | @evict key' e' he' hend hfull =>
      rw [entry_erase, (ok key' e' he').aligned, if_neg, he]
      rintro rfl
      rw [he] at he'
      cases he'
      exact hst hend

theorem serve (h : s.Engine owed) (ok : s.Ok) (hs : Serve s t) : t.Engine owed := by
  cases hs with
  | wait => exact h
  | @miss u front rest clk type bits event table hroom hq ht hnone hlen htable =>
      have hsame : u.ctrl.lmemq.queue = s.ctrl.lmemq.queue ∧
          u.ctrl.lmemqState = s.ctrl.lmemqState ∧ u.localMemory = s.localMemory := by
        cases hroom <;> exact ⟨rfl, rfl, rfl⟩
      refine h.of_entries hsame.1 hsame.2.1 hsame.2.2 fun k e he hdram hwait => ?_
      have hu : u.entry k = some e := makeRoom_entry hroom ok he (by rcases hdram with h | h <;> simp [h])
      rw [entry_take, if_neg (by rintro rfl; simp [hnone] at hu), hu]
  | hit hq ht he hpend htable =>
      refine h.of_entries rfl rfl rfl fun k e' he' hdram hwait => ?_
      rw [entry_take, if_neg, he']
      rintro rfl
      rw [he] at he'
      cases he'
      have hend := (ok _ _ he).pending.mp hpend
      rcases hdram with h | h <;> simp [hend] at h

/-- **A transfer keeps the queue.** -/
theorem transfer {s' : Sys κ τ μ} (h : s.Engine owed) (ok : s.Ok) (he : s.entry key = some e)
    (hact : e.state = .init ∨ (e.pending ∧ e.waitingActionClkUpdate = false))
    (hm : EntryMove s e e' s') (hqueues : Queues clk s e e' s') :
    (s'.setEntry key e').Engine owed := by
  have hentry : ∀ k, (s'.setEntry key e').entry k = if k = key then some e' else s.entry k := by
    intro k
    rw [entry_setEntry, Sys.entry, hm.frame.1]
    rfl
  -- the entry that acts waits for nothing
  have hother : ∀ k e₀, s.entry k = some e₀ → e₀.inDram → e₀.waitingActionClkUpdate = true →
      k ≠ key := by
    rintro k e₀ he₀ hdram hwait rfl
    rw [he] at he₀
    cases he₀
    rcases hact with hact | ⟨-, hact⟩
    · rcases hdram with h | h <;> simp [hact] at h
    · simp [hwait] at hact
  cases hqueues with
  | no hq hst hmem =>
      refine h.of_entries (congrArg _ hq) hst hmem fun k e₀ he₀ hdram hwait => ?_
      rw [hentry, if_neg (hother k e₀ he₀ hdram hwait), he₀]
  | yes hq hst hmem hlen hdram hwait =>
      have hreq := hm.request.2
      -- the request queued is for the block of the entry
      have hblock : queueBlock (e.lmemRequest e.accessType clk) = key := (ok key e he).block
      have hqueue : (s'.setEntry key e').ctrl.lmemq.queue =
          s.ctrl.lmemq.queue ++ [e.lmemRequest e.accessType clk] := by
        change s'.ctrl.lmemq.queue = _
        rw [hq]
      refine ⟨?_, fun _ => by rw [hqueue]; simp, fun q hmem => ?_, ?_⟩
      · change s'.ctrl.lmemqState.Ok (owed s'.localMemory)
        rw [hst, hmem]
        exact h.state
      · rw [hqueue] at hmem
        rcases List.mem_append.mp hmem with hmem | hmem
        · obtain ⟨e₀, he₀, hawait⟩ := h.queued q hmem
          refine ⟨e₀, ?_, hawait⟩
          rw [hentry, if_neg (hother _ e₀ he₀ hawait.dram hawait.waiting), he₀]
        · obtain rfl := List.mem_singleton.mp hmem
          refine ⟨e', by rw [hentry, hblock, if_pos rfl], hdram, hwait, ?_, ?_⟩
          · rw [hreq]
            rfl
          · unfold BufferEntry.accessType
            rw [hreq]
            rfl
      · rw [hqueue, List.map_append, List.map_singleton, hblock]
        refine List.nodup_append.mpr ⟨h.distinct, List.nodup_singleton _, ?_⟩
        rintro k hk _ hkey rfl
        obtain rfl := List.mem_singleton.mp hkey
        obtain ⟨q, hmem, hk⟩ := List.mem_map.mp hk
        obtain ⟨e₀, he₀, hawait⟩ := h.queued q hmem
        exact hother _ e₀ he₀ hawait.dram hawait.waiting hk

theorem setUp (h : s.Engine owed) (hne : s.ctrl.lmemq.queue ≠ []) :
    (lmemqSetUp s).Engine owed ∧ (lmemqSetUp s).ctrl.lmemqState.pendingFront = true := by
  rw [lmemqSetUp_eq h.state]
  refine ⟨⟨h.state.setUp, fun _ => hne, h.queued, h.distinct⟩, ?_⟩
  change s.ctrl.lmemqState.setUp.pendingFront = true
  unfold LmemqState.setUp
  split
  · assumption
  · rfl

/-- **Serving the queue keeps it.** -/
theorem lmemqStep (hL : AnswersOnce L) (h : s.Engine hL.owed)
    (hfront : s.ctrl.lmemqState.pendingFront = true) (hs : LmemqStep L clk s t) :
    t.Engine hL.owed := by
  cases hs with
  | wait => exact h
  | @finish front rest e hq hindex hserved he =>
      have hdistinct := h.distinct
      rw [hq, List.map_cons, List.nodup_cons] at hdistinct
      refine ⟨h.state.finish hfront hindex hserved, nofun, fun q hmem => ?_, hdistinct.2⟩
      obtain ⟨e₀, he₀, hawait⟩ := h.queued q (by rw [hq]; exact List.mem_cons_of_mem _ hmem)
      refine ⟨e₀, ?_, hawait⟩
      rw [entry_setEntry, if_neg, ← he₀]
      · rfl
      · intro hk
        exact hdistinct.1 (List.mem_map.mpr ⟨q, hmem, hk⟩)
  | @start front rest e resp req localMemory st cnt hq hturn hindex he hissue hyes hst =>
      obtain ⟨hzero, hahead⟩ := h.state.of_turn hfront hturn
      have howed := hL.issue hissue
      refine ⟨?_, fun _ => h.busy hfront, h.queued, h.distinct⟩
      change st.Ok (hL.owed localMemory)
      rw [howed, hzero, hst]
      have hrange := h.state.range hfront
      cases front.type with
      | read =>
          simp only [hyes, Option.isSome_some, and_self, if_true]
          exact h.state.next hfront hturn hindex (le_refl 1)
      | write =>
          have hnext := h.state.next hfront hturn hindex (Nat.zero_le 1)
          simp only [reduceCtorEq, false_and, and_false, if_false]
          refine hnext.mark_of_ahead hfront (by simp; omega) fun j hj => hahead j ?_
          change s.ctrl.lmemqState.subreqPendingIndex + 1 ≤ j.val at hj
          omega

theorem tickLmemq (hL : AnswersOnce L) (h : s.Engine hL.owed)
    (hs : Ait.tickLmemq L clk s = .ok t) : t.Engine hL.owed := by
  obtain ⟨-, rfl⟩ | ⟨hne, hstep⟩ := tickLmemq_cases hs
  · exact h
  · obtain ⟨hset, hfront⟩ := h.setUp hne
    exact lmemqStep hL hset hfront hstep

theorem tickEntry (h : s.Engine owed) (ok : s.Ok) (hs : Ait.tickEntry M clk s key = .ok t) :
    t.Engine owed := by
  obtain rfl | ⟨e, e', s', func, he, hact, hfunc, hrun, rfl⟩ := tickEntry_cases hs
  · exact h
  · exact h.transfer ok he hact (stateTrans_move hfunc hrun) (stateTrans_queues hfunc hrun)

/-- **Its answers keep it.** -/
theorem tickLocalMemory {visit : Visit} (hL : AnswersOnce L) (h : s.Engine hL.owed)
    (hs : Ait.tickLocalMemory L visit clk s = .ok t) : t.Engine hL.owed := by
  simp only [Ait.tickLocalMemory, bind_eq_ok, Prod.exists, pure_eq_ok] at hs
  obtain ⟨localMemory, served, htick, rfl⟩ := hs
  have howed := hL.tick htick
  rw [foldl_served]
  refine ⟨(howed ▸ h.state).markAll, fun hfront => h.busy ?_, h.queued, h.distinct⟩
  exact (LmemqState.markAll_frame.1.symm.trans hfront)

end Sys.Engine

end Ait

end Vans
