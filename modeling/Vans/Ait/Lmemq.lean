import Vans.Ait.Serial
import Vans.Ait.LocalMemory
/-!
# The AIT controller — the engine behind its local memory

The request at the front of the queue of the local memory is served by
four accesses, each marked by a flag once it is served: a write at once,
a read by a callback that finds the flag from the address it comes with.
This file says where the engine stands in every state: which flags are
set, and which read is outstanding. Beside the history of the queue, it
says that each request is popped once, after its four accesses were
served, and that every callback is of the access in progress.

The address finds the right flag because the blocks, and where the
memory starts, are multiples of 256.
-/

namespace Vans

namespace Ait

variable {κ τ μ : Type} {L : Component SubreqCallback τ} {M : Component Callback μ}

/-! ## Where the engine stands -/

/-- The address of a request's access. -/
def accessAddr (q : BaseRequest κ) (i : ℕ) : Addr := q.addr + UInt64.ofNat i * cpuClSize

/-- **The engine at a request**: the flags are set up to the access in
progress, and not beyond; while that is not served, a read of its line
is outstanding, and no other. -/
structure LmemqState.At (st : LmemqState) (front : BaseRequest κ) (outstanding : Multiset Addr) :
    Prop where
  range : -1 ≤ st.subreqPendingIndex ∧ st.subreqPendingIndex ≤ 3
  before : ∀ j : Fin 4, j.val < st.subreqPendingIndex → st.subreqServed j = true
  after : ∀ j : Fin 4, st.subreqPendingIndex < j.val → st.subreqServed j = false
  turn : st.Turn → outstanding = 0
  waiting : ∀ i : Fin 4, st.subreqPendingIndex = i.val → st.subreqServed i = false →
    front.type = .read ∧ outstanding = {accessAddr front i.val}

/-- The flags are clear while no request is being served. -/
structure Sys.Engaged (outstanding : τ → Multiset Addr) (s : Sys κ τ μ) : Prop where
  idle : s.ctrl.lmemqState.pendingFront = false →
    (∀ j, s.ctrl.lmemqState.subreqServed j = false) ∧ outstanding s.localMemory = 0
  busy : s.ctrl.lmemqState.pendingFront = true → ∃ front rest,
    s.ctrl.lmemq.queue = front :: rest ∧
      s.ctrl.lmemqState.At front (outstanding s.localMemory)

/-! ### Addresses and flags -/

/-- The address is the first of a 256-byte block. -/
def Aligned (a : Addr) : Prop := a.toNat % 256 = 0

theorem aligned_translateToBlockAddr (a : Addr) : Aligned (Rmw.translateToBlockAddr a) := by
  rw [Aligned, Rmw.translateToBlockAddr_toNat]
  omega

/-- **The address of an access finds its flag**, also when it is moved by
where the memory starts. -/
theorem blockOffsetCl_access {q : BaseRequest κ} {start : Addr} (hq : Aligned q.addr)
    (hstart : Aligned start) (i : Fin 4) :
    Rmw.blockOffsetCl (accessAddr q i.val + start) = i := by
  have hlt := i.isLt
  have hmul : (UInt64.ofNat i.val * cpuClSize).toNat = i.val * 64 := by
    rw [UInt64.toNat_mul, UInt64.toNat_ofNat_of_lt' (by change _ < 2 ^ 64; omega)]
    exact Nat.mod_eq_of_lt (by change i.val * 64 < 2 ^ 64; omega)
  apply Fin.ext
  unfold Aligned at hq hstart
  rw [Rmw.blockOffsetCl_val, accessAddr, UInt64.toNat_add, UInt64.toNat_add, hmul]
  omega

theorem aligned_zero : Aligned 0 := rfl

/-- The flag of an access, without a start. -/
theorem blockOffsetCl_accessAddr {q : BaseRequest κ} (hq : Aligned q.addr) (i : Fin 4) :
    Rmw.blockOffsetCl (accessAddr q i.val) = i := by
  have h := blockOffsetCl_access hq aligned_zero i
  rwa [UInt64.add_zero] at h

/-! ### The steps of the engine -/

namespace LmemqState.At

variable {st : LmemqState} {front : BaseRequest κ} {outstanding outstanding' : Multiset Addr}

/-- The engine is set up. -/
theorem setUp (hidle : st.pendingFront = false) (hflags : ∀ j, st.subreqServed j = false) :
    st.setUp.At front 0 := by
  have hset : st.setUp = { st with pendingFront := true, subreqPendingIndex := -1 } := by
    rw [LmemqState.setUp, if_neg (by simp [hidle])]
  rw [hset]
  refine ⟨⟨le_refl _, ?_⟩, fun j hj => ?_, fun j _ => hflags j, fun _ => rfl, fun i hi => ?_⟩
  · change (-1 : ℤ) ≤ 3
    omega
  · change (j.val : ℤ) < -1 at hj
    omega
  · change (-1 : ℤ) = i.val at hi
    omega

/-- Where the access in progress is served, all up to it are. -/
theorem upTo (h : st.At front outstanding) (hturn : st.Turn) (j : Fin 4)
    (hj : j.val ≤ st.subreqPendingIndex) : st.subreqServed j = true := by
  rcases hturn with hi | ⟨i, hi, hserved⟩
  · omega
  · rcases Nat.eq_or_lt_of_le (by omega : j.val ≤ i.val) with heq | hlt
    · rwa [Fin.ext heq]
    · exact h.before j (by omega)

/-- The next access is in its place. -/
theorem next_range (h : st.At front outstanding) (hlt : st.subreqPendingIndex < 3) :
    ∃ i : Fin 4, st.subreqPendingIndex + 1 = i.val ∧ (st.subreqPendingIndex + 1).toNat = i.val := by
  have hrange := h.range
  refine ⟨⟨(st.subreqPendingIndex + 1).toNat, by omega⟩, ?_, rfl⟩
  change _ = (((st.subreqPendingIndex + 1).toNat : ℕ) : ℤ)
  omega

/-- The next access is a read, which is outstanding. -/
theorem nextRead (h : st.At front outstanding) (hlt : st.subreqPendingIndex < 3)
    (hturn : st.Turn) (ht : front.type = .read) :
    At { st with subreqPendingIndex := st.subreqPendingIndex + 1 } front
      {accessAddr front (st.subreqPendingIndex + 1).toNat} := by
  obtain ⟨i, hi, hnat⟩ := h.next_range hlt
  have hclear : st.subreqServed i = false := h.after i (by omega)
  refine ⟨⟨?_, ?_⟩, fun j hj => ?_, fun j hj => ?_, ?_, fun j hj _ => ⟨ht, ?_⟩⟩
  · change -1 ≤ st.subreqPendingIndex + 1
    omega
  · change st.subreqPendingIndex + 1 ≤ 3
    omega
  · change j.val < st.subreqPendingIndex + 1 at hj
    exact h.upTo hturn j (by omega)
  · change st.subreqPendingIndex + 1 < j.val at hj
    exact h.after j (by omega)
  · -- it is not served yet
    rintro (hj | ⟨j, hj, hserved⟩)
    · change st.subreqPendingIndex + 1 = -1 at hj
      omega
    · change st.subreqPendingIndex + 1 = j.val at hj
      obtain rfl : j = i := Fin.ext (by omega)
      change st.subreqServed j = true at hserved
      simp [hclear] at hserved
  · change st.subreqPendingIndex + 1 = j.val at hj
    rw [hnat, show i.val = j.val by omega]

/-- The access in progress is marked, and nothing is outstanding. -/
theorem mark {i : Fin 4} {addr : Addr} (hi : st.subreqPendingIndex = i.val)
    (haddr : Rmw.blockOffsetCl addr = i) (hbefore : ∀ j, j < i → st.subreqServed j = true)
    (hafter : ∀ j, i < j → st.subreqServed j = false) : (st.mark addr).At front 0 := by
  have hserved : ∀ j, (st.mark addr).subreqServed j = if j = i then true else st.subreqServed j :=
    fun j => by simp only [LmemqState.mark, haddr, Function.update_apply]
  have hindex : (st.mark addr).subreqPendingIndex = i.val := hi
  have hlt := i.isLt
  refine ⟨⟨by omega, by omega⟩, fun j hj => ?_, fun j hj => ?_, fun _ => rfl, fun j hj hno => ?_⟩
  · rw [hserved, if_neg (by rintro rfl; omega)]
    exact hbefore j (Fin.lt_def.mpr (by omega))
  · rw [hserved, if_neg (by rintro rfl; omega)]
    exact hafter j (Fin.lt_def.mpr (by omega))
  · obtain rfl : j = i := Fin.ext (by omega)
    simp [hserved] at hno

/-- The next access is a write, which is served at once. -/
theorem nextWrite (h : st.At front outstanding) (hlt : st.subreqPendingIndex < 3)
    (hturn : st.Turn) (hq : Aligned front.addr) :
    (LmemqState.mark { st with subreqPendingIndex := st.subreqPendingIndex + 1 }
      (accessAddr front (st.subreqPendingIndex + 1).toNat)).At front 0 := by
  obtain ⟨i, hi, hnat⟩ := h.next_range hlt
  refine mark (i := i) hi (by rw [hnat]; exact blockOffsetCl_accessAddr hq i) (fun j hj => ?_)
    fun j hj => ?_
  · exact h.upTo hturn j (by have := Fin.lt_def.mp hj; omega)
  · exact h.after j (by have := Fin.lt_def.mp hj; omega)

/-- The read in progress is answered. -/
theorem answered {i : Fin 4} {addr : Addr} (h : st.At front outstanding)
    (hi : st.subreqPendingIndex = i.val) (haddr : Rmw.blockOffsetCl addr = i) :
    (st.mark addr).At front 0 :=
  mark hi haddr (fun j hj => h.before j (by have := Fin.lt_def.mp hj; omega))
    fun j hj => h.after j (by have := Fin.lt_def.mp hj; omega)

/-- **Nothing is outstanding, or the read of the access in progress.** -/
theorem cases (h : st.At front outstanding) :
    (st.Turn ∧ outstanding = 0) ∨ ∃ i : Fin 4, st.subreqPendingIndex = i.val ∧
      st.subreqServed i = false ∧ front.type = .read ∧
        outstanding = {accessAddr front i.val} := by
  by_cases hturn : st.Turn
  · exact .inl ⟨hturn, h.turn hturn⟩
  · have hrange := h.range
    have hfirst : st.subreqPendingIndex ≠ -1 := fun hi => hturn (.inl hi)
    obtain ⟨i, hi⟩ : ∃ i : Fin 4, st.subreqPendingIndex = i.val :=
      ⟨⟨st.subreqPendingIndex.toNat, by omega⟩, by simp; omega⟩
    have hserved : st.subreqServed i = false := by
      rw [← Bool.not_eq_true]
      exact fun hyes => hturn (.inr ⟨i, hi, hyes⟩)
    obtain ⟨ht, hout⟩ := h.waiting i hi hserved
    exact .inr ⟨i, hi, hserved, ht, hout⟩

end LmemqState.At

/-! ## The history of the queue -/

/-- What is seen of the queue of the local memory. -/
inductive LmemqObs (κ : Type) where
  /-- A request enters the queue. -/
  | queued (q : BaseRequest κ)
  /-- The local memory takes an access. -/
  | access (type : BaseRequestType) (addr : Addr)
  /-- The local memory calls back. -/
  | called (addr : Addr)
  /-- A request leaves the queue. -/
  | popped (q : BaseRequest κ)
  deriving DecidableEq

namespace LmemqObs

def ofExchange : Exchange SubreqCallback → Option (LmemqObs κ)
  | .issued req true => some (.access req.type req.addr)
  | .issued _ false => none
  | .ran inv => some (.called inv.addr)

def queuedReq : LmemqObs κ → Option (BaseRequest κ)
  | .queued q => some q
  | _ => none

def poppedReq : LmemqObs κ → Option (BaseRequest κ)
  | .popped q => some q
  | _ => none

/-- Seen of the service of a request, once it is in the queue. -/
def isService : LmemqObs κ → Bool
  | .queued _ => false
  | _ => true

end LmemqObs

/-- What passes between the controller and its local memory, and what
leaves the queue and enters it. -/
def note (s t : Recorded κ τ μ) (H : List (LmemqObs κ)) : List (LmemqObs κ) :=
  H ++ (t.localMemory.2.drop s.localMemory.2.length).filterMap LmemqObs.ofExchange
    ++ (s.ctrl.lmemq.queue.take
      (s.ctrl.lmemq.queue.length - t.ctrl.lmemq.queue.length)).map .popped
    ++ (t.ctrl.lmemq.queue.drop s.ctrl.lmemq.queue.length).map .queued

/-- The controller beside the history of the queue. -/
def observed (L : Component SubreqCallback τ) (M : Component Callback μ) :
    Machine (Recorded κ τ μ × List (LmemqObs κ)) (Event κ) String :=
  watched L M note note (fun _ => note) note

/-- An access is made, and called back if it is a read. -/
def subreq (start : Addr) (q : BaseRequest κ) (i : ℕ) : List (LmemqObs κ) :=
  .access q.type (accessAddr q i) ::
    match q.type with
    | .read => [.called (accessAddr q i + start)]
    | .write => []

/-- The first accesses of a request, each served. -/
def subreqs (start : Addr) (q : BaseRequest κ) (n : ℕ) : List (LmemqObs κ) :=
  (List.range n).flatMap (subreq start q)

/-- **The service of a request**: its four accesses one after another,
each served before the next; then it leaves the queue. -/
def service (start : Addr) (q : BaseRequest κ) : List (LmemqObs κ) :=
  subreqs start q 4 ++ [.popped q]

/-- What was seen of the request at the front, so far. -/
inductive Underway (start : Addr) (front : BaseRequest κ) (st : LmemqState) :
    List (LmemqObs κ) → Prop
  | turn (hturn : st.Turn) :
      Underway start front st (subreqs start front (st.subreqPendingIndex + 1).toNat)
  | waiting {i : Fin 4} (hi : st.subreqPendingIndex = i.val) (hserved : st.subreqServed i = false) :
      Underway start front st
        (subreqs start front i.val ++ [.access front.type (accessAddr front i.val)])

/-- Where the access in progress is served, so are all seen. -/
theorem Underway.of_turn {start : Addr} {front : BaseRequest κ} {st : LmemqState}
    {last : List (LmemqObs κ)} (h : Underway start front st last) (hturn : st.Turn) :
    last = subreqs start front (st.subreqPendingIndex + 1).toNat := by
  cases h with
  | turn => rfl
  | @waiting i hi hserved =>
      rcases hturn with hfirst | ⟨j, hj, hyes⟩
      · omega
      · obtain rfl : j = i := Fin.ext (by omega)
        simp [hserved] at hyes

/-- While a read is outstanding, its access was the last thing seen. -/
theorem Underway.of_waiting {start : Addr} {front : BaseRequest κ} {st : LmemqState}
    {last : List (LmemqObs κ)} {i : Fin 4} (h : Underway start front st last)
    (hi : st.subreqPendingIndex = i.val) (hserved : st.subreqServed i = false) :
    last = subreqs start front i.val ++ [.access front.type (accessAddr front i.val)] := by
  cases h with
  | turn hturn =>
      rcases hturn with hfirst | ⟨j, hj, hyes⟩
      · omega
      · obtain rfl : j = i := Fin.ext (by omega)
        simp [hserved] at hyes
  | @waiting j hj _ =>
      obtain rfl : j = i := Fin.ext (by omega)
      rfl

/-- **The history agrees with the queue**: what entered it left it, in
order, or is still there; and what was seen besides is the service of
those that left, one after another, and that of the front so far. -/
structure Logged (start : Addr) (s : Recorded κ τ μ) (H : List (LmemqObs κ)) : Prop where
  queue : H.filterMap LmemqObs.queuedReq =
    H.filterMap LmemqObs.poppedReq ++ s.ctrl.lmemq.queue
  idle : s.ctrl.lmemqState.pendingFront = false →
    H.filter LmemqObs.isService = (H.filterMap LmemqObs.poppedReq).flatMap (service start)
  busy : s.ctrl.lmemqState.pendingFront = true → ∀ front rest,
    s.ctrl.lmemq.queue = front :: rest → ∃ last,
      Underway start front s.ctrl.lmemqState last ∧
      H.filter LmemqObs.isService =
        (H.filterMap LmemqObs.poppedReq).flatMap (service start) ++ last

/-- Every entry is for an aligned block. -/
def Sys.BlocksAligned (s : Sys κ τ μ) : Prop :=
  ∀ key e, s.entry key = some e → Aligned e.pendingRequest.rmwBlockAddr

/-- **What holds of the engine beside its history.** -/
structure InService (hL : AnswersInPlace L) (start : Addr) (s : Recorded κ τ μ)
    (H : List (LmemqObs κ)) : Prop where
  blocks : s.BlocksAligned
  aligned : ∀ q ∈ s.ctrl.lmemq.queue, Aligned q.addr
  origin : hL.start s.localMemory.1 = start ∧ Aligned start
  engaged : s.Engaged fun mem => hL.outstanding mem.1
  logged : Logged start s H

/-! ## The blocks of the entries -/

namespace Sys.BlocksAligned

variable {s t : Sys κ τ μ} {key : Addr} {e : BufferEntry κ} {Q : BaseRequest κ → Prop}

theorem of_entry_ite (h : s.BlocksAligned) (hnew : Aligned e.pendingRequest.rmwBlockAddr)
    (hentry : ∀ k, t.entry k = if k = key then some e else s.entry k) : t.BlocksAligned := by
  intro k e' he
  rw [hentry] at he
  split at he
  · cases he
    exact hnew
  · exact h k e' he

/-- **Every move keeps it.** -/
theorem move (h : s.BlocksAligned) (hm : Move Q s t) : t.BlocksAligned := by
  cases hm with
  | accept | lmem | below | draining => exact h
  | evict he hend hfull =>
      intro k e' hk
      rw [entry_erase] at hk
      split at hk
      · cases hk
      · exact h k e' hk
  | miss hq ht hnone hroom =>
      refine h.of_entry_ite ?_ fun _ => entry_take
      exact aligned_translateToBlockAddr _
  | hit hq ht he hpend =>
      refine h.of_entry_ite ?_ fun _ => entry_take
      exact aligned_translateToBlockAddr _
  | @wake addr e clk he =>
      exact h.of_entry_ite (e := { e with waitingActionClkUpdate := false, nextActionClk := clk })
        (h _ e he) fun _ => entry_setEntry
  | @transfer key e e' s' he hact hm =>
      refine @of_entry_ite _ _ _ s _ key e' h (by rw [hm.request.2]; exact h key e he) fun k => ?_
      rw [entry_setEntry, Sys.entry, hm.frame.1]
      rfl

theorem moves (h : s.BlocksAligned) (hm : Moves Q s t) : t.BlocksAligned :=
  reflTransGen_keeps (fun _ _ h hm => h.move hm) hm h

end Sys.BlocksAligned

/-! ## The steps of the history -/

section Noted

variable {s t u : Recorded κ τ μ} {H : List (LmemqObs κ)} {start : Addr}
  {front q : BaseRequest κ} {rest : List (BaseRequest κ)}

/-- Nothing passes, and the queue stays as it was. -/
theorem note_quiet (hq : t.ctrl.lmemq.queue = s.ctrl.lmemq.queue)
    (hmem : t.localMemory = s.localMemory) : note s t H = H := by
  simp [note, hq, hmem]

/-- Something passes. -/
theorem note_passed {new : List (Exchange SubreqCallback)}
    (hq : t.ctrl.lmemq.queue = s.ctrl.lmemq.queue)
    (hmem : t.localMemory.2 = s.localMemory.2 ++ new) :
    note s t H = H ++ new.filterMap LmemqObs.ofExchange := by
  simp [note, hq, hmem]

/-- The request at the front leaves. -/
theorem note_popped (hq : s.ctrl.lmemq.queue = front :: rest) (ht : t.ctrl.lmemq.queue = rest)
    (hmem : t.localMemory = s.localMemory) : note s t H = H ++ [.popped front] := by
  simp [note, hq, ht, hmem]

/-- A request enters. -/
theorem note_queued (hq : t.ctrl.lmemq.queue = s.ctrl.lmemq.queue ++ [q])
    (hmem : t.localMemory = s.localMemory) : note s t H = H ++ [.queued q] := by
  simp [note, hq, hmem]

theorem subreqs_succ {n : ℕ} : subreqs start q (n + 1) = subreqs start q n ++ subreq start q n := by
  simp [subreqs, List.range_succ]

namespace Logged

/-- Something of the service of the front is seen. -/
theorem passed {new : List (LmemqObs κ)} (h : Logged start s H)
    (hfront : s.ctrl.lmemqState.pendingFront = true) (hq : s.ctrl.lmemq.queue = front :: rest)
    (hq' : t.ctrl.lmemq.queue = s.ctrl.lmemq.queue)
    (hfront' : t.ctrl.lmemqState.pendingFront = true)
    (hnew : ∀ o ∈ new, o.queuedReq = none ∧ o.poppedReq = none ∧ o.isService = true)
    (hlast : ∀ last, Underway start front s.ctrl.lmemqState last →
      Underway start front t.ctrl.lmemqState (last ++ new)) : Logged start t (H ++ new) := by
  have hqueued : new.filterMap LmemqObs.queuedReq = [] :=
    List.filterMap_eq_nil_iff.mpr fun o ho => (hnew o ho).1
  have hpopped : new.filterMap LmemqObs.poppedReq = [] :=
    List.filterMap_eq_nil_iff.mpr fun o ho => (hnew o ho).2.1
  have hservice : new.filter LmemqObs.isService = new :=
    List.filter_eq_self.mpr fun o ho => (hnew o ho).2.2
  obtain ⟨last, hunder, hlog⟩ := h.busy hfront front rest hq
  refine ⟨?_, fun hidle => by simp [hfront'] at hidle, fun _ front' rest' hq'' => ?_⟩
  · rw [List.filterMap_append, List.filterMap_append, hqueued, hpopped, List.append_nil,
      List.append_nil, hq', h.queue]
  · obtain ⟨rfl, rfl⟩ := List.cons.inj (hq.symm.trans (hq'.symm.trans hq''))
    refine ⟨last ++ new, hlast last hunder, ?_⟩
    rw [List.filter_append, List.filterMap_append, hpopped, List.append_nil, hservice, hlog,
      List.append_assoc]

/-- The queue and the engine are as they were. -/
theorem quiet (h : Logged start s H) (hq : t.ctrl.lmemq.queue = s.ctrl.lmemq.queue)
    (hst : t.ctrl.lmemqState = s.ctrl.lmemqState) : Logged start t H := by
  refine ⟨by rw [hq]; exact h.queue, ?_, ?_⟩
  · rw [hst]
    exact h.idle
  · rw [hst, hq]
    exact h.busy

/-- A request enters the queue, behind the front. -/
theorem queued (h : Logged start s H)
    (hbusy : s.ctrl.lmemqState.pendingFront = true → s.ctrl.lmemq.queue ≠ [])
    (hq : t.ctrl.lmemq.queue = s.ctrl.lmemq.queue ++ [q])
    (hst : t.ctrl.lmemqState = s.ctrl.lmemqState) : Logged start t (H ++ [.queued q]) := by
  have hpopped : (H ++ [LmemqObs.queued q]).filterMap LmemqObs.poppedReq =
      H.filterMap LmemqObs.poppedReq := by
    rw [List.filterMap_append]
    exact List.append_nil _
  have hservice : (H ++ [LmemqObs.queued q]).filter LmemqObs.isService =
      H.filter LmemqObs.isService := by
    rw [List.filter_append]
    exact List.append_nil _
  refine ⟨?_, fun hidle => ?_, fun hfront front rest hq' => ?_⟩
  · rw [hpopped, List.filterMap_append, h.queue, hq, List.append_assoc]
    rfl
  · rw [hpopped, hservice]
    exact h.idle (hst ▸ hidle)
  · rw [hpopped, hservice, hst]
    rw [hst] at hfront
    obtain ⟨front₀, rest₀, hq₀⟩ := List.exists_cons_of_ne_nil (hbusy hfront)
    rw [hq, hq₀, List.cons_append] at hq'
    obtain ⟨rfl, -⟩ := List.cons.inj hq'
    exact h.busy hfront front₀ rest₀ hq₀

/-- The request at the front leaves, served. -/
theorem popped (h : Logged start s H) (hfront : s.ctrl.lmemqState.pendingFront = true)
    (hq : s.ctrl.lmemq.queue = front :: rest)
    (hindex : s.ctrl.lmemqState.subreqPendingIndex = 3)
    (hserved : s.ctrl.lmemqState.subreqServed 3 = true)
    (hq' : t.ctrl.lmemq.queue = rest) (hfront' : t.ctrl.lmemqState.pendingFront = false) :
    Logged start t (H ++ [.popped front]) := by
  have hpopped : (H ++ [LmemqObs.popped front]).filterMap LmemqObs.poppedReq =
      H.filterMap LmemqObs.poppedReq ++ [front] := by
    rw [List.filterMap_append]
    rfl
  obtain ⟨last, hunder, hlog⟩ := h.busy hfront front rest hq
  have hlast : last = subreqs start front 4 := by
    cases hunder with
    | turn => rw [hindex]; rfl
    | @waiting i hi hno =>
        obtain rfl : i = 3 := Fin.ext (by have : (3 : Fin 4).val = 3 := rfl; omega)
        simp [hserved] at hno
  refine ⟨?_, fun _ => ?_, fun hbusy => by simp [hfront'] at hbusy⟩
  · rw [hpopped, List.filterMap_append, h.queue, hq, hq']
    simp [LmemqObs.queuedReq]
  · rw [hpopped, List.filter_append, hlog, hlast, List.flatMap_append, List.flatMap_singleton,
      service, List.append_assoc]
    rfl

end Logged

end Noted

/-! ## Every step keeps it -/

namespace InService

variable {hL : AnswersInPlace L} {start key : Addr} {s t u : Recorded κ τ μ}
  {H : List (LmemqObs κ)} {clk : Clk}

/-- The queue, the engine and the memory are as they were. -/
theorem quiet (h : InService hL start s H) (hblocks : t.BlocksAligned)
    (hq : t.ctrl.lmemq.queue = s.ctrl.lmemq.queue)
    (hst : t.ctrl.lmemqState = s.ctrl.lmemqState) (hmem : t.localMemory = s.localMemory) :
    InService hL start t (note s t H) := by
  rw [note_quiet hq hmem]
  refine ⟨hblocks, hq ▸ h.aligned, hmem ▸ h.origin, ⟨?_, ?_⟩, h.logged.quiet hq hst⟩
  · rw [hst, hmem]
    exact h.engaged.idle
  · rw [hst, hmem, hq]
    exact h.engaged.busy

/-- Setting up pops nothing, since the flags are clear. -/
theorem lmemqSetUp_eq (h : InService hL start s H) :
    lmemqSetUp s = { s with ctrl.lmemqState := s.ctrl.lmemqState.setUp } := by
  unfold lmemqSetUp LmemqState.setUp
  split
  · rfl
  · rename_i hfront
    rw [(h.engaged.idle (by simpa using hfront)).1 0]
    rfl

theorem setUp (h : InService hL start s H) (hne : s.ctrl.lmemq.queue ≠ []) :
    InService hL start (lmemqSetUp s) H ∧ (lmemqSetUp s).ctrl.lmemqState.pendingFront = true := by
  rw [h.lmemqSetUp_eq]
  by_cases hfront : s.ctrl.lmemqState.pendingFront = true
  · have hsame : s.ctrl.lmemqState.setUp = s.ctrl.lmemqState := if_pos hfront
    rw [hsame]
    exact ⟨h, hfront⟩
  · rw [Bool.not_eq_true] at hfront
    obtain ⟨front, rest, hq⟩ := List.exists_cons_of_ne_nil hne
    obtain ⟨hflags, hout⟩ := h.engaged.idle hfront
    have hset : s.ctrl.lmemqState.setUp =
        { s.ctrl.lmemqState with pendingFront := true, subreqPendingIndex := -1 } := by
      rw [LmemqState.setUp, if_neg (by simp [hfront])]
    have hat := @LmemqState.At.setUp _ _ front hfront hflags
    have hbusy : s.ctrl.lmemqState.setUp.pendingFront = true := by rw [hset]
    refine ⟨⟨h.blocks, h.aligned, h.origin, ⟨fun hidle => ?_, fun _ => ⟨front, rest, hq, ?_⟩⟩,
      h.logged.queue, fun hidle => ?_, fun _ front' rest' hq' => ⟨[], ?_, ?_⟩⟩, hbusy⟩
    · exact absurd (hbusy.symm.trans hidle) (by simp)
    · change LmemqState.At _ front (hL.outstanding s.localMemory.1)
      rw [hout]
      exact hat
    · exact absurd (hbusy.symm.trans hidle) (by simp)
    · change Underway _ front' s.ctrl.lmemqState.setUp []
      rw [hset]
      exact .turn (.inl rfl)
    · rw [List.append_nil]
      exact h.logged.idle hfront

/-- The request at the front leaves, served. -/
theorem popped {front : BaseRequest κ} {rest : List (BaseRequest κ)} (h : InService hL start s H)
    (hfront : s.ctrl.lmemqState.pendingFront = true) (hq : s.ctrl.lmemq.queue = front :: rest)
    (hindex : s.ctrl.lmemqState.subreqPendingIndex = 3)
    (hserved : s.ctrl.lmemqState.subreqServed 3 = true) (hblocks : t.BlocksAligned)
    (hq' : t.ctrl.lmemq.queue = rest)
    (hst : t.ctrl.lmemqState =
      { s.ctrl.lmemqState with pendingFront := false, subreqServed := fun _ => false })
    (hmem : t.localMemory = s.localMemory) : InService hL start t (note s t H) := by
  obtain ⟨front₀, rest₀, hq₀, hat⟩ := h.engaged.busy hfront
  have hidle : t.ctrl.lmemqState.pendingFront = false := by rw [hst]
  rw [note_popped hq hq' hmem]
  refine ⟨hblocks, fun q hmem => h.aligned q ?_, hmem ▸ h.origin, ⟨fun _ => ⟨?_, ?_⟩, ?_⟩,
    h.logged.popped hfront hq hindex hserved hq' hidle⟩
  · rw [hq]
    exact List.mem_cons_of_mem _ (hq' ▸ hmem)
  · rw [hst]
    exact fun _ => rfl
  · rw [hmem]
    exact hat.turn (.inr ⟨3, hindex, hserved⟩)
  · exact fun hbusy => absurd (hidle.symm.trans hbusy) (by simp)

/-- The next access of the request at the front is made: a write is
served then and there, and a read is outstanding. -/
theorem started {front : BaseRequest κ} {rest : List (BaseRequest κ)} {mem : τ}
    {req : BaseRequest SubreqCallback} (h : InService hL start s H)
    (hfront : s.ctrl.lmemqState.pendingFront = true) (hq : s.ctrl.lmemq.queue = front :: rest)
    (hturn : s.ctrl.lmemqState.Turn) (hindex : s.ctrl.lmemqState.subreqPendingIndex < 3)
    (hblocks : t.BlocksAligned) (hq' : t.ctrl.lmemq.queue = s.ctrl.lmemq.queue)
    (hreq : req.type = front.type ∧ req.addr = nextAccess s.ctrl.lmemqState front)
    (hst : t.ctrl.lmemqState =
      let next := { s.ctrl.lmemqState with
        subreqPendingIndex := s.ctrl.lmemqState.subreqPendingIndex + 1 }
      match front.type with
      | .write => next.mark (nextAccess s.ctrl.lmemqState front)
      | .read => next)
    (hmem : t.localMemory = (mem, s.localMemory.2 ++ [.issued req true]))
    (hstart : hL.start mem = hL.start s.localMemory.1)
    (hout : hL.outstanding mem = hL.outstanding s.localMemory.1 +
      if front.type = .read then {nextAccess s.ctrl.lmemqState front} else 0) :
    InService hL start t (note s t H) := by
  obtain ⟨front₀, rest₀, hq₀, hat⟩ := h.engaged.busy hfront
  obtain ⟨rfl, rfl⟩ := List.cons.inj (hq.symm.trans hq₀)
  -- where the next access is made none is outstanding
  have hzero : hL.outstanding s.localMemory.1 = 0 := hat.turn hturn
  rw [hzero, zero_add] at hout
  have haligned : Aligned front.addr := h.aligned front (by rw [hq]; exact List.mem_cons_self)
  obtain ⟨i, hi, hnat⟩ := hat.next_range hindex
  have hbusy : t.ctrl.lmemqState.pendingFront = true := by
    rw [hst]
    cases front.type <;> exact hfront
  have hmem₁ : t.localMemory.1 = mem := by rw [hmem]
  have hnew : [Exchange.issued req true].filterMap LmemqObs.ofExchange =
      [(.access front.type (nextAccess s.ctrl.lmemqState front) : LmemqObs κ)] := by
    rw [← hreq.1, ← hreq.2]
    rfl
  rw [note_passed hq' (by rw [hmem]), hnew]
  have hat' : t.ctrl.lmemqState.At front (hL.outstanding t.localMemory.1) := by
    rw [hmem₁, hout, hst]
    cases ht : front.type with
    | read => exact hat.nextRead hindex hturn ht
    | write => exact hat.nextWrite hindex hturn haligned
  refine ⟨hblocks, hq' ▸ h.aligned, ?_,
    ⟨fun hidle => ?_, fun _ => ⟨front, rest, hq'.trans hq, hat'⟩⟩, ?_⟩
  · rw [hmem₁, hstart]
    exact h.origin
  · exact absurd (hbusy.symm.trans hidle) (by simp)
  · refine h.logged.passed hfront hq hq' hbusy (by simp [LmemqObs.queuedReq, LmemqObs.poppedReq,
      LmemqObs.isService]) fun last hunder => ?_
    rw [hunder.of_turn hturn, nextAccess]
    change Underway _ front _ (_ ++ [.access front.type (accessAddr front _)])
    rw [hnat, hst]
    cases ht : front.type with
    | read =>
        have hunder' := @Underway.waiting _ start front
          { s.ctrl.lmemqState with subreqPendingIndex := s.ctrl.lmemqState.subreqPendingIndex + 1 }
          i hi (hat.after i (by omega))
        rwa [ht] at hunder'
    | write =>
        -- a write marks its own access as served
        have hserved : (LmemqState.mark { s.ctrl.lmemqState with
            subreqPendingIndex := s.ctrl.lmemqState.subreqPendingIndex + 1 }
            (nextAccess s.ctrl.lmemqState front)).subreqServed i = true := by
          change Function.update s.ctrl.lmemqState.subreqServed (Rmw.blockOffsetCl
            (accessAddr front (s.ctrl.lmemqState.subreqPendingIndex + 1).toNat)) true i = true
          rw [hnat, blockOffsetCl_accessAddr haligned, Function.update_self]
        have hunder' := @Underway.turn _ start front _
          (.inr ⟨i, hi, hserved⟩)
        change Underway _ front _ (subreqs _ front
          (s.ctrl.lmemqState.subreqPendingIndex + 1 + 1).toNat) at hunder'
        rw [show (s.ctrl.lmemqState.subreqPendingIndex + 1 + 1).toNat = i.val + 1 by omega,
          subreqs_succ, subreq, ht] at hunder'
        exact hunder'

/-- **Serving the queue keeps it.** -/
theorem lmemqStep (h : InService hL start s H) (hfront : s.ctrl.lmemqState.pendingFront = true)
    (hs : LmemqStep L.recorded clk s t) (hblocks : t.BlocksAligned) :
    InService hL start t (note s t H) := by
  cases hs with
  | wait => exact h.quiet h.blocks rfl rfl rfl
  | @finish front rest e hq hindex hserved he =>
      exact h.popped hfront hq hindex hserved hblocks rfl rfl rfl
  | @start front rest e resp req localMemory st cnt hq hturn hindex he hissue hyes hst =>
      obtain ⟨mem, hmem, hissued⟩ : ∃ mem, localMemory = (mem, s.localMemory.2 ++ [.issued
          { type := front.type
            addr := nextAccess s.ctrl.lmemqState front
            arrive := clk
            callback := some .subreqServed } true]) ∧ L.issueRequest
          { type := front.type
            addr := nextAccess s.ctrl.lmemqState front
            arrive := clk
            callback := some .subreqServed } s.localMemory.1 = .ok (resp, req, mem) := by
        simp only [Component.recorded, bind_eq_ok, Prod.exists, pure_eq_ok, Prod.mk.injEq] at hissue
        obtain ⟨_, _, mem, hissue, rfl, rfl, rfl⟩ := hissue
        exact ⟨mem, by rw [hyes], hissue⟩
      obtain ⟨hstart, hout⟩ := hL.issue hissued
      refine h.started hfront hq hturn hindex hblocks rfl ⟨rfl, rfl⟩ hst hmem hstart ?_
      rw [hout]
      simp [hyes]

theorem tickLmemq (h : InService hL start s H) (hs : Ait.tickLmemq L.recorded clk s = .ok t) :
    InService hL start t (note s t H) := by
  have hblocks : t.BlocksAligned :=
    h.blocks.moves (Q := fun _ => False) (tickLmemq_moves hs)
  obtain ⟨-, rfl⟩ | ⟨hne, hstep⟩ := tickLmemq_cases hs
  · exact h.quiet h.blocks rfl rfl rfl
  · obtain ⟨hset, hfront⟩ := h.setUp hne
    have hkeep := hset.lmemqStep hfront hstep hblocks
    have hsame : note (lmemqSetUp s) t H = note s t H := by rw [h.lmemqSetUp_eq, note, note]
    rwa [hsame] at hkeep

/-- **A transfer keeps it**: at most it queues its entry. -/
theorem tickEntry (h : InService hL start s H) (hs : Ait.tickEntry M clk s key = .ok t) :
    InService hL start t (note s t H) := by
  have hblocks : t.BlocksAligned :=
    h.blocks.moves (Q := fun _ => False) (tickEntry_moves hs)
  obtain rfl | ⟨e, e', s', func, he, hact, hfunc, hrun, rfl⟩ := tickEntry_cases hs
  · exact h.quiet hblocks rfl rfl rfl
  · cases stateTrans_queues hfunc hrun with
    | no hq hst hmem => exact h.quiet hblocks (congrArg _ hq) hst hmem
    | yes hq hst hmem hlen hdram hwait =>
        have hqueue : (s'.setEntry key e').ctrl.lmemq.queue =
            s.ctrl.lmemq.queue ++ [e.lmemRequest e.accessType clk] := by
          change s'.ctrl.lmemq.queue = _
          rw [hq]
        have hst' : (s'.setEntry key e').ctrl.lmemqState = s.ctrl.lmemqState := hst
        have hmem' : (s'.setEntry key e').localMemory = s.localMemory := hmem
        have hbusy : s.ctrl.lmemqState.pendingFront = true → s.ctrl.lmemq.queue ≠ [] := by
          intro hb
          obtain ⟨front, rest, hq, -⟩ := h.engaged.busy hb
          simp [hq]
        rw [note_queued hqueue hmem']
        refine ⟨hblocks, fun q hq => ?_, hmem' ▸ h.origin, ⟨?_, fun hb => ?_⟩,
          h.logged.queued hbusy hqueue hst'⟩
        · rw [hqueue] at hq
          rcases List.mem_append.mp hq with hq | hq
          · exact h.aligned q hq
          · rw [List.mem_singleton.mp hq]
            exact h.blocks key e he
        · rw [hst', hmem']
          exact h.engaged.idle
        · rw [hst'] at hb
          obtain ⟨front, rest, hq, hat⟩ := h.engaged.busy hb
          refine ⟨front, rest ++ [e.lmemRequest e.accessType clk], ?_, ?_⟩
          · rw [hqueue, hq, List.cons_append]
          · rw [hst', hmem']
            exact hat

/-- The memory changes, and owes what it owed. -/
theorem still {mem : τ} (h : InService hL start s H)
    (ht : t = { s with localMemory := (mem, s.localMemory.2) })
    (hstart : hL.start mem = hL.start s.localMemory.1)
    (hout : hL.outstanding mem = hL.outstanding s.localMemory.1) :
    InService hL start t (note s t H) := by
  have hnote : note s t H = H := by rw [ht]; simp [note]
  subst ht
  rw [hnote]
  refine ⟨h.blocks, h.aligned, ⟨hstart.trans h.origin.1, h.origin.2⟩,
    ⟨fun hidle => ?_, fun hbusy => ?_⟩, h.logged.quiet rfl rfl⟩
  · exact ⟨(h.engaged.idle hidle).1, hout.trans (h.engaged.idle hidle).2⟩
  · obtain ⟨front, rest, hq, hat⟩ := h.engaged.busy hbusy
    exact ⟨front, rest, hq, hout ▸ hat⟩

/-- The read in progress is called back. -/
theorem answered {mem : τ} {inv : Invocation SubreqCallback} {front : BaseRequest κ}
    {rest : List (BaseRequest κ)} {i : Fin 4} (h : InService hL start s H)
    (hfront : s.ctrl.lmemqState.pendingFront = true) (hq : s.ctrl.lmemq.queue = front :: rest)
    (hi : s.ctrl.lmemqState.subreqPendingIndex = i.val)
    (hserved : s.ctrl.lmemqState.subreqServed i = false) (hread : front.type = .read)
    (haddr : inv.addr = accessAddr front i.val + start)
    (ht : t = { s with
      ctrl.lmemqState := s.ctrl.lmemqState.mark inv.addr
      localMemory := (mem, s.localMemory.2 ++ [.ran inv]) })
    (hstart : hL.start mem = hL.start s.localMemory.1) (hout : hL.outstanding mem = 0) :
    InService hL start t (note s t H) := by
  have haligned : Aligned front.addr := h.aligned front (by rw [hq]; exact List.mem_cons_self)
  obtain ⟨front₀, rest₀, hq₀, hat⟩ := h.engaged.busy hfront
  obtain ⟨rfl, rfl⟩ := List.cons.inj (hq.symm.trans hq₀)
  have hflag : Rmw.blockOffsetCl inv.addr = i := by
    rw [haddr]
    exact blockOffsetCl_access haligned h.origin.2 i
  have hnote : note s t H = H ++ [.called inv.addr] := by
    rw [@note_passed _ _ _ s t H [.ran inv] (by rw [ht]) (by rw [ht])]
    rfl
  have hmark : (s.ctrl.lmemqState.mark inv.addr).subreqServed i = true := by
    change Function.update s.ctrl.lmemqState.subreqServed (Rmw.blockOffsetCl inv.addr) true i = true
    rw [hflag, Function.update_self]
  subst ht
  rw [hnote]
  refine ⟨h.blocks, h.aligned, ⟨hstart.trans h.origin.1, h.origin.2⟩,
    ⟨fun hidle => ?_, fun _ => ⟨front, rest, hq, ?_⟩⟩, ?_⟩
  · exact absurd (hfront.symm.trans hidle) (by simp)
  · change LmemqState.At _ front (hL.outstanding mem)
    rw [hout]
    exact hat.answered hi hflag
  · refine h.logged.passed hfront hq rfl hfront (by simp [LmemqObs.queuedReq, LmemqObs.poppedReq,
      LmemqObs.isService]) fun last hunder => ?_
    have hunder' := @Underway.turn _ start front
      (s.ctrl.lmemqState.mark inv.addr) (.inr ⟨i, hi, hmark⟩)
    have hnat : ((s.ctrl.lmemqState.mark inv.addr).subreqPendingIndex + 1).toNat = i.val + 1 := by
      change (s.ctrl.lmemqState.subreqPendingIndex + 1).toNat = _
      omega
    rw [hnat, subreqs_succ, subreq, hread] at hunder'
    rw [hunder.of_waiting hi hserved, hread, haddr, List.append_assoc]
    rw [haddr] at hunder'
    exact hunder'

/-- **A tick of the local memory keeps it**: it calls back the access in
progress, or nothing. -/
theorem tickLocalMemory {visit : Visit} (h : InService hL start s H)
    (hs : Ait.tickLocalMemory L.recorded visit clk s = .ok t) :
    InService hL start t (note s t H) := by
  simp only [Ait.tickLocalMemory, Component.recorded, bind_eq_ok, Prod.exists, pure_eq_ok,
    Prod.mk.injEq] at hs
  obtain ⟨_, _, _, ⟨mem, served, htick, ⟨rfl, rfl⟩, rfl⟩, rfl⟩ := hs
  obtain ⟨hstart, hout⟩ := hL.tick htick
  rw [foldl_served]
  -- nothing is called back where nothing is outstanding
  have hquiet : hL.outstanding s.localMemory.1 = 0 → InService hL start
      { s with
        ctrl.lmemqState := s.ctrl.lmemqState.markAll served
        localMemory := (mem, s.localMemory.2 ++ served.map .ran) }
      (note s
        { s with
          ctrl.lmemqState := s.ctrl.lmemqState.markAll served
          localMemory := (mem, s.localMemory.2 ++ served.map .ran) } H) := by
    intro hzero
    rw [hzero] at hout
    have hcard := congrArg Multiset.card hout
    simp only [Multiset.card_zero, Multiset.card_add, Multiset.coe_card, List.length_map] at hcard
    obtain rfl : served = [] := List.length_eq_zero_iff.mp (by omega)
    have hmem : hL.outstanding mem = 0 := Multiset.card_eq_zero.mp (by omega)
    exact h.still (by simp [LmemqState.markAll]) hstart (hmem.trans hzero.symm)
  by_cases hfront : s.ctrl.lmemqState.pendingFront = true
  · obtain ⟨front, rest, hq, hat⟩ := h.engaged.busy hfront
    obtain ⟨-, hzero⟩ | ⟨i, hi, hserved, hread, hone⟩ := hat.cases
    · exact hquiet hzero
    · change hL.outstanding s.localMemory.1 = _ at hone
      rw [hone] at hout
      cases served with
      | nil =>
          exact h.still (by simp [LmemqState.markAll]) hstart
            (by rw [hone, hout]; simp)
      | cons inv later =>
          have hcard := congrArg Multiset.card hout
          simp only [Multiset.card_singleton, Multiset.card_add, Multiset.coe_card,
            List.length_map, List.length_cons] at hcard
          obtain rfl : later = [] := List.length_eq_zero_iff.mp (by omega)
          have hmem : hL.outstanding mem = 0 := Multiset.card_eq_zero.mp (by omega)
          have haddr : accessAddr front i.val = inv.addr - hL.start s.localMemory.1 := by
            rw [hmem, zero_add, List.map_singleton, Multiset.coe_singleton] at hout
            exact Multiset.singleton_inj.mp hout
          rw [h.origin.1] at haddr
          exact h.answered hfront hq hi hserved hread (by rw [haddr, UInt64.sub_add_cancel])
            rfl hstart hmem
  · exact hquiet (h.engaged.idle (by simpa using hfront)).2

theorem init {cfg : Config} {mem : τ} {next : List μ} (hstart : hL.start mem = start)
    (haligned : Aligned start) (hmem : hL.outstanding mem = 0) :
    InService hL start (Sys.init cfg (mem, []) next : Recorded κ τ μ) [] where
  blocks := fun key e he => by simp [Sys.entry, Sys.init] at he
  aligned := nofun
  origin := ⟨hstart, haligned⟩
  engaged := ⟨fun _ => ⟨fun _ => rfl, hmem⟩, fun hbusy => by cases hbusy⟩
  logged := ⟨rfl, fun _ => rfl, fun hbusy => by cases hbusy⟩

/-- Nothing of the engine is touched where the load/store queue is
served. -/
theorem serve (h : InService hL start s H) (hs : Serve s t) :
    InService hL start t (note s t H) := by
  have hblocks : t.BlocksAligned := h.blocks.moves (Q := fun _ => False) hs.moves
  cases hs with
  | wait => exact h.quiet hblocks rfl rfl rfl
  | miss hroom => cases hroom <;> exact h.quiet hblocks rfl rfl rfl
  | hit => exact h.quiet hblocks rfl rfl rfl

/-- **Every call keeps it.** -/
theorem step {ev : Event κ} {H' : List (LmemqObs κ)} (h : InService hL start s H)
    (hs : (observed L M).step (s, H) ev = .ok (t, H')) : InService hL start t H' := by
  cases ev with
  | issueRequest req =>
      simp only [observed, watched] at hs
      obtain ⟨hstep, rfl⟩ := audited_eq_ok.mp hs
      simp only [machine, bind_eq_ok, Prod.exists, pure_eq_ok] at hstep
      obtain ⟨resp, u, hissue, rfl⟩ := hstep
      obtain ⟨-, ⟨-, rfl⟩ | ⟨-, -, rfl⟩⟩ := issueRequest_cases hissue
      · exact h.quiet h.blocks rfl rfl rfl
      · exact h.quiet h.blocks rfl rfl rfl
  | localMemory visit clk =>
      simp only [observed, watched] at hs
      obtain ⟨hstep, rfl⟩ := audited_eq_ok.mp hs
      exact h.tickLocalMemory hstep
  | tick o clk =>
      simp only [observed, watched, bind_eq_ok] at hs
      obtain ⟨⟨u, H₁⟩, haudit, ⟨v, H₂⟩, haudit', hloop⟩ := hs
      obtain ⟨hlsq, rfl⟩ := audited_eq_ok.mp haudit
      obtain ⟨hlmemq, rfl⟩ := audited_eq_ok.mp haudit'
      have hu : InService hL start u (note s u H) := h.serve (tickLsq_serve hlsq)
      refine foldlM_keeps (P := fun p => InService hL start p.1 p.2) ?_ (hu.tickLmemq hlmemq) hloop
      rintro ⟨w, Hw⟩ key ⟨w', Hw'⟩ hw haudit
      obtain ⟨hround, rfl⟩ := audited_eq_ok.mp haudit
      exact hw.tickEntry hround

end InService

/-! ## Every run -/

section Runs

variable {hL : AnswersInPlace L} {s : Recorded κ τ μ} {H : List (LmemqObs κ)} {start : Addr}

end Runs

/-! ## Over the DRAM -/

section OverDram

variable {γ ς : Type} {k : ℕ} [DecidableEq γ] {spec : Dram.Spec γ ς}

end OverDram

open Dram.Ddr4 (Memory spec vansOrganization vansTiming vansConfig)

/-- What the read puts in the queue. -/
def fetched : BaseRequest ℕ := { addr := 256, arrive := 1, type := .read }

end Ait

end Vans
