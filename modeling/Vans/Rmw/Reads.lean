import Vans.Rmw.Order
import Mathlib.Tactic.Abel
/-!
# The RMW controller — every read is completed

An accepted read is in the load/store queue, waits in a buffer entry,
is in the read-out queue, or has been completed. This file weighs each
read, by its callback and the address the callback is owed, and shows
that the weights of the four places make up those of the reads
accepted, as long as no read joins an entry that has a read of the same
line waiting. Such a read takes the waiting one's slot.
-/

namespace Vans

namespace Rmw

variable {κ σ : Type} {C : Component Callback σ}

/-! ## Weights -/

section Weights

variable {M : Type} [AddCommMonoid M]

/-- The weight of a read, by the callback to run and the local address
of its line. A read without a callback weighs nothing. -/
def share (weight : κ → Addr → M) (start : Addr) (callback : Option κ) (line : Addr) : M :=
  callback.elim 0 fun c => weight c (line + start)

/-- The callback runs of a record. -/
def ran (log : List (Obs κ)) : List (Invocation κ) := log.filterMap ranInvocation

def isReadReq (req : BaseRequest κ) : Bool := req.type = .read

/-- The reads of a list, weighed. -/
def readsWeight (weight : κ → Addr → M) (start : Addr) (reqs : List (BaseRequest κ)) : M :=
  ((reqs.filter isReadReq).map fun r => share weight start r.callback (lineAddr r.addr)).sum

/-- The reads that wait in an entry, weighed. -/
def BufferEntry.waitingWeight (weight : κ → Addr → M) (start key : Addr) (e : BufferEntry κ) : M :=
  (e.pendingRequestClIndex.map fun cl =>
    share weight start (e.callbacks cl) (key + UInt64.ofNat cl.val * cpuClSize)).sum

/-- The read-out queue, weighed. -/
def roqWeight (weight : κ → Addr → M) (start : Addr) (roq : List (BaseRequest κ)) : M :=
  (roq.map fun r => share weight start r.callback r.addr).sum

/-- The reads in progress, weighed. -/
def Sys.inFlight (weight : κ → Addr → M) (s : Sys κ σ) : M :=
  readsWeight weight s.ctrl.startAddr s.ctrl.lsq.queue
    + Keyed.total (BufferEntry.waitingWeight weight s.ctrl.startAddr) s.ctrl.buffer.entryMap
    + roqWeight weight s.ctrl.startAddr s.ctrl.roq.queue

/-- The callbacks run, weighed. -/
def doneWeight (weight : κ → Addr → M) (log : List (Obs κ)) : M :=
  ((ran log).map fun inv => weight inv.callback inv.addr).sum

/-- **The balance**: what was accepted is in progress or done. -/
def Sys.Balanced (weight : κ → Addr → M) (s : Sys κ σ) : Prop :=
  readsWeight weight s.ctrl.startAddr (accepted s.log) = s.inFlight weight + doneWeight weight s.log

variable {weight : κ → Addr → M} {start key : Addr} {e e' : BufferEntry κ}
  {reqs reqs' : List (BaseRequest κ)} {req front : BaseRequest κ} {log log' : List (Obs κ)}

theorem readsWeight_append :
    readsWeight weight start (reqs ++ reqs') =
      readsWeight weight start reqs + readsWeight weight start reqs' := by
  simp [readsWeight]

theorem readsWeight_cons_read (ht : req.type = .read) :
    readsWeight weight start (req :: reqs) =
      share weight start req.callback (lineAddr req.addr) + readsWeight weight start reqs := by
  simp [readsWeight, isReadReq, ht]

theorem roqWeight_append {roq roq' : List (BaseRequest κ)} :
    roqWeight weight start (roq ++ roq') =
      roqWeight weight start roq + roqWeight weight start roq' := by
  simp [roqWeight]

theorem doneWeight_append :
    doneWeight weight (log ++ log') = doneWeight weight log + doneWeight weight log' := by
  simp [doneWeight, ran]

/-- A callback that is run weighs what its read did. -/
theorem doneWeight_invoke {callback : Option κ} {line : Addr} {clk : Clk} :
    doneWeight weight ((invoke callback (line + start) clk).map Obs.ran) =
      share weight start callback line := by
  cases callback <;> simp [invoke, doneWeight, ran, ranInvocation, share]

/-- An entry no read waits in weighs nothing. -/
theorem BufferEntry.waitingWeight_of_idle (h : e.pendingRequestClIndex = []) :
    e.waitingWeight weight start key = 0 := by
  simp [waitingWeight, h]

/-- The first read of an entry is all that waits in it. -/
theorem BufferEntry.waitingWeight_first (h : e.pendingRequestClIndex = []) :
    (e.waitFor front).waitingWeight weight start (translateToBlockAddr front.addr) =
      share weight start front.callback (lineAddr front.addr) := by
  simp [waitingWeight, waitFor, h, block_add_line]

/-- A read of a line nobody waits for adds its weight to the entry's. -/
theorem BufferEntry.waitingWeight_join (h : blockOffsetCl front.addr ∉ e.pendingRequestClIndex) :
    (e.waitFor front).waitingWeight weight start (translateToBlockAddr front.addr) =
      e.waitingWeight weight start (translateToBlockAddr front.addr) +
        share weight start front.callback (lineAddr front.addr) := by
  have hold : ∀ cl ∈ e.pendingRequestClIndex,
      Function.update e.callbacks (blockOffsetCl front.addr) front.callback cl = e.callbacks cl := by
    intro cl hcl
    refine Function.update_of_ne (fun heq => h ?_) ..
    rwa [← heq]
  simp only [waitingWeight, waitFor, List.map_append, List.sum_append, List.map_cons, List.map_nil,
    List.sum_singleton, Function.update_self, block_add_line]
  rw [List.map_congr_left fun cl hcl => by rw [hold cl hcl]]

/-- Combining leaves the reads. -/
theorem combine_reads {block : Addr} : ∀ {q : List (BaseRequest κ)} {hit : BitVec blockSizeCl}
    {taken left : List (BaseRequest κ)}, combine block q = (hit, taken, left) →
    left.filter isReadReq = q.filter isReadReq := by
  intro q
  induction q with
  | nil =>
      intro hit taken left h
      simp only [combine, Prod.mk.injEq] at h
      rw [h.2.2]
  | cons req reqs ih =>
      intro hit taken left h
      obtain ⟨hit', taken', left', hrec⟩ : ∃ hit taken left,
          combine block reqs = (hit, taken, left) := ⟨_, _, _, rfl⟩
      unfold combine at h
      split at h
      · simp only [hrec, Prod.mk.injEq] at h
        obtain ⟨-, -, rfl⟩ := h
        simp [List.filter_cons, ih hrec]
      · cases ht : req.type with
        | read =>
            simp only [ht, Prod.mk.injEq] at h
            rw [h.2.2]
        | write =>
            simp only [ht, hrec, Prod.mk.injEq] at h
            obtain ⟨-, -, rfl⟩ := h
            rw [List.filter_cons_of_neg (by simp [isReadReq, ht]), ih hrec]

/-- A transfer moves the first waiting read to the read-out queue, or
moves none. -/
theorem EntryMove.waitingWeight {s s' : Sys κ σ} (hm : EntryMove C key s e e' s')
    (weight : κ → Addr → M) (start : Addr) (ok : EntryOk key e) :
    e'.waitingWeight weight start key + roqWeight weight start s'.ctrl.roq.queue =
      e.waitingWeight weight start key + roqWeight weight start s.ctrl.roq.queue := by
  cases hm with
  | flush h => exact absurd h ok.not_flushBack
  | readout hst ht hidx hroom =>
      simp only [BufferEntry.waitingWeight, hidx, roqWeight_append, ok.block]
      simp only [roqWeight, List.map_cons, List.map_nil, List.sum_cons, List.sum_nil, add_zero]
      abel
  | _ => rfl

end Weights

/-! ## The balance is kept -/

/-- No read of the line waits in the entry, if there is room for one
more. -/
def LineFree (e : BufferEntry κ) (cl : Fin blockSizeCl) : Prop :=
  e.pendingRequestClIndex.length < blockSizeCl → cl ∉ e.pendingRequestClIndex

instance {e : BufferEntry κ} {cl : Fin blockSizeCl} : Decidable (LineFree e cl) :=
  inferInstanceAs (Decidable (_ → _))

/-- Reads join entries on free lines only. -/
def linesFree : Env κ := { join := LineFree }

instance {e : BufferEntry κ} {cl : Fin blockSizeCl} : Decidable (linesFree.join e cl) :=
  inferInstanceAs (Decidable (LineFree e cl))

instance : DecidablePred (linesFree (κ := κ)).accept := fun _ => isTrue trivial

instance : Decidable (linesFree (κ := κ)).outside := isTrue trivial

namespace Sys.Balanced

variable {M : Type} [AddCommMonoid M] {weight : κ → Addr → M} {s t : Sys κ σ}

/-- The writes taken weigh nothing. -/
theorem takeWrites {block : Addr} {hit : BitVec blockSizeCl} {reqs left : List (BaseRequest κ)}
    (bal : s.Balanced weight) (hcomb : combine block s.ctrl.lsq.queue = (hit, reqs, left))
    (hlog : t.log = s.log ++ reqs.map (Obs.taken .write)) (hlsq : t.ctrl.lsq.queue = left)
    (hroq : t.ctrl.roq = s.ctrl.roq) (hstart : t.ctrl.startAddr = s.ctrl.startAddr)
    (hbuf : Keyed.total (BufferEntry.waitingWeight weight s.ctrl.startAddr) t.ctrl.buffer.entryMap =
      Keyed.total (BufferEntry.waitingWeight weight s.ctrl.startAddr) s.ctrl.buffer.entryMap) :
    t.Balanced weight := by
  have hran : ran (reqs.map (Obs.taken .write)) = ([] : List (Invocation κ)) := by
    simp [ran, List.filterMap_eq_nil_iff, ranInvocation]
  have hdone : doneWeight weight (reqs.map (Obs.taken .write)) = 0 := by
    rw [doneWeight, hran, List.map_nil, List.sum_nil]
  have hreads : readsWeight weight s.ctrl.startAddr left =
      readsWeight weight s.ctrl.startAddr s.ctrl.lsq.queue := by
    simp only [readsWeight, combine_reads hcomb]
  unfold Sys.Balanced Sys.inFlight at *
  rw [hstart, hlog, hlsq, hroq, hbuf, hreads, accepted_append, accepted_map_taken, List.append_nil,
    doneWeight_append, hdone, add_zero]
  exact bal

/-- The read at the front is taken, into an entry whose weight grows by
the read's. -/
theorem takeRead {how : Served} {front : BaseRequest κ} {rest : List (BaseRequest κ)}
    (bal : s.Balanced weight) (hq : s.ctrl.lsq.queue = front :: rest) (ht : front.type = .read)
    (hlog : t.log = s.log ++ [.taken how front]) (hlsq : t.ctrl.lsq.queue = rest)
    (hroq : t.ctrl.roq = s.ctrl.roq) (hstart : t.ctrl.startAddr = s.ctrl.startAddr)
    (hbuf : Keyed.total (BufferEntry.waitingWeight weight s.ctrl.startAddr) t.ctrl.buffer.entryMap =
      share weight s.ctrl.startAddr front.callback (lineAddr front.addr) +
      Keyed.total (BufferEntry.waitingWeight weight s.ctrl.startAddr) s.ctrl.buffer.entryMap) :
    t.Balanced weight := by
  unfold Sys.Balanced Sys.inFlight at *
  rw [hstart, hlog, hlsq, hroq, hbuf, accepted_append, doneWeight_append]
  change readsWeight weight _ (accepted s.log ++ []) = _ + (_ + 0)
  rw [List.append_nil, bal, hq, readsWeight_cons_read ht]
  abel

/-- An entry in which the same reads wait keeps the balance. -/
theorem setEntry {key : Addr} {e e' : BufferEntry κ} (bal : s.Balanced weight)
    (he : s.entry key = some e)
    (hw : e'.waitingWeight weight s.ctrl.startAddr key =
      e.waitingWeight weight s.ctrl.startAddr key) :
    (s.setEntry key e').Balanced weight := by
  have hbuf := Keyed.total_insert_eq (f := BufferEntry.waitingWeight weight s.ctrl.startAddr) he hw
  unfold Sys.Balanced Sys.inFlight at *
  change readsWeight weight s.ctrl.startAddr (accepted s.log) =
    readsWeight weight s.ctrl.startAddr s.ctrl.lsq.queue
      + Keyed.total (BufferEntry.waitingWeight weight s.ctrl.startAddr)
        (s.ctrl.buffer.entryMap.insert key e')
      + roqWeight weight s.ctrl.startAddr s.ctrl.roq.queue + doneWeight weight s.log
  rw [hbuf, bal]

/-- An observation of something else keeps the balance. -/
theorem emit {o : Obs κ} (bal : s.Balanced weight) (hacc : accepted [o] = [])
    (hran : ran [o] = []) : (s.emit o).Balanced weight := by
  have hdone : doneWeight weight [o] = 0 := by rw [doneWeight, hran, List.map_nil, List.sum_nil]
  unfold Sys.Balanced Sys.inFlight at *
  change readsWeight weight s.ctrl.startAddr (accepted (s.log ++ [o])) =
    _ + doneWeight weight (s.log ++ [o])
  rw [accepted_append, hacc, List.append_nil, doneWeight_append, hdone, add_zero]
  exact bal

/-- A transfer keeps the balance: what leaves the entry is in the
read-out queue. -/
theorem transfer {key : Addr} {e e' : BufferEntry κ} {s' : Sys κ σ} (bal : s.Balanced weight)
    (ok : s.Ok) (he : s.entry key = some e) (hm : EntryMove C key s e e' s') :
    (s'.setEntry key e').Balanced weight := by
  have hframe := hm.frame (ok key e he).not_flushBack
  have hweight := hm.waitingWeight weight s.ctrl.startAddr (ok key e he)
  have hlog : accepted s'.log = accepted s.log ∧
      doneWeight weight s'.log = doneWeight weight s.log := by
    rcases hm.log (ok key e he) with hlog | ⟨hlog, -⟩ | ⟨hlog, -⟩
    · rw [hlog]; exact ⟨rfl, rfl⟩
    all_goals
      rw [hlog, accepted_append, doneWeight_append]
      exact ⟨List.append_nil _, add_zero _⟩
  unfold Sys.Balanced Sys.inFlight at *
  change readsWeight weight s'.ctrl.startAddr (accepted s'.log) =
    readsWeight weight s'.ctrl.startAddr s'.ctrl.lsq.queue
      + Keyed.total (BufferEntry.waitingWeight weight s'.ctrl.startAddr)
        (s'.ctrl.buffer.entryMap.insert key e')
      + roqWeight weight s'.ctrl.startAddr s'.ctrl.roq.queue + doneWeight weight s'.log
  rw [hframe.1, hframe.2.1, hframe.2.2, hlog.1, hlog.2, bal, Keyed.total_insert,
    ← Keyed.total_erase he]
  calc _ = readsWeight weight s.ctrl.startAddr s.ctrl.lsq.queue
        + Keyed.total (BufferEntry.waitingWeight weight s.ctrl.startAddr)
          (s.ctrl.buffer.entryMap.erase key)
        + (e.waitingWeight weight s.ctrl.startAddr key
          + roqWeight weight s.ctrl.startAddr s.ctrl.roq.queue)
        + doneWeight weight s.log := by abel
    _ = _ := by rw [← hweight]; abel

/-- **Every move keeps the balance**, where reads join entries on free
lines only. -/
theorem move (bal : s.Balanced weight) (ok : s.Ok) (h : Move C linesFree s t) :
    t.Balanced weight := by
  cases h with
  | @accept req room =>
      unfold Sys.Balanced Sys.inFlight at *
      rw [accepted_append, doneWeight_append]
      change readsWeight weight _ (accepted s.log ++ [req]) =
        readsWeight weight _ (s.ctrl.lsq.queue ++ [req]) + _ + _ + (_ + 0)
      rw [readsWeight_append, readsWeight_append, bal]
      abel
  | @run front rest clk hq hdue =>
      unfold Sys.Balanced Sys.inFlight at *
      rw [accepted_append, accepted_map_ran, List.append_nil, doneWeight_append,
        doneWeight_invoke, bal, hq]
      simp only [roqWeight, List.map_cons, List.sum_cons]
      abel
  | below | draining => exact bal
  | @evict key e he hend hfull =>
      -- no read waits in an entry at rest
      have hidle := (ok key e he).idle.mpr (.inl hend)
      have herase := Keyed.total_erase (f := BufferEntry.waitingWeight weight s.ctrl.startAddr) he
      rw [BufferEntry.waitingWeight_of_idle hidle, zero_add] at herase
      unfold Sys.Balanced Sys.inFlight at *
      rw [bal, ← herase]
      simp only [InternalBuffer.erase, (ok key e he).aligned]
  | readCold hq ht hnone hroom =>
      refine bal.takeRead hq ht rfl rfl rfl rfl ?_
      refine (Keyed.total_insert_fresh hnone).trans ?_
      rw [BufferEntry.waitingWeight_first rfl]
  | readPatch hq ht he hpend hread hne hlen hQ =>
      refine bal.takeRead hq ht rfl rfl rfl rfl (Keyed.total_insert_add he ?_)
      rw [BufferEntry.waitingWeight_join (hQ hlen), add_comm]
  | readFf hq ht he hnot hvalid hidx =>
      refine bal.takeRead hq ht rfl rfl rfl rfl (Keyed.total_insert_add he ?_)
      rw [BufferEntry.waitingWeight_of_idle hidx, add_zero]
      exact BufferEntry.waitingWeight_first hidx
  | writeNew hq ht hcomb hnone hroom =>
      refine bal.takeWrites hcomb rfl rfl rfl rfl ((Keyed.total_insert_fresh hnone).trans ?_)
      rw [BufferEntry.waitingWeight_of_idle rfl, zero_add]
  | writeComb hq ht hcomb he hpatch hall =>
      exact bal.takeWrites hcomb rfl rfl rfl rfl (Keyed.total_insert_eq he rfl)
  | writeJoin hq ht hcomb he hpatch hall =>
      exact bal.takeWrites hcomb rfl rfl rfl rfl (Keyed.total_insert_eq he rfl)
  | writePatch hq ht hcomb he hpend =>
      exact bal.takeWrites hcomb rfl rfl rfl rfl (Keyed.total_insert_eq he rfl)
  | @transfer key e e' s' he hact hm =>
      exact bal.transfer ok he hm
  | wake he => exact (bal.setEntry he rfl).emit rfl rfl
  | flush he hdirty hend =>
      -- an entry at rest is clean
      simp [ok.clean_of_end he hend] at hdirty

theorem init {cfg : Config} {next : List σ} : (Sys.init cfg next : Sys κ σ).Balanced weight := by
  simp [Sys.Balanced, Sys.inFlight, Sys.init, readsWeight, roqWeight, doneWeight, accepted, ran,
    Keyed.total]

/-- **The balance holds in every state of a run that keeps lines
apart.** -/
theorem run {es : List (Event κ σ)} (bal : s.Balanced weight) (ok : s.Ok)
    (hmeets : (machine C).Meets (EventOk linesFree) s es) (h : (machine C).run s es = .ok t) :
    t.Balanced weight :=
  (run_keeps_of_meets (P := fun u => u.Ok ∧ u.Balanced weight)
    (fun _ _ hu hm => ⟨hu.1.move hm, hu.2.move hu.1 hm⟩) ⟨ok, bal⟩ hmeets h).2

/-- Where nothing is pending, nothing is in progress. -/
theorem inFlight_eq_zero (ok : s.Ok) (h : pendingCurrent s = false) : s.inFlight weight = 0 := by
  simp only [pendingCurrent, Bool.or_eq_false_iff, RequestQueue.pending_eq_false,
    InternalBuffer.any_eq_false] at h
  obtain ⟨⟨hlsq, hroq⟩, hbuf⟩ := h
  have htotal : Keyed.total (BufferEntry.waitingWeight weight s.ctrl.startAddr)
      s.ctrl.buffer.entryMap = 0 := by
    refine Keyed.total_eq_zero fun k e he => BufferEntry.waitingWeight_of_idle ?_
    exact (ok k e he).idle_of_not_pending (hbuf k e he)
  rw [Sys.inFlight, hlsq, hroq, htotal]
  simp [readsWeight, roqWeight]

end Sys.Balanced

/-! ## Exactly once -/

section Once

variable [DecidableEq κ] {s : Sys κ σ} {c : κ}

/-- The calls of one callback. -/
def callsOf (c : κ) (log : List (Obs κ)) : List (Invocation κ) :=
  (ran log).filter (·.callback = c)

/-- The read carries the callback. -/
def carries (c : κ) (req : BaseRequest κ) : Bool := isReadReq req && req.callback = some c

/-- **Each read is completed once**: the callback of an accepted read,
if no other read accepted carries it, has been called at most once and
only with the address of the read's line; exactly once, where nothing
is pending. -/
def Sys.CompletedOnce (s : Sys κ σ) : Prop :=
  ∀ r ∈ accepted s.log, ∀ c, carries c r → (accepted s.log).countP (carries c) = 1 →
    (callsOf c s.log).length ≤ 1 ∧
    (∀ inv ∈ callsOf c s.log, inv.addr = lineAddr r.addr + s.ctrl.startAddr) ∧
    (pendingCurrent s = false → (callsOf c s.log).length = 1)

/-- Weighing only one callback counts its reads. -/
theorem readsWeight_count (start : Addr) {reqs : List (BaseRequest κ)} :
    readsWeight (fun c' _ => if c' = c then 1 else 0) start reqs = reqs.countP (carries c) := by
  induction reqs with
  | nil => rfl
  | cons req reqs ih =>
      rw [List.countP_cons, ← ih]
      cases ht : isReadReq req with
      | false => simp [readsWeight, carries, ht]
      | true =>
          cases hcb : req.callback <;>
            simp [readsWeight, carries, ht, hcb, share, Nat.add_comm]

theorem doneWeight_count {log : List (Obs κ)} :
    doneWeight (fun c' _ => if c' = c then 1 else 0) log = (callsOf c log).length := by
  unfold doneWeight callsOf
  induction ran log with
  | nil => rfl
  | cons inv invs ih =>
      rw [List.map_cons, List.sum_cons, ih, List.filter_cons]
      by_cases hc : inv.callback = c <;> simp [hc, Nat.add_comm]

/-- A callback one read carries is carried by no other. -/
theorem eq_of_countP_eq_one {α : Type} {p : α → Bool} {l : List α} (h : l.countP p = 1) {x y : α}
    (hx : x ∈ l) (hpx : p x) (hy : y ∈ l) (hpy : p y) : x = y := by
  rw [List.countP_eq_length_filter] at h
  obtain ⟨z, hz⟩ := List.length_eq_one_iff.mp h
  have hmem : ∀ w, w ∈ l → p w → w = z := fun w hw hpw => by
    have : w ∈ l.filter p := List.mem_filter.mpr ⟨hw, hpw⟩
    rwa [hz, List.mem_singleton] at this
  rw [hmem x hx hpx, hmem y hy hpy]

/-- A balance for every weight completes each read once. -/
theorem Sys.Ok.completedOnce (ok : s.Ok) (bal : ∀ weight : κ → Addr → ℕ, s.Balanced weight) :
    s.CompletedOnce := by
  intro r hr c hc hone
  have hcount : (accepted s.log).countP (carries c) =
      s.inFlight (fun c' _ => if c' = c then 1 else 0) + (callsOf c s.log).length := by
    rw [← readsWeight_count s.ctrl.startAddr, ← doneWeight_count]
    exact bal _
  refine ⟨by omega, fun inv hinv => ?_, fun hidle => ?_⟩
  · -- weigh the calls of `c` at any other address
    by_contra hne
    have hbal := bal fun c' a =>
      if c' = c ∧ a ≠ lineAddr r.addr + s.ctrl.startAddr then 1 else 0
    have hdue : readsWeight (fun c' a =>
        if c' = c ∧ a ≠ lineAddr r.addr + s.ctrl.startAddr then 1 else 0)
        s.ctrl.startAddr (accepted s.log) = 0 := by
      refine List.sum_eq_zero fun x hx => ?_
      obtain ⟨r', hr', rfl⟩ := List.mem_map.mp hx
      obtain ⟨hmem, hread⟩ := List.mem_filter.mp hr'
      cases hcb : r'.callback with
      | none => rfl
      | some c' =>
          refine if_neg ?_
          rintro ⟨rfl, hne⟩
          have := eq_of_countP_eq_one hone hmem (by simp [carries, hread, hcb]) hr hc
          exact hne (by rw [this])
    obtain ⟨hran, hcall⟩ := List.mem_filter.mp hinv
    have hpos : 1 ≤ doneWeight (fun c' a =>
        if c' = c ∧ a ≠ lineAddr r.addr + s.ctrl.startAddr then 1 else 0) s.log := by
      refine List.single_le_sum (by simp) 1 (List.mem_map.mpr ⟨inv, hran, ?_⟩)
      exact if_pos ⟨of_decide_eq_true hcall, hne⟩
    rw [Sys.Balanced, hdue] at hbal
    omega
  · rw [Sys.Balanced.inFlight_eq_zero ok hidle] at hcount
    omega

/-- **Each read is completed once** in every state of a run in which no
read joins an entry that has a read of its line waiting. -/
theorem reads_completed_once {cfg : Config} {next : List σ} {es : List (Event κ σ)}
    (h : (machine C).run (Sys.init cfg next) es = .ok s)
    (hmeets : (machine C).Meets (EventOk linesFree) (Sys.init cfg next) es) : s.CompletedOnce :=
  (Sys.Ok.init.run h).completedOnce fun _ => Sys.Balanced.init.run Sys.Ok.init hmeets h

end Once

/-- Two reads of one block, each of a line of its own. -/
def read64 : BaseRequest ℕ := { addr := 64, arrive := 0, type := .read, callback := some 0 }

def read128 : BaseRequest ℕ := { addr := 128, arrive := 0, type := .read, callback := some 1 }

/-- The second joins the entry the first waits in, before the level below
calls back; then the ticks that see both through. -/
def joinedReads : List (Event ℕ Unit) :=
  [.issueRequest read64, .issueRequest read128, .tick .asHeld 0, .tick .asHeld 1,
    .nextLevelReadCallback 0 1] ++
  (List.range 8).map fun i => .tick .asHeld (UInt64.ofNat (i + 2))

theorem reads_completed_once_joinedReads :
    ∃ s, smallRun joinedReads = .ok s ∧ Obs.taken .readPatch read128 ∈ s.log ∧
      (callsOf 0 s.log).length = 1 ∧ (callsOf 1 s.log).length = 1 := by
  obtain ⟨s, hrun, hjoined, hidle, hreads⟩ : Yields (smallRun joinedReads) fun s =>
      Obs.taken .readPatch read128 ∈ s.log ∧ pendingCurrent s = false ∧
        accepted s.log = [read64, read128] := by decide +kernel
  have once : s.CompletedOnce := reads_completed_once hrun (by decide +kernel)
  have hone : ∀ r c, carries c r → r ∈ [read64, read128] →
      [read64, read128].countP (carries c) = 1 → (callsOf c s.log).length = 1 :=
    fun r c hc hr hcount => (once r (hreads ▸ hr) c hc (hreads ▸ hcount)).2.2 hidle
  exact ⟨s, hrun, hjoined, hone read64 0 (by decide) (by decide) (by decide),
    hone read128 1 (by decide) (by decide) (by decide)⟩

/-- Two reads of one line, the second taken while the first waits. -/
def twoReads : List (Event ℕ Unit) :=
  [.issueRequest { addr := 0, arrive := 0, type := .read, callback := some 0 },
    .issueRequest { addr := 0, arrive := 0, type := .read, callback := some 1 },
    .tick .asHeld 0, .tick .asHeld 1, .nextLevelReadCallback 0 1] ++
  (List.range 8).map fun i => .tick .asHeld (UInt64.ofNat (i + 2))

/-- **The first of two reads of one line is not completed.** The second
takes its slot, and is completed twice. -/
theorem twoReads_not_completedOnce : ∃ s, smallRun twoReads = .ok s ∧ ¬ s.CompletedOnce := by
  refine ⟨_, rfl, fun h => ?_⟩
  have hfirst := h { addr := 0, arrive := 0, type := .read, callback := some 0 }
    (by decide) 0 (by decide) (by decide)
  exact absurd (hfirst.2.2 (by decide)) (by decide)

end Rmw

end Vans
