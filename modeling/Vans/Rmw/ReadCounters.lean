import Vans.Rmw.Counters
/-!
# The RMW controller — the counters of reads

A read is counted when it leaves the load/store queue, and when it is
served: as one that joins another then and there, as one fetched or fast
forward when its entry acts on it. The counters add up unless a read
joins an entry that serves its block fast forward. Such an entry goes
back to `init` for the next read waiting, and counts that read again.
-/

namespace Vans

namespace Rmw

variable {κ σ : Type} {C : Component Callback σ} {Q : Env κ}

/-! ## The books of the reads -/

/-- What an entry still counts of the reads it serves: one fetch, or one
fast forward for each read that waits for one. -/
def BufferEntry.readOwed (e : BufferEntry κ) : ℕ :=
  match e.pendingRequest.type, e.state with
  | .readCold, .init => 1
  | .readFf, .init => e.pendingRequestClIndex.length
  | .readFf, .pendingReadout => e.pendingRequestClIndex.length - 1
  | _, _ => 0

/-- **The books of the reads**, of which `n` were counted twice, or will
be. -/
def Sys.ReadsBooked (n : ℕ) (s : Sys κ σ) : Prop :=
  s.ctrl.cntEvents .readCold + s.ctrl.cntEvents .readFastForward + s.ctrl.cntEvents .readPatch +
    s.owed BufferEntry.readOwed = s.ctrl.cntEvents .readAccess + n

/-- No read joins an entry that serves its block fast forward. -/
def countedOnce : Env κ where
  join e _ := e.pendingRequest.type = .readFf → blockSizeCl ≤ e.pendingRequestClIndex.length

instance {e : BufferEntry κ} {cl : Fin blockSizeCl} : Decidable (countedOnce.join e cl) :=
  inferInstanceAs (Decidable (_ → _))

instance : DecidablePred (countedOnce (κ := κ)).accept := fun _ => isTrue trivial

instance : Decidable (countedOnce (κ := κ)).outside := isTrue trivial

/-- What a transfer counts, its entry owes no longer. -/
theorem EntryMove.readsBooked {s s' : Sys κ σ} {e e' : BufferEntry κ} {key : Addr}
    (hm : EntryMove C key s e e' s') (ok : EntryOk key e) :
    s'.ctrl.cntEvents .readCold + s'.ctrl.cntEvents .readFastForward + e'.readOwed =
      s.ctrl.cntEvents .readCold + s.ctrl.cntEvents .readFastForward + e.readOwed ∧
    s'.ctrl.cntEvents .readAccess = s.ctrl.cntEvents .readAccess ∧
    s'.ctrl.cntEvents .readPatch = s.ctrl.cntEvents .readPatch := by
  cases hm with
  | flush h => exact absurd h ok.not_flushBack
  | refused | roqFull => simp [Counter.incr]
  | fetch hst ht | begin hst ht =>
      rcases ht with ht | ht <;>
        simp [Counter.incr, BufferEntry.readOwed, hst, ht, Nat.add_right_comm]
  | fetched hst ht =>
      rcases ht with ht | ht <;> simp [BufferEntry.readOwed, hst, ht]
  | merge hst ht | readCold hst ht => simp [BufferEntry.readOwed, hst, ht]
  | written hst ht | modify hst ht | finish hst ht =>
      cases hty : e.pendingRequest.type <;> simp_all [BufferEntry.readOwed, isWrite]
  | readFf hst ht =>
      have hwait : e.pendingRequestClIndex.length ≠ 0 := by
        rw [ne_eq, List.length_eq_zero_iff, ok.idle]
        simp [hst, ht, isWrite]
      simp [Counter.incr, BufferEntry.readOwed, hst, ht]
      omega
  | @readout clk dur clIndex rest hst ht hidx hroom =>
      by_cases hrest : rest = [] <;> cases hty : e.pendingRequest.type <;>
        simp_all [BufferEntry.readOwed, isRead]

/-- Entries in the same state of the same request, with the same reads
waiting, owe the same. -/
theorem BufferEntry.readOwed_same {e e' : BufferEntry κ}
    (ht : e'.pendingRequest.type = e.pendingRequest.type) (hst : e'.state = e.state)
    (hidx : e'.pendingRequestClIndex = e.pendingRequestClIndex) : e'.readOwed = e.readOwed := by
  simp only [readOwed, ht, hst, hidx]

/-- An entry in which no read is on its way owes nothing. -/
theorem BufferEntry.readOwed_eq_zero {e : BufferEntry κ}
    (h : e.state = .end_ ∨ isRead e.pendingRequest.type = false) : e.readOwed = 0 := by
  unfold readOwed
  split <;> simp_all [isRead]

/-- A read that joins adds nothing to a fetch, and one to what is served
fast forward. -/
theorem EntryOk.readOwed_join {key : Addr} {e : BufferEntry κ} {front : BaseRequest κ}
    (ok : EntryOk key e) (hpend : e.pending) (hread : isRead e.pendingRequest.type)
    (hne : e.pendingRequestClIndex ≠ []) : (e.waitFor front).readOwed =
      e.readOwed + if e.pendingRequest.type = .readFf then 1 else 0 := by
  have hchain := ok.chain
  have hend : e.state ≠ .end_ := fun h => by simp [ok.pending.mpr h] at hpend
  have hpos := List.length_pos_of_ne_nil hne
  cases hty : e.pendingRequest.type <;> cases hst : e.state <;>
    simp_all [isRead, RequestType.chain, BufferEntry.readOwed, BufferEntry.waitFor]
  omega

namespace Sys.ReadsBooked

variable {s t : Sys κ σ} {key : Addr} {e e' : BufferEntry κ} {n m : ℕ}

theorem quiet (bal : s.ReadsBooked n) (hbuf : t.ctrl.buffer = s.ctrl.buffer)
    (hcnt : t.ctrl.cntEvents = s.ctrl.cntEvents) : t.ReadsBooked n := by
  unfold Sys.ReadsBooked at *
  rwa [owed_congr hbuf, hcnt]

/-- **What is counted or owed on one side is on the other.** -/
theorem exchange (bal : s.ReadsBooked n) {old new : (BufferEntry κ → ℕ) → ℕ}
    (howed : ∀ w, t.owed w + old w = s.owed w + new w)
    (hcount : t.ctrl.cntEvents .readCold + t.ctrl.cntEvents .readFastForward +
        t.ctrl.cntEvents .readPatch + s.ctrl.cntEvents .readAccess + n +
        new BufferEntry.readOwed =
      s.ctrl.cntEvents .readCold + s.ctrl.cntEvents .readFastForward +
        s.ctrl.cntEvents .readPatch + t.ctrl.cntEvents .readAccess + m +
        old BufferEntry.readOwed) : t.ReadsBooked m := by
  have hr := howed BufferEntry.readOwed
  unfold Sys.ReadsBooked at *
  omega

/-- A read that joins an entry is counted twice if that serves its block
fast forward. -/
theorem readPatch (bal : s.ReadsBooked n) (ok : s.Ok) (front : BaseRequest κ)
    (rest : List (BaseRequest κ)) (he : s.entry (translateToBlockAddr front.addr) = some e)
    (hpend : e.pending) (hread : isRead e.pendingRequest.type)
    (hne : e.pendingRequestClIndex ≠ []) :
    (((s.count .readPatch).setEntry (translateToBlockAddr front.addr)
      (e.waitFor front)).takeRead .readPatch front rest).ReadsBooked
        (n + if e.pendingRequest.type = .readFf then 1 else 0) := by
  have hjoin := @EntryOk.readOwed_join _ _ _ front (ok _ e he) hpend hread hne
  refine @exchange _ _ s _ _ _ bal (fun w => w e) (fun w => w (e.waitFor front))
    (fun w => owed_setEntry (s := s) he) ?_
  simp [Counter.incr, Sys.takeRead, Sys.setEntry, Sys.count, hjoin]
  omega

/-- A transfer keeps the books. -/
theorem transfer (bal : s.ReadsBooked n) (ok : s.Ok) (he : s.entry key = some e) {s' : Sys κ σ}
    (hm : EntryMove C key s e e' s') : (s'.setEntry key e').ReadsBooked n := by
  have hbuf := (hm.frame (ok key e he).not_flushBack).1
  have he' : s'.entry key = some e := by rw [Sys.entry, hbuf]; exact he
  obtain ⟨hcount, haccess, hpatch⟩ := hm.readsBooked (ok key e he)
  refine @exchange _ _ s _ _ _ bal (fun w => w e) (fun w => w e') (fun w => ?_) ?_
  · rw [owed_setEntry he', owed_congr hbuf]
  · simp only [Sys.setEntry]
    omega

/-- **Every move keeps the books of the reads**, or has one more read
counted twice: one that joins an entry that serves its block fast
forward. -/
theorem move (bal : s.ReadsBooked n) (ok : s.Ok) (h : Move C Q s t) :
    t.ReadsBooked n ∨ t.ReadsBooked (n + 1) ∧ ∃ e cl, Q.join e cl ∧
      e.pendingRequest.type = .readFf ∧ e.pendingRequestClIndex.length < blockSizeCl := by
  cases h with
  | accept | run | below | draining => exact .inl (bal.quiet rfl rfl)
  | @evict key e he hend hfull =>
      have hold : e.readOwed = 0 := e.readOwed_eq_zero (.inl hend)
      refine .inl (@exchange _ _ s _ _ _ bal (fun w => w e) (fun _ => 0)
        (fun w => owed_erase he (ok key e he).aligned) ?_)
      simp [Counter.incr, hold]
  | readCold hq ht hnone hroom =>
      refine .inl (@exchange _ _ s _ _ _ bal (fun _ => 0) (fun w => w _)
        (fun w => owed_newEntry hnone) ?_)
      simp [Counter.incr, Sys.takeRead, Sys.newEntry, BufferEntry.readOwed, BufferEntry.new,
        BufferEntry.waitFor]
      omega
  | @readPatch front rest e hq ht he hpend hread hne hlen hQ =>
      have hbal := bal.readPatch ok front rest he hpend hread hne
      -- a read that joins one served fast forward is counted again as that one leaves
      by_cases htype : e.pendingRequest.type = .readFf
      · rw [if_pos htype] at hbal
        exact .inr ⟨hbal, e, _, hQ, htype, hlen⟩
      · rw [if_neg htype] at hbal
        exact .inl hbal
  | @readFf front rest e clk bits hq ht he hnot hvalid hidx =>
      -- the entry is at rest or serves a write, so no read of it is owed
      have hold : e.readOwed = 0 := by
        refine e.readOwed_eq_zero ?_
        by_cases hpend : e.pending
        · exact .inr (by simpa [hpend] using hnot)
        · exact .inl ((ok _ e he).pending.mp (by simpa using hpend))
      have hnew : ((((e.assignNewRequest clk .readFf front.addr bits).cleared).waitFor
          front).readOwed) = 1 := by
        simp [BufferEntry.readOwed, BufferEntry.assignNewRequest, BufferEntry.cleared,
          BufferEntry.waitFor, hidx]
      refine .inl (@exchange _ _ s _ _ _ bal (fun w => w e) (fun w => w _)
        (fun w => owed_setEntry he) ?_)
      simp [Counter.incr, Sys.takeRead, Sys.setEntry, hold, hnew]
      omega
  | @writeNew front rest taken left clk hit hq ht hcomb hnone hroom =>
      have hnew : (BufferEntry.new clk (if hit = blockHitClBitmask then .writeComb else .writeRmw)
          front.addr hit s.ctrl.buffer.nextAvailableIndex : BufferEntry κ).readOwed = 0 := by
        refine BufferEntry.readOwed_eq_zero (.inr ?_)
        change isRead (if _ then _ else _) = false
        split <;> rfl
      refine .inl (@exchange _ _ s _ _ _ bal (fun _ => 0) (fun w => w _)
        (fun w => owed_newEntry hnone) ?_)
      simp [Counter.incr, Sys.takeWrites, Sys.newEntry, hnew]
  | @writeComb front rest taken left e clk hit hq ht hcomb he hpatch hall =>
      have hold : e.readOwed = 0 :=
        e.readOwed_eq_zero (.inr (by rw [(BufferEntry.patchRmw_iff.mp hpatch).1]; rfl))
      have hnew : (e.assignNewRequest clk .writeComb front.addr (hit ||| e.clBitmap)).readOwed = 0 :=
        BufferEntry.readOwed_eq_zero (.inr rfl)
      refine .inl (@exchange _ _ s _ _ _ bal (fun w => w e) (fun w => w _)
        (fun w => owed_setEntry he) ?_)
      simp [Counter.incr, Sys.takeWrites, Sys.setEntry, Sys.count, hold, hnew]
  | @writeJoin front rest taken left e hit hq ht hcomb he hpatch hall =>
      have hsame := @BufferEntry.readOwed_same _ e
        { e with clBitmap := hit ||| e.clBitmap } rfl rfl rfl
      refine .inl (@exchange _ _ s _ _ _ bal (fun w => w e) (fun w => w _)
        (fun w => owed_setEntry he) ?_)
      simp [Counter.incr, Sys.takeWrites, Sys.setEntry, Sys.count, hsame]
  | @writePatch front rest taken left e clk hit hq ht hcomb he hpend =>
      have hold : e.readOwed = 0 :=
        e.readOwed_eq_zero (.inl ((ok _ e he).pending.mp hpend))
      have hnew : (e.assignNewRequest clk .writePatch front.addr hit).readOwed = 0 :=
        BufferEntry.readOwed_eq_zero (.inr rfl)
      refine .inl (@exchange _ _ s _ _ _ bal (fun w => w e) (fun w => w _)
        (fun w => owed_setEntry he) ?_)
      simp [Counter.incr, Sys.takeWrites, Sys.setEntry, hold, hnew]
  | transfer he hact hm => exact .inl (bal.transfer ok he hm)
  | @wake addr e clk he hout =>
      have hsame := @BufferEntry.readOwed_same _ e
        { e with waitingActionClkUpdate := false, nextActionClk := clk } rfl rfl rfl
      refine .inl (@exchange _ _ s _ _ _ bal (fun w => w e) (fun w => w _)
        (fun w => owed_setEntry he) ?_)
      simp [Sys.setEntry, Sys.emit, hsame]
  | flush he hdirty hend =>
      -- an entry at rest is clean
      simp [ok.clean_of_end he hend] at hdirty

theorem init {cfg : Config} {next : List σ} : (Sys.init cfg next : Sys κ σ).ReadsBooked 0 := rfl

end Sys.ReadsBooked

/-! ## The reads accepted -/

/-- A read accepted has been counted, or is in the load/store queue. -/
def Sys.ReadsTaken (s : Sys κ σ) : Prop :=
  s.ctrl.cntEvents .readAccess + s.ctrl.lsq.queue.countP isReadReq =
    (accepted s.log).countP isReadReq

namespace Sys.ReadsTaken

variable {s t : Sys κ σ} {key : Addr} {e e' : BufferEntry κ}

/-- No request enters or leaves the queue, but writes. -/
theorem quiet (bal : s.ReadsTaken)
    (hcnt : t.ctrl.cntEvents .readAccess = s.ctrl.cntEvents .readAccess)
    (hlsq : t.ctrl.lsq.queue.countP isReadReq = s.ctrl.lsq.queue.countP isReadReq)
    (hlog : accepted t.log = accepted s.log) : t.ReadsTaken := by
  rwa [Sys.ReadsTaken, hcnt, hlsq, hlog]

theorem takeRead (bal : s.ReadsTaken) {front : BaseRequest κ} {rest : List (BaseRequest κ)}
    {how : Served} (hq : s.ctrl.lsq.queue = front :: rest) (ht : front.type = .read)
    (hcnt : t.ctrl.cntEvents .readAccess = s.ctrl.cntEvents .readAccess + 1)
    (hlsq : t.ctrl.lsq.queue = rest) (hlog : t.log = s.log ++ [.taken how front]) :
    t.ReadsTaken := by
  have hone : (front :: rest).countP isReadReq = rest.countP isReadReq + 1 :=
    List.countP_cons_of_pos (by simp [isReadReq, ht])
  have hacc : accepted [Obs.taken how front] = [] := rfl
  unfold Sys.ReadsTaken at *
  rw [hq, hone] at bal
  rw [hcnt, hlsq, hlog, accepted_append, hacc, List.append_nil, ← bal]
  omega

theorem takeWrites (bal : s.ReadsTaken) {block : Addr} {hit : BitVec blockSizeCl}
    {reqs left : List (BaseRequest κ)} (hcomb : combine block s.ctrl.lsq.queue = (hit, reqs, left))
    (hcnt : t.ctrl.cntEvents .readAccess = s.ctrl.cntEvents .readAccess)
    (hlsq : t.ctrl.lsq.queue = left) (hlog : t.log = s.log ++ reqs.map (Obs.taken .write)) :
    t.ReadsTaken := by
  refine bal.quiet hcnt ?_ (by rw [hlog, accepted_append, accepted_map_taken, List.append_nil])
  rw [hlsq, List.countP_eq_length_filter, combine_reads hcomb, ← List.countP_eq_length_filter]

/-- **Every move keeps it.** -/
theorem move (bal : s.ReadsTaken) (ok : s.Ok) (h : Move C Q s t) : t.ReadsTaken := by
  cases h with
  | @accept req room =>
      unfold Sys.ReadsTaken at *
      rw [accepted_append]
      change s.ctrl.cntEvents .readAccess + List.countP _ (s.ctrl.lsq.queue ++ [req]) =
        List.countP _ (accepted s.log ++ [req])
      rw [List.countP_append, List.countP_append, ← bal]
      omega
  | run => exact bal.quiet rfl rfl (by rw [accepted_append, accepted_map_ran, List.append_nil])
  | below | draining => exact bal.quiet rfl rfl rfl
  | evict => exact bal.quiet (by simp [Counter.incr]) rfl rfl
  | readCold hq ht hnone hroom =>
      exact bal.takeRead hq ht (by simp [Sys.takeRead, Sys.newEntry, Counter.incr]) rfl rfl
  | readPatch hq ht he hpend hread hne hlen hQ =>
      exact bal.takeRead hq ht (by simp [Sys.takeRead, Sys.setEntry, Sys.count, Counter.incr])
        rfl rfl
  | readFf hq ht he hnot hvalid hidx =>
      exact bal.takeRead hq ht (by simp [Sys.takeRead, Sys.setEntry, Counter.incr]) rfl rfl
  | writeNew hq ht hcomb hnone hroom =>
      exact bal.takeWrites hcomb (by simp [Sys.takeWrites, Sys.newEntry, Counter.incr]) rfl rfl
  | writeComb hq ht hcomb he hpatch hall | writeJoin hq ht hcomb he hpatch hall
  | writePatch hq ht hcomb he hpend =>
      exact bal.takeWrites hcomb
        (by simp [Sys.takeWrites, Sys.setEntry, Sys.count, Counter.incr]) rfl rfl
  | @transfer key e e' s' he hact hm =>
      have hok := ok key e he
      refine bal.quiet (hm.readsBooked hok).2.1 ?_ ?_
      · rw [Sys.setEntry, (hm.frame hok.not_flushBack).2.1]
      · change accepted s'.log = accepted s.log
        rcases hm.log hok with hlog | ⟨hlog, -⟩ | ⟨hlog, -⟩
        · rw [hlog]
        all_goals
          rw [hlog, accepted_append]
          exact List.append_nil _
  | wake he =>
      refine bal.quiet rfl rfl ?_
      rw [Sys.emit, accepted_append]
      exact List.append_nil _
  | flush he => exact bal.quiet rfl rfl rfl

end Sys.ReadsTaken

/-! ## A read that is counted twice -/

/-- No bit of `cb_bitmap` is ever set. -/
def Sys.BitsClear (s : Sys κ σ) : Prop := ∀ key e, s.entry key = some e → e.cbBitmap = 0

theorem EntryMove.bitsClear {s s' : Sys κ σ} {e e' : BufferEntry κ} {key : Addr}
    (hm : EntryMove C key s e e' s') (ok : EntryOk key e) (h : e.cbBitmap = 0) :
    e'.cbBitmap = 0 := by
  cases hm with
  | flush ht => exact absurd ht ok.not_flushBack
  | readout => simp [h]
  | _ => exact h

namespace Sys.BitsClear

variable {s t : Sys κ σ} {key : Addr} {e : BufferEntry κ}

theorem of_entry_ite (bits : s.BitsClear) (hnew : e.cbBitmap = 0)
    (h : ∀ k, t.entry k = if k = key then some e else s.entry k) : t.BitsClear := by
  intro k e' he
  rw [h] at he
  split at he
  · cases he
    exact hnew
  · exact bits k e' he

theorem move (bits : s.BitsClear) (ok : s.Ok) (h : Move C Q s t) : t.BitsClear := by
  cases h with
  | accept | run | below | draining => exact bits
  | evict he hend hfull =>
      intro k e' hk
      rw [entry_erase] at hk
      split at hk
      · cases hk
      · exact bits k e' hk
  | readCold => exact bits.of_entry_ite rfl fun _ => by rw [entry_takeRead, entry_newEntry]
  | @readPatch front rest e hq ht he =>
      exact bits.of_entry_ite (e := e.waitFor front) (bits _ e he) fun _ => by
        rw [entry_takeRead, entry_setEntry, entry_count]
  | readFf hq ht he => exact bits.of_entry_ite rfl fun _ => by rw [entry_takeRead, entry_setEntry]
  | writeNew => exact bits.of_entry_ite rfl fun _ => by rw [entry_takeWrites, entry_newEntry]
  | @writeComb front rest taken left e clk hit hq ht hcomb he =>
      exact bits.of_entry_ite
        (e := e.assignNewRequest clk .writeComb front.addr (hit ||| e.clBitmap)) (bits _ e he)
        fun _ => by rw [entry_takeWrites, entry_count, entry_setEntry]
  | @writeJoin front rest taken left e hit hq ht hcomb he =>
      exact bits.of_entry_ite (e := { e with clBitmap := hit ||| e.clBitmap }) (bits _ e he)
        fun _ => by rw [entry_takeWrites, entry_count, entry_setEntry]
  | @writePatch front rest taken left e clk hit hq ht hcomb he =>
      exact bits.of_entry_ite (e := e.assignNewRequest clk .writePatch front.addr hit)
        (bits _ e he) fun _ => by rw [entry_takeWrites, entry_setEntry]
  | @transfer key e e' s' he hact hm =>
      have hbuf := (hm.frame (ok key e he).not_flushBack).1
      refine @of_entry_ite _ _ s _ key e' bits (hm.bitsClear (ok key e he) (bits _ e he)) fun k => ?_
      rw [entry_setEntry, Sys.entry, hbuf]
      rfl
  | @wake addr e clk he =>
      exact bits.of_entry_ite
        (e := { e with waitingActionClkUpdate := false, nextActionClk := clk }) (bits _ e he)
        fun _ => by rw [entry_emit, entry_setEntry]
  | @flush key e he =>
      exact bits.of_entry_ite
        (e := { e with pendingRequest.type := .flushBack, state := .init }) (bits _ e he)
        fun _ => by rw [entry_setEntry]

end Sys.BitsClear

section Recounted

variable {s t : Sys κ σ} {o : VisitOrder} {clk : Clk} {n : ℕ}

/-- **A read that joins an entry that serves its block fast forward is
counted twice**, and the queue's front is such a read where the
condition fails. -/
theorem tickLsq_recounts (bal : s.ReadsBooked n) (ok : s.Ok) (bits : s.BitsClear)
    (hnot : ¬ PatchOk countedOnce s) (h : tickLsq o clk s = .ok t) : t.ReadsBooked (n + 1) := by
  obtain ⟨front, hfront, ht, e, he, hpend, hread, htype, hlen⟩ : ∃ front,
      front ∈ s.ctrl.lsq.queue.head? ∧ front.type = .read ∧
      ∃ e, s.entry (translateToBlockAddr front.addr) = some e ∧ e.pending = true ∧
        isRead e.pendingRequest.type = true ∧ e.pendingRequest.type = .readFf ∧
        e.pendingRequestClIndex.length < blockSizeCl := by
    by_contra hnone
    refine hnot fun front hfront ht e he hpend hread htype => ?_
    by_contra hlen
    exact hnone ⟨front, hfront, ht, e, he, hpend, hread, htype, Nat.lt_of_not_le hlen⟩
  obtain ⟨rest, hq⟩ := List.head?_eq_some_iff.mp hfront
  have hne : e.pendingRequestClIndex ≠ [] := by
    rw [ne_eq, (ok _ e he).idle]
    have hend : e.state ≠ .end_ := fun hend => by simp [(ok _ e he).pending.mpr hend] at hpend
    simp [hend, htype, isWrite]
  have hbit : (!e.cbBitmap.getLsb (blockOffsetCl front.addr)) = true := by
    simp [bits _ e he]
  simp only [tickLsq, hq, ht, tickLsqRead, InternalBuffer.find] at h
  rw [show s.ctrl.buffer.entryMap.lookup (translateToBlockAddr front.addr) = some e from he] at h
  simp only [hpend, hread, and_self, if_true, if_neg hne, hlen, hbit] at h
  obtain ⟨-, rfl⟩ := serveRead_eq_ok h
  have hbal := bal.readPatch ok front rest he hpend hread hne
  rw [if_pos htype] at hbal
  simpa using hbal

/-- Some read was counted twice, or will be. -/
def Sys.Recounted (s : Sys κ σ) : Prop := ∃ n, 0 < n ∧ s.ReadsBooked n

theorem Sys.Recounted.move (re : s.Recounted) (ok : s.Ok) (h : Move C Q s t) : t.Recounted := by
  obtain ⟨n, hpos, bal⟩ := re
  obtain hsame | ⟨hmore, -⟩ := bal.move ok h
  · exact ⟨n, hpos, hsame⟩
  · exact ⟨n + 1, Nat.succ_pos n, hmore⟩

/-- A call that does not meet the condition is a tick, which has a read
counted twice. -/
theorem step_recounts {ev : Event κ σ} (bal : s.ReadsBooked 0) (ok : s.Ok) (bits : s.BitsClear)
    (hnot : ¬ EventOk countedOnce s ev) (h : (machine C).step s ev = .ok t) : t.Recounted := by
  cases ev with
  | issueRequest | nextLevelReadCallback | drainCurrent | nextLevel => exact absurd trivial hnot
  | tick o clk =>
      obtain ⟨u, hlsq, -, okᵤ, hbuf⟩ := tick_stages ok h
      obtain ⟨hq, hb⟩ := @tickRoq_frame _ _ s clk
      have balᵣ : (tickRoq clk s).ReadsBooked 0 := by
        refine bal.quiet hb ?_
        unfold tickRoq
        split
        · rfl
        · split <;> rfl
      have hnotᵣ : ¬ PatchOk countedOnce (tickRoq clk s) := by
        simp only [PatchOk, hq, tickRoq_entry]
        exact hnot
      have re : u.Recounted := ⟨1, Nat.one_pos, tickLsq_recounts balᵣ ok.tickRoq
        (fun k e he => bits k e (tickRoq_entry ▸ he)) hnotᵣ hlsq⟩
      exact (reflTransGen_keeps (P := fun v => v.Ok ∧ v.Recounted)
        (fun _ _ hv hm => ⟨hv.1.move hm, hv.2.move hv.1 hm⟩)
        (tickInternalBuffer_moves (Q := .any) hbuf) ⟨okᵤ, re⟩).2

end Recounted

/-! ## The reads add up -/

section ReadsAddUp

variable {cfg : Config} {next : List σ} {es : List (Event κ σ)} {s : Sys κ σ}

/-- **The counters of the reads add up**: every read accepted is
counted, and counted once as fetched, fast forward or joined. -/
structure Sys.ReadsAddUp (s : Sys κ σ) : Prop where
  accepted : s.ctrl.cntEvents .readAccess = (accepted s.log).countP isReadReq
  access : s.ctrl.cntEvents .readAccess =
    s.ctrl.cntEvents .readCold + s.ctrl.cntEvents .readFastForward + s.ctrl.cntEvents .readPatch

/-- In every run, where nothing is pending, the reads accepted have been
counted. -/
theorem readAccess_of_run (h : (machine C).run (Sys.init cfg next) es = .ok s)
    (hidle : pendingCurrent s = false) :
    s.ctrl.cntEvents .readAccess = (accepted s.log).countP isReadReq := by
  have bal : s.ReadsTaken := (run_keeps (P := fun u => u.Ok ∧ u.ReadsTaken)
    (fun _ _ hu hm => ⟨hu.1.move hm, hu.2.move hu.1 hm⟩) ⟨.init, rfl⟩ h).2
  simp only [pendingCurrent, Bool.or_eq_false_iff, RequestQueue.pending_eq_false] at hidle
  rw [Sys.ReadsTaken, hidle.1.1] at bal
  exact bal

/-- A run that meets the condition counts each read once. -/
theorem readsBooked_of_meets (h : (machine C).run (Sys.init cfg next) es = .ok s)
    (hmeets : (machine C).Meets (EventOk countedOnce) (Sys.init cfg next) es) :
    s.ReadsBooked 0 := by
  refine (run_keeps_of_meets (P := fun u => u.Ok ∧ u.ReadsBooked 0) (fun u v hu hm => ?_)
    ⟨.init, .init⟩ hmeets h).2
  refine ⟨hu.1.move hm, ?_⟩
  obtain hsame | ⟨-, e, cl, hjoin, htype, hlen⟩ := hu.2.move hu.1 hm
  · exact hsame
  · exact absurd hlen (Nat.not_lt.mpr (hjoin htype))

/-- A run that does not has counted some read twice. -/
theorem recounted_of_not_meets (h : (machine C).run (Sys.init cfg next) es = .ok s)
    (hnot : ¬ (machine C).Meets (EventOk countedOnce) (Sys.init cfg next) es) : s.Recounted := by
  refine ((machine C).invariant_of_not_meets (C := EventOk countedOnce)
    (P := fun u => u.Ok ∧ u.BitsClear ∧ u.ReadsBooked 0) (Q := fun u => u.Ok ∧ u.Recounted)
    ?_ ?_ ?_ ⟨.init, fun k e he => by simp [Sys.entry, Sys.init] at he, .init⟩ hnot h).2
  · rintro u ev v hu hok hv
    refine reflTransGen_keeps (P := fun w => w.Ok ∧ w.BitsClear ∧ w.ReadsBooked 0)
      (fun a b ha hm => ?_) (step_moves hok hv) hu
    obtain ⟨ok, bits, bal⟩ := ha
    refine ⟨ok.move hm, bits.move ok hm, ?_⟩
    obtain hsame | ⟨-, e, cl, hjoin, htype, hlen⟩ := bal.move ok hm
    · exact hsame
    · exact absurd hlen (Nat.not_lt.mpr (hjoin htype))
  · rintro u ev v ⟨ok, bits, bal⟩ hbad hv
    exact ⟨ok.moves (step_moves eventOk_any hv), step_recounts bal ok bits hbad hv⟩
  · rintro u ev v hu hv
    exact reflTransGen_keeps (P := fun w => w.Ok ∧ w.Recounted)
      (fun _ _ hw hm => ⟨hw.1.move hm, hw.2.move hw.1 hm⟩) (step_moves eventOk_any hv) hu

/-- **The counters of the reads add up**, where nothing is pending,
exactly in the runs in which no read joins an entry that serves its
block fast forward. -/
theorem reads_add_up_iff (h : (machine C).run (Sys.init cfg next) es = .ok s)
    (hidle : pendingCurrent s = false) :
    s.ReadsAddUp ↔ (machine C).Meets (EventOk countedOnce) (Sys.init cfg next) es := by
  have ok : s.Ok := Sys.Ok.init.run h
  have howed : s.owed BufferEntry.readOwed = 0 :=
    owed_eq_zero ok hidle fun e hend => e.readOwed_eq_zero (.inl hend)
  constructor
  · rintro ⟨-, haccess⟩
    by_contra hnot
    obtain ⟨n, hpos, bal⟩ := recounted_of_not_meets h hnot
    rw [Sys.ReadsBooked, howed] at bal
    omega
  · intro hmeets
    have bal := readsBooked_of_meets h hmeets
    rw [Sys.ReadsBooked, howed] at bal
    exact ⟨readAccess_of_run h hidle, by omega⟩

/-- Two reads of a block that is fetched, the second joins the first. -/
def readsOfFetched : List (Event ℕ Unit) :=
  [.issueRequest { addr := 0, arrive := 0, type := .read, callback := some 0 },
    .issueRequest { addr := 64, arrive := 0, type := .read, callback := some 1 },
    .tick .asHeld 0, .tick .asHeld 1, .nextLevelReadCallback 0 1] ++
  (List.range 8).map fun i => .tick .asHeld (UInt64.ofNat (i + 2))

/-- Two reads accepted and counted, one as fetched and one as joined. -/
theorem reads_add_up_iff_readsOfFetched : ∃ s, smallRun readsOfFetched = .ok s ∧
    pendingCurrent s = false ∧ s.ReadsAddUp ∧ s.ctrl.cntEvents .readAccess = 2 ∧
    s.ctrl.cntEvents .readCold = 1 ∧ s.ctrl.cntEvents .readPatch = 1 := by
  obtain ⟨s, hrun, hidle, hcounts⟩ : Yields (smallRun readsOfFetched) fun s =>
      pendingCurrent s = false ∧ s.ctrl.cntEvents .readAccess = 2 ∧
        s.ctrl.cntEvents .readCold = 1 ∧ s.ctrl.cntEvents .readPatch = 1 := by decide +kernel
  have hmeets : (machine willing).Meets (EventOk countedOnce) (Sys.init smallConfig [()])
      readsOfFetched := by decide +kernel
  exact ⟨s, hrun, hidle, (reads_add_up_iff hrun hidle).mpr hmeets, hcounts⟩

/-- A read of a block, and once it is there two more, the second of
which joins the first. -/
def readsOfPresent : List (Event ℕ Unit) :=
  [.issueRequest { addr := 0, arrive := 0, type := .read, callback := some 0 },
    .tick .asHeld 0, .nextLevelReadCallback 0 0] ++
  ((List.range 4).map fun i => .tick .asHeld (UInt64.ofNat (i + 1))) ++
  [.issueRequest { addr := 0, arrive := 0, type := .read, callback := some 1 },
    .issueRequest { addr := 64, arrive := 0, type := .read, callback := some 2 }] ++
  (List.range 5).map fun i => .tick .asHeld (UInt64.ofNat (i + 5))

/-- **The last of three reads is counted twice**, as a read that joined
and as one served fast forward. -/
theorem readsOfPresent_recounted : ∃ s, smallRun readsOfPresent = .ok s ∧
    pendingCurrent s = false ∧ ¬ s.ReadsAddUp := by
  refine ⟨_, rfl, by decide, fun h => ?_⟩
  exact absurd h.access (by decide)

end ReadsAddUp

end Rmw

end Vans
