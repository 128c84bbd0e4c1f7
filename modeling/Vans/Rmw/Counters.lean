import Vans.Rmw.Reads
/-!
# The RMW controller — the counters of writes

A batch of writes is counted when it leaves the load/store queue, and
its kind when the entry it went to acts on it. Between the two the entry
owes a count, and until its block is written a write. This file says
what each entry owes, that every move keeps the books, and that the
counters add up where nothing is pending.
-/

namespace Vans

namespace Rmw

variable {κ σ : Type} {C : Component Callback σ} {Q : Env κ}

/-! ## What the entries owe -/

section Owed

variable {s t : Sys κ σ} {key : Addr} {e e' : BufferEntry κ} {w : BufferEntry κ → ℕ}

/-- What the entries of the buffer owe together. -/
def Sys.owed (w : BufferEntry κ → ℕ) (s : Sys κ σ) : ℕ :=
  Keyed.total (fun _ e => w e) s.ctrl.buffer.entryMap

theorem owed_congr (h : t.ctrl.buffer = s.ctrl.buffer) : t.owed w = s.owed w := by
  rw [Sys.owed, h, Sys.owed]

/-- A new entry owes its share. -/
theorem owed_newEntry (hnone : s.entry key = none) :
    (s.newEntry key e).owed w = s.owed w + w e :=
  (Keyed.total_insert_fresh hnone).trans (Nat.add_comm _ _)

/-- An entry changed owes the new share in place of the old. -/
theorem owed_setEntry (he : s.entry key = some e) :
    (s.setEntry key e').owed w + w e = s.owed w + w e' := by
  have hold : w e + Keyed.total (fun _ => w) (s.ctrl.buffer.entryMap.erase key) = s.owed w :=
    @Keyed.total_erase _ _ _ _ _ (fun _ => w) _ _ _ he
  have hnew : (s.setEntry key e').owed w =
      w e' + Keyed.total (fun _ => w) (s.ctrl.buffer.entryMap.erase key) := Keyed.total_insert
  omega

/-- An entry that goes owes its share no longer. -/
theorem owed_erase (he : s.entry key = some e) (hkey : translateToBlockAddr key = key)
    {cnt : Counter EventName} :
    ({ s with ctrl.buffer := s.ctrl.buffer.erase key, ctrl.cntEvents := cnt } : Sys κ σ).owed w +
      w e = s.owed w := by
  have hold : w e + Keyed.total (fun _ => w) (s.ctrl.buffer.entryMap.erase key) = s.owed w :=
    @Keyed.total_erase _ _ _ _ _ (fun _ => w) _ _ _ he
  rw [← hold, Nat.add_comm, Sys.owed, InternalBuffer.erase, hkey]

/-- Where no entry is pending, nothing is owed by those that are. -/
theorem owed_eq_zero (ok : s.Ok) (h : pendingCurrent s = false)
    (hw : ∀ e : BufferEntry κ, e.state = .end_ → w e = 0) : s.owed w = 0 := by
  simp only [pendingCurrent, Bool.or_eq_false_iff, InternalBuffer.any_eq_false] at h
  exact Keyed.total_eq_zero fun k e he => hw e ((ok k e he).pending.mp (h.2 k e he))

end Owed

/-! ## Writes -/

/-- Writes of blocks the level below accepted. -/
def isBlockWrite : Obs κ → Bool
  | .nextLevel .write _ => true
  | _ => false

/-- The number of block writes issued to the next level. -/
def blockWrites (log : List (Obs κ)) : ℕ := log.countP isBlockWrite

/-- A write that has not begun, whose kind is still to be counted. -/
def BufferEntry.writeOwed (e : BufferEntry κ) : ℕ :=
  if isWrite e.pendingRequest.type ∧ e.state = .init then 1 else 0

/-- The same, of a write of the whole block. -/
def BufferEntry.combOwed (e : BufferEntry κ) : ℕ :=
  if e.pendingRequest.type = .writeComb ∧ e.state = .init then 1 else 0

/-- A write that has begun, whose block is still to be written below. -/
def BufferEntry.blockOwed (e : BufferEntry κ) : ℕ :=
  if isWrite e.pendingRequest.type ∧ e.state ≠ .init ∧ e.state ≠ .pendingWrite ∧ e.state ≠ .end_
  then 1 else 0

/-- The writes begun, of all three kinds. -/
def Sys.writesBegun (s : Sys κ σ) : ℕ :=
  s.ctrl.cntEvents .writeRmw + s.ctrl.cntEvents .writeComb + s.ctrl.cntEvents .writePatch

/-- **The books of the writes.** A batch taken has begun, has joined a
write, or is in an entry that has not begun; a write begun has had its
block written, is on its way there, or was begun again as a write of the
whole block. -/
structure Sys.WritesBooked (s : Sys κ σ) : Prop where
  access : s.ctrl.cntEvents .writeAccess =
    s.writesBegun + s.ctrl.cntEvents .patchRmw + s.owed BufferEntry.writeOwed
  comb : s.ctrl.cntEvents .patchRmwComb ≤
    s.ctrl.cntEvents .writeComb + s.owed BufferEntry.combOwed
  block : blockWrites s.log + s.owed BufferEntry.blockOwed + s.ctrl.cntEvents .patchRmwComb =
    s.writesBegun

theorem not_isWrite_of_isRead {type : RequestType} (h : isRead type) :
    isWrite type = false ∧ type ≠ .writeComb := by
  cases type <;> simp_all [isRead, isWrite]

/-- What a transfer counts, its entry owes no longer. -/
theorem EntryMove.writesBooked {s s' : Sys κ σ} {e e' : BufferEntry κ} {key : Addr}
    (hm : EntryMove C key s e e' s') (ok : EntryOk key e) :
    s'.writesBegun + e'.writeOwed = s.writesBegun + e.writeOwed ∧
    s'.ctrl.cntEvents .writeComb + e'.combOwed = s.ctrl.cntEvents .writeComb + e.combOwed ∧
    blockWrites s'.log + e'.blockOwed + s.writesBegun =
      blockWrites s.log + e.blockOwed + s'.writesBegun ∧
    s'.ctrl.cntEvents .writeAccess = s.ctrl.cntEvents .writeAccess ∧
    s'.ctrl.cntEvents .patchRmw = s.ctrl.cntEvents .patchRmw ∧
    s'.ctrl.cntEvents .patchRmwComb = s.ctrl.cntEvents .patchRmwComb := by
  have hchain := ok.chain
  cases hm with
  | flush h => exact absurd h ok.not_flushBack
  | refused | roqFull => simp [Sys.writesBegun, Counter.incr]
  | fetch hst ht | begin hst ht =>
      rcases ht with ht | ht <;>
        simp [Sys.writesBegun, Counter.incr, BufferEntry.writeOwed, BufferEntry.combOwed,
          BufferEntry.blockOwed, blockWrites, isBlockWrite, hst, ht, isWrite] <;> omega
  | modify hst ht =>
      simp [Sys.writesBegun, BufferEntry.writeOwed, BufferEntry.combOwed, BufferEntry.blockOwed,
        blockWrites, isBlockWrite, hst, ht]
  | readFf hst ht =>
      simp [Sys.writesBegun, Counter.incr, BufferEntry.writeOwed, BufferEntry.combOwed,
        BufferEntry.blockOwed, hst, ht, isWrite]
  | readout hst ht =>
      obtain ⟨hno, hcomb⟩ := not_isWrite_of_isRead ht
      simp [Sys.writesBegun, BufferEntry.writeOwed, BufferEntry.combOwed, BufferEntry.blockOwed,
        hno, hcomb]
  | fetched hst ht =>
      simp [Sys.writesBegun, BufferEntry.writeOwed, BufferEntry.combOwed, BufferEntry.blockOwed,
        hst]
  | merge hst ht | written hst ht | finish hst ht | readCold hst ht =>
      simp [Sys.writesBegun, BufferEntry.writeOwed, BufferEntry.combOwed, BufferEntry.blockOwed,
        hst, ht, isWrite]

/-- An entry with no write on its way owes nothing. -/
theorem BufferEntry.owes_nothing {e : BufferEntry κ}
    (h : isWrite e.pendingRequest.type = false ∨ e.state = .pendingWrite ∨ e.state = .end_) :
    e.writeOwed = 0 ∧ e.combOwed = 0 ∧ e.blockOwed = 0 := by
  rcases h with h | h | h
  · have hcomb : e.pendingRequest.type ≠ .writeComb := by
      intro ht
      simp [ht, isWrite] at h
    simp [writeOwed, combOwed, blockOwed, h, hcomb]
  · simp [writeOwed, combOwed, blockOwed, h]
  · simp [writeOwed, combOwed, blockOwed, h]

/-- Entries in the same state of the same request owe the same. -/
theorem BufferEntry.owes_same {e e' : BufferEntry κ}
    (ht : e'.pendingRequest.type = e.pendingRequest.type) (hst : e'.state = e.state) :
    e'.writeOwed = e.writeOwed ∧ e'.combOwed = e.combOwed ∧ e'.blockOwed = e.blockOwed := by
  simp only [writeOwed, combOwed, blockOwed, ht, hst, and_self]

/-- An entry that can be read has no write on its way. -/
theorem EntryOk.owes_nothing {key : Addr} {e : BufferEntry κ} (ok : EntryOk key e)
    (h : e.validToRead) : e.writeOwed = 0 ∧ e.combOwed = 0 ∧ e.blockOwed = 0 := by
  refine BufferEntry.owes_nothing ?_
  by_contra hnot
  simp only [not_or, Bool.not_eq_false] at hnot
  have := ok.unreadable ⟨hnot.1, hnot.2.1, hnot.2.2⟩
  simp [this] at h

@[simp] theorem blockWrites_taken {log : List (Obs κ)} {how : Served} {reqs : List (BaseRequest κ)} :
    blockWrites (log ++ reqs.map (Obs.taken how)) = blockWrites log := by
  simp [blockWrites, List.countP_map, isBlockWrite, Function.comp_def]

namespace Sys.WritesBooked

variable {s t : Sys κ σ} {key : Addr} {e e' : BufferEntry κ}

/-- Nothing of it changes. -/
theorem quiet (bal : s.WritesBooked) (hbuf : t.ctrl.buffer = s.ctrl.buffer)
    (hcnt : t.ctrl.cntEvents = s.ctrl.cntEvents) (hlog : blockWrites t.log = blockWrites s.log) :
    t.WritesBooked := by
  obtain ⟨access, comb, block⟩ := bal
  constructor <;> simpa only [Sys.writesBegun, owed_congr hbuf, hcnt, hlog]

/-- **What is counted or owed on one side is on the other.** -/
theorem exchange (bal : s.WritesBooked) {old new : (BufferEntry κ → ℕ) → ℕ}
    (howed : ∀ w, t.owed w + old w = s.owed w + new w)
    (haccess : t.ctrl.cntEvents .writeAccess + s.writesBegun + s.ctrl.cntEvents .patchRmw +
        old BufferEntry.writeOwed =
      s.ctrl.cntEvents .writeAccess + t.writesBegun + t.ctrl.cntEvents .patchRmw +
        new BufferEntry.writeOwed)
    (hcomb : t.ctrl.cntEvents .patchRmwComb + s.ctrl.cntEvents .writeComb +
        old BufferEntry.combOwed ≤
      s.ctrl.cntEvents .patchRmwComb + t.ctrl.cntEvents .writeComb + new BufferEntry.combOwed)
    (hblock : blockWrites t.log + new BufferEntry.blockOwed + t.ctrl.cntEvents .patchRmwComb +
        s.writesBegun =
      blockWrites s.log + old BufferEntry.blockOwed + s.ctrl.cntEvents .patchRmwComb +
        t.writesBegun) : t.WritesBooked := by
  have hw := howed BufferEntry.writeOwed
  have hc := howed BufferEntry.combOwed
  have hb := howed BufferEntry.blockOwed
  obtain ⟨access, comb, block⟩ := bal
  constructor <;> omega

/-- A transfer keeps the books. -/
theorem transfer (bal : s.WritesBooked) (ok : s.Ok) (he : s.entry key = some e) {s' : Sys κ σ}
    (hm : EntryMove C key s e e' s') : (s'.setEntry key e').WritesBooked := by
  have hbuf := (hm.frame (ok key e he).not_flushBack).1
  have he' : s'.entry key = some e := by rw [Sys.entry, hbuf]; exact he
  obtain ⟨hbegun, hcomb, hblock, haccess, hjoin, hagain⟩ := hm.writesBooked (ok key e he)
  refine @exchange _ _ s _ bal (fun w => w e) (fun w => w e') (fun w => ?_) ?_ ?_ ?_
  · rw [owed_setEntry he', owed_congr hbuf]
  · simp only [Sys.setEntry, Sys.writesBegun] at hbegun ⊢
    omega
  · simp only [Sys.setEntry]
    omega
  · simp only [Sys.setEntry, Sys.writesBegun] at hblock ⊢
    omega

/-- **Every move keeps the books of the writes.** -/
theorem move (bal : s.WritesBooked) (ok : s.Ok) (h : Move C Q s t) : t.WritesBooked := by
  cases h with
  | accept => exact bal.quiet rfl rfl (by simp [blockWrites, isBlockWrite])
  | run =>
      exact bal.quiet rfl rfl
        (by simp [blockWrites, List.countP_map, isBlockWrite, Function.comp_def])
  | below | draining => exact bal.quiet rfl rfl rfl
  | @evict key e he hend hfull =>
      -- an entry at rest owes no write
      obtain ⟨hw, hc, hb⟩ := e.owes_nothing (.inr (.inr hend))
      refine @exchange _ _ s _ bal (fun w => w e) (fun _ => 0)
        (fun w => owed_erase he (ok key e he).aligned) ?_ ?_ ?_ <;>
        simp [Sys.writesBegun, Counter.incr, hw, hc, hb]
  | readCold hq ht hnone hroom =>
      refine @exchange _ _ s _ bal (fun _ => 0) (fun w => w _) (fun w => owed_newEntry hnone)
        ?_ ?_ ?_ <;>
        simp [Sys.writesBegun, Counter.incr, Sys.takeRead, Sys.newEntry, BufferEntry.writeOwed,
          BufferEntry.combOwed, BufferEntry.blockOwed, BufferEntry.new, BufferEntry.waitFor,
          isWrite, blockWrites, isBlockWrite]
  | @readPatch front rest e hq ht he hpend hread hne hlen hQ =>
      obtain ⟨hw, hc, hb⟩ : (e.waitFor front).writeOwed = e.writeOwed ∧ _ :=
        BufferEntry.owes_same rfl rfl
      refine @exchange _ _ s _ bal (fun w => w e) (fun w => w (e.waitFor front))
        (fun w => owed_setEntry (s := s) he) ?_ ?_ ?_ <;>
        simp [Sys.writesBegun, Counter.incr, Sys.takeRead, Sys.setEntry, Sys.count, hw, hc, hb,
          blockWrites, isBlockWrite]
  | @readFf front rest e clk bits hq ht he hnot hvalid hidx =>
      obtain ⟨hw, hc, hb⟩ := (ok _ e he).owes_nothing hvalid
      obtain ⟨hw', hc', hb'⟩ := (((e.assignNewRequest clk .readFf front.addr bits).cleared).waitFor
        front).owes_nothing (.inl rfl)
      refine @exchange _ _ s _ bal (fun w => w e) (fun w => w _) (fun w => owed_setEntry he)
        ?_ ?_ ?_ <;>
        simp [Sys.writesBegun, Counter.incr, Sys.takeRead, Sys.setEntry, hw, hc, hb, hw', hc', hb',
          blockWrites, isBlockWrite]
  | @writeNew front rest taken left clk hit hq ht hcomb hnone hroom =>
      refine @exchange _ _ s _ bal (fun _ => 0) (fun w => w _) (fun w => owed_newEntry hnone)
        ?_ ?_ ?_ <;>
      -- a write of the whole block is counted as combined at once
      by_cases hall : hit = blockHitClBitmask <;>
        simp [Sys.writesBegun, Counter.incr, Sys.takeWrites, Sys.newEntry, BufferEntry.writeOwed,
          BufferEntry.combOwed, BufferEntry.blockOwed, BufferEntry.new, isWrite, hall] <;> omega
  | @writeComb front rest taken left e clk hit hq ht hcomb he hpatch hall =>
      obtain ⟨htype, hst⟩ := BufferEntry.patchRmw_iff.mp hpatch
      refine @exchange _ _ s _ bal (fun w => w e) (fun w => w _) (fun w => owed_setEntry he)
        ?_ ?_ ?_ <;>
      rcases hst with hst | hst <;>
        simp [Sys.writesBegun, Counter.incr, Sys.takeWrites, Sys.setEntry, Sys.count,
          BufferEntry.writeOwed, BufferEntry.combOwed, BufferEntry.blockOwed,
          BufferEntry.assignNewRequest, isWrite, htype, hst] <;> omega
  | @writeJoin front rest taken left e hit hq ht hcomb he hpatch hall =>
      obtain ⟨hw, hc, hb⟩ := @BufferEntry.owes_same _ e
        { e with clBitmap := hit ||| e.clBitmap } rfl rfl
      refine @exchange _ _ s _ bal (fun w => w e) (fun w => w _) (fun w => owed_setEntry he)
        ?_ ?_ ?_ <;>
        simp [Sys.writesBegun, Counter.incr, Sys.takeWrites, Sys.setEntry, Sys.count, hw, hc, hb]
      omega
  | @writePatch front rest taken left e clk hit hq ht hcomb he hpend =>
      obtain ⟨hw, hc, hb⟩ := e.owes_nothing (.inr (.inr ((ok _ e he).pending.mp hpend)))
      obtain ⟨hw', hc', hb'⟩ : (e.assignNewRequest clk .writePatch front.addr hit).writeOwed = 1 ∧
          (e.assignNewRequest clk .writePatch front.addr hit).combOwed = 0 ∧
          (e.assignNewRequest clk .writePatch front.addr hit).blockOwed = 0 := by
        simp [BufferEntry.writeOwed, BufferEntry.combOwed, BufferEntry.blockOwed,
          BufferEntry.assignNewRequest, isWrite]
      refine @exchange _ _ s _ bal (fun w => w e) (fun w => w _) (fun w => owed_setEntry he)
        ?_ ?_ ?_ <;>
        simp [Sys.writesBegun, Counter.incr, Sys.takeWrites, Sys.setEntry, hw, hc, hb, hw', hc',
          hb']
      omega
  | transfer he hact hm => exact bal.transfer ok he hm
  | @wake addr e clk he hout =>
      obtain ⟨hw, hc, hb⟩ := @BufferEntry.owes_same _ e
        { e with waitingActionClkUpdate := false, nextActionClk := clk } rfl rfl
      refine @exchange _ _ s _ bal (fun w => w e) (fun w => w _) (fun w => owed_setEntry he)
        ?_ ?_ ?_ <;>
        simp [Sys.writesBegun, Sys.setEntry, Sys.emit, hw, hc, hb, blockWrites, isBlockWrite]
  | flush he hdirty hend =>
      -- an entry at rest is clean
      simp [ok.clean_of_end he hend] at hdirty

theorem init {cfg : Config} {next : List σ} : (Sys.init cfg next : Sys κ σ).WritesBooked :=
  ⟨rfl, Nat.le_refl _, rfl⟩

theorem run {es : List (Event κ σ)} (bal : s.WritesBooked) (ok : s.Ok)
    (h : (machine C).run s es = .ok t) : t.WritesBooked :=
  (run_keeps (P := fun u => u.Ok ∧ u.WritesBooked)
    (fun _ _ hu hm => ⟨hu.1.move hm, hu.2.move hu.1 hm⟩) ⟨ok, bal⟩ h).2

end Sys.WritesBooked

/-! ## Batches of writes -/

section Batches

variable {s t : Sys κ σ} {o : VisitOrder} {clk : Clk}

def isWriteTaken : Obs κ → Bool
  | .taken .write _ => true
  | _ => false

/-- The writes that left the load/store queue. -/
def writesTaken (log : List (Obs κ)) : ℕ := log.countP isWriteTaken

/-- The batches a call takes: a tick takes one at most, so it has if a
write left the queue. -/
def batches (s t : Sys κ σ) : ℕ := if writesTaken s.log < writesTaken t.log then 1 else 0

/-- The controller beside the count of the batches its calls take. -/
def batching (C : Component Callback σ) : Machine (Sys κ σ × ℕ) (Event κ σ) String :=
  (machine C).tallied batches

/-- No batch is taken, and none counted. -/
def Sys.TakesNone (s t : Sys κ σ) : Prop :=
  writesTaken t.log = writesTaken s.log ∧
    t.ctrl.cntEvents .writeAccess = s.ctrl.cntEvents .writeAccess

/-- What is taken is counted once. -/
def Sys.CountsBatches (s t : Sys κ σ) : Prop :=
  t.ctrl.cntEvents .writeAccess = s.ctrl.cntEvents .writeAccess + batches s t

theorem Sys.TakesNone.refl : s.TakesNone s := ⟨rfl, rfl⟩

theorem Sys.TakesNone.trans {u : Sys κ σ} (h : s.TakesNone t) (h' : t.TakesNone u) :
    s.TakesNone u :=
  ⟨h'.1.trans h.1, h'.2.trans h.2⟩

theorem Sys.TakesNone.countsBatches (h : s.TakesNone t) : s.CountsBatches t := by
  rw [CountsBatches, batches, h.1, h.2, if_neg (Nat.lt_irrefl _), Nat.add_zero]

theorem Sys.CountsBatches.of_takesNone {u v : Sys κ σ} (h : s.TakesNone u)
    (hmid : u.CountsBatches v) (h' : v.TakesNone t) : s.CountsBatches t := by
  unfold CountsBatches batches at *
  rw [h.1, h.2] at hmid
  rw [h'.1, h'.2, hmid]

/-- The write at the front is among those combined. -/
theorem combine_front {front : BaseRequest κ} {rest taken left : List (BaseRequest κ)}
    {hit : BitVec blockSizeCl} (ht : front.type = .write)
    (h : combine (translateToBlockAddr front.addr) (front :: rest) = (hit, taken, left)) :
    front ∈ taken := by
  simp only [combine, ne_eq, not_true_eq_false, if_false, ht, Prod.mk.injEq] at h
  rw [← h.2.1]
  exact List.mem_cons_self

@[simp] theorem writesTaken_batch {log : List (Obs κ)} {reqs : List (BaseRequest κ)} :
    writesTaken (log ++ reqs.map (Obs.taken .write)) = writesTaken log + reqs.length := by
  simp [writesTaken, List.countP_map, isWriteTaken, Function.comp_def]

/-- Taking the writes combined counts one batch. -/
theorem Sys.CountsBatches.takeWrites {front : BaseRequest κ} {rest taken left : List (BaseRequest κ)}
    {hit : BitVec blockSizeCl} (hq : s.ctrl.lsq.queue = front :: rest) (ht : front.type = .write)
    (hcomb : s.combined front = (hit, taken, left))
    (hlog : t.log = s.log ++ taken.map (Obs.taken .write))
    (hcnt : t.ctrl.cntEvents .writeAccess = s.ctrl.cntEvents .writeAccess + 1) :
    s.CountsBatches t := by
  rw [Sys.combined, hq] at hcomb
  have hpos := List.length_pos_of_mem (combine_front ht hcomb)
  rw [CountsBatches, batches, hlog, writesTaken_batch, hcnt, if_pos (by omega)]

theorem EntryMove.takesNone {key : Addr} {e e' : BufferEntry κ} (hm : EntryMove C key s e e' t)
    (ok : EntryOk key e) : s.TakesNone t := by
  refine ⟨?_, (hm.writesBooked ok).2.2.2.1⟩
  rcases hm.log ok with hlog | ⟨hlog, -⟩ | ⟨hlog, -⟩ <;> simp [writesTaken, hlog, isWriteTaken]

/-- **A move takes one batch at most.** -/
theorem Move.countsBatches (ok : s.Ok) (h : Move C Q s t) : s.CountsBatches t := by
  have hnone : ∀ {log : List (Obs κ)} {how : Served} {req : BaseRequest κ}, how ≠ .write →
      writesTaken (log ++ [.taken how req]) = writesTaken log := by
    intro log how req hhow
    cases how <;> simp_all [writesTaken, isWriteTaken]
  cases h with
  | accept | wake =>
      exact Sys.TakesNone.countsBatches
        ⟨by simp [writesTaken, isWriteTaken, Sys.emit, Sys.setEntry], rfl⟩
  | run =>
      exact Sys.TakesNone.countsBatches
        ⟨by simp [writesTaken, List.countP_map, isWriteTaken, Function.comp_def], rfl⟩
  | below | draining | flush => exact Sys.TakesNone.countsBatches ⟨rfl, rfl⟩
  | evict => exact Sys.TakesNone.countsBatches ⟨rfl, by simp [Counter.incr]⟩
  | readCold | readFf =>
      exact Sys.TakesNone.countsBatches
        ⟨hnone (by simp), by simp [Sys.takeRead, Sys.newEntry, Sys.setEntry, Counter.incr]⟩
  | readPatch =>
      exact Sys.TakesNone.countsBatches
        ⟨hnone (by simp), by simp [Sys.takeRead, Sys.setEntry, Sys.count, Counter.incr]⟩
  | writeNew hq ht hcomb =>
      exact .takeWrites hq ht hcomb rfl (by simp [Sys.takeWrites, Sys.newEntry, Counter.incr])
  | writeComb hq ht hcomb | writeJoin hq ht hcomb | writePatch hq ht hcomb =>
      exact .takeWrites hq ht hcomb rfl
        (by simp [Sys.takeWrites, Sys.setEntry, Sys.count, Counter.incr])
  | @transfer key e e' s' he hact hm => exact (hm.takesNone (ok key e he)).countsBatches

theorem tickRoq_takesNone : s.TakesNone (tickRoq clk s) := by
  unfold tickRoq
  split
  · exact .refl
  · split
    · exact ⟨by simp [writesTaken, List.countP_map, isWriteTaken, Function.comp_def], rfl⟩
    · exact .refl

theorem tickInternalBuffer_takesNone (ok : s.Ok) (h : tickInternalBuffer C o clk s = .ok t) :
    s.TakesNone t := by
  refine (foldlM_keeps (P := fun u => u.Ok ∧ s.TakesNone u) ?_ ⟨ok, .refl⟩ h).2
  rintro u key v ⟨okᵤ, hu⟩ hv
  have moves : Moves C .any u v := tickEntry_moves hv
  refine ⟨okᵤ.moves moves, hu.trans ?_⟩
  obtain rfl | ⟨e, e', s', he, hact, hm, rfl⟩ := tickEntry_cases hv
  · exact .refl
  · exact hm.takesNone (okᵤ key e he)

/-- Serving the front of the load/store queue takes one batch at most:
an eviction before it takes none. -/
theorem LsqStep.countsBatches (ok : s.Ok) (h : LsqStep C Q s t) : s.CountsBatches t := by
  obtain ⟨u, hu, ht, -, -, hlog, -⟩ := h.moves
  have okᵤ : u.Ok := by
    rcases hu with rfl | hu
    · exact ok
    · exact ok.move hu
  have hfirst : s.TakesNone u := by
    refine ⟨by rw [hlog], ?_⟩
    rcases hu with rfl | hu
    · rfl
    · have hcount := hu.countsBatches ok
      rwa [Sys.CountsBatches, batches, hlog, if_neg (Nat.lt_irrefl _)] at hcount
  have hsecond : u.CountsBatches t := by
    rcases ht with rfl | ht
    · exact Sys.TakesNone.refl.countsBatches
    · exact ht.countsBatches okᵤ
  exact .of_takesNone hfirst hsecond .refl

theorem tick_countsBatches (ok : s.Ok) (h : tick C o clk s = .ok t) : s.CountsBatches t := by
  obtain ⟨u, -, step, okᵤ, hbuf⟩ := tick_stages ok h
  exact .of_takesNone tickRoq_takesNone (step.countsBatches ok.tickRoq)
    (tickInternalBuffer_takesNone okᵤ hbuf)

/-- **Every call counts the batches it takes.** -/
theorem step_countsBatches {ev : Event κ σ} (ok : s.Ok) (h : (machine C).step s ev = .ok t) :
    s.CountsBatches t := by
  cases ev with
  | tick o clk => exact tick_countsBatches ok h
  | issueRequest req =>
      simp only [machine, bind_eq_ok, Prod.exists, pure_eq_ok] at h
      obtain ⟨resp, u, hu, rfl⟩ := h
      simp only [issueRequest, bind_eq_ok, Prod.exists, pure_eq_ok, Prod.mk.injEq] at hu
      obtain ⟨success, lsq, -, -, rfl⟩ := hu
      refine Sys.TakesNone.countsBatches ?_
      split
      · exact ⟨by simp [writesTaken, isWriteTaken, Sys.emit], rfl⟩
      · exact .refl
  | nextLevelReadCallback addr clk =>
      unfold machine nextLevelReadCallback at h
      dsimp only at h
      split at h
      · exact absurd h throw_ne_ok
      · obtain rfl := pure_eq_ok.mp h
        exact Sys.TakesNone.countsBatches
          ⟨by simp [writesTaken, isWriteTaken, Sys.emit, Sys.setEntry], rfl⟩
  | drainCurrent =>
      obtain rfl := pure_eq_ok.mp h
      refine Sys.TakesNone.countsBatches ?_
      unfold drainCurrent
      refine foldl_keeps (P := fun u => s.TakesNone u) (fun u key hu => ?_) .refl
      dsimp only
      split
      · exact hu
      · split <;> exact hu
  | nextLevel next =>
      obtain rfl := pure_eq_ok.mp h
      exact Sys.TakesNone.countsBatches .refl

end Batches

/-! ## The writes add up -/

section WritesAddUp

variable {cfg : Config} {next : List σ} {es : List (Event κ σ)} {s : Sys κ σ}

/-- **The counters of the writes add up.** `n` is the number of batches
taken from the load/store queue. The last part is stated without
subtraction. -/
structure Sys.WritesAddUp (s : Sys κ σ) (n : ℕ) : Prop where
  batches : s.ctrl.cntEvents .writeAccess = n
  access : s.ctrl.cntEvents .writeAccess =
    s.ctrl.cntEvents .writeRmw + s.ctrl.cntEvents .writeComb + s.ctrl.cntEvents .writePatch +
      s.ctrl.cntEvents .patchRmw
  comb : s.ctrl.cntEvents .patchRmwComb ≤ s.ctrl.cntEvents .writeComb
  block : blockWrites s.log + s.ctrl.cntEvents .patchRmwComb =
    s.ctrl.cntEvents .writeRmw + s.ctrl.cntEvents .writeComb + s.ctrl.cntEvents .writePatch

/-- In every state a run comes to, the counter of accesses is that of
the batches taken. -/
theorem writeAccess_of_run (h : (machine C).run (Sys.init cfg next) es = .ok s) :
    ∃ n, (batching C).run (Sys.init cfg next, 0) es = .ok (s, n) ∧
      s.ctrl.cntEvents .writeAccess = n := by
  have hsame : ((batching C).run (Sys.init cfg next, 0) es).map Prod.fst = .ok s :=
    Machine.tallied_run.trans h
  obtain ⟨⟨s', n⟩, hrun, rfl⟩ := map_eq_ok.mp hsame
  have hbalance := Machine.tallied_balance (P := Sys.Ok)
    (f := fun s => s.ctrl.cntEvents .writeAccess)
    (fun s e t ok ht => ⟨Sys.Ok.run ok (Machine.run_concat.mpr ⟨s, Machine.run_nil, ht⟩),
      step_countsBatches ok ht⟩) .init hrun
  exact ⟨n, hrun, hbalance.trans (Nat.zero_add n)⟩

/-- **The counters of the writes add up** in every state a run comes to
in which nothing is pending. -/
theorem writes_add_up (h : (machine C).run (Sys.init cfg next) es = .ok s)
    (hidle : pendingCurrent s = false) :
    ∃ n, (batching C).run (Sys.init cfg next, 0) es = .ok (s, n) ∧ s.WritesAddUp n := by
  obtain ⟨n, hrun, hn⟩ := writeAccess_of_run h
  have ok : s.Ok := Sys.Ok.init.run h
  obtain ⟨access, comb, block⟩ := Sys.WritesBooked.init.run Sys.Ok.init h
  have hzero : ∀ e : BufferEntry κ, e.state = .end_ →
      e.writeOwed = 0 ∧ e.combOwed = 0 ∧ e.blockOwed = 0 :=
    fun e hend => e.owes_nothing (.inr (.inr hend))
  have hw : s.owed BufferEntry.writeOwed = 0 := owed_eq_zero ok hidle fun e he => (hzero e he).1
  have hc : s.owed BufferEntry.combOwed = 0 := owed_eq_zero ok hidle fun e he => (hzero e he).2.1
  have hb : s.owed BufferEntry.blockOwed = 0 := owed_eq_zero ok hidle fun e he => (hzero e he).2.2
  unfold Sys.writesBegun at access block
  exact ⟨n, hrun, hn, by omega, by omega, by omega⟩

/-- A write, one that joins it, and two that complete the block. -/
def writesOfBlock : List (Event ℕ Unit) :=
  [.issueRequest { addr := 0, arrive := 0, type := .write }, .tick .asHeld 0,
    .nextLevelReadCallback 0 0, .tick .asHeld 1,
    .issueRequest { addr := 64, arrive := 0, type := .write }, .tick .asHeld 2, .tick .asHeld 3,
    .issueRequest { addr := 128, arrive := 0, type := .write },
    .issueRequest { addr := 192, arrive := 0, type := .write }] ++
  (List.range 4).map fun i => .tick .asHeld (UInt64.ofNat (i + 4))

theorem writes_add_up_writesOfBlock : ∃ s, smallRun writesOfBlock = .ok s ∧
    pendingCurrent s = false ∧ ∃ n, (batching willing).run (Sys.init smallConfig [()], 0)
      writesOfBlock = .ok (s, n) ∧ s.WritesAddUp n := by
  obtain ⟨s, hrun, hidle⟩ : ∃ s, smallRun writesOfBlock = .ok s ∧ pendingCurrent s = false :=
    ⟨_, rfl, by decide⟩
  exact ⟨s, hrun, hidle, writes_add_up hrun hidle⟩

end WritesAddUp

end Rmw

end Vans
