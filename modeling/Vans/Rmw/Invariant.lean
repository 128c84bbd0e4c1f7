import Vans.Rmw.Moves
/-!
# The RMW controller — what holds of every entry

One predicate on a buffer entry ties its request, its state, its flags
and its queue of waiting lines together; every entry of every reachable
state satisfies it. It is proved of the moves, one case a move.
-/

namespace Vans

namespace Rmw

variable {κ σ : Type} {C : Component Callback σ}

/-- Running a transfer leaves the queue of requests, the buffer and the
read-out queue's bound as they were; `drain` apart. -/
theorem EntryMove.frame {s s' : Sys κ σ} {e e' : BufferEntry κ} {key : Addr}
    (hm : EntryMove C key s e e' s') (ht : e.pendingRequest.type ≠ .flushBack) :
    s'.ctrl.buffer = s.ctrl.buffer ∧ s'.ctrl.lsq = s.ctrl.lsq ∧
      s'.ctrl.startAddr = s.ctrl.startAddr := by
  cases hm with
  | flush h => exact absurd h ht
  | _ => exact ⟨rfl, rfl, rfl⟩

/-! ## The chains of states -/

/-- The states a request of each type goes through. -/
def RequestType.chain : RequestType → RequestState → Bool
  | .writeRmw, .init | .writeRmw, .pendingAitR | .writeRmw, .pendingRead
  | .writeRmw, .pendingAitW | .writeRmw, .pendingModify | .writeRmw, .pendingWrite
  | .writeRmw, .end_ => true
  | .writeComb, .init | .writeComb, .pendingAitW | .writeComb, .pendingModify
  | .writeComb, .pendingWrite | .writeComb, .end_ => true
  | .writePatch, .init | .writePatch, .pendingAitW | .writePatch, .pendingModify
  | .writePatch, .pendingWrite | .writePatch, .end_ => true
  | .readCold, .init | .readCold, .pendingAitR | .readCold, .pendingRead
  | .readCold, .pendingReadout | .readCold, .end_ => true
  | .readFf, .init | .readFf, .pendingReadout | .readFf, .end_ => true
  | _, _ => false

/-- A write whose block has not been written below yet. -/
def BufferEntry.unwritten (e : BufferEntry κ) : Prop :=
  isWrite e.pendingRequest.type ∧ e.state ≠ .pendingWrite ∧ e.state ≠ .end_

/-- **The entry invariant.** -/
structure EntryOk (key : Addr) (e : BufferEntry κ) : Prop where
  /-- The entry is for its block. -/
  block : translateToBlockAddr e.pendingRequest.logicAddr = key
  /-- Its request is in a state of its chain. -/
  chain : e.pendingRequest.type.chain e.state
  /-- It is pending until its request ends. -/
  pending : e.pending = false ↔ e.state = .end_
  /-- Reads wait in it exactly while a read is running. -/
  idle : e.pendingRequestClIndex = [] ↔ e.state = .end_ ∨ isWrite e.pendingRequest.type
  /-- It cannot be read while a write has to come. -/
  unreadable : e.unwritten → e.validToRead = false
  /-- It can be read once it is written below, or has been read. -/
  readable : e.state = .pendingWrite ∨ e.state = .pendingReadout ∨ e.state = .end_ → e.validToRead
  /-- At rest, and once a read is running, nothing in it is unwritten. -/
  clean : e.state = .end_ ∨ (isRead e.pendingRequest.type ∧ e.state ≠ .init) → e.dirty = false
  /-- It waits for a callback only for the block to come. -/
  waiting : e.waitingActionClkUpdate → e.state = .init ∨ e.state = .pendingAitR

namespace EntryOk

variable {key : Addr} {e e' : BufferEntry κ} {s s' : Sys κ σ}

theorem aligned (ok : EntryOk key e) : translateToBlockAddr key = key := by
  rw [← ok.block, translateToBlockAddr_idem]

theorem not_flushBack (ok : EntryOk key e) : e.pendingRequest.type ≠ .flushBack := by
  intro h
  have := ok.chain
  simp [h, RequestType.chain] at this

theorem isWrite_or_isRead (ok : EntryOk key e) :
    (isWrite e.pendingRequest.type = true ∧ isRead e.pendingRequest.type = false) ∨
      (isWrite e.pendingRequest.type = false ∧ isRead e.pendingRequest.type = true) := by
  have := ok.not_flushBack
  cases h : e.pendingRequest.type <;> simp_all [isWrite, isRead]

/-- A transfer keeps the entry invariant. -/
theorem transfer (ok : EntryOk key e)
    (hact : e.state = .init ∨ (e.pending ∧ e.waitingActionClkUpdate = false))
    (hm : EntryMove C key s e e' s') : EntryOk key e' := by
  have hw := ok.isWrite_or_isRead
  obtain ⟨block, chain, pending, idle, unreadable, readable, clean, waiting⟩ := ok
  -- by the state the entry is left in: each clause speaks of the state and the type alone
  cases hm with
  | flush h => simp [h, RequestType.chain] at chain
  | refused => exact ⟨block, chain, pending, idle, unreadable, readable, clean, waiting⟩
  | roqFull => exact ⟨block, chain, pending, idle, unreadable, readable, clean, waiting⟩
  | fetch hst ht =>
      rcases ht with ht | ht <;>
        constructor <;> simp_all [RequestType.chain, isWrite, isRead, BufferEntry.unwritten]
  | fetched hst ht =>
      rcases ht with ht | ht <;>
        constructor <;> simp_all [RequestType.chain, isWrite, isRead, BufferEntry.unwritten]
  | merge hst ht =>
      constructor <;> simp_all [RequestType.chain, isWrite, isRead, BufferEntry.unwritten]
  | begin hst ht =>
      rcases ht with ht | ht <;>
        constructor <;> simp_all [RequestType.chain, isWrite, isRead, BufferEntry.unwritten]
  | written hst ht =>
      cases hty : e.pendingRequest.type <;>
        constructor <;> simp_all [RequestType.chain, isWrite, isRead, BufferEntry.unwritten]
  | modify hst ht =>
      cases hty : e.pendingRequest.type <;>
        constructor <;> simp_all [RequestType.chain, isWrite, isRead, BufferEntry.unwritten]
  | finish hst ht =>
      cases hty : e.pendingRequest.type <;>
        constructor <;> simp_all [RequestType.chain, isWrite, isRead, BufferEntry.unwritten]
  | readCold hst ht =>
      constructor <;> simp_all [RequestType.chain, isWrite, isRead, BufferEntry.unwritten]
  | readFf hst ht =>
      constructor <;> simp_all [RequestType.chain, isWrite, isRead, BufferEntry.unwritten]
  | @readout clk dur clIndex rest hst ht hidx =>
      by_cases hrest : rest = [] <;> cases hty : e.pendingRequest.type <;>
        constructor <;> simp_all [RequestType.chain, isWrite, isRead, BufferEntry.unwritten]

/-- A new read of the block keeps it, once it waits for its line. -/
theorem newRead {clk : Clk} {bits : BitVec blockSizeCl} {i : ℕ} {front : BaseRequest κ} :
    EntryOk (translateToBlockAddr front.addr)
      ((BufferEntry.new clk .readCold front.addr bits i).waitFor front) := by
  constructor <;>
    simp [BufferEntry.new, BufferEntry.waitFor, RequestType.chain, isWrite, BufferEntry.unwritten]

/-- A read that joins a pending read keeps it. -/
theorem joinRead (ok : EntryOk key e) (hpend : e.pending) {front : BaseRequest κ}
    (hne : e.pendingRequestClIndex ≠ []) : EntryOk key (e.waitFor front) := by
  obtain ⟨block, chain, pending, idle, unreadable, readable, clean, waiting⟩ := ok
  constructor <;> simp_all [BufferEntry.waitFor, BufferEntry.unwritten]

/-- A read of a block in the buffer keeps it. -/
theorem fastRead {front : BaseRequest κ} {clk : Clk} {bits : BitVec blockSizeCl}
    (hidx : e.pendingRequestClIndex = []) :
    EntryOk (translateToBlockAddr front.addr)
      (((e.assignNewRequest clk .readFf front.addr bits).cleared).waitFor front) := by
  constructor <;>
    simp [BufferEntry.assignNewRequest, BufferEntry.cleared, BufferEntry.waitFor,
      RequestType.chain, isWrite, BufferEntry.unwritten, hidx]

/-- A new write of the block keeps it. -/
theorem newWrite {clk : Clk} {bits : BitVec blockSizeCl} {i : ℕ} {type : RequestType} {addr : Addr}
    (ht : type = .writeRmw ∨ type = .writeComb) :
    EntryOk (translateToBlockAddr addr)
      (BufferEntry.new clk type addr bits i : BufferEntry κ) := by
  rcases ht with rfl | rfl <;> constructor <;>
    simp [BufferEntry.new, RequestType.chain, isWrite, isRead, BufferEntry.unwritten]

/-- A write assigned to an entry no read waits in keeps it. -/
theorem assignWrite {clk : Clk} {bits : BitVec blockSizeCl} {type : RequestType} {addr : Addr}
    (ht : isWrite type) (hidx : e.pendingRequestClIndex = []) :
    EntryOk (translateToBlockAddr addr) (e.assignNewRequest clk type addr bits) := by
  cases type <;> simp only [isWrite, Bool.false_eq_true] at ht <;> constructor <;>
    simp [BufferEntry.assignNewRequest, RequestType.chain, isWrite, isRead,
      BufferEntry.unwritten, hidx]

/-- Lines added to the bitmap keep it. -/
theorem setBitmap (ok : EntryOk key e) {bits : BitVec blockSizeCl} :
    EntryOk key { e with clBitmap := bits } :=
  ⟨ok.block, ok.chain, ok.pending, ok.idle, ok.unreadable, ok.readable, ok.clean, ok.waiting⟩

/-- A callback of the level below keeps it. -/
theorem wake (ok : EntryOk key e) {clk : Clk} :
    EntryOk key { e with waitingActionClkUpdate := false, nextActionClk := clk } :=
  ⟨ok.block, ok.chain, ok.pending, ok.idle, ok.unreadable, ok.readable, ok.clean, nofun⟩

/-- An entry a write may take over has no read waiting in it. -/
theorem idle_of_not_pending (ok : EntryOk key e) (h : e.pending = false) :
    e.pendingRequestClIndex = [] :=
  ok.idle.mpr (.inl (ok.pending.mp h))

theorem idle_of_isWrite (ok : EntryOk key e) (h : isWrite e.pendingRequest.type) :
    e.pendingRequestClIndex = [] :=
  ok.idle.mpr (.inr h)

end EntryOk

/-! ## Every entry, throughout every run -/

theorem BufferEntry.patchRmw_iff {e : BufferEntry κ} :
    e.patchRmw ↔ e.pendingRequest.type = .writeRmw ∧
      (e.state = .pendingRead ∨ e.state = .pendingModify) := by
  simp [BufferEntry.patchRmw]

/-- Every entry of the buffer satisfies the entry invariant. -/
def Sys.Ok (s : Sys κ σ) : Prop := ∀ key e, s.entry key = some e → EntryOk key e

namespace Sys.Ok

variable {s t u : Sys κ σ} {key : Addr} {e : BufferEntry κ}

/-- Entries that stayed where they were are as they were. -/
theorem of_entry_eq (ok : s.Ok) (h : ∀ k, t.entry k = s.entry k) : t.Ok :=
  fun k e he => ok k e (h k ▸ he)

/-- One entry of the buffer is new, or has changed. -/
theorem of_entry_ite (ok : s.Ok) (hnew : EntryOk key e)
    (h : ∀ k, t.entry k = if k = key then some e else s.entry k) : t.Ok := by
  intro k e' he
  rw [h] at he
  split at he
  · rename_i hk
    cases he
    exact hk ▸ hnew
  · exact ok k e' he

/-- At rest, an entry has nothing to write. -/
theorem clean_of_end (ok : s.Ok) (he : s.entry key = some e) (hend : e.state = .end_) :
    e.dirty = false :=
  (ok key e he).clean (.inl hend)

/-- **Every move keeps the entry invariant.** -/
theorem move {Q : Env κ} (ok : s.Ok) (h : Move C Q s t) :
    t.Ok := by
  cases h with
  | accept | run | below | draining => exact ok.of_entry_eq fun _ => rfl
  | evict he hend hfull =>
      intro k e' hk
      rw [entry_erase] at hk
      split at hk
      · cases hk
      · exact ok k e' hk
  | readCold hq ht hnone hroom =>
      exact ok.of_entry_ite EntryOk.newRead fun _ => by rw [entry_takeRead, entry_newEntry]
  | readPatch hq ht he hpend hread hne hlen hQ =>
      exact ok.of_entry_ite ((ok _ _ he).joinRead hpend hne) fun _ => by
        rw [entry_takeRead, entry_setEntry, entry_count]
  | readFf hq ht he hnot hvalid hidx =>
      exact ok.of_entry_ite (EntryOk.fastRead hidx) fun _ => by
        rw [entry_takeRead, entry_setEntry]
  | writeNew hq ht hcomb hnone hroom =>
      refine ok.of_entry_ite (EntryOk.newWrite ?_) fun _ => by
        rw [entry_takeWrites, entry_newEntry]
      split <;> simp
  | writeComb hq ht hcomb he hpatch hall =>
      have hwrite := (BufferEntry.patchRmw_iff.mp hpatch).1
      refine ok.of_entry_ite (EntryOk.assignWrite rfl ((ok _ _ he).idle_of_isWrite ?_)) fun _ => by
        rw [entry_takeWrites, entry_count, entry_setEntry]
      simp [hwrite, isWrite]
  | writeJoin hq ht hcomb he hpatch hall =>
      exact ok.of_entry_ite (ok _ _ he).setBitmap fun _ => by
        rw [entry_takeWrites, entry_count, entry_setEntry]
  | writePatch hq ht hcomb he hpend =>
      exact ok.of_entry_ite (EntryOk.assignWrite rfl ((ok _ _ he).idle_of_not_pending hpend))
        fun _ => by rw [entry_takeWrites, entry_setEntry]
  | @transfer key e e' s' he hact hm =>
      have hbuf := (hm.frame (ok key e he).not_flushBack).1
      refine ok.of_entry_ite ((ok key e he).transfer hact hm) fun k => ?_
      rw [entry_setEntry, Sys.entry, hbuf]
      rfl
  | wake he =>
      exact ok.of_entry_ite (ok _ _ he).wake fun _ => by rw [entry_emit, entry_setEntry]
  | flush he hdirty hend =>
      -- an entry at rest is clean
      simp [ok.clean_of_end he hend] at hdirty

theorem moves {Q : Env κ} (ok : s.Ok) (h : Moves C Q s t) : t.Ok :=
  reflTransGen_keeps (fun _ _ ok hm => ok.move hm) h ok

theorem tickRoq {clk : Clk} (ok : s.Ok) : (Rmw.tickRoq clk s).Ok :=
  ok.of_entry_eq fun _ => tickRoq_entry

theorem init {cfg : Config} {next : List σ} : (Sys.init cfg next : Sys κ σ).Ok := by
  intro k e he
  simp [Sys.entry, Sys.init] at he

/-- **In every reachable state every entry satisfies its invariant.** -/
theorem run {es : List (Event κ σ)} (ok : s.Ok) (h : (machine C).run s es = .ok t) : t.Ok :=
  run_keeps (fun _ _ ok hm => ok.move hm) ok h

end Sys.Ok

/-- **The stages of a tick**: the read-out queue, the load/store queue,
the entries. -/
theorem tick_stages {s t : Sys κ σ} {o : VisitOrder} {clk : Clk} (ok : s.Ok)
    (h : tick C o clk s = .ok t) :
    ∃ u, tickLsq o clk (tickRoq clk s) = .ok u ∧ LsqStep C .any (tickRoq clk s) u ∧ u.Ok ∧
      tickInternalBuffer C o clk u = .ok t := by
  simp only [tick, bind_eq_ok] at h
  obtain ⟨u, hlsq, hbuf⟩ := h
  have step : LsqStep C .any (tickRoq clk s) u :=
    tickLsq_step (fun _ _ _ _ _ _ _ => trivial) hlsq
  exact ⟨u, hlsq, step, ok.tickRoq.moves step.toMoves, hbuf⟩

/-- No move changes the mapping. -/
theorem Move.mappingFunc {Q : Env κ} {s t : Sys κ σ} (ok : s.Ok) (h : Move C Q s t) :
    t.ctrl.mappingFunc = s.ctrl.mappingFunc := by
  cases h with
  | @transfer key e e' s' he hact hm =>
      cases hm with
      | flush h => exact absurd h (ok key e he).not_flushBack
      | _ => rfl
  | _ => rfl

/-- The level below neither changes nor calls back by itself. -/
def alone : Env κ := { outside := False }

end Rmw

end Vans
