import Vans.Rmw.Invariant
import Vans.Model.Recorded
import Vans.Common.History
/-!
# The RMW controller — no write is lost

A block owes a write while a write to it has left the load/store queue
and the block has not been written below since. A block that owes one
has an entry that will write it, and nothing but writing it takes that
entry away.
-/

namespace Vans

namespace Rmw

variable {κ σ : Type} {C : Component Callback σ}

/-! ## What the level below took -/

section Taken

/-- A move asks the level below for the block of an entry, or leaves it
and the record of what it accepted. -/
theorem Move.nextLevels {s t : Sys κ σ} (ok : s.Ok) (h : Move C alone s t) :
    (t.next = s.next ∧ nextLevels t.log = nextLevels s.log) ∨
    ∃ key req resp req', C.issueTo s.next (s.ctrl.mappingFunc key s.next.length).2 req =
        .ok (resp, req', t.next) ∧ req.addr = key ∧
      nextLevels t.log = nextLevels s.log ++
        if resp.issued then [(req.type, req.addr)] else [] := by
  have hquiet : ∀ new : List (Obs κ), Rmw.nextLevels new = [] →
      Rmw.nextLevels (s.log ++ new) = Rmw.nextLevels s.log := fun new hnew =>
    List.filterMap_append.trans ((congrArg _ hnew).trans (List.append_nil _))
  cases h with
  | accept | readCold | readPatch | readFf => exact .inl ⟨rfl, hquiet _ rfl⟩
  | run => exact .inl ⟨rfl, hquiet _ (by simp [Rmw.nextLevels])⟩
  | writeNew | writeComb | writeJoin | writePatch =>
      exact .inl ⟨rfl, hquiet _ (by simp [Rmw.nextLevels])⟩
  | evict | flush | draining => exact .inl ⟨rfl, rfl⟩
  | wake _ hQ | below hQ => exact hQ.elim
  | @transfer key e e' s' he hact hm =>
      have hblock := (ok key e he).block
      rcases hm.nextLevels (ok key e he).not_flushBack with hsame | ⟨type, cb, resp, hask, hnew⟩
      · exact .inl hsame
      · obtain ⟨clk, req', hissue⟩ := hask
        exact .inr ⟨key, _, resp, req', hissue, hblock, hnew⟩

variable {s t : Sys κ (σ × List (Exchange Callback))}

/-- The requests recorded of the level below that are for one component,
as the mapping has it. -/
def toldOf (f : ComponentMapping) (total i : ℕ) (log : List (Obs κ)) :
    List (BaseRequestType × Addr) :=
  (nextLevels log).filter fun r => (f r.2 total).2 = i

/-- Nobody but the controller has a component below take a request. -/
def OnlyAsked (s : Sys κ (σ × List (Exchange Callback))) :
    Event κ (σ × List (Exchange Callback)) → Prop
  | .nextLevel next => next.length = s.next.length ∧
      ∀ i, Component.takenAt next i = Component.takenAt s.next i
  | _ => True

/-- The record of the controller and those of the components agree. -/
structure Sys.Agrees (f : ComponentMapping) (total : ℕ)
    (s : Sys κ (σ × List (Exchange Callback))) : Prop where
  ok : s.Ok
  mapping : s.ctrl.mappingFunc = f
  count : s.next.length = total
  told : ∀ i, toldOf f total i s.log =
    (Component.takenAt s.next i).map fun r => (r.type, r.addr)

theorem Sys.Agrees.move {f : ComponentMapping} {total : ℕ} (h : s.Agrees f total)
    (hm : Move C.recorded alone s t) : t.Agrees f total := by
  obtain ⟨ok, rfl, rfl, told⟩ := h
  refine ⟨ok.move hm, hm.mappingFunc ok, ?_, fun i => ?_⟩ <;>
    rcases hm.nextLevels ok with ⟨hnext, hsame⟩ | ⟨key, req, resp, req', hissue, rfl, hnew⟩
  · rw [hnext]
  · exact Component.issueTo_length hissue
  · rw [toldOf, hsame, hnext]
    exact told i
  · rw [toldOf, hnew, Component.takenAt_issueTo hissue, List.filter_append, List.map_append]
    refine congrArg₂ _ (told i) ?_
    by_cases hi : (s.ctrl.mappingFunc req.addr s.next.length).2 = i <;> cases resp.issued <;>
      simp [hi]

/-- **What is recorded of the level below, a component took.** In every
run over components that keep a record of what they take, the requests
recorded for each are those it took, in order. -/
theorem nextLevels_taken {cfg : Config} {next : List (σ × List (Exchange Callback))}
    {es : List (Event κ (σ × List (Exchange Callback)))}
    (hnew : ∀ i, Component.takenAt next i = [])
    (hasked : (machine C.recorded).Meets OnlyAsked (Sys.init cfg next) es)
    (h : (machine C.recorded).run (Sys.init cfg next) es = .ok s) (i : ℕ) :
    toldOf cfg.mappingFunc next.length i s.log =
      (Component.takenAt s.next i).map fun r => (r.type, r.addr) := by
  have hinit : (Sys.init cfg next : Sys κ (σ × List (Exchange Callback))).Agrees cfg.mappingFunc
      next.length := by
    refine ⟨.init, rfl, rfl, fun i => ?_⟩
    change [] = (Component.takenAt next i).map _
    rw [hnew, List.map_nil]
  refine ((machine C.recorded).invariant_of_meets ?_ hinit hasked h).told i
  intro u ev v hu hev hstep
  have hmoves : EventOk alone u ev → v.Agrees cfg.mappingFunc next.length := fun halone =>
    reflTransGen_keeps (fun _ _ hw hm => hw.move hm) (step_moves halone hstep) hu
  cases ev with
  | nextLevel below =>
      obtain rfl := pure_eq_ok.mp hstep
      exact ⟨hu.ok.of_entry_eq fun _ => rfl, hu.mapping, hev.1.trans hu.count,
        fun i => (hu.told i).trans (congrArg _ (hev.2 i).symm)⟩
  | nextLevelReadCallback addr clk =>
      have hok : v.Ok := hu.ok.moves (step_moves eventOk_any hstep)
      simp only [machine, nextLevelReadCallback] at hstep
      split at hstep
      · exact absurd hstep throw_ne_ok
      · obtain rfl := pure_eq_ok.mp hstep
        refine ⟨hok, hu.mapping, hu.count, fun i => Eq.trans ?_ (hu.told i)⟩
        simp [toldOf, nextLevels, Sys.emit, Sys.setEntry]
  | issueRequest | drainCurrent => exact hmoves trivial
  | tick o clk => exact hmoves (by simp [EventOk, PatchOk, alone])

end Taken

/-! ## The blocks that owe a write -/

/-- Writes to the block have been taken since the block was last written
below. -/
def OwesWrite (block : Addr) (log : List (Obs κ)) : Prop :=
  History.Owes
    (fun o => ∃ w, o = .taken .write w ∧ translateToBlockAddr w.addr = block)
    (· = .nextLevel .write block) log

/-- The states a write goes through before the block is written below. -/
def RequestState.beforePendingWrite : RequestState → Bool
  | .init | .pendingAitR | .pendingRead | .pendingAitW | .pendingModify => true
  | .pendingWrite | .pendingReadout | .end_ => false

theorem BufferEntry.unwritten.state {e : BufferEntry κ} {key : Addr} (h : e.unwritten)
    (ok : EntryOk key e) : e.pending ∧ e.state.beforePendingWrite := by
  obtain ⟨hw, hpw, hend⟩ := h
  have hpend : e.pending ≠ false := fun hp => hend (ok.pending.mp hp)
  have hchain := ok.chain
  refine ⟨by simpa using hpend, ?_⟩
  cases hst : e.state <;> cases ht : e.pendingRequest.type <;>
    simp_all [RequestState.beforePendingWrite, RequestType.chain, isWrite]

/-- A write just assigned is not written. -/
theorem BufferEntry.unwritten_assign {e : BufferEntry κ} {clk : Clk} {type : RequestType}
    {addr : Addr} {bits : BitVec blockSizeCl} (ht : isWrite type) :
    (e.assignNewRequest clk type addr bits).unwritten :=
  ⟨ht, by simp [assignNewRequest], by simp [assignNewRequest]⟩

/-! ## What combining takes -/

theorem combine_spec {block : Addr} : ∀ {q : List (BaseRequest κ)} {hit : BitVec blockSizeCl}
    {taken left : List (BaseRequest κ)}, combine block q = (hit, taken, left) →
    (∀ w ∈ taken, w.type = .write ∧ translateToBlockAddr w.addr = block) ∧
      (∀ b, q.filter (translateToBlockAddr ·.addr = b) =
        (taken ++ left).filter (translateToBlockAddr ·.addr = b)) := by
  intro q
  induction q with
  | nil =>
      intro hit taken left h
      simp only [combine, Prod.mk.injEq] at h
      obtain ⟨-, rfl, rfl⟩ := h
      simp
  | cons req reqs ih =>
      intro hit taken left h
      obtain ⟨hit', taken', left', hrec⟩ : ∃ hit taken left,
          combine block reqs = (hit, taken, left) := ⟨_, _, _, rfl⟩
      obtain ⟨hall, hsame⟩ := ih hrec
      unfold combine at h
      by_cases hblock : block = translateToBlockAddr req.addr
      · rw [if_neg (by simpa using hblock)] at h
        cases ht : req.type with
        | read =>
            -- a read of the block stops the walk
            simp only [ht, Prod.mk.injEq] at h
            obtain ⟨-, rfl, rfl⟩ := h
            simp
        | write =>
            simp only [ht, hrec, Prod.mk.injEq] at h
            obtain ⟨-, rfl, rfl⟩ := h
            refine ⟨?_, fun b => ?_⟩
            · rintro w hw
              rcases List.mem_cons.mp hw with rfl | hw
              · exact ⟨ht, hblock.symm⟩
              · exact hall w hw
            · simp [List.filter_cons, hsame b]
      · rw [if_pos hblock] at h
        simp only [hrec, Prod.mk.injEq] at h
        obtain ⟨-, rfl, rfl⟩ := h
        refine ⟨hall, fun b => ?_⟩
        by_cases hb : translateToBlockAddr req.addr = b
        · -- the writes taken are of another block
          have hnone : taken'.filter (translateToBlockAddr ·.addr = b) = [] := by
            rw [List.filter_eq_nil_iff]
            intro w hw
            simp only [(hall w hw).2, decide_eq_true_eq]
            exact fun h => hblock (h.trans hb.symm)
          simp [hb, hsame b, List.filter_append, hnone]
        · simp [hb, hsame b, List.filter_append]

/-! ## The invariant -/

/-- A block that owes a write has an entry that will write it. -/
def Sys.Owing (s : Sys κ σ) : Prop :=
  ∀ block, OwesWrite block s.log → ∃ e, s.entry block = some e ∧ e.unwritten

section Observations

variable {block : Addr} {log : List (Obs κ)}

/-- What is not the taking of a write asks for none. -/
theorem owesWrite_append_quiet {new : List (Obs κ)}
    (hnew : ∀ o ∈ new, ∀ w, o ≠ .taken .write w)
    (h : OwesWrite block (log ++ new)) :
    OwesWrite block log ∧ Obs.nextLevel .write block ∉ new := by
  rcases History.owes_append.mp h with h | ⟨h, hno⟩
  · refine absurd h (History.not_owes_of_forall fun o ho => ?_)
    rintro ⟨w, hw, -⟩
    exact hnew o ho w hw
  · exact ⟨h, fun hmem => hno _ hmem rfl⟩

/-- Taking the writes of one block asks for that block. -/
theorem owesWrite_append_taken {b : Addr} {taken : List (BaseRequest κ)}
    (htaken : ∀ w ∈ taken, translateToBlockAddr w.addr = b)
    (h : OwesWrite block (log ++ taken.map (Obs.taken .write))) :
    OwesWrite block log ∨ block = b := by
  rcases History.owes_append.mp h with ⟨before, o, after, hsplit, ⟨w, rfl, hw⟩, -⟩ | ⟨h, -⟩
  · right
    have hmem : (Obs.taken .write w : Obs κ) ∈ taken.map (Obs.taken .write) := by
      rw [hsplit]; simp
    obtain ⟨w', hw', heq⟩ := List.mem_map.mp hmem
    cases heq
    exact hw ▸ htaken w hw'
  · exact .inl h

end Observations

/-- What a transfer adds to the record: nothing, or a request below. -/
theorem EntryMove.log {s s' : Sys κ σ} {e e' : BufferEntry κ} {key : Addr}
    (hm : EntryMove C key s e e' s') (ok : EntryOk key e) :
    s'.log = s.log ∨ (s'.log = s.log ++ [.nextLevel .read key] ∧ e'.state = .pendingAitR) ∨
      (s'.log = s.log ++ [.nextLevel .write key] ∧ e'.state = .pendingWrite) := by
  cases hm with
  | flush h => exact absurd h ok.not_flushBack
  | fetch => exact .inr (.inl ⟨by rw [ok.block], rfl⟩)
  | modify => exact .inr (.inr ⟨by rw [ok.block], rfl⟩)
  | _ => exact .inl rfl

/-- A transfer of an unwritten entry leaves it unwritten, or writes the
block. -/
theorem EntryMove.unwritten {s s' : Sys κ σ} {e e' : BufferEntry κ} {key : Addr}
    (hm : EntryMove C key s e e' s') (ok : EntryOk key e) (h : e.unwritten) :
    e'.unwritten ∨ s'.log = s.log ++ [.nextLevel .write key] := by
  obtain ⟨hw, hpw, hend⟩ := h
  have hread : isRead e.pendingRequest.type ≠ true := by
    rcases ok.isWrite_or_isRead with h | h
    · simp [h.2]
    · simp [h.1] at hw
  cases hm with
  | flush h => exact absurd h ok.not_flushBack
  | refused | roqFull => exact .inl ⟨hw, hpw, hend⟩
  | fetch | fetched | merge | begin | written => exact .inl ⟨hw, by simp, by simp⟩
  | modify => exact .inr (by rw [ok.block])
  | finish hst => exact absurd hst hpw
  | readCold hst ht => simp [ht, isRead] at hread
  | readFf hst ht => simp [ht, isRead] at hread
  | readout hst ht => exact absurd ht hread

namespace Sys.Owing

variable {s t : Sys κ σ}

/-- No write is asked for, and the entries are the same. -/
theorem quiet (ow : s.Owing) {new : List (Obs κ)} (hlog : t.log = s.log ++ new)
    (hnew : ∀ o ∈ new, ∀ w, o ≠ .taken .write w) (hentry : ∀ k, t.entry k = s.entry k) :
    t.Owing := by
  intro block h
  rw [hlog] at h
  rw [hentry]
  exact ow block (owesWrite_append_quiet hnew h).1

/-- No write is asked for, and the one entry that changes was not about
to write. -/
theorem replace (ow : s.Owing) {new : List (Obs κ)} {key : Addr} (hlog : t.log = s.log ++ new)
    (hnew : ∀ o ∈ new, ∀ w, o ≠ .taken .write w)
    (hkey : ∀ e, s.entry key = some e → ¬ e.unwritten)
    (hentry : ∀ k, k ≠ key → t.entry k = s.entry k) : t.Owing := by
  intro block h
  rw [hlog] at h
  obtain ⟨e, he, hun⟩ := ow block (owesWrite_append_quiet hnew h).1
  have hne : block ≠ key := fun hb => hkey e (hb ▸ he) hun
  exact ⟨e, by rw [hentry block hne]; exact he, hun⟩

/-- Writes of one block are taken, into an entry that will write it. -/
theorem taken (ow : s.Owing) {block : Addr} {reqs : List (BaseRequest κ)} {e : BufferEntry κ}
    (hlog : t.log = s.log ++ reqs.map (Obs.taken .write))
    (hreqs : ∀ w ∈ reqs, translateToBlockAddr w.addr = block) (hun : e.unwritten)
    (hentry : ∀ k, t.entry k = if k = block then some e else s.entry k) : t.Owing := by
  intro b h
  rw [hlog] at h
  rw [hentry]
  split
  · exact ⟨e, rfl, hun⟩
  · rename_i hne
    rcases owesWrite_append_taken hreqs h with h | h
    · exact ow b h
    · exact absurd h hne

/-- **Every move keeps it.** -/
theorem move {Q : Env κ} (ow : s.Owing) (ok : s.Ok)
    (h : Move C Q s t) : t.Owing := by
  cases h with
  | accept => exact ow.quiet rfl (by simp) fun _ => rfl
  | run => exact ow.quiet rfl (by simp) fun _ => rfl
  | below | draining => exact ow.quiet (List.append_nil _).symm (by simp) fun _ => rfl
  | evict he hend hfull =>
      refine ow.replace (List.append_nil _).symm (by simp) ?_
        fun k (hk : k ≠ translateToBlockAddr _) => by rw [entry_erase, if_neg hk]
      rw [(ok _ _ he).aligned, he]
      rintro e' ⟨⟩ ⟨-, -, hne⟩
      -- an entry at rest holds no write that is owed
      exact hne hend
  | readCold hq ht hnone hroom =>
      refine ow.replace rfl (by simp) ?_
        fun k (hk : k ≠ translateToBlockAddr _) => by rw [entry_takeRead, entry_newEntry, if_neg hk]
      simp [hnone]
  | readPatch hq ht he hpend hread hne hlen hQ =>
      refine ow.replace rfl (by simp) ?_
        fun k (hk : k ≠ translateToBlockAddr _) => by
          rw [entry_takeRead, entry_setEntry, if_neg hk, entry_count]
      rw [he]
      rintro e' ⟨⟩ ⟨hw, -⟩
      -- a read is patched on to a read only
      rcases (ok _ _ he).isWrite_or_isRead with h | h <;> simp_all
  | readFf hq ht he hnot hvalid hidx =>
      refine ow.replace rfl (by simp) ?_
        fun k (hk : k ≠ translateToBlockAddr _) => by rw [entry_takeRead, entry_setEntry, if_neg hk]
      rw [he]
      rintro e' ⟨⟩ hun
      simp [(ok _ _ he).unreadable hun] at hvalid
  | writeNew hq ht hcomb hnone hroom =>
      refine ow.taken rfl (fun w hw => ((combine_spec hcomb).1 w hw).2) ?_
        fun _ => by rw [entry_takeWrites, entry_newEntry]
      refine ⟨?_, by simp [BufferEntry.new], by simp [BufferEntry.new]⟩
      simp only [BufferEntry.new]
      split <;> rfl
  | writeComb hq ht hcomb he hpatch hall =>
      exact ow.taken rfl (fun w hw => ((combine_spec hcomb).1 w hw).2)
        (BufferEntry.unwritten_assign rfl)
        fun _ => by rw [entry_takeWrites, entry_count, entry_setEntry]
  | writeJoin hq ht hcomb he hpatch hall =>
      obtain ⟨htype, hst⟩ := BufferEntry.patchRmw_iff.mp hpatch
      refine ow.taken rfl (fun w hw => ((combine_spec hcomb).1 w hw).2) ?_
        fun _ => by rw [entry_takeWrites, entry_count, entry_setEntry]
      rcases hst with hst | hst <;> exact ⟨by simp [htype, isWrite], by simp [hst], by simp [hst]⟩
  | writePatch hq ht hcomb he hpend =>
      exact ow.taken rfl (fun w hw => ((combine_spec hcomb).1 w hw).2)
        (BufferEntry.unwritten_assign rfl)
        fun _ => by rw [entry_takeWrites, entry_setEntry]
  | @transfer key e e' s' he hact hm =>
      intro block h
      have hbuf := (hm.frame (ok key e he).not_flushBack).1
      have hentry : ∀ k, (s'.setEntry key e').entry k =
          if k = key then some e' else s.entry k := fun k => by
        rw [entry_setEntry, Sys.entry, hbuf]; rfl
      -- what is owed was owed before, and is not what this move writes below
      have hold : OwesWrite block s.log ∧ ¬ (block = key ∧
          s'.log = s.log ++ [.nextLevel .write key]) := by
        change OwesWrite block s'.log at h
        rcases hm.log (ok key e he) with hlog | ⟨hlog, -⟩ | ⟨hlog, -⟩ <;> rw [hlog] at h ⊢
        · exact ⟨h, by simp⟩
        · exact ⟨(owesWrite_append_quiet (by simp) h).1, by simp⟩
        · obtain ⟨h, hno⟩ := owesWrite_append_quiet (by simp) h
          exact ⟨h, by simpa using hno⟩
      obtain ⟨e₀, he₀, hun⟩ := ow block hold.1
      rw [hentry]
      split
      · rename_i hb
        subst hb
        rw [he] at he₀
        cases he₀
        rcases hm.unwritten (ok block e he) hun with hun | hlog
        · exact ⟨e', rfl, hun⟩
        · exact absurd ⟨rfl, hlog⟩ hold.2
      · exact ⟨e₀, he₀, hun⟩
  | @wake addr e clk he =>
      intro block h
      obtain ⟨e₀, he₀, hun⟩ := ow block (owesWrite_append_quiet (by simp) h).1
      rw [entry_emit, entry_setEntry]
      split
      · rename_i hb
        subst hb
        rw [he] at he₀
        cases he₀
        exact ⟨_, rfl, hun⟩
      · exact ⟨e₀, he₀, hun⟩
  | flush he hdirty hend =>
      -- an entry at rest is clean
      simp [ok.clean_of_end he hend] at hdirty

theorem init {cfg : Config} {next : List σ} : (Sys.init cfg next : Sys κ σ).Owing :=
  fun _ h => absurd h History.not_owes_nil

/-- **In every reachable state, a block that owes a write has an entry
that will write it.** -/
theorem run {es : List (Event κ σ)} (ow : s.Owing) (ok : s.Ok) (h : (machine C).run s es = .ok t) :
    t.Owing :=
  (run_keeps (P := fun u => u.Ok ∧ u.Owing)
    (fun _ _ hu hm => ⟨hu.1.move hm, hu.2.move hu.1 hm⟩) ⟨ok, ow⟩ h).2

end Sys.Owing

/-! ## What leaves such an entry alone -/

section Kept

variable {s t : Sys κ σ} {key : Addr} {e : BufferEntry κ} {o : VisitOrder} {clk : Clk}

/-- Eviction takes entries at rest only. -/
theorem checkAndEvict_entry (ok : s.Ok) (he : s.entry key = some e) (hun : e.unwritten)
    {room : Bool} (h : checkAndEvict o s = (room, t)) : t.entry key = some e := by
  obtain ⟨rfl, -⟩ | ⟨key', e', he', hend, -, rfl⟩ := checkAndEvict_cases h
  · exact he
  · rw [entry_erase, (ok _ _ he').aligned]
    split
    · rename_i hk
      subst hk
      rw [he] at he'
      cases he'
      exact absurd hend hun.2.2
    · exact he

/-- A read of the block waits for the write; a read of another block
does not touch it. -/
theorem tickLsqRead_entry (ok : s.Ok) (he : s.entry key = some e) (hun : e.unwritten)
    {front : BaseRequest κ} {rest : List (BaseRequest κ)}
    (h : tickLsqRead o clk front rest s = .ok t) : t.entry key = some e := by
  have hread : isRead e.pendingRequest.type = false := by
    rcases (ok _ _ he).isWrite_or_isRead with h | h
    · exact h.2
    · simp [hun.1] at h
  unfold tickLsqRead at h
  by_cases hb : key = translateToBlockAddr front.addr
  · -- the entry is not a pending read, and is not valid to read
    have hfind : s.ctrl.buffer.find front.addr = some e := by
      rw [InternalBuffer.find, ← hb]; exact he
    simp only [hfind, hread, (ok _ _ he).unreadable hun, Bool.false_eq_true, and_false, if_false,
      pure_eq_ok] at h
    exact h ▸ he
  · dsimp only at h
    split at h
    · split at h
      · rename_i u hev
        have hu : u.entry key = some e := checkAndEvict_entry ok he hun hev
        simp only [bind_eq_ok, Prod.exists] at h
        obtain ⟨e₁, buffer, hins, hserve⟩ := h
        obtain ⟨-, -, rfl, rfl⟩ := InternalBuffer.insert_eq_ok hins
        obtain ⟨-, rfl⟩ := serveRead_eq_ok hserve
        rw [entry_takeRead, entry_setEntry, if_neg hb]
        exact (AList.lookup_insert_ne hb).trans hu
      · rename_i u hev
        obtain rfl := pure_eq_ok.mp h
        exact checkAndEvict_entry ok he hun hev
    · split at h
      · split at h
        · exact absurd h throw_ne_ok
        · split at h
          · obtain ⟨-, rfl⟩ := serveRead_eq_ok h
            rw [entry_takeRead, entry_setEntry, if_neg hb, entry_count, he]
          · exact pure_eq_ok.mp h ▸ he
      · split at h
        · obtain ⟨-, rfl⟩ := serveRead_eq_ok h
          rw [entry_takeRead, entry_setEntry, if_neg hb, he]
        · exact pure_eq_ok.mp h ▸ he

/-- **Where every entry at rest is clean, `drain` finds nothing to
write back.** -/
theorem drainCurrent_eq (h : ∀ key e, s.entry key = some e → e.state = .end_ → e.dirty = false) :
    drainCurrent s = s := by
  unfold drainCurrent
  refine foldl_keeps (P := (· = s)) (fun u key hu => ?_) rfl
  dsimp only
  rw [hu]
  split
  · rfl
  · rename_i e he
    rw [if_neg]
    rintro ⟨hdirty, hend⟩
    simp [h key e he hend] at hdirty

end Kept

/-- **No write is lost.** In every reachable state a block that owes a
write has a pending write entry, its block not yet written below; the
next tick's eviction and its read of whatever is at the front leave that
entry as it is. Every entry at rest is clean, and `drain` changes
nothing. -/
theorem writes_not_lost {cfg : Config} {next : List σ} {es : List (Event κ σ)} {s : Sys κ σ}
    (h : (machine C).run (Sys.init cfg next) es = .ok s) :
    (∀ block, OwesWrite block s.log → ∃ e, s.entry block = some e ∧
      e.pending ∧ isWrite e.pendingRequest.type ∧ e.state.beforePendingWrite ∧
      (∀ o clk room t, checkAndEvict o (tickRoq clk s) = (room, t) → t.entry block = some e) ∧
      (∀ o clk front rest t, s.ctrl.lsq.queue = front :: rest → front.type = .read →
        tickLsq o clk (tickRoq clk s) = .ok t → t.entry block = some e)) ∧
    (∀ key e, s.entry key = some e → e.state = .end_ → e.dirty = false) ∧
    drainCurrent s = s := by
  have ok : s.Ok := Sys.Ok.init.run h
  have ow : s.Owing := Sys.Owing.init.run Sys.Ok.init h
  have hclean : ∀ key e, s.entry key = some e → e.state = .end_ → e.dirty = false :=
    fun key e he hend => ok.clean_of_end he hend
  refine ⟨fun block howes => ?_, hclean, drainCurrent_eq hclean⟩
  obtain ⟨e, he, hun⟩ := ow block howes
  obtain ⟨hpend, hst⟩ := hun.state (ok _ _ he)
  have he' : ∀ clk, (tickRoq clk s).entry block = some e := fun clk => tickRoq_entry.trans he
  refine ⟨e, he, hpend, hun.1, hst,
    fun o clk room t => checkAndEvict_entry ok.tickRoq (he' clk) hun, ?_⟩
  intro o clk front rest t hq ht htick
  unfold tickLsq at htick
  rw [tickRoq_frame.1, hq] at htick
  simp only [ht] at htick
  exact tickLsqRead_entry ok.tickRoq (he' clk) hun htick

/-- A write of one line, taken, its block on the way. -/
def oneWrite : List (Event ℕ Unit) :=
  [.issueRequest { addr := 64, arrive := 0, type := .write }, .tick .asHeld 0]

theorem writes_not_lost_oneWrite :
    ∃ s, smallRun oneWrite = .ok s ∧ OwesWrite 0 s.log ∧
      ∃ e, s.entry 0 = some e ∧ e.pending ∧ isWrite e.pendingRequest.type := by
  obtain ⟨s, hrun, hlog⟩ : ∃ s, smallRun oneWrite = .ok s ∧ s.log =
      [.accepted { addr := 64, arrive := 0, type := .write },
        .taken .write { addr := 64, arrive := 0, type := .write }, .nextLevel .read 0] :=
    ⟨_, rfl, by decide⟩
  have howes : OwesWrite 0 s.log :=
    ⟨[_], _, [_], hlog, ⟨_, rfl, by decide⟩, by decide⟩
  obtain ⟨e, he, hpend, hwrite, -⟩ := (writes_not_lost hrun).1 0 howes
  exact ⟨s, hrun, howes, e, he, hpend, hwrite⟩

end Rmw

end Vans
