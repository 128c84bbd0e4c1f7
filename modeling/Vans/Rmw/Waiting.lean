import Vans.Rmw.Order
/-!
# The RMW controller — which entries wait for the level below

An entry waits from the read it issues below to the callback. This file
says which moves of the controller itself begin such a wait, that none
ends one, and what they may record while an entry waits.
-/

namespace Vans

namespace Rmw

variable {κ σ : Type} {C : Component Callback σ}

/-- The entry waits for the callback of the read it issued. -/
def BufferEntry.waits (e : BufferEntry κ) : Bool :=
  e.state = .pendingAitR && e.waitingActionClkUpdate

/-- The block has an entry that waits. -/
def Sys.waits (s : Sys κ σ) (block : Addr) : Bool := (s.entry block).any BufferEntry.waits

/-- The level below is asked for the block. -/
def asksFor (block : Addr) : Obs κ → Bool
  | .nextLevel .read addr => addr = block
  | _ => false

theorem eq_of_asksFor {block : Addr} {o : Obs κ} (h : asksFor block o) :
    o = .nextLevel .read block := by
  unfold asksFor at h
  split at h
  · rw [of_decide_eq_true h]
  · cases h

/-- The level below calls back for the block. -/
def wakes (block : Addr) : Obs κ → Bool
  | .woken b _ _ => b = block
  | _ => false

/-- A request for the block is taken that does not join one in progress. -/
def replaces (block : Addr) : Obs κ → Bool
  | .taken how req => how ≠ .readPatch && translateToBlockAddr req.addr = block
  | _ => false

/-- Neither asks for a block nor calls back, and replaces no request of
an entry that waits. -/
def Sys.Still (s : Sys κ σ) (o : Obs κ) : Prop :=
  ∀ block, asksFor block o = false ∧ wakes block o = false ∧
    (s.waits block → replaces block o = false)

section Waits

variable {s t : Sys κ σ} {key block : Addr} {e e' : BufferEntry κ}

theorem waits_eq_true : s.waits block ↔ ∃ e, s.entry block = some e ∧ e.waits := by
  unfold Sys.waits
  cases s.entry block <;> simp

theorem waits_of_entry (he : s.entry block = some e) : s.waits block = e.waits := by
  simp [Sys.waits, he]

theorem waits_of_entry_ite (h : ∀ k, t.entry k = if k = key then some e' else s.entry k) :
    t.waits = fun k => if k = key then e'.waits else s.waits k := by
  funext k
  simp only [Sys.waits, h]
  split <;> rfl

/-- An entry that waits as little as the one it replaces. -/
theorem waits_of_replaced (h : ∀ k, t.entry k = if k = key then some e' else s.entry k)
    (hkey : s.waits key = e'.waits) : t.waits = s.waits := by
  rw [waits_of_entry_ite h]
  funext k
  split
  · rename_i hk
    rw [hk, hkey]
  · rfl

/-- An entry that waits is pending, and is a read or cannot be read. -/
theorem EntryOk.of_waits (ok : EntryOk key e) (h : e.waits) :
    e.state = .pendingAitR ∧ e.waitingActionClkUpdate ∧ e.pending ∧
      (isRead e.pendingRequest.type ∨ e.validToRead = false) := by
  simp only [BufferEntry.waits, Bool.and_eq_true, decide_eq_true_eq] at h
  obtain ⟨hst, hwait⟩ := h
  have hpend : e.pending = true := by
    simpa [hst] using mt ok.pending.mp (by simp [hst])
  refine ⟨hst, hwait, hpend, ?_⟩
  rcases ok.isWrite_or_isRead with hw | hr
  · exact .inr (ok.unreadable ⟨hw.1, by simp [hst], by simp [hst]⟩)
  · exact .inl hr.2

/-- An entry in another state does not wait. -/
theorem waits_of_state (h : e.state ≠ .pendingAitR) : e.waits = false := by
  simp [BufferEntry.waits, h]

theorem waits_of_told (h : e.waitingActionClkUpdate = false) : e.waits = false := by
  simp [BufferEntry.waits, h]

/-- An entry that a write can still join has its block. -/
theorem waits_of_patchRmw (h : e.patchRmw) : e.waits = false := by
  rcases (BufferEntry.patchRmw_iff.mp h).2 with hst | hst <;> exact waits_of_state (by simp [hst])

end Waits

/-! ## What a move does to the waits -/

/-- **What a move of the controller does to the waits**: it asks for the
block of an entry that did not wait, and the entry waits unless the
answer is known at once; or the waits stay as they were, and what is
asked of the level below, if anything, is a write or is refused. -/
inductive WaitStep (C : Component Callback σ) (s t : Sys κ σ) : Prop
  | fetch {key : Addr} {e : BufferEntry κ} {next : List σ} {resp : BaseResponse}
      (he : s.entry key = some e) (hkey : s.waits key = false)
      (hask : Asked C key s e .read (some .nextLevelReadCallback) resp next)
      (hyes : resp.issued = true) (hnext : t.next = next)
      (hwaits : t.waits = fun k => if k = key then !resp.deterministic else s.waits k)
      (hlog : t.log = s.log ++ [.nextLevel .read key])
  | still (hwaits : t.waits = s.waits)
      (hnext : t.next = s.next ∨ ∃ key e type callback resp next,
        Asked C key s e type callback resp next ∧ t.next = next ∧
          (resp.issued = true → callback = none))
      (hlog : ∃ new, t.log = s.log ++ new ∧ ∀ o ∈ new, s.Still o)

namespace WaitStep

variable {s t : Sys κ σ}

/-- The level below is left alone, and nothing is recorded that matters. -/
theorem quiet (hwaits : t.waits = s.waits) (hnext : t.next = s.next) {new : List (Obs κ)}
    (hlog : t.log = s.log ++ new) (hnew : ∀ o ∈ new, s.Still o) : WaitStep C s t :=
  .still hwaits (.inl hnext) ⟨new, hlog, hnew⟩

end WaitStep

theorem still_accepted {s : Sys κ σ} {req : BaseRequest κ} : s.Still (.accepted req) :=
  fun _ => ⟨rfl, rfl, fun _ => rfl⟩

theorem still_ran {s : Sys κ σ} {inv : Invocation κ} : s.Still (.ran inv) :=
  fun _ => ⟨rfl, rfl, fun _ => rfl⟩

theorem still_write {s : Sys κ σ} {addr : Addr} : s.Still (.nextLevel .write addr) :=
  fun _ => ⟨rfl, rfl, fun _ => rfl⟩

/-- A request taken, for a block whose entry does not wait. -/
theorem still_taken {s : Sys κ σ} {how : Served} {req : BaseRequest κ}
    (h : s.waits (translateToBlockAddr req.addr) = false) : s.Still (.taken how req) := by
  refine fun block => ⟨rfl, rfl, fun hwaits => ?_⟩
  have hne : translateToBlockAddr req.addr ≠ block := by
    rintro rfl
    simp [h] at hwaits
  simp [replaces, hne]

/-- A read that joins a pending read replaces nothing. -/
theorem still_readPatch {s : Sys κ σ} {req : BaseRequest κ} : s.Still (.taken .readPatch req) :=
  fun _ => ⟨rfl, rfl, fun _ => rfl⟩

/-- The writes of a block whose entry does not wait are taken. -/
theorem WaitStep.takeWrites {s t : Sys κ σ} {block : Addr} {hit : BitVec blockSizeCl}
    {reqs left : List (BaseRequest κ)} (hcomb : combine block s.ctrl.lsq.queue = (hit, reqs, left))
    (hkey : s.waits block = false) (hwaits : t.waits = s.waits) (hnext : t.next = s.next)
    (hlog : t.log = s.log ++ reqs.map (Obs.taken .write)) : WaitStep C s t := by
  refine .quiet hwaits hnext hlog fun o ho => ?_
  obtain ⟨req, hreq, rfl⟩ := List.mem_map.mp ho
  exact still_taken (by rw [((combine_spec hcomb).1 req hreq).2, hkey])

/-- What running a transfer does to the waits. -/
theorem EntryMove.waits {s s' : Sys κ σ} {e e' : BufferEntry κ} {key : Addr}
    (hm : EntryMove C key s e e' s') (ok : EntryOk key e) (he : s.entry key = some e)
    (hact : e.state = .init ∨ (e.pending ∧ e.waitingActionClkUpdate = false)) :
    WaitStep C s (s'.setEntry key e') := by
  have hbefore : e.waits = false := by
    rcases hact with hinit | ⟨-, htold⟩
    · exact waits_of_state (by simp [hinit])
    · exact waits_of_told htold
  have hkey : s.waits key = false := (waits_of_entry he).trans hbefore
  have hentry : ∀ k, (s'.setEntry key e').entry k = if k = key then some e' else s.entry k := by
    intro k
    rw [entry_setEntry, Sys.entry, (hm.frame ok.not_flushBack).1]
    rfl
  have hsame : e'.waits = false → (s'.setEntry key e').waits = s.waits := fun h =>
    waits_of_replaced hentry (hkey.trans h.symm)
  cases hm with
  | flush h => exact absurd h ok.not_flushBack
  | refused hask hno =>
      exact .still (hsame hbefore)
        (.inr ⟨key, e, _, _, _, _, hask, rfl, fun h => by simp [hno] at h⟩)
        ⟨[], (List.append_nil _).symm, by simp⟩
  | fetch hst ht hask hyes =>
      refine .fetch he hkey hask hyes rfl ?_ (by rw [ok.block]; rfl)
      rw [waits_of_entry_ite hentry]
      simp [BufferEntry.waits]
  | modify hst ht hask hyes =>
      exact .still (hsame (waits_of_state (by simp)))
        (.inr ⟨key, e, _, _, _, _, hask, rfl, fun _ => rfl⟩) ⟨_, rfl, by
          simpa using still_write⟩
  | roqFull => exact .quiet (hsame hbefore) rfl (List.append_nil _).symm (by simp)
  | readout hst ht hidx hroom =>
      refine .quiet (hsame (waits_of_state ?_)) rfl (List.append_nil _).symm (by simp)
      dsimp only
      split <;> [skip; split] <;> simp
  | fetched | merge | begin | written | finish | readCold | readFf =>
      exact .quiet (hsame (waits_of_state (by simp))) rfl (List.append_nil _).symm (by simp)

/-- **What every move of the controller does to the waits.** -/
theorem Move.waits {s t : Sys κ σ} (ok : s.Ok) (h : Move C alone s t) : WaitStep C s t := by
  cases h with
  | accept =>
      exact .quiet rfl rfl rfl (by simpa using still_accepted)
  | run =>
      refine .quiet rfl rfl rfl fun o ho => ?_
      obtain ⟨inv, -, rfl⟩ := List.mem_map.mp ho
      exact still_ran
  | @evict key e he hend hfull =>
      -- what goes was at rest, and did not wait
      refine .quiet (funext fun k => ?_) rfl (List.append_nil _).symm (by simp)
      rw [Sys.waits, entry_erase]
      split
      · rename_i hk
        rw [hk, (ok key e he).aligned, waits_of_entry he, waits_of_state (by simp [hend])]
        rfl
      · rfl
  | @readCold front rest clk bits hq ht hnone hroom =>
      have hkey : s.waits (translateToBlockAddr front.addr) = false := by simp [Sys.waits, hnone]
      exact .quiet (waits_of_replaced (fun _ => by rw [entry_takeRead, entry_newEntry]) hkey) rfl
        rfl (by simpa using still_taken hkey)
  | @readPatch front rest e hq ht he hpend hread hne hlen hQ =>
      have hkey : s.waits (translateToBlockAddr front.addr) = (e.waitFor front).waits :=
        (waits_of_entry he).trans rfl
      exact .quiet (waits_of_replaced
        (fun _ => by rw [entry_takeRead, entry_setEntry, entry_count]) hkey) rfl rfl
        (by simpa using still_readPatch)
  | @readFf front rest e clk bits hq ht he hnot hvalid hidx =>
      have hkey : s.waits (translateToBlockAddr front.addr) = false := by
        rw [waits_of_entry he, Bool.eq_false_iff]
        intro hw
        -- one that waits is pending with a read, or holds nothing valid yet
        obtain ⟨-, -, hpend, hor⟩ := (ok _ _ he).of_waits hw
        rcases hor with hread | hval
        · exact hnot ⟨hpend, hread⟩
        · simp [hval] at hvalid
      exact .quiet (waits_of_replaced (fun _ => by rw [entry_takeRead, entry_setEntry]) hkey) rfl
        rfl (by simpa using still_taken hkey)
  | @writeNew front rest taken left clk hit hq ht hcomb hnone hroom =>
      have hkey : s.waits (translateToBlockAddr front.addr) = false := by simp [Sys.waits, hnone]
      exact .takeWrites hcomb hkey (waits_of_replaced
        (fun _ => by rw [entry_takeWrites, entry_newEntry]) hkey) rfl rfl
  | @writeComb front rest taken left e clk hit hq ht hcomb he hpatch hall =>
      have hkey : s.waits (translateToBlockAddr front.addr) = false :=
        (waits_of_entry he).trans (waits_of_patchRmw hpatch)
      exact .takeWrites hcomb hkey (waits_of_replaced
        (fun _ => by rw [entry_takeWrites, entry_count, entry_setEntry]) hkey) rfl rfl
  | @writeJoin front rest taken left e hit hq ht hcomb he hpatch hall =>
      have hkey : s.waits (translateToBlockAddr front.addr) = false :=
        (waits_of_entry he).trans (waits_of_patchRmw hpatch)
      have hjoined : s.waits (translateToBlockAddr front.addr) =
          ({ e with clBitmap := hit ||| e.clBitmap } : BufferEntry κ).waits :=
        (waits_of_entry he).trans rfl
      exact .takeWrites hcomb hkey (waits_of_replaced
        (fun _ => by rw [entry_takeWrites, entry_count, entry_setEntry]) hjoined) rfl rfl
  | @writePatch front rest taken left e clk hit hq ht hcomb he hpend =>
      have hkey : s.waits (translateToBlockAddr front.addr) = false := by
        rw [waits_of_entry he]
        -- it was at rest
        exact waits_of_state (by simp [(ok _ _ he).pending.mp hpend])
      exact .takeWrites hcomb hkey (waits_of_replaced
        (fun _ => by rw [entry_takeWrites, entry_setEntry]) hkey) rfl rfl
  | @transfer key e e' s' he hact hm => exact hm.waits (ok key e he) he hact
  | wake he hQ => exact hQ.elim
  | below hQ => exact hQ.elim
  | flush he hdirty hend => simp [ok.clean_of_end he hend] at hdirty
  | draining => exact .quiet rfl rfl (List.append_nil _).symm (by simp)

end Rmw

end Vans
