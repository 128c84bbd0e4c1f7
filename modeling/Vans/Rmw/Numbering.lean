import Vans.Model.Numbering
import Vans.Rmw.Eviction
/-!
# The RMW controller — the indices of its entries

What the calls of the controller do to the indices its buffer has given:
a tick serves one request at most, which may take the place of the entry
`check_and_evict` removes; nothing else changes them.
-/

namespace Vans

namespace Rmw

variable {κ σ : Type} {C : Component Callback σ}

open InternalBuffer

/-- The request at the front is for a block without an entry. -/
def Sys.Misses (s : Sys κ σ) : Prop :=
  ∃ front ∈ s.ctrl.lsq.queue.head?, s.entry (translateToBlockAddr front.addr) = none

instance {s : Sys κ σ} : Decidable s.Misses :=
  inferInstanceAs (Decidable (∃ front ∈ s.ctrl.lsq.queue.head?, _ = none))

instance : DecidablePred (usage (κ := κ)).atEnd := fun e =>
  inferInstanceAs (Decidable (e.state = .end_))

/-- **The last index goes**, wherever a tick has to make room. -/
def LastGoes (s : Sys κ σ) : Event κ σ → Prop
  | .tick o _ => s.ctrl.buffer.LastGoes usage BufferEntry.bufferIndex o s.Misses
  | _ => True

instance {s : Sys κ σ} : ∀ ev : Event κ σ, Decidable (LastGoes s ev)
  | .tick _ _ => inferInstanceAs (Decidable (s.ctrl.buffer.LastGoes _ _ _ _))
  | .issueRequest _ | .nextLevelReadCallback _ _ | .drainCurrent | .nextLevel _ => isTrue trivial

/-- **The entries are numbered**, also where a tick has made room for
another. -/
structure Sys.Numbered (s : Sys κ σ) : Prop where
  now : s.ctrl.buffer.Numbered BufferEntry.bufferIndex
  madeRoom : ∀ o clk,
    (checkAndEvict o (tickRoq clk s)).2.ctrl.buffer.Numbered BufferEntry.bufferIndex

/-- The indices of the entries are the same. -/
abbrev SameIndices (s t : Sys κ σ) : Prop :=
  SameSlots BufferEntry.bufferIndex s.ctrl.buffer t.ctrl.buffer

section Calls

variable {s t u : Sys κ σ} {key : Addr} {e e' : BufferEntry κ} {o : VisitOrder} {clk : Clk}
  {front : BaseRequest κ} {rest : List (BaseRequest κ)} {room : Bool}

/-! ## What leaves the indices alone -/

theorem EntryMove.bufferIndex {s' : Sys κ σ} (hm : EntryMove C key s e e' s')
    (hnot : e.pendingRequest.type ≠ .flushBack) : e'.bufferIndex = e.bufferIndex := by
  cases hm with
  | flush ht => exact absurd ht hnot
  | _ => rfl

theorem tickEntry_sameIndices (ok : s.Ok) (h : tickEntry C clk s key = .ok t) :
    SameIndices s t := by
  obtain rfl | ⟨e, e', s', he, hact, hm, rfl⟩ := tickEntry_cases h
  · exact .refl
  · have hnot := (ok key e he).not_flushBack
    have hbuf := (hm.frame hnot).1
    change SameSlots _ _ (s'.ctrl.buffer.set key e')
    rw [hbuf]
    exact .set he (hm.bufferIndex hnot)

theorem tickInternalBuffer_sameIndices (ok : s.Ok) (h : tickInternalBuffer C o clk s = .ok t) :
    SameIndices s t := by
  refine (foldlM_keeps (P := fun u => u.Ok ∧ SameIndices s u) ?_ ⟨ok, .refl⟩ h).2
  rintro u key v ⟨okᵤ, hu⟩ hv
  have moves : Moves C .any u v := tickEntry_moves hv
  exact ⟨okᵤ.moves moves, hu.trans (tickEntry_sameIndices okᵤ hv)⟩

theorem nextLevelReadCallback_sameIndices {addr : Addr}
    (h : nextLevelReadCallback addr clk s = .ok t) : SameIndices s t := by
  unfold nextLevelReadCallback at h
  dsimp only at h
  split at h
  · exact absurd h throw_ne_ok
  · rename_i e he
    obtain rfl := pure_eq_ok.mp h
    exact .set he rfl

theorem drainCurrent_sameIndices : SameIndices s (drainCurrent s) := by
  unfold drainCurrent
  refine foldl_keeps (P := fun u => SameIndices s u) (fun u key hu => ?_) .refl
  dsimp only
  split
  · exact hu
  · rename_i e he
    split
    · exact hu.trans (.set he rfl)
    · exact hu

/-- A read waits in an entry, which keeps its index. -/
theorem serveRead_sameIndices {how : Served} (he : s.entry (translateToBlockAddr front.addr) = some e)
    (hindex : e'.bufferIndex = e.bufferIndex) (h : serveRead how front rest e' s = .ok t) :
    SameIndices s t := by
  obtain ⟨-, rfl⟩ := serveRead_eq_ok h
  refine .set he (Eq.trans ?_ hindex)
  split <;> rfl

/-! ## What serving a request does to them -/

theorem checkAndEvict_madeRoom (ev : s.Evictable) (h : checkAndEvict o s = (room, u)) :
    MadeRoom usage o s.ctrl.buffer room u.ctrl.buffer := by
  have hroom := MadeRoom.of_search (fun s : Sys κ σ => s.ctrl.buffer) ev.sound.valid
    (oldest_search (o := o)) rfl ev.checkAndEvict_eq
  rw [h] at hroom
  exact hroom

theorem tickLsqRead_turnover (ev : s.Evictable) (h : tickLsqRead o clk front rest s = .ok t) :
    Turnover usage BufferEntry.bufferIndex o (s.entry (translateToBlockAddr front.addr) = none)
      s.ctrl.buffer t.ctrl.buffer := by
  unfold tickLsqRead at h
  dsimp only at h
  split at h
  · rename_i hnone
    split at h
    · rename_i s₁ hev
      simp only [bind_eq_ok, Prod.exists] at h
      obtain ⟨e, buffer, hins, hserve⟩ := h
      -- the entry the read waits in is the one inserted
      refine .served hnone (checkAndEvict_madeRoom ev hev) hins (fun _ => rfl)
        (serveRead_sameIndices ?_ rfl hserve)
      obtain ⟨-, -, rfl, rfl⟩ := insert_eq_ok hins
      exact AList.lookup_insert _
    · rename_i s₁ hev
      obtain rfl := pure_eq_ok.mp h
      exact .refused (checkAndEvict_madeRoom ev hev) .refl
  · rename_i e he
    have hhit : s.entry (translateToBlockAddr front.addr) ≠ none := Option.ne_none_iff_exists'.mpr ⟨e, he⟩
    split at h
    · split at h
      · exact absurd h throw_ne_ok
      · split at h
        · exact .hit hhit (serveRead_sameIndices (s := s.count .readPatch) he (by rfl) h)
        · obtain rfl := pure_eq_ok.mp h
          exact .hit hhit .refl
    · split at h
      · exact .hit hhit (serveRead_sameIndices he (by rfl) h)
      · obtain rfl := pure_eq_ok.mp h
        exact .hit hhit .refl

theorem tickLsqWrite_turnover (ev : s.Evictable) (h : tickLsqWrite o clk front s = .ok t) :
    Turnover usage BufferEntry.bufferIndex o (s.entry (translateToBlockAddr front.addr) = none)
      s.ctrl.buffer t.ctrl.buffer := by
  unfold tickLsqWrite at h
  dsimp only at h
  split at h
  · rename_i hnone
    rw [InternalBuffer.find, translateToBlockAddr_idem] at hnone
    split at h
    · rename_i s₁ hev
      obtain rfl := pure_eq_ok.mp h
      exact .refused (checkAndEvict_madeRoom ev hev) .refl
    · rename_i s₁ hev
      simp only [bind_eq_ok, Prod.exists, pure_eq_ok] at h
      obtain ⟨e, buffer, hins, rfl⟩ := h
      exact .served hnone (checkAndEvict_madeRoom ev hev) hins (fun _ => rfl) .refl
  · rename_i e he
    rw [InternalBuffer.find, translateToBlockAddr_idem] at he
    have hhit : s.entry (translateToBlockAddr front.addr) ≠ none := Option.ne_none_iff_exists'.mpr ⟨e, he⟩
    split at h
    · split at h <;> obtain rfl := pure_eq_ok.mp h <;> exact .hit hhit (.set he rfl)
    · split at h
      · obtain rfl := pure_eq_ok.mp h
        exact .hit hhit .refl
      · obtain rfl := pure_eq_ok.mp h
        exact .hit hhit (.set he rfl)

theorem misses_iff (hq : s.ctrl.lsq.queue = front :: rest) :
    s.Misses ↔ s.entry (translateToBlockAddr front.addr) = none := by
  simp [Sys.Misses, hq]

theorem tickLsq_turnover (ev : s.Evictable) (h : tickLsq o clk s = .ok t) :
    Turnover usage BufferEntry.bufferIndex o s.Misses s.ctrl.buffer t.ctrl.buffer := by
  unfold tickLsq at h
  split at h
  · rename_i hq
    obtain rfl := pure_eq_ok.mp h
    exact .hit (by simp [Sys.Misses, hq]) .refl
  · rename_i front rest hq
    rw [misses_iff hq]
    split at h
    · exact tickLsqRead_turnover ev h
    · exact tickLsqWrite_turnover ev h

theorem Sys.Evictable.tickRoq (ev : s.Evictable) : (Rmw.tickRoq clk s).Evictable where
  ok := ev.ok.tickRoq
  bound := by
    rw [tickRoq_frame.2]
    exact ev.bound
  idle := by
    unfold Rmw.tickRoq
    split
    · exact ev.idle
    · split <;> exact ev.idle

theorem misses_tickRoq : (Rmw.tickRoq clk s).Misses ↔ s.Misses := by
  simp only [Sys.Misses, tickRoq_frame.1, tickRoq_entry]

theorem tick_turnover (ev : s.Evictable) (h : tick C o clk s = .ok t) :
    Turnover usage BufferEntry.bufferIndex o s.Misses s.ctrl.buffer t.ctrl.buffer := by
  obtain ⟨u, hlsq, -, okᵤ, hbuf⟩ := tick_stages ev.ok h
  have turnover := tickLsq_turnover ev.tickRoq hlsq
  rw [misses_tickRoq, tickRoq_frame.2] at turnover
  exact turnover.trans (tickInternalBuffer_sameIndices okᵤ hbuf)

theorem issueRequest_buffer {req : BaseRequest κ} {resp : BaseResponse}
    (h : issueRequest req s = .ok (resp, t)) : t.ctrl.buffer = s.ctrl.buffer := by
  simp only [issueRequest, bind_eq_ok, Prod.exists, pure_eq_ok, Prod.mk.injEq] at h
  obtain ⟨success, lsq, -, -, rfl⟩ := h
  split <;> rfl

/-- **Every call serves a request at most.** -/
theorem controls : Controls (machine C) usage BufferEntry.bufferIndex
    (fun s : Sys κ σ => s.ctrl.buffer) Sys.Evictable LastGoes where
  sound _ ev := ev.sound
  step := by
    intro s event t ev h
    have ev' : t.Evictable :=
      reflTransGen_keeps (fun _ _ ev hm => ev.move hm) (step_moves (Q := .any) eventOk_any h) ev
    refine ⟨ev', ?_⟩
    -- a call other than a tick serves no request
    have hquiet : SameIndices s t → ∃ o miss,
        Turnover usage BufferEntry.bufferIndex o miss s.ctrl.buffer t.ctrl.buffer ∧
          (True ↔ s.ctrl.buffer.LastGoes usage BufferEntry.bufferIndex o miss) :=
      fun same => ⟨.asHeld, False, .hit not_false same, iff_of_true trivial nofun⟩
    cases event with
    | tick o clk => exact ⟨o, s.Misses, tick_turnover ev h, Iff.rfl⟩
    | issueRequest req =>
        simp only [machine, bind_eq_ok, Prod.exists, pure_eq_ok] at h
        obtain ⟨resp, u, hu, rfl⟩ := h
        refine hquiet ?_
        rw [SameIndices, issueRequest_buffer hu]
        exact .refl
    | nextLevelReadCallback addr clk => exact hquiet (nextLevelReadCallback_sameIndices h)
    | drainCurrent =>
        obtain rfl := pure_eq_ok.mp h
        exact hquiet drainCurrent_sameIndices
    | nextLevel next =>
        obtain rfl := pure_eq_ok.mp h
        exact hquiet .refl

theorem Sys.Evictable.numbered_iff (ev : s.Evictable) :
    s.Numbered ↔ s.ctrl.buffer.Numbered BufferEntry.bufferIndex := by
  refine ⟨Sys.Numbered.now, fun hnum => ⟨hnum, fun o clk => ?_⟩⟩
  have evᵣ : (Rmw.tickRoq clk s).Evictable := ev.tickRoq
  have hroom := checkAndEvict_madeRoom (o := o) evᵣ rfl
  refine hroom.numbered evᵣ.sound ?_
  rw [tickRoq_frame.2]
  exact hnum

end Calls

/-! ## Every run -/

/-- **The entries are numbered exactly when at each step the last index
went**; they are counted, and their indices below `max_entries`, in any
case. -/
theorem numbered_of_run {cfg : Config} {next : List σ} {es : List (Event κ σ)} {s : Sys κ σ}
    (h : (machine C).run (Sys.init cfg next) es = .ok s) :
    (s.Numbered ↔ (machine C).Meets LastGoes (Sys.init cfg next) es) ∧
      s.ctrl.buffer.nextAvailableIndex = s.ctrl.buffer.entryMap.keys.length ∧
      ∀ k e, s.entry k = some e → e.bufferIndex < s.ctrl.buffer.maxEntries := by
  have ev : s.Evictable := run_keeps (fun _ _ ev hm => ev.move hm) .init h
  rw [ev.numbered_iff]
  exact controls.numbered_iff_meets .init ⟨rfl, rfl⟩ h

/-! ## A configuration of two entries, to run -/

def twoEntries : Config := { smallConfig with bufferEntries := 2 }

/-- A read at the clock, and what sees it through. -/
def readAt (addr : Addr) (clk : Clk) : List (Event ℕ Unit) :=
  [.issueRequest { addr := addr, arrive := clk, type := .read }, .tick .asHeld clk,
    .nextLevelReadCallback addr clk, .tick .asHeld (clk + 1), .tick .asHeld (clk + 2),
    .tick .asHeld (clk + 3)]

end Rmw

end Vans
