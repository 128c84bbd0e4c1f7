import Vans.Ait.Eviction
import Vans.Rmw.Numbering
/-!
# The AIT controller — the indices of its entries

As for the RMW controller: a tick serves one request at most, and
nothing else changes the indices the buffer has given. For both it
follows when the entries are numbered.
-/

namespace Vans

namespace Ait

variable {κ τ μ : Type} {L : Component SubreqCallback τ} {M : Component Callback μ}

open InternalBuffer

/-- The request at the front is for a block without an entry. -/
def Sys.Misses (s : Sys κ τ μ) : Prop :=
  ∃ front ∈ s.ctrl.lsq.queue.head?, s.entry (aitBlock front.addr) = none

instance {s : Sys κ τ μ} : Decidable s.Misses :=
  inferInstanceAs (Decidable (∃ front ∈ s.ctrl.lsq.queue.head?, _ = none))

instance : DecidablePred (usage (κ := κ)).atEnd := fun e =>
  inferInstanceAs (Decidable (e.state = .end_))

/-- **The last index goes**, wherever a tick has to make room. -/
def LastGoes (s : Sys κ τ μ) : Call κ → Prop
  | .tick visit _ => s.ctrl.buffer.LastGoes usage BufferEntry.bufferIndex (visit []) s.Misses
  | _ => True

instance {s : Sys κ τ μ} : ∀ call : Call κ, Decidable (LastGoes s call)
  | .tick _ _ => inferInstanceAs (Decidable (s.ctrl.buffer.LastGoes _ _ _ _))
  | .issueRequest _ | .drain => isTrue trivial

/-- **The entries are numbered**, also where a tick has made room for
another. -/
structure Sys.Numbered (s : Sys κ τ μ) : Prop where
  now : s.ctrl.buffer.Numbered BufferEntry.bufferIndex
  madeRoom : ∀ o, (checkAndEvict o s).2.ctrl.buffer.Numbered BufferEntry.bufferIndex

/-- The indices of the entries are the same. -/
abbrev SameIndices (s t : Sys κ τ μ) : Prop :=
  SameSlots BufferEntry.bufferIndex s.ctrl.buffer t.ctrl.buffer

section Calls

variable {s t u : Sys κ τ μ} {key : Addr} {e e' : BufferEntry κ} {o : VisitOrder} {clk : Clk}
  {front : BaseRequest κ} {rest : List (BaseRequest κ)} {room : Bool}

/-! ## What leaves the indices alone -/

theorem EntryMove.bufferIndex {s' : Sys κ τ μ} (hm : EntryMove s e e' s') :
    e'.bufferIndex = e.bufferIndex := by
  cases hm <;> rfl

theorem tickEntry_sameIndices (h : tickEntry M clk s key = .ok t) : SameIndices s t := by
  obtain rfl | ⟨e, e', s', func, he, -, hfunc, hrun, rfl⟩ := tickEntry_cases h
  · exact .refl
  · have hm := stateTrans_move hfunc hrun
    change SameSlots _ _ (s'.ctrl.buffer.set key e')
    rw [hm.frame.1]
    exact .set he hm.bufferIndex

theorem lmemqSetUp_buffer : (lmemqSetUp s).ctrl.buffer = s.ctrl.buffer := by
  unfold lmemqSetUp
  split <;> rfl

theorem tickLmemq_sameIndices (h : tickLmemq L clk s = .ok t) : SameIndices s t := by
  obtain ⟨-, rfl⟩ | ⟨-, hstep⟩ := tickLmemq_cases h
  · exact .refl
  · rw [SameIndices, ← lmemqSetUp_buffer (s := s)]
    cases hstep with
    | wait | start => exact .refl
    | finish hq hindex hserved he => exact .set he rfl

theorem nextLevelReadCallback_sameIndices {addr : Addr}
    (h : nextLevelReadCallback addr clk s = .ok t) : SameIndices s t := by
  unfold nextLevelReadCallback at h
  dsimp only at h
  split at h
  · exact absurd h throw_ne_ok
  · rename_i e he
    obtain rfl := pure_eq_ok.mp h
    exact .set he rfl

theorem settle_sameIndices {visit : Visit} (h : settle L M visit clk s = .ok t) :
    SameIndices s t := by
  simp only [settle, tickLocalMemory, bind_eq_ok, pure_eq_ok, Prod.exists] at h
  obtain ⟨u, ⟨localMemory, served, -, rfl⟩, next, ran, -, hran⟩ := h
  rw [foldl_served] at hran
  refine foldlM_keeps (P := fun v => SameIndices s v)
    (fun _ _ _ hv hw => hv.trans (nextLevelReadCallback_sameIndices hw)) ?_ hran
  exact ⟨rfl, rfl, rfl⟩

/-! ## What serving a request does to them -/

theorem checkAndEvict_madeRoom (ev : s.Evictable) (h : checkAndEvict o s = (room, u)) :
    MadeRoom usage o s.ctrl.buffer room u.ctrl.buffer := by
  have hroom := MadeRoom.of_search (fun s : Sys κ τ μ => s.ctrl.buffer) ev.sound.valid
    (oldest_search (o := o)) rfl ev.checkAndEvict_eq
  rw [h] at hroom
  exact hroom

/-- A request that finds no entry is served by a new one, once there is
room. -/
theorem turnover_serve {mk : ℕ → BufferEntry κ} {event : EventName} {table : IndirectionTable}
    {buffer : InternalBuffer translateToBlockAddr (BufferEntry κ)} (ev : s.Evictable)
    (hnone : s.entry (aitBlock front.addr) = none) (hev : checkAndEvict o s = (true, u))
    (hins : u.ctrl.buffer.insert (aitBlock front.addr) mk = .ok (e, buffer))
    (hmk : ∀ i, (mk i).bufferIndex = i) :
    Turnover usage BufferEntry.bufferIndex o (s.entry (aitBlock front.addr) = none) s.ctrl.buffer
      (({ u with ctrl.buffer := buffer, ctrl.table := table } : Sys κ τ μ).serve
        (aitBlock front.addr) e front rest event).ctrl.buffer := by
  -- serving replaces the entry just inserted by one of its index
  refine .served hnone (checkAndEvict_madeRoom ev hev) hins hmk (.set (e := e) ?_ rfl)
  obtain ⟨-, -, rfl, rfl⟩ := insert_eq_ok hins
  rw [aitBlock, translateToBlockAddr_idem]
  exact AList.lookup_insert _

theorem assignNewRequest_bufferIndex {type : RequestType} {addr : Addr}
    {bits : BitVec blockSizeRmw} (h : e.assignNewRequest clk type addr bits = .ok e') :
    e'.bufferIndex = e.bufferIndex := by
  unfold BufferEntry.assignNewRequest at h
  split at h
  · exact absurd h throw_ne_ok
  · obtain rfl := pure_eq_ok.mp h
    rfl

theorem tickLsqRead_turnover (ev : s.Evictable) (h : tickLsqRead o clk front rest s = .ok t) :
    Turnover usage BufferEntry.bufferIndex o (s.entry (aitBlock front.addr) = none)
      s.ctrl.buffer t.ctrl.buffer := by
  unfold tickLsqRead at h
  dsimp only at h
  rw [InternalBuffer.find, translateToBlockAddr_idem] at h
  split at h
  · rename_i hnone
    split at h
    · rename_i s₁ hev
      simp only [bind_eq_ok, Prod.exists, pure_eq_ok] at h
      obtain ⟨e, buffer, hins, rfl⟩ := h
      exact turnover_serve ev hnone hev hins fun _ => rfl
    · rename_i s₁ hev
      obtain rfl := pure_eq_ok.mp h
      exact .refused (checkAndEvict_madeRoom ev hev) .refl
  · rename_i e he
    have hhit : s.entry (aitBlock front.addr) ≠ none := Option.ne_none_iff_exists'.mpr ⟨e, he⟩
    split at h
    · simp only [bind_eq_ok, pure_eq_ok] at h
      obtain ⟨e', hassign, rfl⟩ := h
      have hindex := assignNewRequest_bufferIndex hassign
      exact .hit hhit (.set he hindex)
    · obtain rfl := pure_eq_ok.mp h
      exact .hit hhit .refl

theorem tickLsqWrite_turnover (ev : s.Evictable) (h : tickLsqWrite o clk front rest s = .ok t) :
    Turnover usage BufferEntry.bufferIndex o (s.entry (aitBlock front.addr) = none)
      s.ctrl.buffer t.ctrl.buffer := by
  unfold tickLsqWrite at h
  dsimp only at h
  rw [translateToBlockAddr_idem] at h
  split at h
  · rename_i hnone
    split at h
    · rename_i s₁ hev
      simp only [bind_eq_ok, Prod.exists, pure_eq_ok] at h
      obtain ⟨e, buffer, hins, rfl⟩ := h
      exact turnover_serve ev hnone hev hins fun _ => rfl
    · rename_i s₁ hev
      obtain rfl := pure_eq_ok.mp h
      exact .refused (checkAndEvict_madeRoom ev hev) .refl
  · rename_i e he
    have hhit : s.entry (aitBlock front.addr) ≠ none := Option.ne_none_iff_exists'.mpr ⟨e, he⟩
    split at h
    · simp only [bind_eq_ok, pure_eq_ok] at h
      obtain ⟨e', hassign, rfl⟩ := h
      have hindex := assignNewRequest_bufferIndex hassign
      exact .hit hhit (.set he hindex)
    · obtain rfl := pure_eq_ok.mp h
      exact .hit hhit .refl

theorem misses_iff (hq : s.ctrl.lsq.queue = front :: rest) :
    s.Misses ↔ s.entry (aitBlock front.addr) = none := by
  simp [Sys.Misses, hq]

theorem tickLsq_turnover (ev : s.Evictable) (h : tickLsq o clk s = .ok t) :
    Turnover usage BufferEntry.bufferIndex o s.Misses s.ctrl.buffer t.ctrl.buffer := by
  unfold tickLsq at h
  split at h
  · rename_i hq
    obtain rfl := pure_eq_ok.mp h
    exact .hit (by simp [Sys.Misses, hq]) .refl
  · rename_i front rest hq
    rw [misses_iff hq]
    split at h
    · exact tickLsqRead_turnover ev h
    · exact tickLsqWrite_turnover ev h

theorem tick_turnover (ev : s.Evictable) (h : tick L M o clk s = .ok t) :
    Turnover usage BufferEntry.bufferIndex o s.Misses s.ctrl.buffer t.ctrl.buffer := by
  simp only [tick, bind_eq_ok] at h
  obtain ⟨u, hlsq, v, hlmemq, hbuf⟩ := h
  have hentries : SameIndices v t := foldlM_keeps (P := fun w => SameIndices v w)
    (fun _ _ _ hw hk => hw.trans (tickEntry_sameIndices hk)) .refl hbuf
  exact (tickLsq_turnover ev hlsq).trans ((tickLmemq_sameIndices hlmemq).trans hentries)

/-- **Every call serves a request at most.** -/
theorem controls : Controls (calls L M) usage BufferEntry.bufferIndex
    (fun s : Sys κ τ μ => s.ctrl.buffer) Sys.Evictable LastGoes where
  sound _ ev := ev.sound
  step := by
    intro s call t ev h
    have ev' : t.Evictable :=
      reflTransGen_keeps (fun _ _ ev hm => ev.move hm) (call_moves h) ev
    refine ⟨ev', ?_⟩
    -- a call other than a tick serves no request
    have hquiet : SameIndices s t → ∃ o miss,
        Turnover usage BufferEntry.bufferIndex o miss s.ctrl.buffer t.ctrl.buffer ∧
          (True ↔ s.ctrl.buffer.LastGoes usage BufferEntry.bufferIndex o miss) :=
      fun same => ⟨.asHeld, False, .hit not_false same, iff_of_true trivial nofun⟩
    cases call with
    | tick visit clk =>
        simp only [calls, tickComponent_eq, bind_eq_ok] at h
        obtain ⟨u, htick, hsettle⟩ := h
        exact ⟨visit [], s.Misses, (tick_turnover ev htick).trans (settle_sameIndices hsettle),
          Iff.rfl⟩
    | issueRequest req =>
        simp only [calls, bind_eq_ok, Prod.exists, pure_eq_ok] at h
        obtain ⟨resp, u, hu, rfl⟩ := h
        refine hquiet ?_
        obtain ⟨-, ⟨-, rfl⟩ | ⟨-, -, rfl⟩⟩ := issueRequest_cases hu <;> exact .refl
    | drain =>
        obtain ⟨next, -, rfl⟩ := drain_eq_ok h
        exact hquiet .refl

theorem Sys.Evictable.numbered_iff (ev : s.Evictable) :
    s.Numbered ↔ s.ctrl.buffer.Numbered BufferEntry.bufferIndex :=
  ⟨Sys.Numbered.now, fun hnum =>
    ⟨hnum, fun o => (checkAndEvict_madeRoom (o := o) ev rfl).numbered ev.sound hnum⟩⟩

end Calls

/-! ## Every run -/

/-- **The entries are numbered exactly when at each step the last index
went**, as for the RMW controller. -/
theorem numbered_of_run {cfg : Config} {localMemory : τ} {next : List μ} {cs : List (Call κ)}
    {s : Sys κ τ μ} (h : (calls L M).run (Sys.init cfg localMemory next) cs = .ok s) :
    (s.Numbered ↔ (calls L M).Meets LastGoes (Sys.init cfg localMemory next) cs) ∧
      s.ctrl.buffer.nextAvailableIndex = s.ctrl.buffer.entryMap.keys.length ∧
      ∀ k e, s.entry k = some e → e.bufferIndex < s.ctrl.buffer.maxEntries := by
  have ev : s.Evictable := (calls L M).invariant
    (fun _ _ _ ev ht => (controls.step _ _ _ ev ht).1) .init h
  rw [ev.numbered_iff]
  exact controls.numbered_iff_meets .init ⟨rfl, rfl⟩ h

/-! ## A configuration of two entries, to run -/

def twoEntries : Config := { wearConfig with bufferEntries := 2, wearLevelingThreshold := 8 }

/-- Writes, and ten ticks from the clock. -/
def writesAt (addrs : List Addr) (clk : ℕ) : List (Call ℕ) :=
  addrs.map (fun addr => .issueRequest { addr := addr, arrive := 0, type := .write }) ++
    (List.range 10).map fun i => .tick (fun _ => .asHeld) (UInt64.ofNat (clk + i))

end Ait

/-! ## Both controllers -/

section Both

variable {κ σ τ μ : Type}

/-- **When the indices of a buffer are a local numbering.** In every run
of either controller, the entries are numbered, also where room has just
been made, exactly when at each tick that had to make room the entry
used longest ago carried the last index. In any case they are counted by
the next index, and their indices are below `max_entries`. -/
theorem entries_numbered_iff {C : Component Rmw.Callback σ} {L : Component Ait.SubreqCallback τ}
    {M : Component Ait.Callback μ} :
    (∀ (cfg : Rmw.Config) (next : List σ) (es : List (Rmw.Event κ σ)) (s : Rmw.Sys κ σ),
      (Rmw.machine C).run (Rmw.Sys.init cfg next) es = .ok s →
        (s.Numbered ↔ (Rmw.machine C).Meets Rmw.LastGoes (Rmw.Sys.init cfg next) es) ∧
        s.ctrl.buffer.nextAvailableIndex = s.ctrl.buffer.entryMap.keys.length ∧
        ∀ k e, s.entry k = some e → e.bufferIndex < s.ctrl.buffer.maxEntries) ∧
    (∀ (cfg : Ait.Config) (localMemory : τ) (next : List μ) (cs : List (Call κ))
      (s : Ait.Sys κ τ μ), (Ait.calls L M).run (Ait.Sys.init cfg localMemory next) cs = .ok s →
        (s.Numbered ↔ (Ait.calls L M).Meets Ait.LastGoes (Ait.Sys.init cfg localMemory next) cs) ∧
        s.ctrl.buffer.nextAvailableIndex = s.ctrl.buffer.entryMap.keys.length ∧
        ∀ k e, s.entry k = some e → e.bufferIndex < s.ctrl.buffer.maxEntries) :=
  ⟨fun _ _ _ _ h => Rmw.numbered_of_run h, fun _ _ _ _ _ h => Ait.numbered_of_run h⟩

end Both

/-- Where the first block is used again before a third comes, the second
has to go, and the third takes its index. -/
theorem entries_numbered_iff_secondGoes :
    (∃ s, (Rmw.machine Rmw.willing).run (Rmw.Sys.init Rmw.twoEntries [()])
        (Rmw.readAt 0 0 ++ Rmw.readAt 256 10 ++ Rmw.readAt 0 20 ++ Rmw.readAt 512 30) = .ok s ∧
      s.ctrl.buffer.entryMap.keys = [512, 0] ∧ s.Numbered) ∧
    ∃ s, (Ait.calls StaticMemory.component StaticMemory.component).run
        (Ait.Sys.init Ait.twoEntries ⟨1, 1⟩ [⟨1, 1⟩])
        (Ait.writesAt [0] 0 ++ Ait.writesAt [4096] 10 ++ Ait.writesAt [0] 20 ++
          Ait.writesAt [8192] 30) = .ok s ∧
      s.ctrl.buffer.entryMap.keys = [8192, 0] ∧ s.Numbered := by
  have hrmw : ((Rmw.machine Rmw.willing).run (Rmw.Sys.init Rmw.twoEntries [()])
      (Rmw.readAt 0 0 ++ Rmw.readAt 256 10 ++ Rmw.readAt 0 20 ++ Rmw.readAt 512 30)).map
        (fun s => s.ctrl.buffer.entryMap.keys) = .ok [512, 0] := by
    decide +kernel
  have hait : ((Ait.calls StaticMemory.component StaticMemory.component).run
      (Ait.Sys.init Ait.twoEntries ⟨1, 1⟩ [⟨1, 1⟩])
      (Ait.writesAt [0] 0 ++ Ait.writesAt [4096] 10 ++ Ait.writesAt [0] 20 ++
        Ait.writesAt [8192] 30)).map (fun s => s.ctrl.buffer.entryMap.keys) = .ok [8192, 0] := by
    decide +kernel
  obtain ⟨s, hrun, hkeys⟩ := map_eq_ok.mp hrmw
  obtain ⟨s', hrun', hkeys'⟩ := map_eq_ok.mp hait
  refine ⟨⟨s, hrun, hkeys, ?_⟩, s', hrun', hkeys', ?_⟩
  · -- each step meets the condition
    exact ((entries_numbered_iff (L := StaticMemory.component) (M := StaticMemory.component)).1
      _ _ _ _ hrun).1.mpr (by decide +kernel)
  · exact ((entries_numbered_iff (C := Rmw.willing)).2 _ _ _ _ _ hrun').1.mpr (by decide +kernel)

/-- **An index is given twice** where the first block is the one used
longest ago: the third block is given the index of the second. -/
theorem secondIndex_given_twice :
    (∃ s e e', (Rmw.machine Rmw.willing).run (Rmw.Sys.init Rmw.twoEntries [()])
        (Rmw.readAt 0 0 ++ Rmw.readAt 256 10 ++ Rmw.readAt 512 20) = .ok s ∧
      s.entry 256 = some e ∧ s.entry 512 = some e' ∧ e.bufferIndex = 1 ∧ e'.bufferIndex = 1 ∧
      ¬ s.Numbered) ∧
    ∃ s e e', (Ait.calls StaticMemory.component StaticMemory.component).run
        (Ait.Sys.init Ait.twoEntries ⟨1, 1⟩ [⟨1, 1⟩])
        (Ait.writesAt [0] 0 ++ Ait.writesAt [4096] 10 ++ Ait.writesAt [8192] 20) = .ok s ∧
      s.entry 4096 = some e ∧ s.entry 8192 = some e' ∧ e.bufferIndex = 1 ∧ e'.bufferIndex = 1 ∧
      ¬ s.Numbered := by
  have hrmw : ((Rmw.machine Rmw.willing).run (Rmw.Sys.init Rmw.twoEntries [()])
      (Rmw.readAt 0 0 ++ Rmw.readAt 256 10 ++ Rmw.readAt 512 20)).map
        (fun s => ((s.entry 256).map (·.bufferIndex), (s.entry 512).map (·.bufferIndex))) =
      .ok (some 1, some 1) := by
    decide +kernel
  have hait : ((Ait.calls StaticMemory.component StaticMemory.component).run
      (Ait.Sys.init Ait.twoEntries ⟨1, 1⟩ [⟨1, 1⟩])
      (Ait.writesAt [0] 0 ++ Ait.writesAt [4096] 10 ++ Ait.writesAt [8192] 20)).map
        (fun s => ((s.entry 4096).map (·.bufferIndex), (s.entry 8192).map (·.bufferIndex))) =
      .ok (some 1, some 1) := by
    decide +kernel
  obtain ⟨s, hrun, hboth⟩ := map_eq_ok.mp hrmw
  obtain ⟨s', hrun', hboth'⟩ := map_eq_ok.mp hait
  simp only [Prod.mk.injEq, Option.map_eq_some_iff] at hboth hboth'
  obtain ⟨⟨e, he, hone⟩, e', he', hone'⟩ := hboth
  obtain ⟨⟨f, hf, hfone⟩, f', hf', hfone'⟩ := hboth'
  refine ⟨⟨s, e, e', hrun, he, he', hone, hone', fun hnum => ?_⟩,
    s', f, f', hrun', hf, hf', hfone, hfone', fun hnum => ?_⟩
  · exact absurd (hnum.now.distinct _ _ _ _ he he' (hone.trans hone'.symm)) (by decide)
  · exact absurd (hnum.now.distinct _ _ _ _ hf hf' (hfone.trans hfone'.symm)) (by decide)

end Vans
