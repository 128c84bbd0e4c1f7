import Vans.Rmw.Writes
/-!
# The RMW controller — block writes are complete

The controller is run beside an account of its entries: which lines of
its block an entry was given by writes since it was inserted, and how
far a read of its block has come. The account is kept from what the
controller is seen to do, micro-step by micro-step, and the controller
does not read it. Whenever a block is written to the level below, every
line of it is in the account.
-/

namespace Vans

namespace Rmw

variable {κ σ : Type} {C : Component Callback σ}

/-! ## The account -/

/-- How far the read of a block issued for its entry has come. -/
inductive Fetch where
  | none
  /-- The level below will call back. -/
  | asked
  /-- The level below will be done at the clock it gave. -/
  | due (clk : Clk)
  | come
  deriving DecidableEq, Repr

/-- What an entry was given since it was inserted. -/
structure Given where
  /-- The lines covered by writes taken into it. -/
  lines : BitVec blockSizeCl := 0
  read : Fetch := .none
  deriving DecidableEq

namespace Given

/-- A line is covered by a write. -/
def cover (g : Given) (clIndex : Fin blockSizeCl) : Given :=
  { g with lines := g.lines ||| (BitVec.ofNat blockSizeCl 1 <<< clIndex.val) }

/-- The block is read for the entry, which keeps the answer. -/
def ask {κ : Type} (g : Given) : Option (BufferEntry κ) → Given
  | .none => g
  | some e =>
    { g with read := if e.waitingActionClkUpdate then .asked else .due e.nextActionClk }

/-- The level below calls back, which completes a read on its way. -/
def callBack (g : Given) : Given :=
  { g with read := if g.read = .none then .none else .come }

/-- The clock comes, and a read due by then is complete. -/
def pass (g : Given) (currClk : Clk) : Given :=
  { g with
    read :=
      match g.read with
      | .due clk => if clk ≤ currClk then .come else .due clk
      | r => r }

/-- Every line of the block is accounted for. -/
def Complete (g : Given) : Prop :=
  ∀ clIndex : Fin blockSizeCl, g.lines.getLsb clIndex = true ∨ g.read = .come

instance (g : Given) : Decidable g.Complete :=
  inferInstanceAs (Decidable (∀ _ : Fin blockSizeCl, _ ∨ _))

end Given

/-- The account of the entries, by block, and of the block writes: what
the entry had been given at each. -/
structure Account where
  given : Addr → Given := fun _ => {}
  writes : List (Addr × Given) := []

namespace Account

def update (a : Account) (block : Addr) (f : Given → Given) : Account :=
  { a with given := Function.update a.given block (f (a.given block)) }

/-- One observation is entered; `t` is the state just after it. -/
def observe (t : Sys κ σ) (a : Account) : Obs κ → Account
  | .taken .write req =>
    a.update (translateToBlockAddr req.addr) (·.cover (blockOffsetCl req.addr))
  | .nextLevel .read addr => a.update addr (·.ask (t.entry addr))
  | .nextLevel .write addr => { a with writes := a.writes ++ [(addr, a.given addr)] }
  | .woken block _ _ => a.update block Given.callBack
  | _ => a

/-- An entry that left the buffer leaves the account. -/
def forget (t : Sys κ σ) (a : Account) : Account :=
  { a with given := fun key => if (t.entry key).isSome then a.given key else {} }

/-- What the controller is seen to do between two states is entered. -/
def note (s t : Sys κ σ) (a : Account) : Account :=
  (t.log.drop s.log.length).foldl (observe t) (a.forget t)

def pass (a : Account) (currClk : Clk) : Account :=
  { a with given := fun key => (a.given key).pass currClk }

end Account

/-- The controller beside the account. A tick is accounted for in its
micro-steps: the load/store queue, then entry by entry. -/
def accounted (C : Component Callback σ) :
    Machine (Sys κ σ × Account) (Event κ σ) String where
  step := fun (s, a) ev =>
    match ev with
    | .tick o currClk => do
        let p ← audited (tickLsq o currClk) Account.note (tickRoq currClk s, a)
        (o.visit p.1.ctrl.buffer.entryMap.keys).foldlM
          (fun p key => audited (tickEntry C currClk · key)
            (fun s t a => (a.pass currClk).note s t) p) p
    | ev => audited ((machine C).step · ev) Account.note (s, a)

/-- **The account changes nothing.** -/
theorem accounted_run {s : Sys κ σ} {a : Account} {es : List (Event κ σ)} :
    ((accounted C).run (s, a) es).map Prod.fst = (machine C).run s es := by
  refine Machine.run_map (π := Prod.fst) ?_
  rintro ⟨s, a⟩ ev
  cases ev with
  | tick o clk =>
      simp only [accounted, machine, tick, tickInternalBuffer]
      rw [← @audited_map _ _ _ (tickLsq o clk) Account.note (tickRoq clk s, a)]
      cases audited (tickLsq o clk) Account.note (tickRoq clk s, a) with
      | error e => rfl
      | ok p => exact foldlM_map fun _ _ => audited_map
  | issueRequest | nextLevelReadCallback | drainCurrent | nextLevel =>
      simp only [accounted]
      exact audited_map

/-! ## What the account says of an entry -/

/-- The writes of blocks the controller is seen to issue below. -/
def blockWrite : Obs κ → Option Addr
  | .nextLevel .write addr => some addr
  | _ => none

/-- Nothing of the old block is missing in the entry. -/
def BufferEntry.Whole (e : BufferEntry κ) : Prop :=
  e.pendingRequest.type = .writeComb ∨ e.pendingRequest.type = .writePatch ∨
    e.pendingRequest.type = .readFf ∨ (e.state ≠ .init ∧ e.state ≠ .pendingAitR)

/-- A block that can be read and is not being read is whole. -/
theorem EntryOk.whole {key : Addr} {e : BufferEntry κ} (ok : EntryOk key e)
    (hnot : ¬ (e.pending ∧ isRead e.pendingRequest.type)) (hvalid : e.validToRead) : e.Whole := by
  have hwritten : ¬ e.unwritten := fun hun => by simp [ok.unreadable hun] at hvalid
  refine .inr (.inr (.inr ?_))
  by_cases hpend : e.pending
  · rcases ok.isWrite_or_isRead with ⟨hw, -⟩ | ⟨-, hr⟩
    · constructor <;> intro hst <;> exact hwritten ⟨hw, by simp [hst], by simp [hst]⟩
    · exact absurd ⟨hpend, hr⟩ hnot
  · have hend := ok.pending.mp (by simpa using hpend)
    simp [hend]

/-- The account bears an entry out. -/
structure Backed (e : BufferEntry κ) (g : Given) : Prop where
  /-- The entry waits for a block as its read waits to come. -/
  fetching : e.state = .pendingAitR →
    g.read = .come ∨ (e.waitingActionClkUpdate = true ∧ g.read = .asked) ∨
      (e.waitingActionClkUpdate = false ∧ g.read = .due e.nextActionClk)
  whole : e.Whole → g.Complete

/-- The account bears every entry out, knows no other, and every block
written was complete. -/
structure Account.Backs (a : Account) (s : Sys κ σ) : Prop where
  entries : ∀ key e, s.entry key = some e → Backed e (a.given key)
  absent : ∀ key, s.entry key = none → a.given key = {}
  listed : a.writes.map Prod.fst = s.log.filterMap blockWrite
  complete : ∀ w ∈ a.writes, w.2.Complete

namespace Given

variable {g : Given} {clIndex : Fin blockSizeCl} {clk : Clk}

/-- What is given is not taken away. -/
theorem Complete.mono {g' : Given} (h : g.Complete)
    (hlines : ∀ clIndex : Fin blockSizeCl, g.lines.getLsb clIndex → g'.lines.getLsb clIndex)
    (hread : g.read = .come → g'.read = .come) : g'.Complete :=
  fun clIndex => (h clIndex).imp (hlines clIndex) hread

theorem getLsb_cover {i : Fin blockSizeCl} :
    (g.cover clIndex).lines.getLsb i = (g.lines.getLsb i || decide (i = clIndex)) := by
  have hbit : ∀ c i : Fin blockSizeCl,
      (BitVec.ofNat blockSizeCl 1 <<< c.val).getLsb i = decide (i = c) := by decide
  rw [cover, ← hbit]
  exact BitVec.getLsbD_or

theorem Complete.callBack (h : g.Complete) : g.callBack.Complete :=
  h.mono (fun _ hi => hi) fun hread => by simp [Given.callBack, hread]

theorem Complete.pass (h : g.Complete) : (g.pass clk).Complete :=
  h.mono (fun _ hi => hi) fun hread => by simp [Given.pass, hread]

/-- The writes taken cover the lines they hit. -/
theorem getLsb_foldl_cover {taken : List (BaseRequest κ)} {i : Fin blockSizeCl} :
    (taken.foldl (fun g w => g.cover (blockOffsetCl w.addr)) g).lines.getLsb i = true ↔
      g.lines.getLsb i = true ∨ ∃ w ∈ taken, blockOffsetCl w.addr = i := by
  induction taken generalizing g with
  | nil => simp
  | cons w taken ih =>
      rw [List.foldl_cons, ih, getLsb_cover]
      simp only [Bool.or_eq_true, decide_eq_true_eq, List.mem_cons, exists_eq_or_imp]
      grind

theorem read_foldl_cover {taken : List (BaseRequest κ)} :
    (taken.foldl (fun g w => g.cover (blockOffsetCl w.addr)) g).read = g.read := by
  induction taken generalizing g with
  | nil => rfl
  | cons w taken ih => exact ih

theorem Complete.foldl_cover {taken : List (BaseRequest κ)} (h : g.Complete) :
    (taken.foldl (fun g w => g.cover (blockOffsetCl w.addr)) g).Complete :=
  h.mono (fun _ hi => getLsb_foldl_cover.mpr (.inl hi)) fun hread => read_foldl_cover.trans hread

end Given

/-- **Combining hits the lines of the writes it takes**, and no others. -/
theorem combine_hit {block : Addr} : ∀ {q : List (BaseRequest κ)} {hit : BitVec blockSizeCl}
    {taken left : List (BaseRequest κ)} {i : Fin blockSizeCl},
    combine block q = (hit, taken, left) →
    (hit.getLsb i = true ↔ ∃ w ∈ taken, blockOffsetCl w.addr = i) := by
  intro q
  induction q with
  | nil =>
      intro hit taken left i h
      simp only [combine, Prod.mk.injEq] at h
      obtain ⟨rfl, rfl, -⟩ := h
      simp [BitVec.getLsb]
  | cons req reqs ih =>
      intro hit taken left i h
      obtain ⟨hit', taken', left', hrec⟩ : ∃ hit taken left,
          combine block reqs = (hit, taken, left) := ⟨_, _, _, rfl⟩
      unfold combine at h
      split at h
      · simp only [hrec, Prod.mk.injEq] at h
        obtain ⟨rfl, rfl, -⟩ := h
        exact ih hrec
      · split at h
        · -- a read of the block stops the walk
          simp only [Prod.mk.injEq] at h
          obtain ⟨rfl, rfl, -⟩ := h
          simp [BitVec.getLsb]
        · simp only [hrec, Prod.mk.injEq] at h
          obtain ⟨rfl, rfl, -⟩ := h
          have hcover := @Given.getLsb_cover ⟨hit', .none⟩ (blockOffsetCl req.addr) i
          simp only [Given.cover] at hcover
          simp only [hcover, Bool.or_eq_true, decide_eq_true_eq, ih hrec, List.mem_cons,
            exists_eq_or_imp]
          grind

theorem Backed.ask {e : BufferEntry κ} {g : Given} (hnot : ¬ e.Whole) :
    Backed e (g.ask (some e)) := by
  refine ⟨fun _ => ?_, fun hw => absurd hw hnot⟩
  simp only [Given.ask]
  split
  · rename_i hwait
    exact .inr (.inl ⟨hwait, rfl⟩)
  · rename_i hwait
    exact .inr (.inr ⟨by simpa using hwait, rfl⟩)

/-! ## Entering what is seen -/

namespace Account

section Entering

variable {a : Account} {s t : Sys κ σ} {key k block : Addr} {f : Given → Given}

@[simp] theorem update_given :
    (a.update block f).given k = if k = block then f (a.given block) else a.given k := by
  simp [update, Function.update_apply]

theorem note_of_log {new : List (Obs κ)} (hlog : t.log = s.log ++ new) :
    a.note s t = new.foldl (observe t) (a.forget t) := by
  rw [note, hlog, List.drop_left]

/-- Where no entry leaves, nothing is forgotten. -/
theorem Backs.forget_given (h : a.Backs s) (hstay : (s.entry k).isSome → (t.entry k).isSome) :
    (a.forget t).given k = a.given k := by
  simp only [forget]
  split
  · rfl
  · rename_i hnone
    have hgone : s.entry k = none := by
      cases hk : s.entry k with
      | none => rfl
      | some e => simp [hk] at hstay; simp [hstay] at hnone
    exact (h.absent k hgone).symm

theorem Backs.forget_eq (h : a.Backs s) (hstay : ∀ k, (s.entry k).isSome → (t.entry k).isSome) :
    a.forget t = a := by
  obtain ⟨given, writes⟩ := a
  simp only [Account.forget, Account.mk.injEq, and_true]
  exact funext fun k => h.forget_given (hstay k)

theorem observe_read {addr : Addr} {e : BufferEntry κ} (hblock : addr = block)
    (he : t.entry block = some e) :
    a.observe t (.nextLevel .read addr) = a.update block (·.ask (some e)) := by
  subst hblock
  simp only [observe, he]

/-- Writes of one block are entered for that block. -/
theorem foldl_observe_taken {taken : List (BaseRequest κ)}
    (htaken : ∀ w ∈ taken, translateToBlockAddr w.addr = block) :
    (taken.map (Obs.taken .write)).foldl (observe t) a =
      a.update block fun g => taken.foldl (fun g w => g.cover (blockOffsetCl w.addr)) g := by
  induction taken generalizing a with
  | nil =>
      obtain ⟨given, writes⟩ := a
      simp [update]
  | cons w taken ih =>
      obtain ⟨hw, htaken⟩ := List.forall_mem_cons.mp htaken
      rw [List.map_cons, List.foldl_cons, ih htaken]
      simp [observe, update, hw]

end Entering

/-! ## The moves keep the account -/

namespace Backs

variable {a : Account} {s t : Sys κ σ} {key : Addr} {e e' : BufferEntry κ} {new : List (Obs κ)}
  {clk : Clk}

theorem init {cfg : Config} {next : List σ} :
    Backs {} (Sys.init cfg next : Sys κ σ) where
  entries := fun key e he => by simp [Sys.entry, Sys.init] at he
  absent := fun _ _ => rfl
  listed := rfl
  complete := by simp

/-- Time passes. -/
theorem pass (h : a.Backs s) : (a.pass clk).Backs s where
  entries := by
    intro key e he
    have hb := h.entries key e he
    refine ⟨fun hst => ?_, fun hw => (hb.whole hw).pass⟩
    rcases hb.fetching hst with hr | ⟨hwait, hr⟩ | ⟨hwait, hr⟩
    · exact .inl (by simp [Account.pass, Given.pass, hr])
    · exact .inr (.inl ⟨hwait, by simp [Account.pass, Given.pass, hr]⟩)
    · by_cases hdue : e.nextActionClk ≤ clk
      · exact .inl (by simp [Account.pass, Given.pass, hr, hdue])
      · exact .inr (.inr ⟨hwait, by simp [Account.pass, Given.pass, hr, hdue]⟩)
  absent := fun key hnone => by simp [Account.pass, h.absent key hnone, Given.pass]
  listed := h.listed
  complete := h.complete

/-- The entries are as they were, and what is seen does not matter. -/
theorem same (h : a.Backs s) (hentry : ∀ k, t.entry k = s.entry k) (hlog : t.log = s.log ++ new)
    (hobs : new.foldl (observe t) a = a) (hnew : new.filterMap blockWrite = []) :
    (a.note s t).Backs t := by
  rw [note_of_log hlog, h.forget_eq fun k => by rw [hentry]; exact id, hobs]
  refine ⟨fun k e he => h.entries k e (hentry k ▸ he), fun k hk => h.absent k (hentry k ▸ hk), ?_,
    h.complete⟩
  rw [hlog, List.filterMap_append, hnew, List.append_nil, h.listed]

/-- One entry is new or has changed, and what is seen is about it. -/
theorem enter (h : a.Backs s) (f : Given → Given) (ws : List (Addr × Given))
    (hentry : ∀ k, t.entry k = if k = key then some e' else s.entry k)
    (hlog : t.log = s.log ++ new)
    (hobs : new.foldl (observe t) a = { a.update key f with writes := a.writes ++ ws })
    (hnew : new.filterMap blockWrite = ws.map Prod.fst) (hws : ∀ w ∈ ws, w.2.Complete)
    (hback : Backed e' (f (a.given key))) : (a.note s t).Backs t := by
  have hstay : ∀ k, (s.entry k).isSome → (t.entry k).isSome := by
    intro k hk
    rw [hentry]
    split
    · rfl
    · exact hk
  rw [note_of_log hlog, h.forget_eq hstay, hobs]
  refine ⟨fun k e he => ?_, fun k hk => ?_, ?_, fun w hw => ?_⟩
  · rw [hentry] at he
    by_cases hkey : k = key
    · rw [if_pos hkey] at he
      cases he
      simpa [hkey] using hback
    · rw [if_neg hkey] at he
      simpa [hkey] using h.entries k e he
  · rw [hentry] at hk
    by_cases hkey : k = key
    · simp [hkey] at hk
    · rw [if_neg hkey] at hk
      simpa [hkey] using h.absent k hk
  · rw [hlog, List.filterMap_append, hnew, List.map_append, h.listed]
  · rcases List.mem_append.mp hw with hw | hw
    · exact h.complete w hw
    · exact hws w hw

/-- One entry has changed, and what is seen does not matter. -/
theorem change (h : a.Backs s)
    (hentry : ∀ k, t.entry k = if k = key then some e' else s.entry k)
    (hlog : t.log = s.log ++ new) (hobs : new.foldl (observe t) a = a)
    (hnew : new.filterMap blockWrite = []) (hback : Backed e' (a.given key)) :
    (a.note s t).Backs t := by
  refine h.enter id [] hentry hlog ?_ hnew (by simp) hback
  obtain ⟨given, writes⟩ := a
  simp [hobs, update]

/-- An entry is given the writes taken. -/
theorem takeWrites {taken : List (BaseRequest κ)} (h : a.Backs s)
    (hentry : ∀ k, t.entry k = if k = key then some e' else s.entry k)
    (hlog : t.log = s.log ++ taken.map (Obs.taken .write))
    (htaken : ∀ w ∈ taken, translateToBlockAddr w.addr = key)
    (hback : Backed e'
      (taken.foldl (fun g w => g.cover (blockOffsetCl w.addr)) (a.given key))) :
    (a.note s t).Backs t := by
  refine h.enter (fun g => taken.foldl (fun g w => g.cover (blockOffsetCl w.addr)) g) [] hentry
    hlog ?_ ?_ (by simp) ?_
  · rw [foldl_observe_taken htaken, List.append_nil]
    rfl
  · simp only [List.filterMap_map, List.map_nil]
    exact List.filterMap_eq_nil_iff.mpr fun _ _ => rfl
  · exact hback

/-- An entry goes. -/
theorem evict (h : a.Backs s) (hentry : ∀ k, t.entry k = if k = key then none else s.entry k)
    (hlog : t.log = s.log) : (a.note s t).Backs t := by
  have hsome : ∀ {k e}, t.entry k = some e → s.entry k = some e := by
    intro k e he
    rw [hentry] at he
    split at he
    · cases he
    · exact he
  rw [note_of_log (hlog.trans (List.append_nil _).symm)]
  refine ⟨fun k e he => ?_, fun k hk => ?_, ?_, h.complete⟩
  · simpa [forget, he] using h.entries k e (hsome he)
  · simp [forget, hk]
  · rw [hlog]
    exact h.listed

/-- **A transfer keeps the account**, where the block has come that it
goes on with. -/
theorem transfer {s' : Sys κ σ} (h : a.Backs s) (ok : EntryOk key e) (he : s.entry key = some e)
    (hm : EntryMove C key s e e' s')
    (hcome : e.state = .pendingAitR → e'.state = .pendingRead → (a.given key).read = .come) :
    (a.note s (s'.setEntry key e')).Backs (s'.setEntry key e') := by
  have hb := h.entries key e he
  have hentry : ∀ k, (s'.setEntry key e').entry k = if k = key then some e' else s.entry k := by
    intro k
    rw [entry_setEntry, Sys.entry, (hm.frame ok.not_flushBack).1]
    rfl
  have hblock := ok.block
  -- the transfers that issue nothing below, out of a state the block is whole in
  have hkeep : s'.log = s.log → e'.state ≠ .pendingAitR → e.Whole →
      (a.note s (s'.setEntry key e')).Backs (s'.setEntry key e') := by
    intro hlog hst hwhole
    exact h.change hentry (hlog.trans (List.append_nil _).symm) rfl rfl
      ⟨fun h => absurd h hst, fun _ => hb.whole hwhole⟩
  cases hm with
  | flush ht => exact absurd ht ok.not_flushBack
  | refused | roqFull => exact h.change hentry (List.append_nil _).symm rfl rfl hb
  | fetch hst ht hask hyes =>
      refine h.enter (·.ask (some _)) [] hentry rfl ?_ rfl (by simp) (.ask ?_)
      · rw [List.append_nil]
        exact observe_read hblock ((hentry key).trans (if_pos rfl))
      · rcases ht with ht | ht <;> simp [BufferEntry.Whole, ht]
  | fetched hst ht =>
      exact h.change hentry (List.append_nil _).symm rfl rfl
        ⟨by simp, fun _ _ => .inr (hcome hst rfl)⟩
  | merge hst ht => exact hkeep rfl (by simp) (by simp [BufferEntry.Whole, hst])
  | begin hst ht =>
      exact hkeep rfl (by simp) (by rcases ht with ht | ht <;> simp [BufferEntry.Whole, ht])
  | written hst ht => exact hkeep rfl (by simp) (by simp [BufferEntry.Whole, hst])
  | modify hst ht hask hyes =>
      have hwhole := hb.whole (by simp [BufferEntry.Whole, hst])
      refine h.enter id [(key, a.given key)] hentry rfl ?_ ?_ ?_
        ⟨by simp, fun _ => hwhole⟩
      · simp [observe, update, hblock]
      · simp [blockWrite, hblock]
      · simpa using hwhole
  | finish hst ht => exact hkeep rfl (by simp) (by simp [BufferEntry.Whole, hst])
  | readCold hst ht => exact hkeep rfl (by simp) (by simp [BufferEntry.Whole, hst])
  | readFf hst ht => exact hkeep rfl (by simp) (by simp [BufferEntry.Whole, ht])
  | readout hst ht hidx hroom =>
      refine hkeep rfl ?_ (by simp [BufferEntry.Whole, hst])
      dsimp only
      split
      · simp
      · split <;> simp

/-- **Every move keeps the account**, where a block has come that a
transfer goes on with. -/
theorem move {Q : Env κ} (h : a.Backs s) (ok : s.Ok) (hm : Move C Q s t)
    (hcome : ∀ key e e', s.entry key = some e → t.entry key = some e' → e.state = .pendingAitR →
      e'.state = .pendingRead → (a.given key).read = .come) : (a.note s t).Backs t := by
  cases hm with
  | accept room => exact h.same (fun _ => rfl) rfl rfl rfl
  | @run front rest clk hq hdue =>
      refine h.same (fun _ => rfl) rfl ?_ ?_ <;> cases front.callback <;> rfl
  | below | draining => exact h.same (fun _ => rfl) (List.append_nil _).symm rfl rfl
  | @evict key e he hend hfull =>
      exact h.evict (fun k => by rw [entry_erase, (ok key e he).aligned]) rfl
  | readCold hq ht hnone hroom =>
      refine h.change (fun _ => by rw [entry_takeRead, entry_newEntry]) rfl rfl rfl ⟨?_, ?_⟩
      · simp [BufferEntry.new, BufferEntry.waitFor]
      · simp [BufferEntry.new, BufferEntry.waitFor, BufferEntry.Whole]
  | readPatch hq ht he hpend hread hne hlen hQ =>
      have hb := h.entries _ _ he
      refine h.change (fun _ => by rw [entry_takeRead, entry_setEntry, entry_count]) rfl rfl rfl ?_
      exact ⟨hb.fetching, hb.whole⟩
  | readFf hq ht he hnot hvalid hidx =>
      -- what is served fast forward is whole
      have hwhole := (h.entries _ _ he).whole ((ok _ _ he).whole hnot hvalid)
      refine h.change (fun _ => by rw [entry_takeRead, entry_setEntry]) rfl rfl rfl
        ⟨?_, fun _ => hwhole⟩
      simp [BufferEntry.assignNewRequest, BufferEntry.waitFor, BufferEntry.cleared]
  | @writeNew front rest taken left clk hit hq ht hcomb hnone hroom =>
      refine h.takeWrites (fun _ => by rw [entry_takeWrites, entry_newEntry]) rfl
        (fun w hw => ((combine_spec hcomb).1 w hw).2) ⟨?_, ?_⟩
      · simp [BufferEntry.new]
      · -- all four lines were hit
        intro hwhole i
        have hall : hit = blockHitClBitmask := by
          by_contra hne
          simp [BufferEntry.new, BufferEntry.Whole, hne] at hwhole
        have hbit : ∀ i : Fin blockSizeCl, blockHitClBitmask.getLsb i = true := by decide
        refine .inl (Given.getLsb_foldl_cover.mpr (.inr ?_))
        exact (combine_hit hcomb).mp (hall ▸ hbit i)
  | writeComb hq ht hcomb he hpatch hall =>
      have hpatch' := BufferEntry.patchRmw_iff.mp hpatch
      have hwhole := (h.entries _ _ he).whole (by
        rcases hpatch'.2 with hst | hst <;> simp [BufferEntry.Whole, hst])
      refine h.takeWrites (fun _ => by rw [entry_takeWrites, entry_count, entry_setEntry]) rfl
        (fun w hw => ((combine_spec hcomb).1 w hw).2) ⟨?_, fun _ => hwhole.foldl_cover⟩
      simp [BufferEntry.assignNewRequest]
  | writeJoin hq ht hcomb he hpatch hall =>
      have hb := h.entries _ _ he
      refine h.takeWrites (fun _ => by rw [entry_takeWrites, entry_count, entry_setEntry]) rfl
        (fun w hw => ((combine_spec hcomb).1 w hw).2) ?_
      refine ⟨fun hst => ?_, fun hw => (hb.whole hw).foldl_cover⟩
      rw [Given.read_foldl_cover]
      exact hb.fetching hst
  | writePatch hq ht hcomb he hpend =>
      have hend := (ok _ _ he).pending.mp hpend
      have hwhole := (h.entries _ _ he).whole (by simp [BufferEntry.Whole, hend])
      refine h.takeWrites (fun _ => by rw [entry_takeWrites, entry_setEntry]) rfl
        (fun w hw => ((combine_spec hcomb).1 w hw).2) ⟨?_, fun _ => hwhole.foldl_cover⟩
      simp [BufferEntry.assignNewRequest]
  | transfer he hact hm =>
      refine h.transfer (ok _ _ he) he hm fun hst hst' => hcome _ _ _ he ?_ hst hst'
      rw [entry_setEntry, if_pos rfl]
  | @wake addr e clk he hQ =>
      have hb := h.entries _ _ he
      refine h.enter Given.callBack [] (fun _ => by rw [entry_emit, entry_setEntry]) rfl ?_ rfl
        (by simp) ?_
      · rw [List.append_nil]
        rfl
      · refine ⟨fun hst => .inl ?_, fun hw => (hb.whole hw).callBack⟩
        -- a callback comes of a read that was sent
        have hread : (a.given (translateToBlockAddr addr)).read ≠ .none := by
          rcases hb.fetching hst with hr | ⟨-, hr⟩ | ⟨-, hr⟩ <;> simp [hr]
        simp [Given.callBack, hread]
  | flush he hdirty hend =>
      -- an entry at rest is clean
      simp [ok.clean_of_end he hend] at hdirty

/-- Serving the front of the load/store queue keeps the account: what
was evicted does not come back, and no request goes on. -/
theorem lsqStep {Q : Env κ} (h : a.Backs s) (ok : s.Ok) (hm : LsqStep C Q s t) :
    (a.note s t).Backs t := by
  obtain ⟨u, hu, ht, hstill, hstill', hlog, hgone⟩ := hm.moves
  have hmove : ∀ {v w : Sys κ σ} {b : Account}, b.Backs v → v.Ok → w = v ∨ Move C Q v w →
      Still v w → (b.note v w).Backs w := by
    rintro v w b hb hok (rfl | hvw) hstill
    · exact hb.same (fun _ => rfl) (List.append_nil _).symm rfl rfl
    · refine hb.move hok hvw fun key e e' he he' hst hst' => ?_
      rcases hstill key e e' he he' with h | h <;> simp [hst, hst'] at h
  have hok : u.Ok := by
    rcases hu with rfl | hu
    · exact ok
    · exact ok.move hu
  have hlater := hmove (hmove h ok hu hstill) hok ht hstill'
  suffices hsame : a.note s t = (a.note s u).note u t by rwa [hsame]
  have hforget : (a.forget u).forget t = a.forget t := by
    simp only [forget, Account.mk.injEq, and_true]
    funext k
    split
    · rename_i hk
      split
      · rfl
      · rename_i hnone
        have hu : u.entry k = none := by simpa using hnone
        cases hs : s.entry k with
        | none => exact (h.absent k hs).symm
        | some e => simp [hgone k (by simp [hs]) hu] at hk
    · rfl
  rw [note_of_log (hlog.trans (List.append_nil _).symm)]
  simp only [note, hlog, List.foldl_nil, hforget]

/-- A read that is due has come. -/
theorem come_of_due (h : a.Backs s) (he : s.entry key = some e) (hst : e.state = .pendingAitR)
    (hwait : e.waitingActionClkUpdate = false) (hdue : e.nextActionClk ≤ clk) :
    ((a.pass clk).given key).read = .come := by
  rcases (h.entries key e he).fetching hst with hr | ⟨hw, -⟩ | ⟨-, hr⟩
  · simp [Account.pass, Given.pass, hr]
  · simp [hwait] at hw
  · simp [Account.pass, Given.pass, hr, hdue]

/-- A completion is not in the account. -/
theorem tickRoq (h : a.Backs s) : a.Backs (tickRoq clk s) := by
  unfold Rmw.tickRoq
  split
  · exact h
  · rename_i front rest hq
    split
    · refine ⟨h.entries, h.absent, ?_, h.complete⟩
      have hran : (invoke front.callback (front.addr + s.ctrl.startAddr) clk).filterMap
          (blockWrite ∘ Obs.ran) = [] :=
        List.filterMap_eq_nil_iff.mpr fun _ _ => rfl
      rw [List.filterMap_append, List.filterMap_map, hran, List.append_nil]
      exact h.listed
    · exact h

/-- A round of the loop over the buffer keeps the account. -/
theorem tickEntry (h : a.Backs s) (ok : s.Ok) (hs : Rmw.tickEntry C clk s key = .ok t) :
    ((a.pass clk).note s t).Backs t := by
  obtain rfl | ⟨e, e', s', he, hact, hm, rfl⟩ := tickEntry_cases hs
  · exact h.pass.same (fun _ => rfl) (List.append_nil _).symm rfl rfl
  · refine h.pass.transfer (ok key e he) he hm fun hst _ => ?_
    obtain ⟨-, hwait, hdue⟩ := hact.resolve_left (by simp [hst])
    exact h.come_of_due he hst hwait hdue

end Backs

end Account

/-! ## Every run -/

section Runs

variable {s t : Sys κ σ} {a b : Account}

/-- **Every call keeps the account.** -/
theorem accounted_step {ev : Event κ σ} (h : a.Backs s) (ok : s.Ok)
    (hstep : (accounted C).step (s, a) ev = .ok (t, b)) : b.Backs t ∧ t.Ok := by
  cases ev with
  | tick o clk =>
      simp only [accounted, bind_eq_ok] at hstep
      obtain ⟨⟨u, c⟩, hlsq, hbuf⟩ := hstep
      obtain ⟨hserve, rfl⟩ := audited_eq_ok.mp hlsq
      have hfront := @tickLsq_step _ _ C .any _ _ _ _ (by simp [PatchOk]) hserve
      have hfirst : (a.note (tickRoq clk s) u).Backs u ∧ u.Ok :=
        ⟨h.tickRoq.lsqStep ok.tickRoq hfront, ok.tickRoq.moves hfront.toMoves⟩
      refine foldlM_keeps (P := fun p : Sys κ σ × Account => p.2.Backs p.1 ∧ p.1.Ok) ?_ hfirst hbuf
      rintro ⟨v, d⟩ key ⟨w, d'⟩ ⟨hv, hvok⟩ hround
      obtain ⟨htick, rfl⟩ := audited_eq_ok.mp hround
      exact ⟨hv.tickEntry hvok htick, hvok.moves (@tickEntry_moves _ _ C .any _ _ _ _ htick)⟩
  | issueRequest req =>
      simp only [accounted] at hstep
      obtain ⟨hcall, rfl⟩ := audited_eq_ok.mp hstep
      simp only [machine, issueRequest, bind_eq_ok, Prod.exists, pure_eq_ok,
        Prod.mk.injEq] at hcall
      obtain ⟨resp, u, ⟨success, lsq, henq, rfl, rfl⟩, rfl⟩ := hcall
      have hentry : ∀ k, (if success then
          ({ s with ctrl.lsq := lsq } : Sys κ σ).emit (.accepted req) else
          { s with ctrl.lsq := lsq }).entry k = s.entry k := by
        intro k
        split <;> rfl
      refine ⟨?_, ok.of_entry_eq hentry⟩
      cases success
      · exact h.same hentry (List.append_nil _).symm rfl rfl
      · exact h.same hentry rfl rfl rfl
  | nextLevelReadCallback addr clk =>
      simp only [accounted] at hstep
      obtain ⟨hcall, rfl⟩ := audited_eq_ok.mp hstep
      simp only [machine, nextLevelReadCallback] at hcall
      split at hcall
      · exact absurd hcall throw_ne_ok
      · rename_i e he
        obtain rfl := pure_eq_ok.mp hcall
        have hmove := @Move.wake _ _ C .any _ addr e (clk + 1) he trivial
        refine ⟨h.move ok hmove fun key e₀ e₁ he₀ he₁ hst hst' => ?_, ok.move hmove⟩
        -- a callback leaves the entries in their states
        have hstate : e₁.state = e₀.state := by
          rw [entry_emit, entry_setEntry] at he₁
          split at he₁
          · rename_i hk
            subst hk
            rw [he] at he₀
            cases he₀
            cases he₁
            rfl
          · rw [he₀] at he₁
            rw [Option.some.inj he₁]
        simp [hst, hst'] at hstate
  | drainCurrent =>
      simp only [accounted] at hstep
      obtain ⟨hcall, rfl⟩ := audited_eq_ok.mp hstep
      simp only [machine, pure_eq_ok, drainCurrent_eq fun _ _ => ok.clean_of_end] at hcall
      subst hcall
      exact ⟨h.same (fun _ => rfl) (List.append_nil _).symm rfl rfl, ok⟩
  | nextLevel next =>
      simp only [accounted] at hstep
      obtain ⟨hcall, rfl⟩ := audited_eq_ok.mp hstep
      obtain rfl := pure_eq_ok.mp hcall
      exact ⟨h.same (fun _ => rfl) (List.append_nil _).symm rfl rfl, ok.of_entry_eq fun _ => rfl⟩

/-- Every run can be accounted for. -/
theorem accounted_of_run {es : List (Event κ σ)} (h : (machine C).run s es = .ok t) :
    ∃ b, (accounted C).run (s, a) es = .ok (t, b) := by
  rw [← @accounted_run _ _ C s a es] at h
  obtain ⟨⟨u, b⟩, hrun, rfl⟩ := map_eq_ok.mp h
  exact ⟨b, hrun⟩

theorem accounted_run_keeps {es : List (Event κ σ)} (h : a.Backs s) (ok : s.Ok)
    (hrun : (accounted C).run (s, a) es = .ok (t, b)) : b.Backs t :=
  ((accounted C).invariant (P := fun p => p.2.Backs p.1 ∧ p.1.Ok)
    (fun _ _ _ hp hstep => accounted_step hp.1 hp.2 hstep) ⟨h, ok⟩ hrun).1

/-- **Block writes are complete.** In every run, whenever the controller
writes a block to the level below, each of its lines had been covered by
a write taken into the entry since it was inserted, or a read of the
block issued for the entry had completed. -/
theorem block_writes_complete {cfg : Config} {next : List σ} {es : List (Event κ σ)}
    (h : (machine C).run (Sys.init cfg next) es = .ok t) :
    ∃ a, (accounted C).run (Sys.init cfg next, {}) es = .ok (t, a) ∧
      a.writes.map Prod.fst = t.log.filterMap blockWrite ∧ ∀ w ∈ a.writes, w.2.Complete := by
  obtain ⟨a, hrun⟩ := accounted_of_run h
  have hbacks := accounted_run_keeps .init .init hrun
  exact ⟨a, hrun, hbacks.listed, hbacks.complete⟩

end Runs

/-- A write of one line: the block is read, comes, and is written. -/
def oneLine : List (Event ℕ Unit) :=
  [.issueRequest { addr := 64, arrive := 0, type := .write }, .tick .asHeld 0,
    .nextLevelReadCallback 0 0, .tick .asHeld 1, .tick .asHeld 2, .tick .asHeld 3,
    .tick .asHeld 4, .tick .asHeld 5]

theorem block_writes_complete_oneLine :
    ∃ s a, (accounted willing).run (Sys.init smallConfig [()], {}) oneLine = .ok (s, a) ∧
      a.writes.map Prod.fst = [0] ∧ ∀ w ∈ a.writes, w.2.Complete := by
  obtain ⟨s, hrun, hlog⟩ : ∃ s, smallRun oneLine = .ok s ∧ s.log.filterMap blockWrite = [0] :=
    ⟨_, rfl, by decide⟩
  obtain ⟨a, haccounted, hlisted, hcomplete⟩ := block_writes_complete hrun
  exact ⟨s, a, haccounted, hlisted.trans hlog, hcomplete⟩

end Rmw

end Vans
