import Vans.Ait.Engine
import Mathlib.Data.Int.Interval
import Mathlib.Data.Nat.Periodic
/-!
# The AIT controller — wear leveling

A write is counted when it leaves the load/store queue, and its count is
looked at when the local memory is done with it. In between no other
write to its block is counted, since the entry of the block is in use;
so each write is looked at once, with its own number. The controller is
run beside a record of the writes looked at, and of how long each was
put off. The local memory and the media are any components.
-/

namespace Vans

namespace Ait

variable {κ τ μ : Type} {L : Component SubreqCallback τ} {M : Component Callback μ}

/-! ## The controller beside the record of its migrations -/

/-- The part of a tick that is not the controller's own: its local
memory, and the media. -/
def settle (L : Component SubreqCallback τ) (M : Component Callback μ) (visit : Visit)
    (currClk : Clk) (s : Sys κ τ μ) : Result (Sys κ τ μ) := do
  let s ← tickLocalMemory L visit currClk s
  let (next, ran) ← M.tickNext visit currClk s.next
  ran.foldlM (fun s inv => nextLevelReadCallback inv.addr inv.clk s) { s with next := next }

theorem tickComponent_eq {visit : Visit} {clk : Clk} {s : Sys κ τ μ} :
    tickComponent L M visit clk s = tick L M (visit []) clk s >>= fun s => settle L M visit clk s := by
  simp only [tickComponent, settle, tickLocalMemory, bind_assoc, pure_bind]

/-- The controller with all that is below it, as its parent calls it. -/
def calls (L : Component SubreqCallback τ) (M : Component Callback μ) :
    Machine (Sys κ τ μ) (Call κ) String where
  step := fun s call =>
    match call with
    | .issueRequest req => do
        let (_, s) ← issueRequest req s
        return s
    | .tick visit currClk => tickComponent L M visit currClk s
    | .drain => drain M s

/-- A write that was looked at: its 256-byte block, and how long it was
put off. -/
structure Migration where
  rmwBlockAddr : Addr
  delay : Clk
  deriving DecidableEq, Repr

/-- The 4096-byte block. -/
def Migration.block (m : Migration) : Addr := translateToBlockAddr m.rmwBlockAddr

/-- The entry under the key leaves `pending_write_dram`. It goes on at
the next clock, and is put off by what its clock is later than that. -/
def noteMigration (clk : Clk) (key : Addr) (s t : Sys κ τ μ) (W : List Migration) : List Migration :=
  match s.entry key, t.entry key with
  | some e, some e' =>
    if e.state = .pendingWriteDram ∧ e'.state = .pendingMigration then
      W ++ [⟨e'.pendingRequest.rmwBlockAddr, e'.nextActionClk - (clk + 1)⟩]
    else W
  | _, _ => W

/-- The controller beside the record. A tick is recorded entry by
entry. -/
def worn (L : Component SubreqCallback τ) (M : Component Callback μ) :
    Machine (Sys κ τ μ × List Migration) (Call κ) String where
  step := fun (s, W) call =>
    match call with
    | .tick visit currClk => do
        let s ← tickLsq (visit []) currClk s
        let s ← tickLmemq L currClk s
        let (s, W) ← ((visit []).visit s.ctrl.buffer.entryMap.keys).foldlM
          (fun p key => audited (tickEntry M currClk · key) (noteMigration currClk key) p) (s, W)
        let s ← settle L M visit currClk s
        return (s, W)
    | call => audited ((calls L M).step · call) (fun _ _ W => W) (s, W)

/-- **The record changes nothing.** -/
theorem worn_run {s : Sys κ τ μ} {W : List Migration} {cs : List (Call κ)} :
    ((worn L M).run (s, W) cs).map Prod.fst = (calls L M).run s cs := by
  refine Machine.run_map (π := Prod.fst) ?_
  rintro ⟨s, W⟩ call
  cases call with
  | tick visit clk =>
      simp only [worn, calls, tickComponent_eq, tick, tickInternalBuffer, bind_assoc]
      cases tickLsq (visit []) clk s with
      | error e => rfl
      | ok s =>
          simp only [ok_bind]
          cases tickLmemq L clk s with
          | error e => rfl
          | ok s =>
              simp only [ok_bind]
              have hfold : (((visit []).visit s.ctrl.buffer.entryMap.keys).foldlM
                  (fun p key => audited (tickEntry M clk · key) (noteMigration clk key) p)
                  (s, W)).map Prod.fst =
                    ((visit []).visit s.ctrl.buffer.entryMap.keys).foldlM (tickEntry M clk) s :=
                foldlM_map fun _ _ => audited_map
              rw [← hfold]
              generalize ((visit []).visit s.ctrl.buffer.entryMap.keys).foldlM
                (fun p key => audited (tickEntry M clk · key) (noteMigration clk key) p) (s, W) = x
              cases x with
              | error e => rfl
              | ok p =>
                  simp only [Except.map, ok_bind]
                  cases settle L M visit clk p.1 <;> rfl
  | issueRequest | drain =>
      simp only [worn]
      exact audited_map

/-! ## What is left to be looked at -/

/-- The entry holds a write that was not looked at. -/
def BufferEntry.unmigrated (e : BufferEntry κ) : Bool :=
  isWrite e.pendingRequest.type &&
    (e.state = .init || e.state = .pendingReadMedia || e.state = .pendingWriteDram)

/-- The 256-byte block of a write of the block that was not looked at. -/
def Sys.unmigrated (s : Sys κ τ μ) (block : Addr) : List Addr :=
  match s.entry block with
  | none => []
  | some e => if e.unmigrated then [e.pendingRequest.rmwBlockAddr] else []

def Obs.takenReq : Obs κ → Option (BaseRequest κ)
  | .taken req => some req
  | _ => none

/-- The requests that left the load/store queue, in order. -/
def takenReqs (log : List (Obs κ)) : List (BaseRequest κ) := log.filterMap Obs.takenReq

/-- The writes to a 4096-byte block. -/
def writesTo (block : Addr) (reqs : List (BaseRequest κ)) : List (BaseRequest κ) :=
  reqs.filter fun req => req.type = .write ∧ aitBlock req.addr = block

/-- How long the `k`-th write to a block is put off. -/
def IndirectionTable.delayOf (t : IndirectionTable) (k : ℕ) : Clk :=
  if (k + 1) % t.wearLevelingThreshold = 0 then t.migrationBlockEntries * t.migrationLatency else 0

/-- The migrations of a 4096-byte block. -/
def migrationsOf (block : Addr) (W : List Migration) : List Migration := W.filter (·.block = block)

/-- **The record agrees with the controller**: requests are taken in the
order they were accepted; the table counts the writes taken, and those
looked at are all of them but the one the entry of the block still holds;
each was put off according to its number. -/
structure Worn (t : IndirectionTable) (s : Sys κ τ μ) (W : List Migration) : Prop where
  table : s.ctrl.table = { t with writeCnt := s.ctrl.table.writeCnt }
  fifo : accepted s.log = takenReqs s.log ++ s.ctrl.lsq.queue
  counted : ∀ b, s.ctrl.table.writeCnt b = (writesTo b (takenReqs s.log)).length
  noted : ∀ b, (migrationsOf b W).map Migration.rmwBlockAddr ++ s.unmigrated b =
    (writesTo b (takenReqs s.log)).map fun req => Rmw.translateToBlockAddr req.addr
  delayed : ∀ b, (migrationsOf b W).map Migration.delay =
    (List.range (migrationsOf b W).length).map fun i => t.delayOf (i + 1)

section Lists

variable {b : Addr} {reqs reqs' : List (BaseRequest κ)} {log log' : List (Obs κ)}
  {W W' : List Migration}

theorem writesTo_append : writesTo b (reqs ++ reqs') = writesTo b reqs ++ writesTo b reqs' :=
  List.filter_append ..

theorem takenReqs_append : takenReqs (log ++ log') = takenReqs log ++ takenReqs log' :=
  List.filterMap_append

theorem migrationsOf_append :
    migrationsOf b (W ++ W') = migrationsOf b W ++ migrationsOf b W' :=
  List.filter_append ..

@[simp] theorem takenReqs_map_ran {invs : List (Invocation κ)} : takenReqs (invs.map Obs.ran) = [] := by
  simp [takenReqs, List.filterMap_eq_nil_iff, Obs.takenReq]

end Lists

/-! ## Steps that look at no write -/

/-- What a write is waiting for in an entry may change, not the write. -/
structure Quiet (s t : Sys κ τ μ) : Prop where
  table : t.ctrl.table = s.ctrl.table
  lsq : t.ctrl.lsq = s.ctrl.lsq
  accepted : accepted t.log = accepted s.log
  taken : takenReqs t.log = takenReqs s.log
  unmigrated : ∀ b, t.unmigrated b = s.unmigrated b

namespace Quiet

variable {s t u : Sys κ τ μ} {clk : Clk} {key : Addr} {e e' : BufferEntry κ}

theorem refl : Quiet s s := ⟨rfl, rfl, rfl, rfl, fun _ => rfl⟩

theorem trans (h : Quiet s t) (h' : Quiet t u) : Quiet s u where
  table := h'.table.trans h.table
  lsq := h'.lsq.trans h.lsq
  accepted := h'.accepted.trans h.accepted
  taken := h'.taken.trans h.taken
  unmigrated b := (h'.unmigrated b).trans (h.unmigrated b)

/-- An entry is replaced by one that holds the same. -/
theorem setEntry (he : s.entry key = some e) (hreq : e'.pendingRequest = e.pendingRequest)
    (hsame : e'.unmigrated = e.unmigrated) : Quiet s (s.setEntry key e') where
  table := rfl
  lsq := rfl
  accepted := rfl
  taken := rfl
  unmigrated b := by
    simp only [Sys.unmigrated, entry_setEntry]
    split
    · rename_i hb
      split at hb
      · cases hb
      · rw [hb]
    · rename_i e'' hb
      split at hb
      · rename_i hk
        cases hb
        rw [hk, he, hsame, hreq]
      · rw [hb]

theorem wake (he : s.entry key = some e) :
    Quiet s (s.setEntry key { e with waitingActionClkUpdate := false, nextActionClk := clk }) :=
  setEntry he rfl rfl

theorem lmemqSetUp : Quiet s (Ait.lmemqSetUp s) := by
  unfold Ait.lmemqSetUp
  split <;> exact ⟨rfl, rfl, rfl, rfl, fun _ => rfl⟩

theorem tickLmemq (h : Ait.tickLmemq L clk s = .ok t) : Quiet s t := by
  obtain ⟨-, rfl⟩ | ⟨-, hstep⟩ := tickLmemq_cases h
  · exact .refl
  · refine lmemqSetUp.trans ?_
    cases hstep with
    | wait => exact .refl
    | finish hq hindex hserved he =>
        refine .trans ?_ (wake he)
        exact ⟨rfl, rfl, rfl, rfl, fun _ => rfl⟩
    | start => exact ⟨rfl, rfl, rfl, rfl, fun _ => rfl⟩

theorem nextLevelReadCallback {addr : Addr} (h : Ait.nextLevelReadCallback addr clk s = .ok t) :
    Quiet s t := by
  unfold Ait.nextLevelReadCallback at h
  dsimp only at h
  split at h
  · exact absurd h throw_ne_ok
  · rename_i e he
    obtain rfl := pure_eq_ok.mp h
    exact wake he

theorem settle {visit : Visit} (h : Ait.settle L M visit clk s = .ok t) : Quiet s t := by
  simp only [Ait.settle, tickLocalMemory, bind_eq_ok, pure_eq_ok, Prod.exists] at h
  obtain ⟨u, ⟨localMemory, served, -, rfl⟩, next, ran, -, hran⟩ := h
  rw [foldl_served] at hran
  refine foldlM_keeps (P := fun v => Quiet s v)
    (fun _ _ _ hv hw => hv.trans (nextLevelReadCallback hw)) ?_ hran
  exact ⟨rfl, rfl, rfl, rfl, fun _ => rfl⟩

theorem drain (h : Ait.drain M s = .ok t) : Quiet s t := by
  unfold Ait.drain at h
  split at h
  · simp only [bind_eq_ok, throw_ne_ok, false_and, exists_false] at h
  · simp only [bind_eq_ok, pure_eq_ok] at h
    obtain ⟨next, -, rfl⟩ := h
    exact ⟨rfl, rfl, rfl, rfl, fun _ => rfl⟩

end Quiet

theorem Worn.quiet {table : IndirectionTable} {s t : Sys κ τ μ} {W : List Migration}
    (h : Worn table s W) (hq : Quiet s t) : Worn table t W where
  table := hq.table ▸ h.table
  fifo := by rw [hq.accepted, hq.taken, hq.lsq]; exact h.fifo
  counted b := by rw [hq.table, hq.taken]; exact h.counted b
  noted b := by rw [hq.unmigrated, hq.taken]; exact h.noted b
  delayed := h.delayed

/-! ## A request is taken -/

section Serve

variable {table : IndirectionTable} {s t u : Sys κ τ μ} {W : List Migration}

/-- Making room changes nothing the record is about: the entry that goes
holds no write. -/
theorem MakeRoom.quiet (h : MakeRoom s u) (ok : s.Ok) : Quiet s u := by
  cases h with
  | had => exact .refl
  | @evict key e he hend hfull =>
      refine ⟨rfl, rfl, rfl, rfl, fun b => ?_⟩
      simp only [Sys.unmigrated, entry_erase, (ok key e he).aligned]
      by_cases hb : b = key
      · rw [if_pos hb, hb, he]
        simp [BufferEntry.unmigrated, hend]
      · rw [if_neg hb]

/-- The entry a request is taken into holds it, where it is a write. -/
theorem unmigrated_take {front : BaseRequest κ} {rest : List (BaseRequest κ)} {e : BufferEntry κ}
    {event : EventName} {index : ℕ} {b : Addr}
    (hrest : u.unmigrated (aitBlock front.addr) = []) (hst : e.state = .init)
    (haddr : e.pendingRequest.rmwBlockAddr = Rmw.translateToBlockAddr front.addr)
    (htype : isWrite e.pendingRequest.type = decide (front.type = .write)) :
    (u.take (aitBlock front.addr) e front rest event index table).unmigrated b =
      u.unmigrated b ++ (if front.type = .write ∧ aitBlock front.addr = b then [front] else []).map
        fun req => Rmw.translateToBlockAddr req.addr := by
  have hentry := @entry_take _ _ _ u (aitBlock front.addr) b e front rest event index table
  by_cases hb : b = aitBlock front.addr
  · subst hb
    rw [if_pos rfl] at hentry
    rw [hrest, Sys.unmigrated, hentry]
    simp only [BufferEntry.unmigrated, htype, hst, haddr, and_true, decide_true, Bool.true_or,
      Bool.and_true, List.nil_append, decide_eq_true_eq]
    split <;> rfl
  · rw [if_neg hb] at hentry
    rw [Sys.unmigrated, hentry, if_neg fun hb' => hb hb'.2.symm, List.map_nil, List.append_nil]
    rfl

/-- **A write that is taken is counted**, and is held by the entry it is
taken into. -/
theorem Worn.take {front : BaseRequest κ} {rest : List (BaseRequest κ)} {e : BufferEntry κ}
    {event : EventName} {index : ℕ} (h : Worn table u W) (hq : u.ctrl.lsq.queue = front :: rest)
    (hrest : u.unmigrated (aitBlock front.addr) = []) (hst : e.state = .init)
    (haddr : e.pendingRequest.rmwBlockAddr = Rmw.translateToBlockAddr front.addr)
    (htype : isWrite e.pendingRequest.type = decide (front.type = .write)) :
    Worn table (u.take (aitBlock front.addr) e front rest event index (u.ctrl.table.served front))
      W := by
  have htaken : takenReqs (u.log ++ [.taken front]) = takenReqs u.log ++ [front] := by
    rw [takenReqs_append]
    rfl
  -- the write is one more to its block
  have hwrites : ∀ b, writesTo b (takenReqs u.log ++ [front]) = writesTo b (takenReqs u.log) ++
      if front.type = .write ∧ aitBlock front.addr = b then [front] else [] := by
    intro b
    rw [writesTo_append]
    congr 1
    simp only [writesTo, List.filter_cons, List.filter_nil, decide_eq_true_eq]
  refine ⟨?_, ?_, fun b => ?_, fun b => ?_, h.delayed⟩
  · change u.ctrl.table.served front =
      { table with writeCnt := (u.ctrl.table.served front).writeCnt }
    rw [IndirectionTable.served, h.table]
    cases front.type <;> rfl
  · change accepted (u.log ++ [.taken front]) = takenReqs (u.log ++ [.taken front]) ++ rest
    rw [htaken, accepted_append, h.fifo, hq]
    simp [accepted, Obs.acceptedReq]
  · change (u.ctrl.table.served front).writeCnt b =
      (writesTo b (takenReqs (u.log ++ [.taken front]))).length
    rw [htaken, hwrites, List.length_append, ← h.counted]
    cases hf : front.type with
    | read => simp [IndirectionTable.served, hf]
    | write =>
        simp only [IndirectionTable.served, hf, IndirectionTable.recordWrite, true_and,
          Function.update_apply]
        change (if b = aitBlock front.addr then u.ctrl.table.writeCnt (aitBlock front.addr) + 1
          else u.ctrl.table.writeCnt b) = _
        by_cases hb : aitBlock front.addr = b
        · rw [if_pos hb, if_pos hb.symm, hb]
          rfl
        · rw [if_neg hb, if_neg fun hb' => hb hb'.symm]
          rfl
  · have hlog : (u.take (aitBlock front.addr) e front rest event index
        (u.ctrl.table.served front)).log = u.log ++ [.taken front] := rfl
    rw [hlog, htaken, hwrites, List.map_append, ← h.noted, List.append_assoc,
      unmigrated_take hrest hst haddr htype]

theorem Worn.serve (h : Worn table s W) (ok : s.Ok) (hs : Serve s t) : Worn table t W := by
  cases hs with
  | wait => exact h
  | @miss u front rest clk type bits event table' hroom hq ht hnone hlen htable =>
      subst htable
      refine (h.quiet (hroom.quiet ok)).take (by rw [hroom.lsq, hq]) ?_ rfl rfl ?_
      · simp [Sys.unmigrated, hnone]
      · cases hf : front.type <;> simp [BufferEntry.new, BufferEntry.assignCallback, ht, hf, isWrite]
  | @hit front rest e clk type bits event table' hq ht he hpend htable =>
      subst htable
      refine h.take hq ?_ rfl rfl ?_
      · simp [Sys.unmigrated, he, BufferEntry.unmigrated, (ok _ _ he).pending.mp hpend]
      · cases hf : front.type <;> simp [BufferEntry.assigned, ht, hf, isWrite]

end Serve

/-! ## A write is looked at -/

section Transfer

variable {table : IndirectionTable} {s t s' : Sys κ τ μ} {W : List Migration} {clk : Clk}
  {key : Addr} {e e' : BufferEntry κ}

/-- The transfers out of `pending_write_dram` are those of the two
writes. -/
theorem stateTrans_pendingWriteDram {type : RequestType} {func : StateTrans κ τ μ}
    (h : stateTrans M type .pendingWriteDram = some func) :
    isWrite type = true ∧ ∃ duration, func = Trans.migrate duration := by
  cases type with
  | readMiss | readHit => cases h
  | writeMiss | writeHit => exact ⟨rfl, _, (Option.some.inj h).symm⟩

theorem checkWearLeveling_eq_ok {delay : Clk} {addr : Addr}
    (h : table.checkWearLeveling addr = .ok delay) : delay = table.delayOf (table.writeCnt addr) := by
  unfold IndirectionTable.checkWearLeveling at h
  unfold IndirectionTable.delayOf
  split at h
  · exact absurd h throw_ne_ok
  · split at h <;> rename_i hdue <;> obtain rfl := pure_eq_ok.mp h
    · rw [if_pos hdue]
    · rw [if_neg hdue]

/-- **Any other transfer looks at no write.** -/
theorem EntryMove.quiet (hm : EntryMove s e e' s') (he : s.entry key = some e)
    (hst : e.state ≠ .pendingWriteDram) : Quiet s (s'.setEntry key e') := by
  have hsame : e'.unmigrated = e.unmigrated := by
    cases hm with
    | lmemqFull => rfl
    | readMedia hinit ht => simp [BufferEntry.unmigrated, hinit]
    | queueMiss hread ht | queueHit hread ht =>
        rcases ht with ht | ht <;> simp [BufferEntry.unmigrated, hread, ht, isWrite]
    | migrate hdram ht => exact absurd hdram hst
    | writeMedia hmig ht => simp [BufferEntry.unmigrated, hmig]
    | finish hlast =>
        simp only [BufferEntry.unmigrated, hlast]
        cases isWrite e.pendingRequest.type <;> simp
  obtain ⟨hbuf, hlsq, invs, hlog⟩ := hm.frame
  have htable : s'.ctrl.table = s.ctrl.table := by cases hm <;> rfl
  have hframe : Quiet s s' := by
    refine ⟨htable, hlsq, ?_, ?_, fun b => ?_⟩
    · rw [hlog, accepted_append, accepted_map_ran, List.append_nil]
    · rw [hlog, takenReqs_append, takenReqs_map_ran, List.append_nil]
    · simp only [Sys.unmigrated, Sys.entry, hbuf]
  exact hframe.trans (.setEntry (by rw [Sys.entry, hbuf]; exact he) hm.request.2 hsame)

/-- **A write is looked at with its own number.** -/
theorem Worn.migrate {duration : DurationName} (h : Worn table s W) (ok : s.Ok)
    (he : s.entry key = some e) (hst : e.state = .pendingWriteDram)
    (ht : isWrite e.pendingRequest.type = true)
    (hrun : Trans.migrate duration key e clk s = .ok (e', s')) :
    e'.state = .pendingMigration ∧
      Worn table (s'.setEntry key e')
        (W ++ [⟨e'.pendingRequest.rmwBlockAddr, e'.nextActionClk - (clk + 1)⟩]) := by
  simp only [Trans.migrate, bind_eq_ok] at hrun
  obtain ⟨delay, hcheck, hrun⟩ := hrun
  obtain ⟨rfl, hs'⟩ := Prod.mk.inj (pure_eq_ok.mp hrun)
  obtain ⟨dur, cnt, rfl⟩ : ∃ dur cnt,
      s' = { s with ctrl.cntDuration := dur, ctrl.cntEvents := cnt } := by
    rw [← hs']
    split <;> exact ⟨_, _, rfl⟩
  have hkey : translateToBlockAddr e.pendingRequest.rmwBlockAddr = key := (ok key e he).block
  -- the write in the entry is the one taken last and not looked at yet
  have hheld : s.unmigrated key = [e.pendingRequest.rmwBlockAddr] := by
    simp [Sys.unmigrated, he, BufferEntry.unmigrated, ht, hst]
  have hnumber : s.ctrl.table.writeCnt key = (migrationsOf key W).length + 1 := by
    have hnoted := congrArg List.length (h.noted key)
    rw [hheld, List.length_append, List.length_map, List.length_map] at hnoted
    exact (h.counted key).trans hnoted.symm
  -- so the count the delay is read off is its own number
  have hdelay : delay = table.delayOf ((migrationsOf key W).length + 1) := by
    rw [checkWearLeveling_eq_ok hcheck, hnumber, h.table]
    rfl
  have hput : clk + 1 + delay - (clk + 1) = delay := by
    rw [UInt64.add_comm (clk + 1) delay, UInt64.add_sub_cancel]
  have hnew : ∀ b, migrationsOf b [(⟨e.pendingRequest.rmwBlockAddr, delay⟩ : Migration)] =
      if b = key then [⟨e.pendingRequest.rmwBlockAddr, delay⟩] else [] := by
    intro b
    simp only [migrationsOf, List.filter_cons, List.filter_nil, Migration.block, hkey,
      decide_eq_true_eq, eq_comm (a := key)]
  refine ⟨rfl, ?_⟩
  simp only [hput]
  refine ⟨h.table, h.fifo, h.counted, fun b => ?_, fun b => ?_⟩
  · rw [migrationsOf_append, hnew, Sys.unmigrated, entry_setEntry]
    by_cases hb : b = key
    · subst hb
      rw [if_pos rfl, if_pos rfl]
      have hnoted := h.noted b
      rw [hheld] at hnoted
      refine Eq.trans ?_ hnoted
      simp [BufferEntry.unmigrated]
    · rw [if_neg hb, if_neg hb, List.append_nil]
      exact h.noted b
  · rw [migrationsOf_append, hnew]
    by_cases hb : b = key
    · subst hb
      rw [if_pos rfl, List.map_append, h.delayed, List.length_append, List.length_singleton,
        List.range_succ, List.map_append, hdelay]
      rfl
    · rw [if_neg hb, List.append_nil]
      exact h.delayed b

/-- The record grows by the write that was looked at, if one was. -/
theorem Worn.tickEntry (h : Worn table s W) (ok : s.Ok) (hs : Ait.tickEntry M clk s key = .ok t) :
    Worn table t (noteMigration clk key s t W) := by
  obtain rfl | ⟨e, e', s', func, he, hact, hfunc, hrun, rfl⟩ := tickEntry_cases hs
  · have hno : noteMigration clk key t t W = W := by
      unfold noteMigration
      split
      · rename_i e e' he he'
        obtain rfl := Option.some.inj (he.symm.trans he')
        exact if_neg fun hst => by simp [hst.1] at hst
      · rfl
    rw [hno]
    exact h
  · have hentry : (s'.setEntry key e').entry key = some e' := by rw [entry_setEntry, if_pos rfl]
    by_cases hst : e.state = .pendingWriteDram
    · rw [hst] at hfunc
      obtain ⟨ht, duration, rfl⟩ := stateTrans_pendingWriteDram hfunc
      obtain ⟨hst', hworn⟩ := h.migrate ok he hst ht hrun
      simp only [noteMigration, he, hentry, hst, hst', and_self, if_true]
      exact hworn
    · simp only [noteMigration, he, hentry, hst, false_and, if_false]
      exact h.quiet ((stateTrans_move hfunc hrun).quiet he hst)

end Transfer

/-! ## Runs -/

section Runs

variable {table : IndirectionTable} {s t : Sys κ τ μ} {W W' : List Migration}

theorem Worn.init {cfg : Config} {mem : τ} {next : List μ} :
    Worn (Sys.init cfg mem next : Sys κ τ μ).ctrl.table (Sys.init cfg mem next : Sys κ τ μ) [] where
  table := rfl
  fifo := rfl
  counted _ := rfl
  noted _ := rfl
  delayed _ := rfl

theorem Worn.issueRequest {req : BaseRequest κ} {resp : BaseResponse} (h : Worn table s W)
    (hs : Ait.issueRequest req s = .ok (resp, t)) : Worn table t W := by
  obtain ⟨-, ⟨-, rfl⟩ | ⟨-, -, rfl⟩⟩ := issueRequest_cases hs
  · exact h
  · have htaken : takenReqs (s.log ++ [.accepted req]) = takenReqs s.log := by
      rw [takenReqs_append]
      exact List.append_nil _
    refine ⟨h.table, ?_, fun b => ?_, fun b => ?_, h.delayed⟩
    · change Ait.accepted (s.log ++ [.accepted req]) = takenReqs (s.log ++ [.accepted req]) ++ _
      rw [htaken, accepted_append, h.fifo, List.append_assoc]
      rfl
    · change _ = (writesTo b (takenReqs (s.log ++ [.accepted req]))).length
      rw [htaken]
      exact h.counted b
    · have hlog : ({ s with
          ctrl.lsq.queue := s.ctrl.lsq.queue ++ [req]
          log := s.log ++ [.accepted req] } : Sys κ τ μ).log = s.log ++ [.accepted req] := rfl
      rw [hlog, htaken]
      exact h.noted b

theorem settle_moves {Q : BaseRequest κ → Prop} {visit : Visit} {clk : Clk}
    (h : settle L M visit clk s = .ok t) : Moves Q s t := by
  simp only [settle, tickLocalMemory, bind_eq_ok, pure_eq_ok, Prod.exists] at h
  obtain ⟨u, ⟨localMemory, served, -, rfl⟩, next, ran, -, hran⟩ := h
  rw [foldl_served] at hran
  exact foldlM_keeps (P := fun v => Moves Q s v)
    (fun _ _ _ hv hw => hv.trans (nextLevelReadCallback_moves hw))
    ((Relation.ReflTransGen.single .lmem).tail .below) hran

/-- **Every call keeps the record in agreement.** -/
theorem Worn.step {call : Call κ} (h : Worn table s W) (ok : s.Ok)
    (hs : (worn L M).step (s, W) call = .ok (t, W')) : Worn table t W' ∧ t.Ok := by
  cases call with
  | issueRequest req =>
      simp only [worn, calls, audited_eq_ok, bind_eq_ok, Prod.exists, pure_eq_ok] at hs
      obtain ⟨⟨resp, t, hissue, rfl⟩, rfl⟩ := hs
      refine ⟨h.issueRequest hissue, ?_⟩
      obtain ⟨-, ⟨-, rfl⟩ | ⟨-, -, rfl⟩⟩ := issueRequest_cases hissue
      · exact ok
      · exact ok.of_entry_eq fun _ => rfl
  | drain =>
      simp only [worn, calls, audited_eq_ok] at hs
      obtain ⟨hdrain, rfl⟩ := hs
      exact ⟨h.quiet (.drain hdrain), ok.moves (Q := fun _ => True) (drain_moves hdrain)⟩
  | tick visit clk =>
      simp only [worn, bind_eq_ok, pure_eq_ok, Prod.exists, Prod.mk.injEq] at hs
      obtain ⟨u, hlsq, v, hlmemq, w, W', hbuf, t, hsettle, rfl, rfl⟩ := hs
      have hu : Worn table u W ∧ u.Ok :=
        ⟨h.serve ok (tickLsq_serve hlsq), ok.moves (Q := fun _ => True) (tickLsq_moves hlsq)⟩
      have hv : Worn table v W ∧ v.Ok :=
        ⟨hu.1.quiet (.tickLmemq hlmemq), hu.2.moves (Q := fun _ => True) (tickLmemq_moves hlmemq)⟩
      have hw : Worn table w W' ∧ w.Ok := by
        refine foldlM_keeps (P := fun p : Sys κ τ μ × List Migration => Worn table p.1 p.2 ∧ p.1.Ok)
          ?_ hv hbuf
        rintro ⟨a, A⟩ key ⟨b, B⟩ ⟨ha, oka⟩ hab
        obtain ⟨hentry, rfl⟩ := audited_eq_ok.mp hab
        exact ⟨ha.tickEntry oka hentry, oka.moves (Q := fun _ => True) (tickEntry_moves hentry)⟩
      exact ⟨hw.1.quiet (.settle hsettle), hw.2.moves (Q := fun _ => True) (settle_moves hsettle)⟩

/-- One of as many consecutive numbers is the one before a multiple. -/
theorem card_due {T : ℕ} (hT : 1 ≤ T) (k : ℕ) :
    ((Finset.Ico k (k + T)).filter fun j => (j + 1) % T = 0).card = 1 := by
  have hperiodic : Function.Periodic (fun j => (j + 1) % T = 0) T := fun j => by
    simp only [show j + T + 1 = j + 1 + T by omega, Nat.add_mod_right]
  rw [Nat.filter_Ico_card_eq_of_periodic k T _ hperiodic, Nat.count_eq_card_filter_range,
    Finset.card_eq_one]
  refine ⟨T - 1, Finset.ext fun j => ?_⟩
  simp only [Finset.mem_filter, Finset.mem_range, Finset.mem_singleton]
  constructor
  · rintro ⟨hlt, hdue⟩
    rcases Nat.eq_or_lt_of_le (show j + 1 ≤ T from hlt) with heq | hlt
    · omega
    · rw [Nat.mod_eq_of_lt hlt] at hdue
      omega
  · rintro rfl
    rw [Nat.sub_add_cancel hT, Nat.mod_self]
    exact ⟨by omega, rfl⟩

/-- **Wear leveling fires exactly once a threshold.** In every run the
`k`-th write accepted to a 4096-byte block is put off by the migration
exactly where `k + 1` is a multiple of the threshold, and by nothing
otherwise; the writes not yet looked at are in the load/store queue, or
one of them in the entry of the block. Of as many consecutive writes as
the threshold exactly one migrates. -/
theorem wear_leveling {cfg : Config} {mem : τ} {next : List μ} {cs : List (Call κ)}
    (hT : 1 ≤ cfg.wearLevelingThreshold)
    (h : (calls L M).run (Sys.init cfg mem next) cs = .ok s) :
    ∃ W, (worn L M).run (Sys.init cfg mem next, []) cs = .ok (s, W) ∧
      (∀ block,
        (∀ i m, (migrationsOf block W)[i]? = some m →
          ∃ w, (writesTo block (accepted s.log))[i]? = some w ∧
            m.rmwBlockAddr = Rmw.translateToBlockAddr w.addr ∧
            m.delay = if (i + 1 + 1) % cfg.wearLevelingThreshold = 0 then
              cfg.migrationBlockEntries * cfg.migrationLatency else 0) ∧
        (writesTo block (accepted s.log)).length = (migrationsOf block W).length +
          (s.unmigrated block).length + (writesTo block s.ctrl.lsq.queue).length) ∧
      ∀ k, ((Finset.Ico k (k + cfg.wearLevelingThreshold)).filter
        fun j => (j + 1) % cfg.wearLevelingThreshold = 0).card = 1 := by
  obtain ⟨⟨s', W⟩, hrun, hs⟩ := map_eq_ok.mp ((worn_run (W := [])).trans h)
  obtain rfl : s = s' := hs.symm
  obtain ⟨worn, -⟩ : Worn (Sys.init cfg mem next : Sys κ τ μ).ctrl.table s W ∧ s.Ok :=
    (Ait.worn L M).invariant (P := fun p => Worn _ p.1 p.2 ∧ p.1.Ok)
      (fun _ _ _ hp hstep => hp.1.step hp.2 hstep) ⟨.init, .init⟩ hrun
  refine ⟨W, hrun, fun block => ?_, fun k => card_due hT k⟩
  have hwrites : writesTo block (accepted s.log) =
      writesTo block (takenReqs s.log) ++ writesTo block s.ctrl.lsq.queue := by
    rw [worn.fifo, writesTo_append]
  refine ⟨fun i m hm => ?_, ?_⟩
  · obtain ⟨hi, -⟩ := List.getElem?_eq_some_iff.mp hm
    have hnoted := congrArg (·[i]?) (worn.noted block)
    simp only [List.getElem?_append_left (show i < ((migrationsOf block W).map
      Migration.rmwBlockAddr).length by simpa using hi), List.getElem?_map, hm, Option.map_some] at hnoted
    obtain ⟨w, hw, hblock⟩ := Option.map_eq_some_iff.mp hnoted.symm
    have hdelayed := congrArg (·[i]?) (worn.delayed block)
    simp only [List.getElem?_map, hm, Option.map_some, List.getElem?_range hi,
      Option.some.injEq] at hdelayed
    refine ⟨w, ?_, hblock.symm, hdelayed⟩
    rw [hwrites, List.getElem?_append_left (List.getElem?_eq_some_iff.mp hw).1]
    exact hw
  · have hnoted := congrArg List.length (worn.noted block)
    rw [List.length_append, List.length_map, List.length_map] at hnoted
    rw [hwrites, List.length_append]
    omega

/-- Every other write migrates, three entries of five clocks each. -/
def wearConfig : Config where
  mappingFunc := noneMapping
  bufferEntries := 1
  lsqEntries := 2
  lmemqEntries := 1
  wearLevelingThreshold := 2
  migrationBlockEntries := 3
  migrationLatency := 5

/-- Two writes to one 4096-byte block, and the ticks that see them
through. -/
def twoWrites : List (Call ℕ) :=
  [.issueRequest { addr := 0, arrive := 0, type := .write },
    .issueRequest { addr := 256, arrive := 0, type := .write }] ++
  (List.range 40).map fun i => .tick (fun _ => .asHeld) (UInt64.ofNat i)

/-- The first of them migrates. -/
theorem wear_leveling_twoWrites :
    ∃ s W, (worn StaticMemory.component StaticMemory.component).run
        (Sys.init wearConfig ⟨1, 1⟩ [⟨1, 1⟩], []) twoWrites = .ok (s, W) ∧
      W = [⟨0, 15⟩, ⟨256, 0⟩] ∧
      (writesTo 0 (accepted s.log)).length = (migrationsOf 0 W).length +
        (s.unmigrated 0).length + (writesTo 0 s.ctrl.lsq.queue).length := by
  have hfacts : ((worn StaticMemory.component StaticMemory.component).run
      (Sys.init wearConfig ⟨1, 1⟩ [⟨1, 1⟩], []) twoWrites).map Prod.snd = .ok [⟨0, 15⟩, ⟨256, 0⟩] := by
    decide +kernel
  obtain ⟨⟨s, W⟩, hrun, rfl⟩ := map_eq_ok.mp hfacts
  have hcalls : (calls StaticMemory.component StaticMemory.component).run
      (Sys.init wearConfig ⟨1, 1⟩ [⟨1, 1⟩]) twoWrites = .ok s := by
    rw [← worn_run, hrun]
    rfl
  obtain ⟨W', hrun', hall, -⟩ := wear_leveling (by decide) hcalls
  obtain rfl := (Prod.mk.inj (Except.ok.inj (hrun.symm.trans hrun'))).2
  exact ⟨s, _, hrun, rfl, (hall 0).2⟩

end Runs

end Ait

end Vans
