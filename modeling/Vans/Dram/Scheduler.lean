import Vans.Dram.Ledger
import Vans.Dram.Rows
import Vans.Dram.Ddr4
/-!
# DDR4 — the scheduler and its banks

The record of commands says which row of a bank is open: the one last
activated, unless the bank was closed since. The tree agrees with the
record, and the commands of the record are those a device takes: a bank
is activated when it is closed, and a column is reached in the open row;
a rank is refreshed when its banks are closed; and what is activated is
read or written next, by the request that waits alone in the activation
queue.
-/

namespace Vans

namespace Dram

namespace Ddr4

/-! ## The open rows of a record -/

/-- What a command leaves of a bank's open row. -/
def rowAfter (p : Path) (row : Option UInt64) (i : Issued Command) : Option UInt64 :=
  match i.cmd with
  | .ACT => if OnPath 0 3 p i.addr then some (coord i.addr 4) else row
  | .PRE | .RDA | .WRA => if OnPath 0 3 p i.addr then none else row
  | .PREA => if p 1 = path i.addr 1 then none else row
  | _ => row

/-- The open row of the bank, as the record has it. -/
def openRow (p : Path) (issued : List (Issued Command)) : Option UInt64 :=
  issued.foldl (rowAfter p) none

/-- The state of a bank with this row open. -/
def stateOf : Option UInt64 → State × List UInt64
  | none => (.closed, [])
  | some row => (.opened, [row])

/-- The command reads or writes a column. -/
def isColumn (cmd : Command) : Prop := cmd = .RD ∨ cmd = .WR

/-- **A device takes the command**, after those issued before: a closed
bank is activated; a column is reached in the open row, where there are
banks; a rank is refreshed when all its banks are closed; and after an
activation comes the column command to the row activated. -/
structure Legal (d : Dram Command State 3) (before : List (Issued Command)) (i : Issued Command) :
    Prop where
  activate : i.cmd = .ACT →
    (bankState (path i.addr) 3 0 d).isSome ∧ openRow (path i.addr) before = none
  column : isColumn i.cmd → (bankState (path i.addr) 3 0 d).isSome →
    openRow (path i.addr) before = some (coord i.addr 4)
  refresh : i.cmd = .REF → ∀ p, p 1 = path i.addr 1 → openRow p before = none
  next : ∀ j ∈ before.getLast?, j.cmd = .ACT → isColumn i.cmd ∧ i.addr = j.addr

variable {o : Organization} {t : Timing} {addr : MappedAddr} {cmd cmd' : Command}
  {d d' : Dram Command State 3} {p : Path}

theorem openRow_concat {before : List (Issued Command)} {i : Issued Command} :
    openRow p (before ++ [i]) = rowAfter p (openRow p before) i := by
  rw [openRow, List.foldl_append]
  rfl

/-! ## What the prerequisite table asks for -/

/-- The states of the ranks. -/
def rankStates (d : Dram Command State 3) : List State := d.2.map (·.1.currState)

/-- What reading or writing a column needs: a rank that is up passes the
command on, and the bank decides. -/
theorem decode_column {b : Node Command State} (hcmd : isColumn cmd)
    (hup : ∀ st ∈ rankStates d, st = .pwrUp) (hbank : bankAt (path addr) 3 0 d = some b) :
    decode (spec o t) cmd addr 3 0 d =
      accessBank b cmd (coord addr 4) >>= fun pcmd => pure (pcmd.getD cmd) := by
  simp only [bankAt, Option.bind_eq_bind, Option.bind_eq_some_iff] at hbank
  obtain ⟨rank, hrank, group, hgroup, bank, hbank, hb⟩ := hbank
  obtain rfl : bank = b := Option.some.inj hb
  have hstate := hup _ (List.mem_map_of_mem (List.mem_of_getElem? hrank))
  have hrankAsk : askPrereq (spec o t) 2 cmd rank (coord addr 2) = .ok none := by
    rcases hcmd with rfl | rfl <;> simp [askPrereq, spec, prereq, accessRank, hstate]
  have hchannelAsk : askPrereq (spec o t) 3 cmd d (coord addr 1) = .ok none := by
    rcases hcmd with rfl | rfl <;> rfl
  have hgroupAsk : askPrereq (spec o t) 1 cmd group (coord addr 3) = .ok none := by
    rcases hcmd with rfl | rfl <;> rfl
  rw [decode_child hchannelAsk hrank, decode_child hrankAsk hgroup, decode_child hgroupAsk hbank]
  rcases hcmd with rfl | rfl <;>
    · simp only [decode, askPrereq, spec, prereq]
      refine congrArg _ (funext fun pcmd => ?_)
      cases pcmd <;> rfl

/-- Without a bank on the way the command is passed on as it is. -/
theorem decode_column_none (hcmd : isColumn cmd) (hup : ∀ st ∈ rankStates d, st = .pwrUp)
    (hbank : bankAt (path addr) 3 0 d = none) :
    decode (spec o t) cmd addr 3 0 d = .ok cmd ∨
      decode (spec o t) cmd addr 3 0 d =
        .error "undefined behaviour: children index out of range" := by
  have hchannelAsk : askPrereq (spec o t) 3 cmd d (coord addr 1) = .ok none := by
    rcases hcmd with rfl | rfl <;> rfl
  cases hrank : d.2[path addr 1]? with
  | none => exact decode_none hchannelAsk hrank
  | some rank =>
      have hstate := hup _ (List.mem_map_of_mem (List.mem_of_getElem? hrank))
      have hrankAsk : askPrereq (spec o t) 2 cmd rank (coord addr 2) = .ok none := by
        rcases hcmd with rfl | rfl <;> simp [askPrereq, spec, prereq, accessRank, hstate]
      rw [decode_child hchannelAsk hrank]
      cases hgroup : rank.2[path addr 2]? with
      | none => exact decode_none hrankAsk hgroup
      | some group =>
          have hgroupAsk : askPrereq (spec o t) 1 cmd group (coord addr 3) = .ok none := by
            rcases hcmd with rfl | rfl <;> rfl
          rw [decode_child hrankAsk hgroup]
          refine decode_none hgroupAsk ?_
          simpa [bankAt, hrank, hgroup] using hbank

/-- A refresh closes the banks of its rank first. -/
theorem decode_refresh :
    (∃ rank, d.2[path addr 1]? = some rank ∧
      decode (spec o t) .REF addr 3 0 d = .ok (if someOpen rank then .PREA else .REF)) ∨
    (d.2[path addr 1]? = none ∧ (decode (spec o t) .REF addr 3 0 d = .ok .REF ∨
      decode (spec o t) .REF addr 3 0 d =
        .error "undefined behaviour: children index out of range")) := by
  have hchannelAsk : askPrereq (spec o t) 3 .REF d (coord addr 1) = .ok none := rfl
  cases hrank : d.2[path addr 1]? with
  | none => exact .inr ⟨rfl, decode_none hchannelAsk hrank⟩
  | some rank =>
      refine .inl ⟨rank, rfl, ?_⟩
      rw [decode_child hchannelAsk hrank]
      exact decode_prereq rfl

/-! ## What a command changes -/

/-- The commands the scheduler issues. -/
def isScheduled : Command → Prop
  | .ACT | .PRE | .PREA | .RD | .WR | .REF => True
  | _ => False

theorem onBanks (h : cmd = .ACT ∨ cmd = .PRE ∨ isColumn cmd) : (spec o t).OnBanks cmd := by
  rintro (_ | _ | k) <;> rcases h with rfl | rfl | rfl | rfl <;> rfl

/-- What a command on the rank leaves. -/
theorem update_onRank {clk : Clk} (hcmd : cmd = .PREA ∨ cmd = .REF)
    (h : update (spec o t) cmd addr clk 3 d = .ok d') :
    (d.2 = [] ∧ SameState d' d) ∨ ∃ rank, d.2[path addr 1]? = some rank ∧
      SameState d' (d.1, d.2.set (path addr 1)
        (runStateTrans (spec o t) 2 cmd rank (coord addr 2))) := by
  simp only [update, bind_eq_ok, pure_eq_ok] at h
  obtain ⟨u, hu, rfl⟩ := h
  have hchannel : runStateTrans (spec o t) 3 cmd d (coord addr (0 + 1)) = d := by
    rcases hcmd with rfl | rfl <;> rfl
  have hscope : (spec o t).scope cmd = 1 := by rcases hcmd with rfl | rfl <;> rfl
  unfold updateState at hu
  simp only [hchannel, hscope, Nat.zero_ne_one, false_or, List.isEmpty_iff] at hu
  split at hu
  · rename_i hnil
    obtain rfl := pure_eq_ok.mp hu
    exact .inl ⟨hnil, updateTiming_sameState _⟩
  · simp only [bind_eq_ok, pure_eq_ok] at hu
    obtain ⟨rank, hrank, rank', hrank', rfl⟩ := hu
    refine .inr ⟨rank, child_eq_ok.mp hrank, ?_⟩
    unfold updateState at hrank'
    simp only [hscope, Nat.zero_add, true_or, if_true, pure_eq_ok] at hrank'
    rw [hrank']
    exact updateTiming_sameState _

/-- **The banks are as the rows say.** -/
def Rows (d : Dram Command State 3) (rows : Path → Option UInt64) : Prop :=
  ∀ p, bankState p 3 0 d = none ∧ rows p = none ∨ bankState p 3 0 d = some (stateOf (rows p))

/-- Where there is a bank, its state is that of its row. -/
theorem Rows.state_eq {rows : Path → Option UInt64} {p : Path}
    {st : State × List UInt64} (hrows : Rows d rows) (h : bankState p 3 0 d = some st) :
    st = stateOf (rows p) := by
  rcases hrows p with ⟨hnone, -⟩ | hsome
  · rw [h] at hnone
    cases hnone
  · exact Option.some.inj (h.symm.trans hsome)

theorem rankStates_eq (h : SameState d' d) : rankStates d' = rankStates d := by
  have hmap : ∀ {rs' rs : List (Dram Command State 2)}, List.Forall₂ SameState rs' rs →
      rs'.map (·.1.currState) = rs.map (·.1.currState) := by
    intro rs' rs hrs
    induction hrs with
    | nil => rfl
    | cons hhead _ ih => rw [List.map_cons, List.map_cons, ih, hhead.1.2.1]
  exact hmap h.2

theorem rankStates_set {rank rank' : Dram Command State 2} {i : ℕ} {node : Node Command State}
    (hrank : d.2[i]? = some rank) (hstate : rank'.1.currState = rank.1.currState) :
    rankStates (node, d.2.set i rank') = rankStates d := by
  unfold rankStates
  obtain ⟨hi, rfl⟩ := List.getElem?_eq_some_iff.mp hrank
  refine List.ext_getElem (by simp) fun j h₁ h₂ => ?_
  simp only [List.getElem_map, List.getElem_set]
  split
  · rename_i hij
    subst hij
    exact hstate
  · rfl

/-- **The ranks stay powered up.** -/
theorem rankStates_update {clk : Clk} (hcmd : isScheduled cmd)
    (h : update (spec o t) cmd addr clk 3 d = .ok d') : rankStates d' = rankStates d := by
  have honBanks : cmd = .ACT ∨ cmd = .PRE ∨ isColumn cmd → rankStates d' = rankStates d := by
    intro hbanks
    simp only [update, bind_eq_ok, pure_eq_ok] at h
    obtain ⟨u, hu, rfl⟩ := h
    rw [rankStates_eq (updateTiming_sameState u)]
    obtain rfl | ⟨rank, rank', hrank, hrank', rfl⟩ := updateState_node (onBanks hbanks) hu
    · rfl
    · refine rankStates_set hrank ?_
      obtain rfl | ⟨group, group', -, -, rfl⟩ := updateState_node (onBanks hbanks) hrank' <;> rfl
  have honRank : cmd = .PREA ∨ cmd = .REF → rankStates d' = rankStates d := by
    intro hrank
    obtain ⟨-, hsame⟩ | ⟨rank, hrank', hsame⟩ := update_onRank hrank h
    · exact rankStates_eq hsame
    · rw [rankStates_eq hsame]
      refine rankStates_set hrank' ?_
      rcases hrank with rfl | rfl <;> rfl
  cases cmd with
  | ACT => exact honBanks (.inl rfl)
  | PRE => exact honBanks (.inr (.inl rfl))
  | RD => exact honBanks (.inr (.inr (.inl rfl)))
  | WR => exact honBanks (.inr (.inr (.inr rfl)))
  | PREA => exact honRank (.inl rfl)
  | REF => exact honRank (.inr rfl)
  | RDA | WRA | PDE | PDX | SRE | SRX => exact hcmd.elim

theorem bankState_closeAll {rank : Dram Command State 2} {id : UInt64} :
    bankState p 2 1 (closeAll.run rank id) = (bankState p 2 1 rank).map fun _ => stateOf none := by
  rw [bankState_succ, bankState_succ]
  change (rank.2.map _)[p 2]? >>= _ = _
  rw [List.getElem?_map]
  cases hgroup : rank.2[p 2]? with
  | none => rfl
  | some group =>
      change bankState p 1 2 (group.1, group.2.map closeBank) = (bankState p 1 2 group).map _
      rw [bankState_succ, bankState_succ]
      change (group.2.map closeBank)[p 3]? >>= _ = _
      rw [List.getElem?_map]
      cases group.2[p 3]? <;> rfl

/-- What a command leaves of a bank's state. -/
def stateAfter (p : Path) (cmd : Command) (addr : MappedAddr) (st : State × List UInt64) :
    State × List UInt64 :=
  match cmd with
  | .ACT => if OnPath 0 3 p addr then (.opened, st.2.insert (coord addr 4)) else st
  | .PRE => if OnPath 0 3 p addr then (.closed, []) else st
  | .PREA => if p 1 = path addr 1 then (.closed, []) else st
  | _ => st

/-- **What a command changes**, bank by bank. -/
theorem bankState_update {clk : Clk} (hcmd : isScheduled cmd)
    (h : Dram.update (spec o t) cmd addr clk 3 d = .ok d') :
    bankState p 3 0 d' = (bankState p 3 0 d).map (stateAfter p cmd addr) := by
  -- a command on a bank changes the one of its address
  have honBanks : ∀ hbanks : cmd = .ACT ∨ cmd = .PRE ∨ isColumn cmd,
      bankState p 3 0 d' = (bankState p 3 0 d).map (stateAfter p cmd addr) := by
    intro hbanks
    have hscope : 3 ≤ (spec o t).scope cmd := by
      rcases hbanks with rfl | rfl | rfl | rfl <;> simp [spec, scope]
    rw [update_onBanks (onBanks hbanks) hscope h, bankState]
    cases bankAt p 3 0 d with
    | none => simp
    | some b =>
        rcases hbanks with rfl | rfl | rfl | rfl <;> simp only [Option.map_some, stateAfter] <;>
          split <;> rfl
  -- a command on a rank changes every bank of it
  have honRank : ∀ hrank : cmd = .PREA ∨ cmd = .REF,
      bankState p 3 0 d' = (bankState p 3 0 d).map (stateAfter p cmd addr) := by
    intro hrank
    obtain ⟨hnil, hsame⟩ | ⟨rank, hget, hsame⟩ := update_onRank hrank h
    · rw [hsame.bankState_eq, bankState_succ, hnil]
      rfl
    · rw [hsame.bankState_eq, bankState_succ, bankState_succ]
      simp only [List.getElem?_set, (List.getElem?_eq_some_iff.mp hget).1, if_true]
      by_cases hp : p 1 = path addr 1
      · have hp' : path addr 1 = p (0 + 1) := hp.symm
        rw [if_pos hp', ← hp', hget]
        rcases hrank with rfl | rfl
        · have hafter : stateAfter p .PREA addr = fun _ => stateOf none := by
            funext st
            exact if_pos hp
          rw [hafter]
          exact bankState_closeAll
        · have hafter : stateAfter p .REF addr = id := rfl
          rw [hafter, Option.map_id]
          rfl
      · have hp' : path addr 1 ≠ p (0 + 1) := fun h => hp h.symm
        have hafter : stateAfter p cmd addr = id := by
          funext st
          rcases hrank with rfl | rfl
          · exact if_neg hp
          · rfl
        rw [if_neg hp', hafter, Option.map_id]
        rfl
  cases cmd with
  | ACT => exact honBanks (.inl rfl)
  | PRE => exact honBanks (.inr (.inl rfl))
  | RD => exact honBanks (.inr (.inr (.inl rfl)))
  | WR => exact honBanks (.inr (.inr (.inr rfl)))
  | PREA => exact honRank (.inl rfl)
  | REF => exact honRank (.inr rfl)
  | RDA | WRA | PDE | PDX | SRE | SRX => exact hcmd.elim

/-- **The banks stay as the rows say**, where an activation finds its
bank closed. -/
theorem Rows.update {rows : Path → Option UInt64} {clk : Clk} (hcmd : isScheduled cmd)
    (hrows : Rows d rows)
    (hactivate : cmd = .ACT →
      (bankState (path addr) 3 0 d).isSome ∧ rows (path addr) = none)
    (h : Dram.update (spec o t) cmd addr clk 3 d = .ok d') :
    Rows d' fun p => rowAfter p (rows p) ⟨cmd, addr, clk⟩ := by
  intro p
  rw [bankState_update hcmd h]
  have hon : OnPath 0 3 p addr → bankState p 3 0 d = bankState (path addr) 3 0 d := by
    intro hon
    rw [bankState, bankState, bankAt_congr hon]
  rcases hrows p with ⟨hnone, hrow⟩ | hsome
  · -- there is no bank
    refine .inl ⟨by rw [hnone]; rfl, ?_⟩
    change rowAfter p (rows p) _ = none
    rw [hrow]
    cases cmd with
    | ACT =>
        refine if_neg fun h => ?_
        have hbank := (hactivate rfl).1
        rw [← hon h, hnone] at hbank
        cases hbank
    | PRE | PREA | RDA | WRA => exact ite_self _
    | RD | WR | REF | PDE | PDX | SRE | SRX => rfl
  · -- there is one, and only an activation asks in what state it was
    refine .inr ?_
    rw [hsome]
    change some _ = some (stateOf (rowAfter p (rows p) _))
    refine congrArg some ?_
    cases cmd with
    | ACT =>
        simp only [stateAfter, rowAfter]
        by_cases h : OnPath 0 3 p addr
        · rw [if_pos h, if_pos h]
          have hclosed : stateOf (rows p) = stateOf none := by
            rw [hrows.state_eq ((hon h).symm.trans hsome), (hactivate rfl).2]
          rw [hclosed]
          rfl
        · rw [if_neg h, if_neg h]
    | PRE => simp only [stateAfter, rowAfter]; split <;> rfl
    | PREA => simp only [stateAfter, rowAfter]; split <;> rfl
    | RD | WR | REF => rfl
    | RDA | WRA | PDE | PDX | SRE | SRX => exact hcmd.elim

/-! ## The command that comes first -/

/-- **The command on the way to a column.** -/
theorem firstCmd_column {rows : Path → Option UInt64} (hcmd : isColumn cmd)
    (hup : ∀ st ∈ rankStates d, st = .pwrUp) (hrows : Rows d rows)
    (h : decode (spec o t) cmd addr 3 0 d = .ok cmd') :
    (cmd' = cmd ∧ ((bankState (path addr) 3 0 d).isSome → rows (path addr) = some (coord addr 4))) ∨
    (cmd' = .ACT ∧ (bankState (path addr) 3 0 d).isSome ∧ rows (path addr) = none) ∨
    (cmd' = .PRE ∧ rows (path addr) ≠ some (coord addr 4)) := by
  cases hbank : bankAt (path addr) 3 0 d with
  | none =>
      have hnone : bankState (path addr) 3 0 d = none := by rw [bankState, hbank]; rfl
      rcases decode_column_none (o := o) (t := t) hcmd hup hbank with hok | herr
      · rw [hok, Except.ok.injEq] at h
        exact .inl ⟨h.symm, by simp [hnone]⟩
      · rw [herr] at h
        cases h
  | some b =>
      rw [decode_column hcmd hup hbank] at h
      have hstate : bankState (path addr) 3 0 d = some b.state := by rw [bankState, hbank]; rfl
      have hrow : b.state = stateOf (rows (path addr)) := hrows.state_eq hstate
      simp only [bind_eq_ok, pure_eq_ok] at h
      obtain ⟨pcmd, hask, rfl⟩ := h
      unfold accessBank at hask
      cases hopen : rows (path addr) with
      | none =>
          -- closed: the row is opened first
          rw [hopen] at hrow
          rw [show b.currState = .closed from congrArg Prod.fst hrow] at hask
          obtain rfl := pure_eq_ok.mp hask
          exact .inr (.inl ⟨rfl, by rw [hstate]; rfl, rfl⟩)
      | some row =>
          rw [hopen] at hrow
          rw [show b.currState = .opened from congrArg Prod.fst hrow,
            show b.rowState = [row] from congrArg Prod.snd hrow] at hask
          dsimp only at hask
          -- opened: the column is accessed if it is that row, and else the row is closed
          split at hask
          · rename_i hmem
            obtain rfl := pure_eq_ok.mp hask
            exact .inl ⟨rfl, fun _ => by rw [List.mem_singleton.mp hmem]⟩
          · rename_i hmem
            obtain rfl := pure_eq_ok.mp hask
            refine .inr (.inr ⟨rfl, fun heq => hmem ?_⟩)
            rw [Option.some.inj heq]
            exact List.mem_singleton_self _

/-- **The command on the way to a refresh.** -/
theorem firstCmd_refresh {rows : Path → Option UInt64} (hrows : Rows d rows)
    (h : decode (spec o t) .REF addr 3 0 d = .ok cmd') :
    cmd' = .PREA ∨ (cmd' = .REF ∧ ∀ p, p 1 = path addr 1 → rows p = none) := by
  obtain ⟨rank, hrank, hdec⟩ | ⟨hnone, hdec | hdec⟩ := @decode_refresh o t addr d
  · rw [hdec, Except.ok.injEq] at h
    cases hopen : someOpen rank with
    | true => exact .inl (by simpa [hopen] using h.symm)
    | false =>
        refine .inr ⟨by simpa [hopen] using h.symm, fun p hp => ?_⟩
        rcases hrows p with ⟨-, hnone⟩ | hsome
        · exact hnone
        · rw [bankState, Option.map_eq_some_iff] at hsome
          obtain ⟨b, hb, hstate⟩ := hsome
          simp only [bankAt, Option.bind_eq_bind, Option.bind_eq_some_iff] at hb
          obtain ⟨rank', hrank', group, hgroup, bank, hbank, hb⟩ := hb
          obtain rfl : bank = b := Option.some.inj hb
          obtain rfl : rank = rank' := Option.some.inj (hrank.symm.trans (hp ▸ hrank'))
          have hclosed : bank.currState = .closed := by
            by_contra hne
            have htrue : someOpen rank = true := List.any_eq_true.mpr
              ⟨group, List.mem_of_getElem? hgroup, List.any_eq_true.mpr
                ⟨bank, List.mem_of_getElem? hbank, decide_eq_true hne⟩⟩
            rw [hopen] at htrue
            cases htrue
          cases hrow : rows p with
          | none => rfl
          | some row =>
              rw [hrow] at hstate
              have hfst := congrArg Prod.fst hstate
              rw [show bank.state.1 = .closed from hclosed] at hfst
              cases hfst
  · rw [hdec, Except.ok.injEq] at h
    refine .inr ⟨h.symm, fun p hp => ?_⟩
    rcases hrows p with ⟨-, hrow⟩ | hsome
    · exact hrow
    · rw [bankState_succ, Nat.zero_add, hp, hnone] at hsome
      cases hsome
  · rw [hdec] at h
    cases h

/-! ## The invariant -/

/-- The requests a queue is for. -/
def holds : QueueName → ReqType → Prop
  | .act, type => type = .read ∨ type = .write
  | .read, type => type = .read
  | .write, type => type = .write
  | .misc, type => type = .refresh

theorem isColumn_reqToCmd {type : ReqType} (h : type = .read ∨ type = .write) :
    isColumn (reqToCmd type) := by
  rcases h with rfl | rfl
  · exact .inl rfl
  · exact .inr rfl

/-- **The scheduler's invariant.** -/
structure Scheduled {κ : Type} (s : Memory κ) : Prop where
  ranks : ∀ st ∈ rankStates s.ctrl.channel, st = .pwrUp
  rows : Rows s.ctrl.channel fun p => openRow p (issued s.log)
  types : ∀ name, ∀ req ∈ s.reqs name, holds name req.type
  single : (s.reqs .act).length ≤ 1
  opened : ∀ req ∈ s.reqs .act, (bankState (path req.mappedAddr) 3 0 s.ctrl.channel).isSome ∧
    openRow (path req.mappedAddr) (issued s.log) = some (coord req.mappedAddr 4)
  last : ∀ j ∈ (issued s.log).getLast?, j.cmd = .ACT →
    ∃ req, s.reqs .act = [req] ∧ req.mappedAddr = j.addr
  legal : History.Always (Legal s.ctrl.channel) (issued s.log)

theorem Legal.congr {before : List (Issued Command)} {i : Issued Command}
    (hsame : ∀ p, (bankState p 3 0 d').isSome = (bankState p 3 0 d).isSome)
    (legal : Legal d before i) : Legal d' before i :=
  ⟨fun h => hsame _ ▸ legal.activate h, fun h hbank => legal.column h (hsame _ ▸ hbank),
    legal.refresh, legal.next⟩

namespace Scheduled

variable {κ : Type} {s u : Memory κ} {name : QueueName} {req : Request κ}
  {rest : List (Request κ)}

/-- **The command that is issued** for the front of a queue: a device
takes it; a bank is activated for a request to read or write that waits
elsewhere; and a request in the activation queue gets its own. -/
structure Chosen (s : Memory κ) (name : QueueName) (req : Request κ) (cmd : Command) (clk : Clk) :
    Prop where
  scheduled : isScheduled cmd
  legal : Legal s.ctrl.channel (issued s.log) ⟨cmd, req.mappedAddr, clk⟩
  activates : cmd = .ACT → name ≠ .act ∧ (req.type = .read ∨ req.type = .write)
  own : name = .act → cmd = reqToCmd req.type

/-- A command on the way to the request's own, where no bank was
activated last. -/
theorem Chosen.onTheWay {clk : Clk} (hway : cmd = .ACT ∨ cmd = .PRE ∨ cmd = .PREA)
    (hname : name ≠ .act) (hquiet : ∀ j ∈ (issued s.log).getLast?, j.cmd ≠ .ACT)
    (hact : cmd = .ACT → (req.type = .read ∨ req.type = .write) ∧
      (bankState (path req.mappedAddr) 3 0 s.ctrl.channel).isSome ∧
      openRow (path req.mappedAddr) (issued s.log) = none) : Chosen s name req cmd clk where
  scheduled := by rcases hway with rfl | rfl | rfl <;> trivial
  legal := by
    refine ⟨fun h => (hact h).2, fun hcol => ?_, fun href => ?_,
      fun j hj hlast => absurd hlast (hquiet j hj)⟩
    · rcases hway with rfl | rfl | rfl <;> rcases hcol with hcol | hcol <;> cases hcol
    · rcases hway with rfl | rfl | rfl <;> cases href
  activates := fun h => ⟨hname, (hact h).1⟩
  own := fun h => absurd h hname

/-- Outside the activation queue no bank was activated last. -/
theorem quietLast (sch : Scheduled s) (turn : Turn s name req rest) (hname : name ≠ .act) :
    ∀ j ∈ (issued s.log).getLast?, j.cmd ≠ .ACT := by
  intro j hj hact
  obtain ⟨req', hreq', -⟩ := sch.last j hj hact
  rw [turn.act hname] at hreq'
  cases hreq'

/-- A request for a column. -/
theorem chosen_column (sch : Scheduled s) (turn : Turn s name req rest)
    (hty : req.type = .read ∨ req.type = .write)
    (h : getFirstCmd (spec o t) req s = .ok cmd) (clk : Clk) : Chosen s name req cmd clk := by
  have hcol := isColumn_reqToCmd hty
  have hopened : name = .act →
      openRow (path req.mappedAddr) (issued s.log) = some (coord req.mappedAddr 4) := by
    rintro rfl
    exact (sch.opened req (turn.front ▸ List.mem_cons_self)).2
  rcases firstCmd_column hcol sch.ranks sch.rows h with
    ⟨rfl, hrow⟩ | ⟨rfl, hbank, hrow⟩ | ⟨rfl, hrow⟩
  · refine ⟨?_, ⟨fun hact => ?_, fun _ => hrow, fun href => ?_, fun j hj hact => ⟨hcol, ?_⟩⟩,
      fun hact => ?_, fun _ => rfl⟩
    · rcases hcol with hc | hc <;> rw [hc] <;> trivial
    · rcases hcol with hc | hc <;> · rw [hc] at hact; cases hact
    · rcases hcol with hc | hc <;> · rw [hc] at href; cases href
    · obtain ⟨req', hreq', haddr⟩ := sch.last j hj hact
      have hname : name = .act := by
        by_contra hname
        exact sch.quietLast turn hname j hj hact
      subst hname
      rw [turn.front] at hreq'
      rw [(List.cons.inj hreq').1]
      exact haddr
    · rcases hcol with hc | hc <;> · rw [hc] at hact; cases hact
  · have hname : name ≠ .act := by
      intro hname
      rw [hopened hname] at hrow
      cases hrow
    exact .onTheWay (.inl rfl) hname (sch.quietLast turn hname) fun _ => ⟨hty, hbank, hrow⟩
  · have hname : name ≠ .act := fun hname => hrow (hopened hname)
    refine .onTheWay (.inr (.inl rfl)) hname (sch.quietLast turn hname) fun hact => ?_
    cases hact

/-- A refresh. -/
theorem chosen_refresh (sch : Scheduled s) (turn : Turn s name req rest) (hname : name ≠ .act)
    (hty : req.type = .refresh) (h : getFirstCmd (spec o t) req s = .ok cmd) (clk : Clk) :
    Chosen s name req cmd clk := by
  unfold getFirstCmd at h
  rw [hty] at h
  rcases firstCmd_refresh sch.rows h with rfl | ⟨rfl, hrow⟩
  · refine .onTheWay (.inr (.inr rfl)) hname (sch.quietLast turn hname) fun hact => ?_
    cases hact
  · refine ⟨trivial, ⟨fun hact => ?_, fun hc => ?_, fun _ => hrow,
      fun j hj hact => absurd hact (sch.quietLast turn hname j hj)⟩, fun hact => ?_,
      fun hact => absurd hact hname⟩
    · cases hact
    · rcases hc with hc | hc <;> cases hc
    · cases hact

theorem firstCmd (sch : Scheduled s) (turn : Turn s name req rest)
    (h : getFirstCmd (spec o t) req s = .ok cmd) (clk : Clk) : Chosen s name req cmd clk := by
  have htype := sch.types name req (turn.front ▸ List.mem_cons_self)
  cases name with
  | act => exact sch.chosen_column turn htype h clk
  | read => exact sch.chosen_column turn (.inl htype) h clk
  | write => exact sch.chosen_column turn (.inr htype) h clk
  | misc => exact sch.chosen_refresh turn (by simp) htype h clk

/-- Neither the tree nor the activation queue nor the commands change. -/
theorem quiet (sch : Scheduled s) (hchannel : u.ctrl.channel = s.ctrl.channel)
    (hissued : issued u.log = issued s.log) (hact : u.reqs .act = s.reqs .act)
    (htypes : ∀ name, ∀ req ∈ u.reqs name, holds name req.type) : Scheduled u := by
  refine ⟨?_, ?_, htypes, hact ▸ sch.single, ?_, ?_, ?_⟩
  · rw [hchannel]
    exact sch.ranks
  · rw [hchannel, hissued]
    exact sch.rows
  · rw [hact, hchannel, hissued]
    exact sch.opened
  · rw [hact, hissued]
    exact sch.last
  · rw [hchannel, hissued]
    exact sch.legal

/-- **A command is issued**: the queues that follow hold what they are
for; the activation queue gets the request whose row was opened, and
loses it when it is served. -/
theorem command {channel : Dram Command State 3} {clk : Clk} (sch : Scheduled s)
    (turn : Turn s name req rest) (hcmd : getFirstCmd (spec o t) req s = .ok cmd)
    (hupdate : Dram.update (spec o t) cmd req.mappedAddr clk 3 s.ctrl.channel = .ok channel)
    (hchannel : u.ctrl.channel = channel)
    (hissued : issued u.log = issued s.log ++ [⟨cmd, req.mappedAddr, clk⟩])
    (htypes : ∀ name, ∀ req ∈ u.reqs name, holds name req.type)
    (hact : (cmd = .ACT ∧ ∃ req', u.reqs .act = [req'] ∧ req'.mappedAddr = req.mappedAddr) ∨
      (cmd ≠ .ACT ∧ u.reqs .act = [])) : Scheduled u := by
  obtain ⟨hsched, hlegal, -, -⟩ := sch.firstCmd turn hcmd clk
  subst hchannel
  have hsome : ∀ p, (bankState p 3 0 u.ctrl.channel).isSome =
      (bankState p 3 0 s.ctrl.channel).isSome := by
    intro p
    rw [bankState_update hsched hupdate, Option.isSome_map]
  -- the rows go as the command says
  have hrow : ∀ p, openRow p (issued u.log) =
      rowAfter p (openRow p (issued s.log)) ⟨cmd, req.mappedAddr, clk⟩ := by
    intro p
    rw [hissued, openRow_concat]
  refine ⟨?_, ?_, htypes, ?_, ?_, ?_, ?_⟩
  · rw [rankStates_update hsched hupdate]
    exact sch.ranks
  · simp only [hrow]
    exact sch.rows.update hsched (fun h => hlegal.activate h) hupdate
  · rcases hact with ⟨-, req', hreq', -⟩ | ⟨-, hnil⟩
    · rw [hreq']
      rfl
    · rw [hnil]
      exact Nat.zero_le _
  · rcases hact with ⟨rfl, req', hreq', haddr⟩ | ⟨-, hnil⟩
    · intro r hr
      rw [hreq'] at hr
      rw [List.mem_singleton.mp hr, haddr, hsome, hrow]
      exact ⟨(hlegal.activate rfl).1, if_pos fun l _ _ => rfl⟩
    · rw [hnil]
      simp
  · intro j hj hjact
    rw [hissued, List.getLast?_concat, Option.mem_some_iff] at hj
    subst hj
    rcases hact with ⟨-, req', hreq', haddr⟩ | ⟨hne, -⟩
    · exact ⟨req', hreq', haddr⟩
    · exact absurd hjact hne
  · rw [hissued]
    refine History.always_concat.mpr ⟨?_, hlegal.congr hsome⟩
    exact fun before i after hsplit => (sch.legal before i after hsplit).congr hsome

/-- **A move keeps the scheduler's invariant.** -/
theorem move (sch : Scheduled s) (h : Move (spec o t) s u) : Scheduled u := by
  -- a command is the first thing recorded of the move that issues it
  have hof : ∀ {queue pending channel} {cmd : Command} {addr clk} {new : List (Obs κ Command)},
      Became s u queue pending channel (.issued cmd addr clk :: new) → issued new = [] →
      issued u.log = issued s.log ++ [⟨cmd, addr, clk⟩] := by
    intro queue pending channel cmd addr clk new b hnew
    have hcons : issued (.issued cmd addr clk :: new) = ⟨cmd, addr, clk⟩ :: issued new := rfl
    rw [b.log, issued_append, hcons, hnew]
  cases h with
  | refresh r htype accept =>
      have b := accept.became
      refine sch.quiet b.channel ?_ ?_ fun n x hx => ?_
      · rw [b.log, issued_append]
        exact List.append_nil _
      · rw [b.queue, htype]
        exact List.append_nil _
      · rw [b.queue] at hx
        rcases List.mem_append.mp hx with hx | hx
        · exact sch.types n x hx
        · rw [htype] at hx
          split at hx
          · rename_i hn
            rw [List.mem_singleton.mp hx, hn]
            exact htype
          · simp at hx
  | answer _ _ _ _ _ _ b =>
      refine sch.quiet b.channel ?_ (b.queue .act) fun n x hx => sch.types n x (b.queue n ▸ hx)
      rw [b.log, issued_append]
      exact List.append_nil _
  | adjust b =>
      refine sch.quiet b.channel ?_ (b.queue .act) fun n x hx => sch.types n x (b.queue n ▸ hx)
      rw [b.log, List.append_nil]
  | prepare name req rest cmd channel turn hcmd _ hupdate hother b =>
      -- the first command of a request at the activation queue is its own access
      have hname : name ≠ .act := by
        intro hname
        have htype := sch.types name req (turn.front ▸ List.mem_cons_self)
        rw [hname] at htype
        rw [(sch.firstCmd turn hcmd 0).own hname] at hother
        rcases htype with hty | hty <;> simp [spec, hty, reqToCmd, isAccessing] at hother
      have hne : cmd ≠ .ACT := by
        rintro rfl
        simp [spec, isOpening] at hother
      refine sch.command turn hcmd hupdate b.channel (hof b rfl) (fun n x hx => ?_) (.inr ⟨hne, ?_⟩)
      · rw [b.queue] at hx
        split at hx
        · rename_i hn
          subst hn
          rcases List.mem_cons.mp hx with rfl | hx
          · exact sch.types n req (turn.front ▸ List.mem_cons_self)
          · exact sch.types n x (turn.front ▸ List.mem_cons_of_mem _ hx)
        · exact sch.types n x hx
      · rw [b.queue, if_neg (Ne.symm hname)]
        exact turn.act hname
  | activate name req rest cmd channel turn hcmd _ hupdate _ hopening b =>
      have hact : cmd = .ACT := by simpa [spec, isOpening] using hopening
      -- a row is opened only for a request that is not yet at the activation queue
      obtain ⟨hname, hty⟩ := (sch.firstCmd turn hcmd 0).activates hact
      refine sch.command turn hcmd hupdate b.channel (hof b rfl) (fun n x hx => ?_) (.inl ⟨hact, ?_⟩)
      · rw [b.queue] at hx
        rcases List.mem_append.mp hx with hold | hnew
        · split at hold
          · rename_i hn
            subst hn
            exact sch.types n x (turn.front ▸ List.mem_cons_of_mem _ hold)
          · exact sch.types n x hold
        · split at hnew
          · rename_i hn
            rw [List.mem_singleton.mp hnew, hn]
            exact hty
          · simp at hnew
      · refine ⟨{ req with isFirstCmd := false }, ?_, rfl⟩
        rw [b.queue, if_neg (Ne.symm hname), turn.act hname]
        rfl
  | serve name req rest cmd channel turn hcmd _ hupdate hends b =>
      have hne : cmd ≠ .ACT := by
        rintro rfl
        simp [spec, isAccessing, isRefreshing] at hends
      refine sch.command turn hcmd hupdate b.channel (hof b rfl) (fun n x hx => ?_) (.inr ⟨hne, ?_⟩)
      · rw [b.queue] at hx
        split at hx
        · rename_i hn
          subst hn
          exact sch.types n x (turn.front ▸ List.mem_cons_of_mem _ hx)
        · exact sch.types n x hx
      · rw [b.queue]
        split
        · rename_i hn
          -- the activation queue holds one request, which leaves
          have hlen := sch.single
          rw [hn, turn.front, List.length_cons] at hlen
          exact List.length_eq_zero_iff.mp (by omega)
        · rename_i hn
          exact turn.act (Ne.symm hn)

/-- A new memory has closed banks in ranks that are up. -/
theorem new {cfg : Config} (h : Sys.new (spec o t) 2 cfg = .ok s) : Scheduled s := by
  simp only [Sys.new, bind_eq_ok] at h
  obtain ⟨mapper, -, h⟩ := h
  split at h
  · simp only [bind_eq_ok, throw_ne_ok, false_and, exists_false] at h
  · obtain rfl := pure_eq_ok.mp h
    refine ⟨?_, fun p => ?_, fun n x hx => ?_, Nat.zero_le _, fun x hx => ?_, fun j hj => ?_,
      History.always_nil⟩
    · intro st hst
      simp only [rankStates, Dram.new, List.map_map, List.mem_map] at hst
      obtain ⟨i, -, rfl⟩ := hst
      rfl
    · exact bankState_new.imp (fun h => ⟨h, rfl⟩) id
    · cases n <;> simp [Sys.reqs, Controller.queue] at hx
    · simp [Sys.reqs, Controller.queue] at hx
    · simp [issued] at hj

end Scheduled

/-! ## The prerequisite table is never asked amiss -/

section Prereq

variable {γ ς : Type} {k : ℕ}

variable {κ : Type} {s : Memory κ} {req : Request κ}

end Prereq

/-! ## What every run keeps -/

section Runs

variable {κ : Type} {s u : Memory κ}

/-- The event is a read, a write or a tick. -/
def IsAccess {κ : Type} : Event κ → Prop
  | .issueRequest _ type _ => type = .read ∨ type = .write
  | .tick _ => True

theorem Scheduled.step {ev : Event κ} (sch : Scheduled s) (hev : IsAccess ev)
    (h : (machine (spec o t) 2).step s ev = .ok u) : Scheduled u := by
  cases ev with
  | issueRequest logicAddr type callback =>
      simp only [machine, Sys.mapped, bind_eq_ok, Prod.exists, pure_eq_ok] at h
      obtain ⟨request, ⟨addr, -, rfl⟩, issued', u', hissue, rfl⟩ := h
      obtain ⟨-, rfl, -⟩ | ⟨-, req, rfl, haccept | hforward⟩ := issueRequest_cases hissue
      · exact sch
      · have b := haccept.became
        refine sch.quiet b.channel ?_ ?_ fun n x hx => ?_
        · rw [b.log, issued_append]
          exact List.append_nil _
        · rw [b.queue, if_neg (by rcases hev with rfl | rfl <;> simp [getQueue]), List.append_nil]
        · rw [b.queue] at hx
          rcases List.mem_append.mp hx with hold | hnew
          · exact sch.types n x hold
          · split at hnew
            · rename_i hn
              rw [List.mem_singleton.mp hnew, hn]
              rcases hev with rfl | rfl <;> rfl
            · simp at hnew
      · have b := hforward.became
        refine sch.quiet b.channel ?_ (b.queue .act) fun n x hx => sch.types n x (b.queue n ▸ hx)
        rw [b.log, issued_append]
        exact List.append_nil _
  | tick clk =>
      have hstart : Scheduled ({ s with ctrl.currClk := clk } : Memory κ) :=
        sch.quiet rfl rfl rfl sch.types
      exact reflTransGen_keeps (P := Scheduled) (fun _ _ hP hmove => hP.move hmove) (tick_moves h) hstart

end Runs

end Ddr4

end Dram

end Vans
