import Vans.Dram.Safety
import Mathlib.Data.Fintype.OfMap
/-!
# DDR4

The standard the memories of the simulator are instantiated with: its
levels, commands and states, and its three tables. Its integers are the
source's `int`s, for the values that do not overflow one.
-/

namespace Vans

namespace Dram

namespace Ddr4

inductive State where
  | pwrUp
  | closed
  | selfRefresh
  | prePwrDown
  | actPwrDown
  | opened
  | undefined
  deriving DecidableEq, Repr

inductive Command where
  | ACT
  | PRE
  | PREA
  | RD
  | WR
  | RDA
  | WRA
  | REF
  | PDE
  | PDX
  | SRE
  | SRX
  deriving DecidableEq, Repr

instance : Fintype Command :=
  .ofList [.ACT, .PRE, .PREA, .RD, .WR, .RDA, .WRA, .REF, .PDE, .PDX, .SRE, .SRX]
    fun cmd => by cases cmd <;> decide

/-- The values the tables are made of. -/
structure Timing where
  nBL : Int
  nCCDS : Int
  nCCDL : Int
  nRTRS : Int
  nCL : Int
  nRCD : Int
  nRP : Int
  nCWL : Int
  nRAS : Int
  nRC : Int
  nRTP : Int
  nWTRS : Int
  nWTRL : Int
  nWR : Int
  nPD : Int
  nXP : Int
  nCKESR : Int
  nRRDS : Int
  nRRDL : Int
  nFAW : Int
  nRFC : Int
  nREFI : Int
  nXS : Int

/-- The counts of the organization. -/
structure Organization where
  channel : ℕ
  rank : ℕ
  bankGroup : ℕ
  bank : ℕ
  row : ℕ
  col : ℕ

def Organization.count (o : Organization) : ℕ → ℕ
  | 0 => o.channel
  | 1 => o.rank
  | 2 => o.bankGroup
  | 3 => o.bank
  | 4 => o.row
  | 5 => o.col
  | _ => 0

/-! ## Levels and commands -/

/-- `channel`, `rank`, `bank_group`, `bank`, `row` and `col`. -/
def scope : Command → ℕ
  | .ACT => 4
  | .PRE => 3
  | .RD | .WR | .RDA | .WRA => 5
  | .PREA | .REF | .PDE | .PDX | .SRE | .SRX => 1

def initState : ℕ → State
  | 0 => .undefined
  | 1 => .pwrUp
  | 2 => .closed
  | 3 => .closed
  | 4 => .undefined
  | _ => .pwrUp

def reqToCmd : ReqType → Command
  | .read => .RD
  | .write => .WR
  | .refresh => .REF
  | .powerDown => .PDE
  | .selfRefresh => .SRE

def isOpening (cmd : Command) : Bool := cmd = .ACT

def isAccessing : Command → Bool
  | .RD | .WR | .RDA | .WRA => true
  | _ => false

def isRefreshing (cmd : Command) : Bool := cmd = .REF

/-! ## The state transfer table -/

/-- A bank is closed. -/
def closeBank (d : Node Command State) : Node Command State :=
  { d with currState := .closed, rowState := [] }

theorem closeBank_timing (d : Node Command State) : (closeBank d).SameTiming d := ⟨rfl, rfl, rfl⟩

/-- A transfer of a node that leaves what is below it. -/
def setState {k : ℕ} (state : Dram Command State (k + 1) → State) :
    StateTrans Command State (k + 1) where
  run := fun d _ => ({ d.1 with currState := state d }, d.2)
  timing := fun d _ => ⟨⟨rfl, rfl, rfl⟩, (SameTiming.refl d).2⟩

def close : StateTrans Command State 0 where
  run := fun d _ => closeBank d
  timing := fun d _ => closeBank_timing d

def keep {k : ℕ} : StateTrans Command State k where
  run := fun d _ => d
  timing := fun d _ => .refl d

def open_ : StateTrans Command State 0 where
  run := fun (d : Node Command State) id =>
    { d with currState := .opened, rowState := d.rowState.insert id }
  timing := fun _ _ => ⟨rfl, rfl, rfl⟩

/-- Every bank of the rank is closed. -/
def closeAll : StateTrans Command State 2 where
  run := fun d _ => (d.1, d.2.map fun group => (group.1, group.2.map closeBank))
  timing := fun _ _ => by
    refine ⟨⟨rfl, rfl, rfl⟩, List.forall₂_map_left_iff.mpr (List.forall₂_same.mpr fun g _ => ?_)⟩
    exact ⟨⟨rfl, rfl, rfl⟩,
      List.forall₂_map_left_iff.mpr (List.forall₂_same.mpr fun b _ => closeBank_timing b)⟩

/-- Some bank of the rank is not closed. -/
def someOpen (d : Dram Command State 2) : Bool :=
  d.2.any fun group => group.2.any fun (bank : Node Command State) => bank.currState ≠ .closed

def stateTrans : (k : ℕ) → Command → Option (StateTrans Command State k)
  | 0, .ACT => some open_
  | 0, .PRE => some close
  | 0, .RD => some keep
  | 0, .WR => some keep
  | 0, .RDA => some close
  | 0, .WRA => some close
  | 2, .PREA => some closeAll
  | 2, .REF => some keep
  | 2, .PDE => some (setState fun d => if someOpen d then .actPwrDown else .prePwrDown)
  | 2, .PDX => some (setState fun _ => .pwrUp)
  | 2, .SRE => some (setState fun _ => .selfRefresh)
  | 2, .SRX => some (setState fun _ => .pwrUp)
  | _, _ => none

/-! ## The prerequisite table -/

/-- What a command needs of the rank. -/
abbrev Prereq (k : ℕ) := Dram Command State k → Command → UInt64 → Result (Option Command)

def wrongPrereq {α : Type} : Result α := throw "Wrong prereq triggered."

/-- `(rank, RD)` and `(rank, WR)` -/
def accessRank : Prereq 2 := fun d _ _ =>
  match d.1.currState with
  | .pwrUp => pure none
  | .actPwrDown | .prePwrDown => pure (some .PDX)
  | .selfRefresh => pure (some .SRX)
  | _ => wrongPrereq

/-- `(bank, RD)` and `(bank, WR)` -/
def accessBank : Prereq 0 := fun (d : Node Command State) cmd id =>
  match d.currState with
  | .closed => pure (some .ACT)
  | .opened => if id ∈ d.rowState then pure (some cmd) else pure (some .PRE)
  | _ => wrongPrereq

/-- `(rank, REF)` -/
def refreshRank : Prereq 2 := fun d _ _ => pure (some (if someOpen d then .PREA else .REF))

/-- `(rank, PDE)` -/
def powerDownRank : Prereq 2 := fun d _ _ =>
  match d.1.currState with
  | .pwrUp | .actPwrDown | .prePwrDown => pure (some .PDE)
  | .selfRefresh => pure (some .SRX)
  | _ => wrongPrereq

/-- `(rank, SRE)` -/
def selfRefreshRank : Prereq 2 := fun d _ _ =>
  match d.1.currState with
  | .pwrUp | .selfRefresh => pure (some .SRE)
  | .actPwrDown | .prePwrDown => pure (some .PDX)
  | _ => wrongPrereq

def prereq : (k : ℕ) → Command → Option (Prereq k)
  | 2, .RD => some accessRank
  | 2, .WR => some accessRank
  | 0, .RD => some accessBank
  | 0, .WR => some accessBank
  | 2, .REF => some refreshRank
  | 2, .PDE => some powerDownRank
  | 2, .SRE => some selfRefreshRank
  | _, _ => none

/-! ## The timing table -/

/-- An entry for each of the commands, with one delay. -/
def entries (cmds : List Command) (delay : Int) (hasSibling : Bool := false) :
    List (TimingEntry Command) :=
  cmds.map fun cmd => { cmd := cmd, delay := delay, hasSibling := hasSibling }

def channelTable (t : Timing) : Command → List (TimingEntry Command)
  | .RD | .RDA => entries [.RD, .RDA] t.nBL
  | .WR | .WRA => entries [.WR, .WRA] t.nBL
  | _ => []

/-- CAS after a read: of the rank, then of its siblings. -/
def casAfterRead (t : Timing) : List (TimingEntry Command) :=
  entries [.RD, .RDA] t.nCCDS
    ++ entries [.WR, .WRA] (t.nCL + t.nBL + 2 - t.nCWL)
    ++ entries [.RD, .RDA, .WR, .WRA] (t.nBL + t.nRTRS) true
    ++ entries [.WR, .WRA] (t.nCL + t.nBL + t.nRTRS - t.nCWL) true

/-- CAS after a write: of the rank, then of its siblings. -/
def casAfterWrite (t : Timing) : List (TimingEntry Command) :=
  entries [.WR, .WRA] t.nCCDS
    ++ entries [.RD, .RDA] (t.nCWL + t.nBL + t.nWTRS)
    ++ entries [.RD, .RDA] (t.nCWL + t.nBL + t.nRTRS - t.nCL) true

def rankTable (t : Timing) : Command → List (TimingEntry Command)
  | .RD => casAfterRead t ++ entries [.PREA] t.nRTP ++ entries [.PDE] (t.nCL + t.nBL + 1)
  | .RDA => casAfterRead t ++ entries [.PDE] (t.nCL + t.nBL + 1) ++ entries [.REF] (t.nRTP + t.nRP)
  | .WR => casAfterWrite t ++ entries [.PREA, .PDE] (t.nCWL + t.nBL + t.nWR)
  | .WRA =>
    casAfterWrite t ++ entries [.PDE] (t.nCWL + t.nBL + t.nWR + 1)
      ++ entries [.REF] (t.nCWL + t.nBL + t.nWR + t.nRP)
  | .ACT =>
    entries [.ACT] t.nRRDS ++ [{ cmd := .ACT, delay := t.nFAW, hasSibling := false, dist := 4 }]
      ++ entries [.PREA] t.nRAS ++ entries [.PDE] 1
  | .PREA => entries [.ACT, .REF, .SRE] t.nRP
  | .PRE => entries [.REF, .SRE] t.nRP
  | .REF => entries [.ACT, .REF] t.nRFC ++ entries [.PDE] 1
  | .PDX => entries [.RD, .RDA, .WR, .WRA, .ACT, .PRE, .PREA, .REF, .PDE, .SRE] t.nXP
  | .PDE => entries [.PDX] t.nPD
  | .SRX => entries [.ACT, .REF, .PDE, .SRE] t.nXS
  | .SRE => entries [.SRX] t.nCKESR

def bankGroupTable (t : Timing) : Command → List (TimingEntry Command)
  | .RD | .RDA => entries [.RD, .RDA] t.nCCDL
  | .WR | .WRA =>
    entries [.WR, .WRA] t.nCCDL ++ entries [.RD, .RDA] (t.nCWL + t.nBL + t.nWTRL)
  | .ACT => entries [.ACT] t.nRRDL
  | _ => []

def bankTable (t : Timing) : Command → List (TimingEntry Command)
  | .ACT =>
    entries [.RD, .RDA, .WR, .WRA] t.nRCD ++ entries [.ACT] t.nRC ++ entries [.PRE] t.nRAS
  | .RD => entries [.PRE] t.nRTP
  | .WR => entries [.PRE] (t.nCWL + t.nBL + t.nWR)
  | .RDA => entries [.ACT] (t.nRTP + t.nRP)
  | .WRA => entries [.ACT] (t.nCWL + t.nBL + t.nWR + t.nRP)
  | .PRE => entries [.ACT] t.nRP
  | _ => []

def timingTable (t : Timing) : ℕ → Command → List (TimingEntry Command)
  | 0 => channelTable t
  | 1 => rankTable t
  | 2 => bankGroupTable t
  | 3 => bankTable t
  | _ => fun _ => []

/-- The standard, for an organization and its timing. -/
def spec (o : Organization) (t : Timing) : Spec Command State where
  scope := scope
  initState := initState
  count := o.count
  timingTable := timingTable t
  stateTrans := stateTrans
  prereq := prereq
  reqToCmd := reqToCmd
  isOpening := isOpening
  isAccessing := isAccessing
  isRefreshing := isRefreshing
  readLatency := t.nCL + t.nBL
  nREFI := t.nREFI
  totalLevels := 6
  channelWidth := 64
  prefetchSize := 8

/-- A memory: a channel over ranks, bank groups and banks. -/
abbrev Memory (κ : Type) := Sys κ Command State 2

/-! ## The tables, for timings that make sense -/

section Tables

variable {o : Organization} {t : Timing} {level : ℕ} {x : Command} {e : TimingEntry Command}

theorem dist_of_mem_entries {cmds : List Command} {delay : Int} {sibling : Bool}
    (h : e ∈ entries cmds delay sibling) : e.dist = 1 := by
  obtain ⟨cmd, -, rfl⟩ := List.mem_map.mp h
  rfl

/-- One entry of the tables looks back further than one command: that of
the four-activate window. -/
theorem dist_of_mem_timingTable (h : e ∈ timingTable t level x) :
    e.dist = 1 ∨ (e.dist = 4 ∧ e.delay = t.nFAW) := by
  have hentries : ∀ {cmds : List Command} {delay : Int} {sibling : Bool},
      e ∈ entries cmds delay sibling → e.dist = 1 := dist_of_mem_entries
  unfold timingTable at h
  split at h
  · cases x <;> simp only [channelTable, List.not_mem_nil] at h <;> exact .inl (hentries h)
  · cases x <;> simp only [rankTable, casAfterRead, casAfterWrite, List.mem_append,
      List.mem_singleton] at h
    case ACT =>
      rcases h with ((h | rfl) | h) | h
      · exact .inl (hentries h)
      · exact .inr ⟨rfl, rfl⟩
      · exact .inl (hentries h)
      · exact .inl (hentries h)
    all_goals left; revert h; grind
  · cases x <;> simp only [bankGroupTable, List.mem_append, List.not_mem_nil] at h <;>
      (left; revert h; grind)
  · cases x <;> simp only [bankTable, List.mem_append, List.not_mem_nil] at h <;>
      (left; revert h; grind)
  · simp at h

/-- **The tables are proper** where no delay is negative and the
four-activate window is not zero. -/
theorem spec_proper (hdelay : ∀ level x, ∀ e ∈ timingTable t level x, 0 ≤ e.delay)
    (hfaw : 0 < t.nFAW) : (spec o t).Proper 3 where
  dist level _ x e he := by
    rcases dist_of_mem_timingTable he with h | ⟨h, -⟩ <;> omega
  delay level _ x e he := hdelay level x e he
  window level _ x e he hlt := by
    rcases dist_of_mem_timingTable he with h | ⟨-, h⟩
    · omega
    · exact h ▸ hfaw

end Tables

/-! ## Timing safety -/

/-- The timing the configurations that come with the simulator give. -/
def vansTiming : Timing where
  nBL := 4
  nCCDS := 4
  nCCDL := 7
  nRTRS := 2
  nCL := 19
  nRCD := 19
  nRP := 19
  nCWL := 18
  nRAS := 43
  nRC := 62
  nRTP := 10
  nWTRS := 4
  nWTRL := 10
  nWR := 20
  nPD := 6
  nXP := 8
  nCKESR := 7
  nRRDS := 4
  nRRDL := 7
  nFAW := 16
  nRFC := 467
  nREFI := 10400
  nXS := 324

/-- Their organization of a memory of so many channels. -/
def vansOrganization (channels : ℕ) : Organization where
  channel := channels
  rank := 1
  bankGroup := 4
  bank := 4
  row := 32768
  col := 1024

def vansConfig : Config where
  queueSize := 64
  startAddr := 0
  mediaMappingFunc := [.Ra, .Ba, .Bg, .Ro, .Co, .Ch]

theorem vansTiming_delay : ∀ level x, ∀ e ∈ timingTable vansTiming level x, 0 ≤ e.delay := by
  rintro (_ | _ | _ | _ | level)
  · decide
  · decide
  · decide
  · decide
  · intro x e he
    simp [timingTable] at he

/-- One read, and the ticks at which its commands are issued. -/
def oneRead : List (Event ℕ) :=
  [.issueRequest 0 .read (some 0), .tick 0, .tick 1, .tick 19]

end Ddr4

end Dram

end Vans
