import Vans.Model.Base
/-!
# The DRAM tree

A tree of nodes, one level below another, down to the banks. A node
holds its state, for each command the clock from which it may be issued,
and for each command the clocks it was last issued at, as far back as
the timing table asks for. Issuing a command is checked along the path
it is issued to, and recorded throughout the tree.

The tree is generic over a standard: the commands and states, and the
tables that say what a command needs, changes and delays.
-/

namespace Vans

/-! ## Nodes and trees -/

namespace Dram

/-- The coordinates of a mapped address, one a level. -/
abbrev MappedAddr := List UInt64

/-- The coordinate of a level. Addresses have one for every level that is
asked for. -/
def coord (addr : MappedAddr) (level : ℕ) : UInt64 := addr.getD level 0

structure TimingEntry (γ : Type) where
  cmd : γ
  delay : Int
  hasSibling : Bool := false
  dist : ℕ := 1
  deriving DecidableEq, Repr

structure Node (γ ς : Type) where
  id : ℕ
  currState : ς
  /-- The rows that are opened. -/
  rowState : List UInt64 := []
  next : γ → Clk
  prev : γ → List Clk

/-- The two nodes have the same timing. -/
def Node.SameTiming {γ ς : Type} (a b : Node γ ς) : Prop :=
  a.id = b.id ∧ a.next = b.next ∧ a.prev = b.prev

end Dram

/-- A node with `k` levels below it, and its subtrees. -/
@[reducible] def Dram (γ ς : Type) : ℕ → Type
  | 0 => Dram.Node γ ς
  | k + 1 => Dram.Node γ ς × List (Dram γ ς k)

namespace Dram

/-- The node at the top of the tree. -/
def node {γ ς : Type} : ∀ {k : ℕ}, Dram γ ς k → Node γ ς
  | 0, node => node
  | _ + 1, (node, _) => node

/-- The trees have the same timing throughout. -/
def SameTiming {γ ς : Type} : ∀ {k : ℕ}, Dram γ ς k → Dram γ ς k → Prop
  | 0, a, b => Node.SameTiming a b
  | _ + 1, (a, as), (b, bs) => a.SameTiming b ∧ List.Forall₂ SameTiming as bs

/-! ## Standards -/

/-- A transfer of the state table. It is given the node, and the
coordinate below it, and leaves the timing alone. -/
structure StateTrans (γ ς : Type) (k : ℕ) where
  run : Dram γ ς k → UInt64 → Dram γ ς k
  timing : ∀ d id, SameTiming (run d id) d

inductive ReqType where
  | read
  | write
  | refresh
  | powerDown
  | selfRefresh
  deriving DecidableEq, Repr

/-- A standard: what the tree and its controller are instantiated with.
The tables of transfers and prerequisites are given by the number of
levels below the node; a prerequisite gives the command to issue first,
or none. -/
structure Spec (γ ς : Type) where
  scope : γ → ℕ
  initState : ℕ → ς
  count : ℕ → ℕ
  timingTable : ℕ → γ → List (TimingEntry γ)
  stateTrans : ∀ k, γ → Option (StateTrans γ ς k)
  prereq : ∀ k, γ → Option (Dram γ ς k → γ → UInt64 → Result (Option γ))
  reqToCmd : ReqType → γ
  isOpening : γ → Bool
  isAccessing : γ → Bool
  isRefreshing : γ → Bool
  readLatency : Int
  nREFI : Int
  totalLevels : ℕ
  channelWidth : ℕ
  prefetchSize : ℕ

section Definitions

variable {γ ς : Type} [DecidableEq γ] (spec : Spec γ ς)

/-! ## Building a tree -/

/-- How far back the entries look. -/
def prevSize (entries : List (TimingEntry γ)) : ℕ :=
  entries.foldl (fun dist t => max dist t.dist) 0

def Node.new (level id : ℕ) : Node γ ς where
  id := id
  currState := spec.initState level
  next := fun _ => 0
  prev := fun cmd => List.replicate (prevSize (spec.timingTable level cmd)) clkInvalid

def new : (k : ℕ) → ℕ → ℕ → Dram γ ς k
  | 0, level, id => Node.new spec level id
  | k + 1, level, id =>
    (Node.new spec level id, (List.range (spec.count (level + 1))).map (new k (level + 1)))

/-! ## What a command needs, and whether it may be issued -/

/-- The children are indexed unchecked. -/
def child {k : ℕ} (children : List (Dram γ ς k)) (id : UInt64) : Result (Dram γ ς k) :=
  match children[id.toNat]? with
  | none => throw "undefined behaviour: children index out of range"
  | some c => pure c

/-- The entry of the prerequisite table, asked. -/
def askPrereq (k : ℕ) (cmd : γ) (d : Dram γ ς k) (childId : UInt64) : Result (Option γ) :=
  match spec.prereq k cmd with
  | none => pure none
  | some f => f d cmd childId

/-- The command to issue first, on the way to `cmd`. -/
def decode (cmd : γ) (addr : MappedAddr) : (k : ℕ) → ℕ → Dram γ ς k → Result γ
  | 0, level, d => do
    match ← askPrereq spec 0 cmd d (coord addr (level + 1)) with
    | some pcmd => return pcmd
    | none => return cmd
  | k + 1, level, d => do
    match ← askPrereq spec (k + 1) cmd d (coord addr (level + 1)) with
    | some pcmd => return pcmd
    | none =>
      if d.2.isEmpty then return cmd
      else decode cmd addr k (level + 1) (← child d.2 (coord addr (level + 1)))

def Node.ready (node : Node γ ς) (cmd : γ) (clk : Clk) : Bool :=
  !(node.next cmd ≠ clkInvalid && clk < node.next cmd)

def check (cmd : γ) (addr : MappedAddr) (clk : Clk) : (k : ℕ) → ℕ → Dram γ ς k → Result Bool
  | 0, _, d => pure (Node.ready d cmd clk)
  | k + 1, level, d => do
    if !d.1.ready cmd clk then return false
    else if level = spec.scope cmd ∨ d.2.isEmpty then return true
    else check cmd addr clk k (level + 1) (← child d.2 (coord addr (level + 1)))

/-! ## Issuing a command -/

/-- The entry of the state table, run. -/
def runStateTrans (k : ℕ) (cmd : γ) (d : Dram γ ς k) (childId : UInt64) : Dram γ ς k :=
  match spec.stateTrans k cmd with
  | none => d
  | some f => f.run d childId

def updateState (cmd : γ) (addr : MappedAddr) : (k : ℕ) → ℕ → Dram γ ς k → Result (Dram γ ς k)
  | 0, level, d => pure (runStateTrans spec 0 cmd d (coord addr (level + 1)))
  | k + 1, level, d => do
    let d := runStateTrans spec (k + 1) cmd d (coord addr (level + 1))
    if level = spec.scope cmd ∨ d.2.isEmpty then return d
    let childId := coord addr (level + 1)
    let c ← updateState cmd addr k (level + 1) (← child d.2 childId)
    return (d.1, d.2.set childId.toNat c)

/-- `next[int(t.cmd)] = std::max(next[int(t.cmd)], next_clk)`, where the
entry gives a clock. -/
def raise (next : γ → Clk) (cmd : γ) : Option Clk → γ → Clk
  | none => next
  | some nextClk => Function.update next cmd (max (next cmd) nextClk)

def raiseAll (nextClk : TimingEntry γ → Option Clk) (entries : List (TimingEntry γ))
    (next : γ → Clk) : γ → Clk :=
  entries.foldl (fun next t => raise next t.cmd (nextClk t)) next

/-- A command was issued beside the node. -/
def Node.updateSibling (node : Node γ ς) (entries : List (TimingEntry γ)) (clk : Clk) : Node γ ς :=
  let nextClk (t : TimingEntry γ) : Option Clk :=
    if t.hasSibling then some (clk + UInt64.ofInt t.delay) else none
  { node with next := raiseAll nextClk entries node.next }

/-- A command was issued through the node. The clock a look back finds
is unsigned, so the source's test for one that is negative never holds;
where there is none yet it finds the filler. -/
def Node.updateTarget (node : Node γ ς) (entries : List (TimingEntry γ)) (cmd : γ) (clk : Clk) :
    Node γ ς :=
  let prev := if (node.prev cmd).isEmpty then node.prev
    else Function.update node.prev cmd (clk :: (node.prev cmd).dropLast)
  let nextClk (t : TimingEntry γ) : Option Clk :=
    if t.hasSibling then none
    else some ((prev cmd).getD (t.dist - 1) clkInvalid + UInt64.ofInt t.delay)
  { node with prev := prev, next := raiseAll nextClk entries node.next }

def updateTiming (cmd : γ) (addr : MappedAddr) (clk : Clk) :
    (k : ℕ) → ℕ → Dram γ ς k → Dram γ ς k
  | 0, level, d =>
    if Node.id d ≠ (coord addr level).toNat then
      Node.updateSibling d (spec.timingTable level cmd) clk
    else Node.updateTarget d (spec.timingTable level cmd) cmd clk
  | k + 1, level, d =>
    if d.1.id ≠ (coord addr level).toNat then
      (d.1.updateSibling (spec.timingTable level cmd) clk, d.2)
    else
      (d.1.updateTarget (spec.timingTable level cmd) cmd clk,
        d.2.map (updateTiming cmd addr clk k (level + 1)))

def update (cmd : γ) (addr : MappedAddr) (clk : Clk) (k : ℕ) (d : Dram γ ς k) :
    Result (Dram γ ς k) := do
  let d ← updateState spec cmd addr k 0 d
  return updateTiming spec cmd addr clk k 0 d

end Definitions

end Dram

end Vans
