import Vans.Config.Model
/-!
# The factory

`make` builds the component tree the organization section describes,
from the root `rmc` down. A name the dispatch does not handle leaves a
null component, which is used at once. What a component is made of
besides its children, and what the file system says to a dump file, are
parameters.

A component is registered with its controller as it is connected: both
lists of the source hold pointers to the children, and the second is
kept here as the places of the children in the first.
-/

namespace Vans

namespace Factory

/-- The components the dispatch handles. -/
inductive Kind where
  | rmc
  | imc
  | ddr4System
  | nvramSystem
  | cxlSystem
  | rmw
  | ait
  | nvMedia
  deriving DecidableEq, Repr

def Kind.name : Kind → Text
  | rmc => "rmc".toList
  | imc => "imc".toList
  | ddr4System => "ddr4_system".toList
  | nvramSystem => "nvram_system".toList
  | cxlSystem => "cxl_system".toList
  | rmw => "rmw".toList
  | ait => "ait".toList
  | nvMedia => "nv_media".toList

/-- The dispatch of `make_single_component`. -/
def kindOf (name : Text) : Option Kind :=
  if name = Kind.rmc.name then some .rmc
  else if name = Kind.imc.name then some .imc
  else if name = Kind.ddr4System.name then some .ddr4System
  else if name = Kind.nvramSystem.name then some .nvramSystem
  else if name = Kind.cxlSystem.name then some .cxlSystem
  else if name = Kind.rmw.name then some .rmw
  else if name = Kind.ait.name then some .ait
  else if name = Kind.nvMedia.name then some .nvMedia
  else none

/-! ## Failures -/

/-- How building a tree fails. -/
inductive Failure where
  | thrown (what : String)
  | nullDereference
  /-- The recursion went deeper than it was allowed to. -/
  | unfinished
  deriving DecidableEq, Repr

abbrev Build := Except Failure

/-- A computation that may throw, as a part of building. -/
def lift {A : Type} : Result A → Build A
  | .ok a => .ok a
  | .error what => .error (.thrown what)

/-! ## Dumpers -/

inductive DumpType where
  | none
  | cli
  | file
  | both
  deriving DecidableEq, Repr

structure Dumper where
  dumpType : DumpType
  dumpToFile : Bool
  dumpToCli : Bool
  deriving DecidableEq, Repr

/-- What the tree is built from: the constructors of the components, and
what comes of making the directory and opening the file of a dump. -/
structure Parts (σ : Type) where
  construct : Kind → Config → Result σ
  openDump : Text → Text → Result Unit

section Dump

variable {σ : Type}

def getDumpType (cfg : RootConfig) : Result DumpType := do
  let dump ← cfg.atKey "dump".toList
  let dumpCfg ← dump.getString "type".toList
  if dumpCfg = "file".toList then return .file
  else if dumpCfg = "cli".toList then return .cli
  else if dumpCfg = "both".toList then return .both
  else if dumpCfg = "none".toList then return .none
  else throw ("[CONFIG ERROR]: dump_file value [" ++ String.ofList dumpCfg ++
    "] is illegal, should be [none|file|cli|both]")

def getDumpFilename (cfg : RootConfig) (name : Text) (id : ℕ) : Result Text := do
  let dump ← cfg.atKey "dump".toList
  let base ← dump.getString name
  let path ← dump.getString "path".toList
  return path ++ "/".toList ++ (base ++ "_".toList ++ (toString id).toList)

/-- The constructor of the dumper. -/
def Dumper.new (P : Parts σ) (dumpType : DumpType) (filename dirname : Text) : Result Dumper := do
  let silent := filename.take 4 = "none".toList
  let dumpToFile := !silent && (dumpType = .file || dumpType = .both)
  let dumpToCli := !silent && (dumpType = .cli || dumpType = .both)
  if dumpToFile then P.openDump filename dirname
  return { dumpType := dumpType, dumpToFile := dumpToFile, dumpToCli := dumpToCli }

/-- The dumper of a component. -/
def makeDumper (P : Parts σ) (cfg : RootConfig) (componentId : ℕ) : Result Dumper := do
  let dumpType ← getDumpType cfg
  let filename ← getDumpFilename cfg "stat_dump".toList componentId
  let dump ← cfg.atKey "dump".toList
  let dirname ← dump.getString "path".toList
  Dumper.new P dumpType filename dirname

end Dump

/-! ## Components -/

/-- A component: what its constructor made, its children, and where in
their list its controller finds them. -/
structure Node (σ : Type) where
  name : Text
  id : ℕ := 0
  own : σ
  statDumper : Option Dumper := none
  next : List (Node σ) := []
  nextLevelComponents : List ℕ := []

namespace Node

variable {σ : Type}

/-- A child is connected, and registered with the controller. -/
def connectNext (n nc : Node σ) : Node σ :=
  { n with
    next := n.next ++ [nc]
    nextLevelComponents := n.nextLevelComponents ++ [n.next.length] }

/-- The dumper is handed down for as long as there is one child. -/
def connectDumper (dumper : Dumper) : Node σ → Result (Node σ)
  | ⟨name, id, own, _, [], registered⟩ => pure ⟨name, id, own, some dumper, [], registered⟩
  | ⟨name, id, own, _, [child], registered⟩ => do
    let child ← connectDumper dumper child
    return ⟨name, id, own, some dumper, [child], registered⟩
  | ⟨_, _, _, _, _ :: _ :: _, _⟩ =>
    throw "Internal error, does not support one-to-many stat_dumper connection"

end Node

/-! ## Building -/

section Make

variable {σ : Type}

def makeSingleComponent (P : Parts σ) (name : Text) (cfg : RootConfig) (componentId : ℕ) :
    Build (Node σ) :=
  match kindOf name with
  | none => throw .nullDereference
  | some kind => do
    let config ← lift (cfg.atKey name)
    let own ← lift (P.construct kind config)
    return { name := name, id := componentId, own := own }

/-- The children are made and connected in order. -/
def connectChildren (make : ℕ → Build (Node σ)) (count : ℕ) (ret : Node σ) : Build (Node σ) :=
  (List.range count).foldlM
    (fun ret i => do
      let next ← make i
      return ret.connectNext next)
    ret

/-- The component of the name, and the tree below it, to a depth. -/
def makeComponent (P : Parts σ) (cfg : RootConfig) : ℕ → Text → ℕ → Build (Node σ)
  | 0, _, _ => throw .unfinished
  | depth + 1, name, componentId => do
    let ret ← makeSingleComponent P name cfg componentId
    let org ← lift (cfg.getOrganization name)
    if org.count ≠ 0 then
      -- a negative count makes no child
      let ret ← connectChildren (makeComponent P cfg depth org.type) org.count.toNat ret
      if name = Kind.nvramSystem.name then
        let dumper ← lift (makeDumper P cfg componentId)
        lift (ret.connectDumper dumper)
      else return ret
    else return ret

/-- The virtual root memory controller, with its tree. -/
def make (P : Parts σ) (depth : ℕ) (cfg : RootConfig) : Build (Node σ) :=
  makeComponent P cfg depth Kind.rmc.name 0

end Make

end Factory

end Vans
