import Vans.Model.Base
import Vans.Common.Lines
import Vans.Common.Numerals
import Mathlib.Data.List.AList
/-!
# Configuration files

`root_config` reads sections of keys and values. White space is removed
from a line before anything is asked of it; the key ends at the first
colon of the line, and at the first equals sign only where the line has
no colon. What the source writes to its error stream is left out, and a
call of `exit` is a failed computation.
-/

namespace Vans

open Lines Numerals

abbrev Text := List Char

/-- A section: its keys and their values. -/
structure Config where
  sectionName : Text
  cfg : AList (fun _ : Text => Text) := ∅

namespace Config

def check (key : Text) (c : Config) : Bool := (c.cfg.lookup key).isSome

def getString (key : Text) (c : Config) : Result Text :=
  match c.cfg.lookup key with
  | some value => pure value
  | none => throw "std::out_of_range: map::at"

def getUlong (key : Text) (c : Config) : Result UInt64 := do
  let value ← c.getString key
  let (n, _) ← stoul 10 value
  return n

end Config

structure RootConfig where
  cfg : AList (fun _ : Text => Config) := ∅

namespace RootConfig

/-- An entry of the organization: how many children, and their name. -/
structure Organization where
  count : ℤ
  type : Text
  deriving DecidableEq, Repr

/-- A section, by its name. -/
def atKey (key : Text) (c : RootConfig) : Result Config :=
  match c.cfg.lookup key with
  | some cfg => pure cfg
  | none => throw "std::out_of_range: map::at"

/-- `std::stoi` of what is before the star, and what is after it. -/
def parseOrganization (orgStr : Text) : Result Organization :=
  match orgStr.findIdx? (· = '*') with
  | none => throw ("Config format error: " ++ String.ofList orgStr)
  | some delimiterPos => do
    let count ← stoi (orgStr.take delimiterPos)
    return { count := count, type := orgStr.drop (delimiterPos + 1) }

def getOrganization (key : Text) (c : RootConfig) : Result Organization := do
  let organization ← c.atKey "organization".toList
  let orgStr ← organization.getString key
  parseOrganization orgStr

/-- The file as it is read: the sections so far, and the one that is
open. -/
structure Reading where
  root : RootConfig := {}
  currSection : Text := []

/-- Where the key ends: at the first colon, or else at the first equals
sign. -/
def delimiterPos (line : Text) : Option ℕ :=
  match line.findIdx? (· = ':') with
  | some pos => some pos
  | none => line.findIdx? (· = '=')

/-- A section is opened. One that was read before is reopened. -/
def openSection (currSection : Text) (st : Reading) : Reading where
  root := match st.root.cfg.lookup currSection with
    | some _ => st.root
    | none => { cfg := st.root.cfg.insert currSection { sectionName := currSection } }
  currSection := currSection

/-- The value is stored under the key of the open section. -/
def store (key value : Text) (st : Reading) : Result Reading := do
  let cfg ← st.root.atKey st.currSection
  let cfg := { cfg with cfg := cfg.cfg.insert key value }
  return { st with root := { cfg := st.root.cfg.insert st.currSection cfg } }

/-- What the reader does with a line. -/
def readLine (st : Reading) (line : Text) : Result Reading :=
  let line := line.filter fun c => !isSpace c
  if line.head? = some '#' ∨ line.head? = some ';' ∨ line = [] then pure st
  else if st.currSection = [] ∧ line.head? ≠ some '[' then
    throw "exit: the first non-comment line must be a section name"
  else if line.head? = some '[' then
    pure (openSection ((line.drop 1).take (line.length - 2)) st)
  else
    match delimiterPos line with
    | none => throw ("Config format error: " ++ String.ofList line)
    | some pos => store (line.take pos) (line.drop (pos + 1)) st

/-- `root_config::root_config`, from the content of the file. -/
def read (text : Text) : Result RootConfig := do
  let st ← (linesOf text).foldlM readLine {}
  return st.root

/-- **The loop of the constructor** comes to the end of every file, and
is the fold over its lines. -/
theorem read_loop {text line : Text} {n : ℕ} (hn : (linesOf text).length < n) :
    whileGetline readLine n line { rest := text } {} = some ((linesOf text).foldlM readLine {}) :=
  whileGetline_eq hn

end RootConfig

end Vans
