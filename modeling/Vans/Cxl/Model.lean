import Vans.Model.Base
import Mathlib.Data.List.AList
/-!
# CXL — commands, memory and protocol handler

The memory keeps a byte vector an allocation, and gives every
allocation the next address. The protocol handler turns a command into a
call of the memory and delivers the response to the callback registered
with it. Two kinds of call do not return: copying more bytes than either
side has is undefined in the source, and a vector of more bytes than any
has throws, which leaves the memory as it is by then. Below that length
there is memory for every vector.
-/

namespace Vans

namespace Cxl

inductive CxlCommandType where
  | read
  | write
  | discover
  | invalidate
  | flush
  | allocate
  | deallocate
  deriving DecidableEq, Repr

structure CxlCommand where
  type : CxlCommandType
  address : Addr
  /-- The source's `size_t`. -/
  size : UInt64
  data : List UInt8 := []
  deriving DecidableEq, Repr

structure CxlResponse where
  success : Bool := false
  data : List UInt8 := []
  deriving DecidableEq, Repr

structure MockCxlMemory where
  nextFreeAddress : Addr := 1
  memory : AList (fun _ : Addr => List UInt8) := ∅
  deriving DecidableEq

/-- How a call does not return. -/
inductive Failure where
  /-- A copy out of bounds, which the source leaves undefined. -/
  | undefined
  /-- The `std::length_error` a vector throws, and the memory left. -/
  | lengthError (left : MockCxlMemory)
  deriving DecidableEq

/-- The `max_size` of a vector of bytes: its differences are signed. -/
def maxSize : ℕ := 2 ^ 63 - 1

/-- A vector of so many zeros, made while the memory is `m`. -/
def vector (size : UInt64) (m : MockCxlMemory) : Except Failure (List UInt8) :=
  if maxSize < size.toNat then throw (.lengthError m)
  else pure (List.replicate size.toNat 0)

/-- The first `n` bytes of `src` replace those of `dst`. -/
def memcpy (dst src : List UInt8) (n : ℕ) : Except Failure (List UInt8) :=
  if dst.length < n ∨ src.length < n then throw .undefined
  else pure (src.take n ++ dst.drop n)

/-- The command asks for no vector longer than there is. -/
def CxlCommand.Fits (cmd : CxlCommand) : Prop :=
  cmd.type = .read ∨ cmd.type = .allocate → cmd.size.toNat ≤ maxSize

instance CxlCommand.Fits.decidable : DecidablePred CxlCommand.Fits := fun cmd =>
  inferInstanceAs (Decidable (cmd.type = .read ∨ cmd.type = .allocate → cmd.size.toNat ≤ maxSize))

theorem vector_eq {size : UInt64} {m : MockCxlMemory} (h : size.toNat ≤ maxSize) :
    vector size m = .ok (List.replicate size.toNat 0) :=
  if_neg (by omega)

theorem vector_throws {size : UInt64} {m : MockCxlMemory} (h : maxSize < size.toNat) :
    vector size m = .error (.lengthError m) :=
  if_pos h

theorem memcpy_eq {dst src : List UInt8} {n : ℕ} (hdst : n ≤ dst.length) (hsrc : n ≤ src.length) :
    memcpy dst src n = .ok (src.take n ++ dst.drop n) :=
  if_neg (by omega)

/-- The bytes of an address, as `memcpy` finds them: lowest first. -/
def bytesOf (addr : Addr) : List UInt8 :=
  (List.range 8).map fun i => (addr >>> (8 * UInt64.ofNat i)).toUInt8

/-! ## The memory -/

namespace MockCxlMemory

/-- The memory's `read`, with the buffer it fills. -/
def read (address : Addr) (buffer : List UInt8) (size : UInt64) (m : MockCxlMemory) :
    Except Failure (Bool × List UInt8) :=
  match m.memory.lookup address with
  | none => pure (false, buffer)
  | some bytes =>
    if bytes.length < size.toNat then pure (false, buffer)
    else do
      let buffer ← memcpy buffer bytes size.toNat
      return (true, buffer)

def write (address : Addr) (data : List UInt8) (size : UInt64) (m : MockCxlMemory) :
    Except Failure (Bool × MockCxlMemory) :=
  match m.memory.lookup address with
  | none => pure (false, m)
  | some bytes =>
    if bytes.length < size.toNat then pure (false, m)
    else do
      let bytes ← memcpy bytes data size.toNat
      return (true, { m with memory := m.memory.insert address bytes })

/-- The address is counted before the vector is made, and the vector made
before its place in the map, the right side of the assignment first. -/
def allocate (size : UInt64) (m : MockCxlMemory) : Except Failure (Addr × MockCxlMemory) := do
  let addr := m.nextFreeAddress
  let m := { m with nextFreeAddress := m.nextFreeAddress + 1 }
  let bytes ← vector size m
  return (addr, { m with memory := m.memory.insert addr bytes })

theorem allocate_eq {size : UInt64} {m : MockCxlMemory} (h : size.toNat ≤ maxSize) :
    m.allocate size = .ok (m.nextFreeAddress,
      { nextFreeAddress := m.nextFreeAddress + 1
        memory := m.memory.insert m.nextFreeAddress (List.replicate size.toNat 0) }) := by
  simp only [allocate, vector_eq h]
  rfl

theorem allocate_throws {size : UInt64} {m : MockCxlMemory} (h : maxSize < size.toNat) :
    m.allocate size = .error (.lengthError { m with nextFreeAddress := m.nextFreeAddress + 1 }) := by
  simp only [allocate, vector_throws h]
  rfl

def deallocate (address : Addr) (m : MockCxlMemory) : MockCxlMemory :=
  { m with memory := m.memory.erase address }

end MockCxlMemory

/-! ## The protocol handler -/

/-- The handler, with the token of the callback registered for its
responses. -/
structure CxlProtocolHandlerImpl (κ : Type) where
  memory : MockCxlMemory := {}
  responseCb : Option κ := none

namespace CxlProtocolHandlerImpl

variable {κ : Type}

def registerResponseCallback (cb : κ) (h : CxlProtocolHandlerImpl κ) : CxlProtocolHandlerImpl κ :=
  { h with responseCb := some cb }

/-- A response is delivered where a callback is registered. -/
def invokeResponse (resp : CxlResponse) (h : CxlProtocolHandlerImpl κ) : List (κ × CxlResponse) :=
  match h.responseCb with
  | none => []
  | some cb => [(cb, resp)]

/-- What the command does to the memory, and the response to it. -/
def respond (cmd : CxlCommand) (m : MockCxlMemory) :
    Except Failure (CxlResponse × MockCxlMemory) :=
  match cmd.type with
  | .read => do
    -- the response's buffer is made before the memory is asked
    let data ← vector cmd.size m
    let (success, data) ← m.read cmd.address data cmd.size
    return ({ success := success, data := data }, m)
  | .write => do
    let (success, m) ← m.write cmd.address cmd.data cmd.size
    return ({ success := success }, m)
  | .allocate => do
    let (addr, m) ← m.allocate cmd.size
    if addr ≠ 0 then pure ({ success := true, data := bytesOf addr }, m)
    else pure ({ success := false }, m)
  | .deallocate => pure ({ success := true }, m.deallocate cmd.address)
  | .discover | .invalidate | .flush => pure ({ success := false }, m)

section Throws

variable {cmd : CxlCommand} {m : MockCxlMemory}

/-- A read of too many bytes throws, and leaves the memory as it was. -/
theorem respond_read_throws (htype : cmd.type = .read) (hlong : maxSize < cmd.size.toNat) :
    respond cmd m = .error (.lengthError m) := by
  simp only [respond, htype, vector_throws hlong]
  rfl

/-- An allocation of too many throws, and an address is gone. -/
theorem respond_allocate_throws (htype : cmd.type = .allocate)
    (hlong : maxSize < cmd.size.toNat) : respond cmd m =
      .error (.lengthError { m with nextFreeAddress := m.nextFreeAddress + 1 }) := by
  simp only [respond, htype, MockCxlMemory.allocate_throws hlong]
  rfl

/-- A command that asks for too long a vector throws, before anything is
delivered. -/
theorem respond_throws (h : ¬ cmd.Fits) :
    ∃ left, respond cmd m = .error (.lengthError left) := by
  simp only [CxlCommand.Fits, Classical.not_imp, Nat.not_le] at h
  obtain ⟨htype | htype, hlong⟩ := h
  · exact ⟨_, respond_read_throws htype hlong⟩
  · exact ⟨_, respond_allocate_throws htype hlong⟩

end Throws

/-- The value returned, and the responses delivered. -/
def issueCommand (cmd : CxlCommand) (h : CxlProtocolHandlerImpl κ) :
    Except Failure (Bool × List (κ × CxlResponse) × CxlProtocolHandlerImpl κ) := do
  let (response, memory) ← respond cmd h.memory
  let h := { h with memory := memory }
  return (response.success, h.invokeResponse response, h)

end CxlProtocolHandlerImpl

/-! ## Sessions -/

/-- A command handled: what was returned and what was delivered. -/
structure Served (κ : Type) where
  cmd : CxlCommand
  returned : Bool
  delivered : List (κ × CxlResponse)

/-- A handler, and the commands it has handled. -/
structure Session (κ : Type) where
  handler : CxlProtocolHandlerImpl κ
  served : List (Served κ) := []

variable {κ : Type}

def machine : Machine (Session κ) CxlCommand Failure where
  step := fun s cmd => do
    let (returned, delivered, handler) ← s.handler.issueCommand cmd
    return { handler := handler, served := s.served ++ [⟨cmd, returned, delivered⟩] }

/-- The callback is registered, and the memory is new. -/
def Session.init (cb : κ) : Session κ :=
  { handler := ({} : CxlProtocolHandlerImpl κ).registerResponseCallback cb }

end Cxl

end Vans
