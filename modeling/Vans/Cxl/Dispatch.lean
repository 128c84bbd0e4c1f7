import Vans.Cxl.Model
/-!
# CXL — the two dispatchers

The source turns a command into a call of the memory in two places: in
the protocol handler, and in the command processor, which hands its
responses to a protocol handler to deliver. This file runs both from the
same memory. They differ on a read that fails and asks for bytes: the
handler's response carries the buffer it had made, the processor's
nothing; for more bytes than a vector has both throw. Neither asks
whether a write carries the bytes it announces, and the copy of such a
write is undefined wherever the memory has room for it.
-/

namespace Vans

namespace Cxl

/-! ## The command processor -/

/-- The processor: the memory, and the protocol handler its responses go
through. -/
structure CxlCommandProcessor (κ : Type) where
  memory : MockCxlMemory := {}
  protocol : Option (CxlProtocolHandlerImpl κ) := none

namespace CxlCommandProcessor

variable {κ : Type}

/-- What the command does to the memory, and the response to it: a
failure until the call succeeds. -/
def respond (cmd : CxlCommand) (m : MockCxlMemory) :
    Except Failure (CxlResponse × MockCxlMemory) :=
  let response : CxlResponse := { success := false }
  match cmd.type with
  | .read => do
    let buffer ← vector cmd.size m
    let (success, buffer) ← m.read cmd.address buffer cmd.size
    if success then return ({ success := true, data := buffer }, m)
    else return (response, m)
  | .write => do
    let (success, m) ← m.write cmd.address cmd.data cmd.size
    if success then return ({ response with success := true }, m)
    else return (response, m)
  | .allocate => do
    let (addr, m) ← m.allocate cmd.size
    return ({ success := true, data := bytesOf addr }, m)
  | .deallocate => pure ({ response with success := true }, m.deallocate cmd.address)
  | .discover | .invalidate | .flush => pure (response, m)

/-- The responses delivered. -/
def handleCommand (cmd : CxlCommand) (p : CxlCommandProcessor κ) :
    Except Failure (List (κ × CxlResponse) × CxlCommandProcessor κ) := do
  let (response, memory) ← respond cmd p.memory
  let delivered :=
    match p.protocol with
    | none => []
    | some protocol => protocol.invokeResponse response
  return (delivered, { p with memory := memory })

end CxlCommandProcessor

/-! ## Either dispatcher -/

inductive Dispatcher where
  | protocolHandler
  | commandProcessor
  deriving DecidableEq, Repr

namespace Dispatcher

variable {κ : Type}

/-- The command through the dispatcher, from the memory: what is
delivered to the callback registered, and the memory left. -/
def serve (cb : κ) (m : MockCxlMemory) (cmd : CxlCommand) :
    Dispatcher → Except Failure (List (κ × CxlResponse) × MockCxlMemory)
  | protocolHandler => do
    let (_, delivered, h) ← CxlProtocolHandlerImpl.issueCommand cmd ⟨m, some cb⟩
    return (delivered, h.memory)
  | commandProcessor => do
    let (delivered, p) ← CxlCommandProcessor.handleCommand cmd ⟨m, some ⟨m, some cb⟩⟩
    return (delivered, p.memory)

/-- A memory under commands, each through the dispatcher of its choice.
Who issues them may catch what is thrown, and go on. -/
def machine (cb : κ) : Machine MockCxlMemory (Dispatcher × CxlCommand) Failure where
  step := fun m call =>
    match call.1.serve cb m call.2 with
    | .ok (_, m) => .ok m
    | .error (.lengthError left) => .ok left
    | .error .undefined => .error .undefined

end Dispatcher

/-- The memory has an allocation of the size at the address. -/
def MockCxlMemory.HasRoom (m : MockCxlMemory) (address : Addr) (size : UInt64) : Prop :=
  ∃ bytes, m.memory.lookup address = some bytes ∧ size.toNat ≤ bytes.length

/-- **The dispatchers agree**: they deliver the same responses and leave
the same memory, or both throw and leave the same memory. -/
def Agree {κ : Type} (cb : κ) (m : MockCxlMemory) (cmd : CxlCommand) : Prop :=
  Dispatcher.protocolHandler.serve cb m cmd = Dispatcher.commandProcessor.serve cb m cmd

/-- **The dispatchers answer alike**: each delivers one response, and the
two deliver the same and leave the same memory. -/
def AnswerAlike {κ : Type} (cb : κ) (m : MockCxlMemory) (cmd : CxlCommand) : Prop :=
  ∃ resp m', Dispatcher.protocolHandler.serve cb m cmd = .ok ([(cb, resp)], m') ∧
    Dispatcher.commandProcessor.serve cb m cmd = .ok ([(cb, resp)], m')

/-- **A write keeps to its payload**: without the bytes it announces it
is refused, and nothing changes; with them, exactly these are stored
where there is room, and nothing elsewhere. -/
def KeepsToPayload {κ : Type} (cb : κ) (m : MockCxlMemory) (cmd : CxlCommand) (d : Dispatcher) :
    Prop :=
  (cmd.data.length < cmd.size.toNat → d.serve cb m cmd = .ok ([(cb, ⟨false, []⟩)], m)) ∧
  (cmd.size.toNat ≤ cmd.data.length →
    (∀ bytes, m.memory.lookup cmd.address = some bytes → cmd.size.toNat ≤ bytes.length →
      d.serve cb m cmd = .ok ([(cb, ⟨true, []⟩)],
        { m with memory := m.memory.insert cmd.address
                  (cmd.data.take cmd.size.toNat ++ bytes.drop cmd.size.toNat) })) ∧
    (¬ m.HasRoom cmd.address cmd.size → d.serve cb m cmd = .ok ([(cb, ⟨false, []⟩)], m)))

/-! ## What a call of the memory does -/

section Calls

variable {m : MockCxlMemory} {address : Addr} {size : UInt64} {data bytes buffer : List UInt8}

theorem MockCxlMemory.write_stores (hlook : m.memory.lookup address = some bytes)
    (hroom : size.toNat ≤ bytes.length) (hdata : size.toNat ≤ data.length) :
    m.write address data size =
      .ok (true, { m with
        memory := m.memory.insert address (data.take size.toNat ++ bytes.drop size.toNat) }) := by
  simp only [MockCxlMemory.write, hlook, if_neg (Nat.not_lt.mpr hroom), memcpy_eq hroom hdata]
  rfl

theorem MockCxlMemory.write_refused (h : ¬ m.HasRoom address size) :
    m.write address data size = .ok (false, m) := by
  unfold MockCxlMemory.write
  split
  · rfl
  · next bytes hlook =>
      rw [if_pos (Nat.lt_of_not_le fun hle => h ⟨bytes, hlook, hle⟩)]
      rfl

/-- **The copy past the payload is undefined.** -/
theorem MockCxlMemory.write_undefined (hroom : m.HasRoom address size)
    (hdata : data.length < size.toNat) :
    m.write address data size = .error .undefined := by
  obtain ⟨bytes, hlook, hle⟩ := hroom
  simp only [MockCxlMemory.write, hlook, if_neg (Nat.not_lt.mpr hle), memcpy, hdata, or_true, if_true]
  rfl

theorem MockCxlMemory.read_copies (hroom : m.HasRoom address size)
    (hbuffer : buffer.length = size.toNat) :
    ∃ bytes, m.read address buffer size = .ok (true, bytes) := by
  obtain ⟨bytes, hlook, hle⟩ := hroom
  refine ⟨bytes.take size.toNat ++ buffer.drop size.toNat, ?_⟩
  simp only [MockCxlMemory.read, hlook, if_neg (Nat.not_lt.mpr hle), memcpy_eq hbuffer.ge hle]
  rfl

theorem MockCxlMemory.read_refused (h : ¬ m.HasRoom address size) :
    m.read address buffer size = .ok (false, buffer) := by
  unfold MockCxlMemory.read
  split
  · rfl
  · next bytes hlook =>
      rw [if_pos (Nat.lt_of_not_le fun hle => h ⟨bytes, hlook, hle⟩)]
      rfl

end Calls

/-! ## The dispatchers agree -/

namespace Dispatcher

variable {κ : Type} {cb : κ} {m m' : MockCxlMemory} {cmd : CxlCommand} {resp : CxlResponse}
  {d : Dispatcher}

/-- What the dispatcher does to the memory, and its response. -/
def respond (d : Dispatcher) (cmd : CxlCommand) (m : MockCxlMemory) :
    Except Failure (CxlResponse × MockCxlMemory) :=
  match d with
  | protocolHandler => CxlProtocolHandlerImpl.respond cmd m
  | commandProcessor => CxlCommandProcessor.respond cmd m

/-- **A response is delivered once.** -/
theorem serve_eq : d.serve cb m cmd = (d.respond cmd m).map fun r => ([(cb, r.1)], r.2) := by
  cases d with
  | protocolHandler =>
      simp only [serve, CxlProtocolHandlerImpl.issueCommand, respond]
      cases CxlProtocolHandlerImpl.respond cmd m <;> rfl
  | commandProcessor =>
      simp only [serve, CxlCommandProcessor.handleCommand, respond]
      cases CxlCommandProcessor.respond cmd m <;> rfl

theorem serve_eq_ok :
    d.serve cb m cmd = .ok ([(cb, resp)], m') ↔ d.respond cmd m = .ok (resp, m') := by
  rw [serve_eq, map_eq_ok]
  constructor
  · rintro ⟨⟨resp', m''⟩, hresp, heq⟩
    simp only [Prod.mk.injEq, List.cons.injEq, and_true, true_and] at heq
    rw [hresp, heq.1, heq.2]
  · intro hresp
    exact ⟨_, hresp, rfl⟩

/-- A write is what the memory makes of it, through either dispatcher. -/
theorem respond_write (htype : cmd.type = .write) :
    d.respond cmd m = (m.write cmd.address cmd.data cmd.size).map fun r => (⟨r.1, []⟩, r.2) := by
  cases d with
  | protocolHandler =>
      simp only [respond, CxlProtocolHandlerImpl.respond, htype]
      cases m.write cmd.address cmd.data cmd.size <;> rfl
  | commandProcessor =>
      simp only [respond, CxlCommandProcessor.respond, htype]
      rcases m.write cmd.address cmd.data cmd.size with e | ⟨success, m'⟩
      · rfl
      · cases success <;> rfl

/-- A read returns, and leaves the memory as it was. -/
theorem respond_read (htype : cmd.type = .read) (hfits : cmd.size.toNat ≤ maxSize) :
    ∃ resp, d.respond cmd m = .ok (resp, m) := by
  by_cases hroom : m.HasRoom cmd.address cmd.size
  · obtain ⟨bytes, hread⟩ := @MockCxlMemory.read_copies m _ _
      (List.replicate cmd.size.toNat 0) hroom List.length_replicate
    refine ⟨⟨true, bytes⟩, ?_⟩
    cases d <;>
      · simp only [respond, CxlProtocolHandlerImpl.respond, CxlCommandProcessor.respond, htype,
          vector_eq hfits, ok_bind, hread]
        rfl
  · cases d <;>
      · simp only [respond, CxlProtocolHandlerImpl.respond, CxlCommandProcessor.respond, htype,
          vector_eq hfits, ok_bind, MockCxlMemory.read_refused hroom]
        exact ⟨_, rfl⟩

/-- It throws where there is no vector for what it reads. -/
theorem respond_read_throws (htype : cmd.type = .read) (hlong : maxSize < cmd.size.toNat) :
    d.respond cmd m = .error (.lengthError m) := by
  cases d with
  | protocolHandler => exact CxlProtocolHandlerImpl.respond_read_throws htype hlong
  | commandProcessor =>
      simp only [respond, CxlCommandProcessor.respond, htype, vector_throws hlong]
      rfl

/-- An allocation is that of the memory. -/
theorem respond_allocate (htype : cmd.type = .allocate) (hfits : cmd.size.toNat ≤ maxSize) :
    ∃ resp, d.respond cmd m = .ok (resp,
      { nextFreeAddress := m.nextFreeAddress + 1
        memory := m.memory.insert m.nextFreeAddress (List.replicate cmd.size.toNat 0) }) := by
  cases d with
  | protocolHandler =>
      simp only [respond, CxlProtocolHandlerImpl.respond, htype, MockCxlMemory.allocate_eq hfits,
        ok_bind]
      by_cases hnext : m.nextFreeAddress = 0
      · exact ⟨_, if_neg (not_not.mpr hnext)⟩
      · exact ⟨_, if_pos hnext⟩
  | commandProcessor =>
      simp only [respond, CxlCommandProcessor.respond, htype, MockCxlMemory.allocate_eq hfits,
        ok_bind]
      exact ⟨_, rfl⟩

/-- It throws where there is no vector for it, and an address is gone. -/
theorem respond_allocate_throws (htype : cmd.type = .allocate)
    (hlong : maxSize < cmd.size.toNat) : d.respond cmd m =
      .error (.lengthError { m with nextFreeAddress := m.nextFreeAddress + 1 }) := by
  cases d with
  | protocolHandler => exact CxlProtocolHandlerImpl.respond_allocate_throws htype hlong
  | commandProcessor =>
      simp only [respond, CxlCommandProcessor.respond, htype,
        MockCxlMemory.allocate_throws hlong]
      rfl

/-- A command returns where its vectors are and where a write carries the
bytes it announces. -/
theorem respond_returns (hfits : cmd.Fits)
    (hsize : cmd.type = .write → cmd.size.toNat ≤ cmd.data.length) :
    ∃ resp m', d.respond cmd m = .ok (resp, m') := by
  cases htype : cmd.type with
  | read =>
      obtain ⟨resp, hresp⟩ := @respond_read m cmd d htype (hfits (.inl htype))
      exact ⟨resp, m, hresp⟩
  | write =>
      rw [respond_write htype]
      by_cases hroom : m.HasRoom cmd.address cmd.size
      · obtain ⟨bytes, hlook, hle⟩ := hroom
        exact ⟨_, _, by rw [MockCxlMemory.write_stores hlook hle (hsize htype)]; rfl⟩
      · exact ⟨_, _, by rw [MockCxlMemory.write_refused hroom]; rfl⟩
  | allocate =>
      obtain ⟨resp, hresp⟩ := @respond_allocate m cmd d htype (hfits (.inr htype))
      exact ⟨resp, _, hresp⟩
  | deallocate | discover | invalidate | flush =>
      cases d <;>
        · simp only [respond, CxlProtocolHandlerImpl.respond, CxlCommandProcessor.respond, htype]
          exact ⟨_, _, rfl⟩

end Dispatcher

section Agreement

variable {κ : Type} {cb : κ} {m : MockCxlMemory} {cmd : CxlCommand}

/-- The dispatchers agree where they make the same of the command. -/
theorem agree_iff : Agree cb m cmd ↔
    CxlProtocolHandlerImpl.respond cmd m = CxlCommandProcessor.respond cmd m := by
  rw [Agree, Dispatcher.serve_eq, Dispatcher.serve_eq]
  constructor
  · intro h
    refine map_injective (fun r r' heq => ?_) h
    simp only [Prod.mk.injEq, List.cons.injEq, and_true, true_and] at heq
    exact Prod.ext heq.1 heq.2
  · intro h
    simp only [Dispatcher.respond, h]

/-- A read that finds its bytes is answered with them by both. -/
theorem agree_read (htype : cmd.type = .read) (hroom : m.HasRoom cmd.address cmd.size) :
    Agree cb m cmd := by
  rw [agree_iff]
  simp only [CxlProtocolHandlerImpl.respond, CxlCommandProcessor.respond, htype]
  by_cases hlong : maxSize < cmd.size.toNat
  · simp only [vector_throws hlong]
    rfl
  · obtain ⟨bytes, hread⟩ := @MockCxlMemory.read_copies m _ _
      (List.replicate cmd.size.toNat 0) hroom List.length_replicate
    simp only [vector_eq (Nat.le_of_not_lt hlong), ok_bind, hread]
    rfl

/-- **A read that fails** is answered with the buffer by the one, and
with nothing by the other; both throw where there is no such buffer. -/
theorem agree_read_refused (htype : cmd.type = .read) (hroom : ¬ m.HasRoom cmd.address cmd.size) :
    Agree cb m cmd ↔ cmd.size = 0 ∨ maxSize < cmd.size.toNat := by
  rw [agree_iff]
  simp only [CxlProtocolHandlerImpl.respond, CxlCommandProcessor.respond, htype]
  by_cases hlong : maxSize < cmd.size.toNat
  · simp only [vector_throws hlong, hlong, or_true, iff_true]
    rfl
  · simp only [vector_eq (Nat.le_of_not_lt hlong), ok_bind, MockCxlMemory.read_refused hroom,
      hlong, or_false]
    constructor
    · intro heq
      have hlen := congrArg (fun r => r.1.data.length) (Except.ok.inj heq)
      simp only [List.length_replicate, List.length_nil] at hlen
      exact UInt64.toNat_inj.mp hlen
    · intro hzero
      rw [hzero]
      rfl

/-- A write is made the same of by both. -/
theorem agree_write (htype : cmd.type = .write) : Agree cb m cmd := by
  have hhandler := @Dispatcher.respond_write m cmd .protocolHandler htype
  have hprocessor := @Dispatcher.respond_write m cmd .commandProcessor htype
  exact agree_iff.mpr (hhandler.trans hprocessor.symm)

/-- An allocation is answered alike where its address is not zero. -/
theorem agree_allocate (htype : cmd.type = .allocate) (hnext : m.nextFreeAddress ≠ 0) :
    Agree cb m cmd := by
  rw [agree_iff]
  by_cases hlong : maxSize < cmd.size.toNat
  · exact (@Dispatcher.respond_allocate_throws m cmd .protocolHandler htype hlong).trans
      (@Dispatcher.respond_allocate_throws m cmd .commandProcessor htype hlong).symm
  · simp only [CxlProtocolHandlerImpl.respond, CxlCommandProcessor.respond, htype,
      MockCxlMemory.allocate_eq (Nat.le_of_not_lt hlong), ok_bind, ne_eq, hnext,
      not_false_eq_true, if_true]

/-- **The dispatchers agree but on reads that fail.** -/
theorem agree_iff_of_next (hnext : m.nextFreeAddress ≠ 0) : Agree cb m cmd ↔
    (cmd.type = .read → cmd.size ≠ 0 → cmd.size.toNat ≤ maxSize →
      m.HasRoom cmd.address cmd.size) := by
  cases htype : cmd.type with
  | read =>
      simp only [forall_const]
      by_cases hroom : m.HasRoom cmd.address cmd.size
      · simp only [agree_read htype hroom, hroom, implies_true]
      · rw [agree_read_refused htype hroom]
        simp only [hroom, imp_false, Nat.not_le]
        exact or_iff_not_imp_left
  | write => simp [agree_write htype]
  | allocate => simp [agree_allocate htype hnext]
  | deallocate | discover | invalidate | flush =>
      have hagree : Agree cb m cmd := by
        rw [agree_iff]
        simp only [CxlProtocolHandlerImpl.respond, CxlCommandProcessor.respond, htype]
      simp [hagree]

/-- To answer alike is to agree, and to answer. -/
theorem answerAlike_iff (hsize : cmd.type = .write → cmd.size.toNat ≤ cmd.data.length) :
    AnswerAlike cb m cmd ↔ Agree cb m cmd ∧ cmd.Fits := by
  constructor
  · rintro ⟨resp, m', hhandler, hprocessor⟩
    refine ⟨hhandler.trans hprocessor.symm, ?_⟩
    by_contra hlong
    obtain ⟨left, hthrows⟩ := @CxlProtocolHandlerImpl.respond_throws cmd m hlong
    rw [Dispatcher.serve_eq_ok, Dispatcher.respond, hthrows] at hhandler
    cases hhandler
  · rintro ⟨hagree, hfits⟩
    obtain ⟨resp, m', hresp⟩ := @Dispatcher.respond_returns m cmd .protocolHandler hfits hsize
    have hhandler : Dispatcher.protocolHandler.serve cb m cmd = .ok ([(cb, resp)], m') :=
      Dispatcher.serve_eq_ok.mpr hresp
    exact ⟨resp, m', hhandler, hagree.symm.trans hhandler⟩

end Agreement

/-! ### Which addresses a memory under commands has given out -/

section Reached

variable {κ : Type} {cb : κ} {m m' : MockCxlMemory} {cmd : CxlCommand} {d : Dispatcher}
  {calls : List (Dispatcher × CxlCommand)}

/-- Allocations among the commands. -/
def allocations (calls : List (Dispatcher × CxlCommand)) : ℕ :=
  calls.countP fun call => call.2.type = .allocate

/-- The memory a call leaves, whether it returns or throws. -/
def Leaves {A : Type} (x : Except Failure (A × MockCxlMemory)) (m' : MockCxlMemory) : Prop :=
  (∃ a, x = .ok (a, m')) ∨ x = .error (.lengthError m')

@[simp] theorem leaves_ok {A : Type} {a : A} : Leaves (.ok (a, m)) m' ↔ m = m' := by
  simp [Leaves]

@[simp] theorem leaves_lengthError {A : Type} :
    Leaves (.error (.lengthError m) : Except Failure (A × MockCxlMemory)) m' ↔ m = m' := by
  simp [Leaves]

@[simp] theorem not_leaves_undefined {A : Type} :
    ¬ Leaves (.error .undefined : Except Failure (A × MockCxlMemory)) m' := by
  simp [Leaves]

/-- A write leaves the next address alone. -/
theorem MockCxlMemory.write_next {address : Addr} {data : List UInt8} {size : UInt64}
    (h : Leaves (m.write address data size) m') : m'.nextFreeAddress = m.nextFreeAddress := by
  by_cases hroom : m.HasRoom address size
  · by_cases hsize : size.toNat ≤ data.length
    · obtain ⟨bytes, hlook, hle⟩ := hroom
      rw [write_stores hlook hle hsize, leaves_ok] at h
      rw [← h]
    · rw [write_undefined hroom (Nat.lt_of_not_le hsize)] at h
      exact absurd h not_leaves_undefined
  · rw [write_refused hroom, leaves_ok] at h
    rw [← h]

/-- **Only an allocation takes an address**, and it takes one, also
where it throws. -/
theorem Dispatcher.respond_next (h : Leaves (d.respond cmd m) m') :
    m'.nextFreeAddress = m.nextFreeAddress + if cmd.type = .allocate then 1 else 0 := by
  cases htype : cmd.type with
  | read =>
      have hsame : m = m' := by
        by_cases hlong : maxSize < cmd.size.toNat
        · rwa [respond_read_throws htype hlong, leaves_lengthError] at h
        · obtain ⟨resp, hresp⟩ := @respond_read m cmd d htype (Nat.le_of_not_lt hlong)
          rwa [hresp, leaves_ok] at h
      simp [hsame]
  | write =>
      rw [respond_write htype] at h
      cases hwrite : m.write cmd.address cmd.data cmd.size with
      | ok r =>
          rw [hwrite] at h
          obtain rfl := leaves_ok.mp h
          simpa using MockCxlMemory.write_next (.inl ⟨r.1, hwrite⟩)
      | error e =>
          rw [hwrite] at h
          rcases h with ⟨resp, h⟩ | h
          · cases h
          · simpa using MockCxlMemory.write_next (.inr (hwrite.trans (by rw [← Except.error.inj h])))
  | allocate =>
      by_cases hlong : maxSize < cmd.size.toNat
      · rw [respond_allocate_throws htype hlong, leaves_lengthError] at h
        rw [← h]
        rfl
      · obtain ⟨resp, hresp⟩ := @respond_allocate m cmd d htype (Nat.le_of_not_lt hlong)
        rw [hresp, leaves_ok] at h
        rw [← h]
        rfl
  | deallocate | discover | invalidate | flush =>
      cases d <;>
        · simp only [respond, CxlProtocolHandlerImpl.respond, CxlCommandProcessor.respond, htype,
            Pure.pure, Except.pure, leaves_ok] at h
          simp [← h, MockCxlMemory.deallocate]

/-- **What a step can do**: the command returned, or threw. -/
theorem machine_step (h : (Dispatcher.machine cb).step m (d, cmd) = .ok m') :
    Leaves (d.respond cmd m) m' := by
  simp only [Dispatcher.machine, Dispatcher.serve_eq] at h
  cases hresp : d.respond cmd m with
  | ok r =>
      rw [hresp] at h
      exact leaves_ok.mpr (Except.ok.inj h)
  | error e =>
      rw [hresp] at h
      cases e with
      | undefined => cases h
      | lengthError left => exact leaves_lengthError.mpr (Except.ok.inj h)

/-- Who catches what is thrown goes on from the memory left. -/
theorem machine_step_thrown (h : d.respond cmd m = .error (.lengthError m')) :
    (Dispatcher.machine cb).step m (d, cmd) = .ok m' := by
  simp only [Dispatcher.machine, Dispatcher.serve_eq, h]
  rfl

/-- **The next address counts the allocations**, as a word does. -/
theorem next_of_run (h : (Dispatcher.machine cb).run m calls = .ok m') :
    m'.nextFreeAddress = m.nextFreeAddress + UInt64.ofNat (allocations calls) := by
  induction calls generalizing m with
  | nil =>
      obtain rfl := Except.ok.inj h
      simp [allocations]
  | cons call calls ih =>
      obtain ⟨d, cmd⟩ := call
      rw [Machine.run_cons, bind_eq_ok] at h
      obtain ⟨u, hu, hut⟩ := h
      rw [ih hut, Dispatcher.respond_next (machine_step hu), allocations, allocations, List.countP_cons,
        UInt64.add_assoc, UInt64.ofNat_add, UInt64.add_comm (UInt64.ofNat _)]
      by_cases htype : cmd.type = .allocate <;> simp [htype]

/-- **Fewer than `2 ^ 64 - 1` allocations leave the address zero alone.** -/
theorem next_ne_zero (h : (Dispatcher.machine cb).run {} calls = .ok m)
    (hallocs : allocations calls < 2 ^ 64 - 1) : m.nextFreeAddress ≠ 0 := by
  intro hzero
  have hnext := (congrArg UInt64.toNat (next_of_run h)).symm
  rw [hzero, UInt64.toNat_add, UInt64.toNat_ofNat_of_lt' (by simp [UInt64.size]; omega)] at hnext
  have hone : (({} : MockCxlMemory).nextFreeAddress).toNat = 1 := rfl
  rw [hone, Nat.mod_eq_of_lt (by omega)] at hnext
  simp at hnext

/-- **The two dispatchers agree, but for reads that fail.** From every
memory that fewer than `2 ^ 64 - 1` allocations lead to, some of which
may have thrown, and for every command whose write carries the bytes it
announces: they do the same unless the command is a read, of at least
one byte and no more than a vector has, where the memory has not as
many. They answer the same where moreover the command asks for no longer
a vector; for one that does both throw, and answer nothing. -/
theorem dispatchers_agree_iff (h : (Dispatcher.machine cb).run {} calls = .ok m)
    (hallocs : allocations calls < 2 ^ 64 - 1)
    (hsize : cmd.type = .write → cmd.size.toNat ≤ cmd.data.length) :
    (Agree cb m cmd ↔
      (cmd.type = .read → cmd.size ≠ 0 → cmd.size.toNat ≤ maxSize →
        m.HasRoom cmd.address cmd.size)) ∧
    (AnswerAlike cb m cmd ↔
      cmd.Fits ∧ (cmd.type = .read → cmd.size ≠ 0 → m.HasRoom cmd.address cmd.size)) := by
  have hagree := @agree_iff_of_next _ cb _ cmd (next_ne_zero h hallocs)
  refine ⟨hagree, ?_⟩
  rw [answerAlike_iff hsize, hagree]
  constructor
  · rintro ⟨hread, hfits⟩
    exact ⟨hfits, fun htype hne => hread htype hne (hfits (.inl htype))⟩
  · rintro ⟨hfits, hread⟩
    exact ⟨fun htype hne _ => hread htype hne, hfits⟩

/-- An allocation of eight bytes, and a read of eight bytes elsewhere. -/
def allocateEight : CxlCommand := { type := .allocate, address := 0, size := 8 }

def readElsewhere : CxlCommand := { type := .read, address := 2, size := 8 }

/-- An allocation of more bytes than a vector has, and a read of as many. -/
def allocateLong : CxlCommand := { type := .allocate, address := 0, size := 0x8000000000000000 }

def readLong : CxlCommand := { type := .read, address := 2, size := 0x8000000000000000 }

/-- An allocation throws, and takes the address one with it; the next is
given two. The dispatchers answer a read of that alike, and throw alike
where the read is too long. -/
theorem dispatchers_agree_iff_thrown : ∃ m : MockCxlMemory,
    (Dispatcher.machine ()).run {}
        [(.protocolHandler, allocateLong), (.commandProcessor, allocateEight)] = .ok m ∧
      AnswerAlike () m readElsewhere ∧ Agree () m readLong ∧ ¬ AnswerAlike () m readLong := by
  have hlong : maxSize < allocateLong.size.toNat := by decide
  have hthrown : (Dispatcher.machine ()).step {} (.protocolHandler, allocateLong) =
      .ok { nextFreeAddress := 2 } :=
    machine_step_thrown (Dispatcher.respond_allocate_throws rfl hlong)
  have hrun : (Dispatcher.machine ()).run {}
      [(.protocolHandler, allocateLong), (.commandProcessor, allocateEight)] =
      .ok { nextFreeAddress := 3, memory := AList.insert 2 (List.replicate 8 0) ∅ } := by
    rw [Machine.run_cons, hthrown]
    rfl
  have hread := @dispatchers_agree_iff _ () _ readElsewhere _ hrun (by decide) (by decide)
  have hthrow := @dispatchers_agree_iff _ () _ readLong _ hrun (by decide) (by decide)
  refine ⟨_, hrun, hread.2.mpr ⟨by decide, fun _ _ => ⟨_, rfl, by decide⟩⟩,
    hthrow.1.mpr fun _ _ hfits => absurd hfits (by decide), fun halike => ?_⟩
  exact absurd (hthrow.2.mp halike).1 (by decide)

/-- **A failed read is answered in two ways.** -/
theorem failedRead_answers_differ : ∃ m : MockCxlMemory,
    (Dispatcher.machine ()).run {} [(.protocolHandler, allocateEight)] = .ok m ∧
      Dispatcher.protocolHandler.serve () m readElsewhere =
        .ok ([((), ⟨false, List.replicate 8 0⟩)], m) ∧
      Dispatcher.commandProcessor.serve () m readElsewhere = .ok ([((), ⟨false, []⟩)], m) ∧
      ¬ Agree () m readElsewhere ∧ ¬ AnswerAlike () m readElsewhere := by
  have hlengths : ([((), (⟨false, List.replicate 8 0⟩ : CxlResponse))]) ≠ [((), ⟨false, []⟩)] := by
    decide
  have hdiffer : ∀ m : MockCxlMemory, Dispatcher.protocolHandler.serve () m readElsewhere =
        .ok ([((), ⟨false, List.replicate 8 0⟩)], m) →
      Dispatcher.commandProcessor.serve () m readElsewhere = .ok ([((), ⟨false, []⟩)], m) →
      ¬ Agree () m readElsewhere := by
    intro m hhandler hprocessor hagree
    have heq := hhandler.symm.trans (hagree.trans hprocessor)
    exact hlengths (Prod.mk.inj (Except.ok.inj heq)).1
  refine ⟨_, rfl, rfl, rfl, hdiffer _ rfl rfl, ?_⟩
  rintro ⟨resp, m', hhandler, hprocessor⟩
  exact hdiffer _ rfl rfl (hhandler.trans hprocessor.symm)

/-! ## Writes past the payload -/

/-- **A write keeps to its payload** exactly where it carries the bytes
it announces, or the memory refuses it. The memory is any, reached by
commands or not, and the dispatcher either of the two. -/
theorem write_keeps_iff (htype : cmd.type = .write) :
    KeepsToPayload cb m cmd d ↔
      cmd.size.toNat ≤ cmd.data.length ∨ ¬ m.HasRoom cmd.address cmd.size := by
  have hrefused : ¬ m.HasRoom cmd.address cmd.size →
      d.serve cb m cmd = .ok ([(cb, ⟨false, []⟩)], m) := by
    intro hroom
    rw [Dispatcher.serve_eq_ok, Dispatcher.respond_write htype, MockCxlMemory.write_refused hroom]
    rfl
  constructor
  · rintro ⟨hshort, -⟩
    by_cases hsize : cmd.size.toNat ≤ cmd.data.length
    · exact .inl hsize
    · right
      intro hroom
      have hserve := hshort (Nat.lt_of_not_le hsize)
      rw [Dispatcher.serve_eq_ok, Dispatcher.respond_write htype,
        MockCxlMemory.write_undefined hroom (Nat.lt_of_not_le hsize)] at hserve
      cases hserve
  · intro hcond
    refine ⟨fun hshort => ?_, fun hsize => ⟨fun bytes hlook hle => ?_, hrefused⟩⟩
    · rcases hcond with hsize | hroom
      · exact absurd hsize (Nat.not_le.mpr hshort)
      · exact hrefused hroom
    · rw [Dispatcher.serve_eq_ok, Dispatcher.respond_write htype,
        MockCxlMemory.write_stores hlook hle hsize]
      rfl

end Reached

/-- Sixty-four bytes announced, and none sent. -/
def emptyWrite : CxlCommand := { type := .write, address := 1, size := 64 }

def allocateLine : CxlCommand := { type := .allocate, address := 0, size := 64 }

theorem write_keeps_iff_line : ∃ m,
    (Dispatcher.machine ()).run {} [(.protocolHandler, allocateLine)] = .ok m ∧
      KeepsToPayload () m { emptyWrite with data := List.replicate 64 7 } .protocolHandler ∧
      ¬ KeepsToPayload () m emptyWrite .commandProcessor := by
  refine ⟨_, rfl, ?_, ?_⟩
  · exact (write_keeps_iff rfl).mpr (.inl (by decide))
  · intro hkeeps
    rcases (write_keeps_iff rfl).mp hkeeps with hsize | hroom
    · exact absurd hsize (by decide)
    · exact hroom ⟨_, rfl, by decide⟩

/-- **The copy leaves the payload**: the memory has room for the line,
and the command carries no byte of it. -/
theorem emptyWrite_undefined : ∃ m,
    (Dispatcher.machine ()).run {} [(.protocolHandler, allocateLine)] = .ok m ∧
      ∀ d : Dispatcher,
        d.serve () m emptyWrite = .error .undefined ∧
          ¬ KeepsToPayload () m emptyWrite d := by
  refine ⟨_, rfl, fun d => ⟨by cases d <;> rfl, fun hkeeps => ?_⟩⟩
  have hserve := hkeeps.1 (by decide)
  cases d <;> cases hserve

/-! ### What the simulator sends

`cxl_system` has a memory and a handler of its own, and no callback is
registered with it. -/

namespace CxlSystem

variable {κ : Type} {req : BaseRequest κ}

/-- The command a request becomes: of the size the source calls a
placeholder, and without data. -/
def command (req : BaseRequest κ) : CxlCommand where
  type := if req.type = .read then .read else .write
  address := req.addr
  size := 64

def issueRequest (req : BaseRequest κ) (protocol : CxlProtocolHandlerImpl κ) :
    Except Failure (BaseResponse × CxlProtocolHandlerImpl κ) := do
  let (_, _, protocol) ← protocol.issueCommand (command req)
  return (⟨true, true, 0⟩, protocol)

/-- **Every request is taken, and none reaches a byte**: nothing is ever
allocated, so the handler stays new and no copy is made. -/
theorem issueRequest_new : issueRequest req {} = .ok (⟨true, true, 0⟩, {}) := by
  cases htype : req.type <;>
    · simp only [issueRequest, CxlProtocolHandlerImpl.issueCommand, CxlProtocolHandlerImpl.respond,
        command, htype]
      rfl

end CxlSystem

end Cxl

end Vans
