import Vans.Cxl.Model
import Vans.Common.Regions
import Vans.Common.Words
/-!
# CXL — commands follow a reference store

The reference is a store of byte regions given as the history of its
changes. It chooses which fresh address to allocate; all else it answers
is determined. The protocol handler over the memory answers every
sequence of commands as the reference does, once a command, and its
memory is the store the history leaves, unless a command asks for a
vector longer than there is: then no response to it comes.
-/

namespace Vans

namespace Cxl

open Regions

/-! ## The reference -/

/-- The changes made so far: addresses to byte regions. -/
abbrev Log := List (Change Addr UInt8)

/-- The region at the address, as the history leaves it, has the bytes. -/
def Holds (log : Log) (address : Addr) (size : UInt64) : Prop :=
  ∃ n, Allocated log address n ∧ size.toNat ≤ n

/-- How the reference answers a command. -/
inductive Reference (log : Log) (cmd : CxlCommand) : CxlResponse → Log → Prop where
  | read {r : Region UInt8} (htype : cmd.type = .read) (hregion : replay 0 log cmd.address = some r)
      (hsize : cmd.size.toNat ≤ r.size) :
      Reference log cmd ⟨true, (List.range cmd.size.toNat).map r.cell⟩ log
  | readFails (htype : cmd.type = .read) (hno : ¬ Holds log cmd.address cmd.size) :
      Reference log cmd ⟨false, List.replicate cmd.size.toNat 0⟩ log
  | write (htype : cmd.type = .write) (hholds : Holds log cmd.address cmd.size) :
      Reference log cmd ⟨true, []⟩ (log ++ [.write cmd.address (cmd.data.take cmd.size.toNat)])
  | writeFails (htype : cmd.type = .write) (hno : ¬ Holds log cmd.address cmd.size) :
      Reference log cmd ⟨false, []⟩ log
  | allocate {addr : Addr} (htype : cmd.type = .allocate) (hne : addr ≠ 0)
      (hfresh : ¬ Returned log addr) :
      Reference log cmd ⟨true, bytesOf addr⟩ (log ++ [.alloc addr cmd.size.toNat])
  | deallocate (htype : cmd.type = .deallocate) :
      Reference log cmd ⟨true, []⟩ (log ++ [.free cmd.address])
  | unsupported (htype : cmd.type = .discover ∨ cmd.type = .invalidate ∨ cmd.type = .flush) :
      Reference log cmd ⟨false, []⟩ log

/-- The reference answers the commands, one after the other. -/
def Answers : Log → List (CxlCommand × CxlResponse) → Log → Prop
  | log, [], log' => log' = log
  | log, (cmd, resp) :: xs, log' => ∃ mid, Reference log cmd resp mid ∧ Answers mid xs log'

/-- Every allocation is answered with a non-zero address that none
before was answered with. -/
def AllocatesFresh (es : List (CxlCommand × CxlResponse)) : Prop :=
  ∀ (xs : List (CxlCommand × CxlResponse)) cmd resp ys, es = xs ++ (cmd, resp) :: ys →
    cmd.type = .allocate → ∃ addr : Addr, addr ≠ 0 ∧ resp = ⟨true, bytesOf addr⟩ ∧
      ∀ x ∈ xs, x.1.type = .allocate → x.2.data ≠ bytesOf addr

/-- Every read that succeeds is answered with the bytes last written,
and zeros where none were. -/
def ReadsLastWritten (es : List (CxlCommand × CxlResponse)) : Prop :=
  ∀ (xs : List (CxlCommand × CxlResponse)) cmd resp ys, es = xs ++ (cmd, resp) :: ys →
    cmd.type = .read → resp.success = true → ∃ log, Answers [] xs log ∧
      resp.data.length = cmd.size.toNat ∧
      ∀ i < cmd.size.toNat, LastWritten log cmd.address i (resp.data.getD i 0) ∨
        (Unwritten log cmd.address i ∧ resp.data.getD i 0 = 0)

/-- What was allocated and deallocated is neither read nor written
again. -/
def DeallocatesForGood (es : List (CxlCommand × CxlResponse)) : Prop :=
  ∀ (xs : List (CxlCommand × CxlResponse)) cmd resp ys cmd' resp' zs,
    es = xs ++ (cmd, resp) :: (ys ++ (cmd', resp') :: zs) → cmd.type = .deallocate →
    (∃ x ∈ xs, x.1.type = .allocate ∧ x.2.data = bytesOf cmd.address) →
    cmd'.address = cmd.address → cmd'.type = .read ∨ cmd'.type = .write → resp'.success = false

section Facts

variable {log log' : Log} {cmd : CxlCommand} {resp : CxlResponse} {addr : Addr}
  {xs ys : List (CxlCommand × CxlResponse)}

theorem answers_append :
    Answers log (xs ++ ys) log' ↔ ∃ mid, Answers log xs mid ∧ Answers mid ys log' := by
  induction xs generalizing log with
  | nil => simp [Answers]
  | cons x xs ih =>
      simp only [List.cons_append, Answers, ih]
      constructor
      · rintro ⟨next, hstep, mid, hxs, hys⟩
        exact ⟨mid, ⟨next, hstep, hxs⟩, hys⟩
      · rintro ⟨mid, ⟨next, hstep, hxs⟩, hys⟩
        exact ⟨next, hstep, mid, hxs, hys⟩

/-- The history grows by what the command changed. -/
theorem Reference.grows (h : Reference log cmd resp log') : log <+: log' := by
  cases h with
  | read | readFails | writeFails | unsupported => exact List.prefix_rfl
  | write | allocate | deallocate => exact List.prefix_append ..

theorem Reference.returned (h : Reference log cmd resp log') (hret : Returned log addr) :
    Returned log' addr := by
  obtain ⟨n, hmem⟩ := hret
  exact ⟨n, h.grows.subset hmem⟩

/-- **An address once returned comes back by no command.** -/
theorem Reference.gone (h : Reference log cmd resp log') (hret : Returned log addr)
    (hnone : replay 0 log addr = none) : replay 0 log' addr = none := by
  cases h with
  | read | readFails | writeFails | unsupported => exact hnone
  | write => exact replay_none_concat hnone (by simp)
  | deallocate => exact replay_none_concat hnone (by simp)
  | @allocate addr' _ _ hfresh =>
      refine replay_none_concat hnone fun n heq => ?_
      simp only [Change.alloc.injEq] at heq
      exact hfresh (heq.1 ▸ hret)

theorem Answers.returned (h : Answers log xs log') (hret : Returned log addr) :
    Returned log' addr := by
  induction xs generalizing log with
  | nil => exact h ▸ hret
  | cons x xs ih =>
      obtain ⟨mid, hstep, hxs⟩ := h
      exact ih hxs (hstep.returned hret)

theorem Answers.gone (h : Answers log xs log') (hret : Returned log addr)
    (hnone : replay 0 log addr = none) : replay 0 log' addr = none := by
  induction xs generalizing log with
  | nil => exact h ▸ hnone
  | cons x xs ih =>
      obtain ⟨mid, hstep, hxs⟩ := h
      exact ih hxs (hstep.returned hret) (hstep.gone hret hnone)

/-- **Different addresses have different bytes.** -/
theorem bytesOf_injective : Function.Injective bytesOf := by
  intro a b h
  have hbyte : ∀ i < 8, a.toNat / 256 ^ i % 256 = b.toNat / 256 ^ i % 256 := by
    intro i hi
    have h' := congrArg UInt8.toNat (List.map_inj_left.mp h i (List.mem_range.mpr hi))
    have hmul : (8 * UInt64.ofNat i).toNat = 8 * i := by
      rw [UInt64.toNat_mul, UInt64.toNat_ofNat']
      simp
      omega
    have hpow : (2 : ℕ) ^ (8 * i % 64) = 256 ^ i := by
      rw [Nat.mod_eq_of_lt (by omega), Nat.pow_mul]
    simpa only [UInt64.toNat_toUInt8, UInt64.toNat_shiftRight, hmul, Nat.shiftRight_eq_div_pow,
      hpow] using h'
  have hwhole : (256 : ℕ) ^ 8 = 2 ^ 64 := by decide
  have hdigits := Word.mod_pow_eq_of_digits hbyte
  rw [hwhole, Nat.mod_eq_of_lt a.toNat_lt, Nat.mod_eq_of_lt b.toNat_lt] at hdigits
  exact UInt64.toNat_inj.mp hdigits

/-- An address that an allocation answered has been returned. -/
theorem Answers.returned_of_mem (h : Answers log xs log') (hmem : (cmd, resp) ∈ xs)
    (htype : cmd.type = .allocate) (hdata : resp.data = bytesOf addr) : Returned log' addr := by
  obtain ⟨before, after, rfl⟩ := List.append_of_mem hmem
  obtain ⟨mid, -, next, hstep, hafter⟩ := answers_append.mp h
  refine hafter.returned ?_
  cases hstep with
  | @allocate addr' _ _ _ =>
      obtain rfl : addr' = addr := bytesOf_injective hdata
      exact ⟨_, List.mem_append_right _ (List.mem_singleton.mpr rfl)⟩
  | read ht | readFails ht | write ht | writeFails ht | deallocate ht => simp [htype] at ht
  | unsupported ht => simp [htype] at ht

/-- **Allocations are answered with fresh addresses.** -/
theorem Answers.allocatesFresh (h : Answers log xs log') : AllocatesFresh xs := by
  rintro before cmd resp after rfl htype
  obtain ⟨mid, hbefore, next, hstep, -⟩ := answers_append.mp h
  cases hstep with
  | @allocate addr _ hne hfresh =>
      exact ⟨addr, hne, rfl, fun x hx ht hdata => hfresh (hbefore.returned_of_mem hx ht hdata)⟩
  | read ht | readFails ht | write ht | writeFails ht | deallocate ht => simp [htype] at ht
  | unsupported ht => simp [htype] at ht

/-- **Reads are answered with the bytes last written.** -/
theorem Answers.readsLastWritten (h : Answers [] xs log') : ReadsLastWritten xs := by
  rintro before cmd resp after rfl htype hsuccess
  obtain ⟨mid, hbefore, next, hstep, -⟩ := answers_append.mp h
  cases hstep with
  | @read r _ hregion _ =>
      refine ⟨_, hbefore, by simp, fun i hi => ?_⟩
      have hget : ((List.range cmd.size.toNat).map r.cell).getD i 0 = r.cell i := by simp [hi]
      rw [hget]
      exact replay_cell hregion
  | readFails | writeFails | unsupported => cases hsuccess
  | write ht | allocate ht | deallocate ht => simp [htype] at ht

/-- **What was deallocated stays so.** -/
theorem Answers.deallocatesForGood (h : Answers log xs log') : DeallocatesForGood xs := by
  rintro before cmd resp between cmd' resp' after rfl htype ⟨⟨cmd₀, resp₀⟩, hmem, htype₀, hdata₀⟩
    hsame hkind
  obtain ⟨mid, hbefore, next, hstep, h⟩ := answers_append.mp h
  have hret := hbefore.returned_of_mem hmem htype₀ hdata₀
  have hgone : replay 0 next cmd.address = none := by
    cases hstep with
    | deallocate => simp [replay_concat, change]
    | read ht | readFails ht | write ht | writeFails ht | allocate ht => simp [htype] at ht
    | unsupported ht => simp [htype] at ht
  obtain ⟨last, hbetween, final, hstep', -⟩ := answers_append.mp h
  have hlast := hbetween.gone (hstep.returned hret) hgone
  rw [← hsame] at hlast
  cases hstep' with
  | read _ hr => rw [hlast] at hr; cases hr
  | write _ hholds =>
      obtain ⟨n, halloc, -⟩ := hholds
      obtain ⟨r, hr, -⟩ := (@allocated_iff _ _ _ _ _ (0 : UInt8) _).mp halloc
      rw [hlast] at hr
      cases hr
  | allocate ht | deallocate ht => rcases hkind with hk | hk <;> simp [hk] at ht
  | readFails | writeFails | unsupported => rfl

end Facts

/-! ## The handler follows the reference -/

/-- The region a byte vector is. -/
def region (bytes : List UInt8) : Region UInt8 := ⟨bytes.length, fun i => bytes.getD i 0⟩

/-- The store the memory holds. -/
def MockCxlMemory.store (m : MockCxlMemory) : Store Addr UInt8 :=
  fun addr => (m.memory.lookup addr).map region

/-- Allocations made, as the history has them. -/
def allocs (log : Log) : ℕ := log.countP fun c => c matches .alloc _ _

/-- **The simulation**: the memory is the store the history leaves, and
the next address is the number of allocations made, and one. -/
structure Simulates (m : MockCxlMemory) (log : Log) : Prop where
  store : m.store = replay 0 log
  next : m.nextFreeAddress.toNat = allocs log + 1
  returned : ∀ addr, Returned log addr → addr.toNat ≤ allocs log

section Step

variable {m : MockCxlMemory} {log : Log} {cmd : CxlCommand} {addr : Addr} {bytes data : List UInt8}
  {size : UInt64} {n : ℕ}

theorem region_replicate : region (List.replicate n 0) = ⟨n, fun _ => 0⟩ := by
  have hcell : ∀ i, (List.replicate n (0 : UInt8)).getD i 0 = 0 := by
    intro i
    by_cases hi : i < n
    · simp [List.getD, hi]
    · simp [List.getD, hi]
  rw [region, List.length_replicate]
  exact congrArg (Region.mk n) (funext hcell)

/-- A copy replaces a first part of the region. -/
theorem region_copy (hlen : n ≤ bytes.length) (hdata : n ≤ data.length) :
    region (data.take n ++ bytes.drop n) = (region bytes).write (data.take n) := by
  have hsize : (data.take n ++ bytes.drop n).length = bytes.length := by simp; omega
  have hcell : ∀ i, (data.take n ++ bytes.drop n).getD i 0 = (data.take n).getD i (bytes.getD i 0) := by
    intro i
    by_cases hi : i < n
    · simp [List.getD, List.getElem?_append, hi, Nat.lt_of_lt_of_le hi hdata]
    · have hge : n ≤ i := Nat.le_of_not_lt hi
      simp [List.getD, List.getElem?_append, hi, hdata, hge]
  rw [region, hsize]
  exact congrArg (Region.mk bytes.length) (funext hcell)

namespace Simulates

theorem region_eq (sim : Simulates m log) (h : m.memory.lookup addr = some bytes) :
    replay 0 log addr = some (region bytes) := by
  rw [← sim.store, MockCxlMemory.store, h]
  rfl

/-- The memory has the bytes exactly where the history does. -/
theorem holds_iff (sim : Simulates m log) :
    Holds log addr size ↔ ∃ bytes, m.memory.lookup addr = some bytes ∧ size.toNat ≤ bytes.length := by
  simp only [Holds, @allocated_iff _ _ _ _ _ (0 : UInt8), ← sim.store, MockCxlMemory.store,
    Option.map_eq_some_iff]
  constructor
  · rintro ⟨n, ⟨r, ⟨bytes, hbytes, rfl⟩, rfl⟩, hle⟩
    exact ⟨bytes, hbytes, hle⟩
  · rintro ⟨bytes, hbytes, hle⟩
    exact ⟨_, ⟨_, ⟨bytes, hbytes, rfl⟩, rfl⟩, hle⟩

theorem not_holds (sim : Simulates m log)
    (h : ∀ bytes, m.memory.lookup addr = some bytes → bytes.length < size.toNat) :
    ¬ Holds log addr size := by
  rintro hholds
  obtain ⟨bytes, hbytes, hle⟩ := sim.holds_iff.mp hholds
  exact absurd hle (Nat.not_le.mpr (h bytes hbytes))

/-- A read changes nothing. -/
theorem read (sim : Simulates m log) (htype : cmd.type = .read)
    (hfits : cmd.size.toNat ≤ maxSize) :
    ∃ resp, CxlProtocolHandlerImpl.respond cmd m = .ok (resp, m) ∧ Reference log cmd resp log := by
  simp only [CxlProtocolHandlerImpl.respond, htype, vector_eq hfits, ok_bind, MockCxlMemory.read]
  cases hlook : m.memory.lookup cmd.address with
  | none =>
      refine ⟨_, rfl, .readFails htype (sim.not_holds (by simp [hlook]))⟩
  | some bytes =>
      by_cases hlt : bytes.length < cmd.size.toNat
      · refine ⟨_, by simp only [hlt, if_true]; rfl, .readFails htype (sim.not_holds ?_)⟩
        simpa [hlook] using hlt
      · have hle : cmd.size.toNat ≤ bytes.length := Nat.le_of_not_lt hlt
        have hcopy := @memcpy_eq (List.replicate cmd.size.toNat 0) _ _ (by simp) hle
        have hdata : bytes.take cmd.size.toNat ++
            (List.replicate cmd.size.toNat 0).drop cmd.size.toNat =
            (List.range cmd.size.toNat).map (region bytes).cell := by
          refine List.ext_getElem (by simp [hle]) fun i h₁ h₂ => ?_
          have hi : i < bytes.length := by simp at h₂; omega
          simp [region, hi]
        refine ⟨_, by simp only [hlt, if_false, hcopy]; rfl, ?_⟩
        rw [hdata]
        exact .read htype (sim.region_eq hlook) hle

/-- A write that succeeds replaces a first part of its region. -/
theorem write (sim : Simulates m log) (htype : cmd.type = .write)
    (hsize : cmd.size.toNat ≤ cmd.data.length) :
    ∃ resp m' log', CxlProtocolHandlerImpl.respond cmd m = .ok (resp, m') ∧
      Reference log cmd resp log' ∧ Simulates m' log' ∧ allocs log' = allocs log := by
  simp only [CxlProtocolHandlerImpl.respond, htype, MockCxlMemory.write]
  cases hlook : m.memory.lookup cmd.address with
  | none =>
      refine ⟨_, m, log, rfl, .writeFails htype (sim.not_holds (by simp [hlook])), sim, rfl⟩
  | some bytes =>
      by_cases hlt : bytes.length < cmd.size.toNat
      · refine ⟨_, m, log, by simp only [hlt, if_true]; rfl, 
          .writeFails htype (sim.not_holds (by simpa [hlook] using hlt)), sim, rfl⟩
      · have hle : cmd.size.toNat ≤ bytes.length := Nat.le_of_not_lt hlt
        refine ⟨_, _, _, by simp only [hlt, if_false, memcpy_eq hle hsize]; rfl,
          .write htype (sim.holds_iff.mpr ⟨bytes, hlook, hle⟩), ⟨?_, ?_, ?_⟩, ?_⟩
        · funext addr
          rw [replay_concat, change, sim.region_eq hlook]
          by_cases haddr : addr = cmd.address
          · subst haddr
            simp [MockCxlMemory.store, AList.lookup_insert, region_copy hle hsize]
          · rw [Function.update_of_ne haddr, ← sim.store]
            simp [MockCxlMemory.store, AList.lookup_insert_ne haddr]
        · simpa [allocs] using sim.next
        · intro addr hret
          simp only [returned_concat, reduceCtorEq, exists_false, or_false] at hret
          simpa [allocs] using sim.returned addr hret
        · simp [allocs]

/-- An allocation is given the next address. -/
theorem allocate (sim : Simulates m log) (htype : cmd.type = .allocate)
    (hfits : cmd.size.toNat ≤ maxSize) (hroom : allocs log + 1 < 2 ^ 64 - 1) :
    ∃ resp m' log', CxlProtocolHandlerImpl.respond cmd m = .ok (resp, m') ∧
      Reference log cmd resp log' ∧ Simulates m' log' ∧ allocs log' = allocs log + 1 := by
  have hnext := sim.next
  have hne : m.nextFreeAddress ≠ 0 := by
    intro h
    rw [h] at hnext
    simp at hnext
  have hfresh : ¬ Returned log m.nextFreeAddress := by
    intro hret
    have hle := sim.returned _ hret
    omega
  have hallocs : allocs (log ++ [.alloc m.nextFreeAddress cmd.size.toNat]) = allocs log + 1 := by
    simp [allocs]
  refine ⟨_, _, _, by simp only [CxlProtocolHandlerImpl.respond, htype,
    MockCxlMemory.allocate_eq hfits, ok_bind, hne, ne_eq, not_false_eq_true, if_true]; rfl,
    .allocate htype hne hfresh, ⟨?_, ?_, ?_⟩, hallocs⟩
  · funext addr
    rw [replay_concat, change, ← sim.store]
    by_cases haddr : addr = m.nextFreeAddress
    · subst haddr
      simp [MockCxlMemory.store, AList.lookup_insert, region_replicate]
    · rw [Function.update_of_ne haddr]
      simp [MockCxlMemory.store, AList.lookup_insert_ne haddr]
  · have hadd : (m.nextFreeAddress + 1).toNat = m.nextFreeAddress.toNat + 1 := by
      rw [UInt64.toNat_add]
      simp
      omega
    rw [hallocs]
    exact hadd.trans (by omega)
  · intro addr hret
    rw [hallocs]
    rcases returned_concat.mp hret with hold | ⟨n, heq⟩
    · have hle := sim.returned addr hold
      omega
    · simp only [Change.alloc.injEq] at heq
      rw [← heq.1]
      omega

theorem deallocate (sim : Simulates m log) :
    Simulates (m.deallocate cmd.address) (log ++ [.free cmd.address]) := by
  refine ⟨?_, ?_, ?_⟩
  · funext addr
    rw [replay_concat, change, ← sim.store]
    by_cases haddr : addr = cmd.address
    · subst haddr
      simp [MockCxlMemory.store, MockCxlMemory.deallocate, AList.lookup_erase]
    · rw [Function.update_of_ne haddr]
      simp [MockCxlMemory.store, MockCxlMemory.deallocate, AList.lookup_erase_ne haddr]
  · simpa [allocs, MockCxlMemory.deallocate] using sim.next
  · intro addr hret
    simp only [returned_concat, reduceCtorEq, exists_false, or_false] at hret
    simpa [allocs] using sim.returned addr hret

/-- **Every command is answered as the reference answers it.** -/
theorem respond (sim : Simulates m log) (hfits : cmd.Fits)
    (hroom : cmd.type = .allocate → allocs log + 1 < 2 ^ 64 - 1)
    (hsize : cmd.type = .write → cmd.size.toNat ≤ cmd.data.length) :
    ∃ resp m' log', CxlProtocolHandlerImpl.respond cmd m = .ok (resp, m') ∧
      Reference log cmd resp log' ∧ Simulates m' log' ∧
      allocs log' = allocs log + if cmd.type = .allocate then 1 else 0 := by
  cases htype : cmd.type with
  | read =>
      obtain ⟨resp, hresp, href⟩ := sim.read htype (hfits (.inl htype))
      exact ⟨resp, m, log, hresp, href, sim, by simp⟩
  | write =>
      obtain ⟨resp, m', log', hresp, href, sim', hallocs⟩ := sim.write htype (hsize htype)
      exact ⟨resp, m', log', hresp, href, sim', by simpa using hallocs⟩
  | allocate =>
      obtain ⟨resp, m', log', hresp, href, sim', hallocs⟩ := sim.allocate htype (hfits (.inr htype)) (hroom htype)
      exact ⟨resp, m', log', hresp, href, sim', by simpa using hallocs⟩
  | deallocate =>
      refine ⟨_, _, _, by simp only [CxlProtocolHandlerImpl.respond, htype]; rfl,
        .deallocate htype, sim.deallocate, by simp [allocs]⟩
  | discover | invalidate | flush =>
      refine ⟨_, _, _, by simp only [CxlProtocolHandlerImpl.respond, htype]; rfl,
        .unsupported (by simp [htype]), sim, by simp⟩

theorem init : Simulates {} [] where
  store := rfl
  next := rfl
  returned addr hret := by
    obtain ⟨n, hmem⟩ := hret
    cases hmem

end Simulates

end Step

/-! ## Sessions follow the reference -/

section Sessions

variable {κ : Type} {cb : κ} {s : Session κ} {log : Log} {cmds : List CxlCommand}

/-- The commands handled and the responses delivered. -/
def exchanges (served : List (Served κ)) : List (CxlCommand × CxlResponse) :=
  served.flatMap fun x => x.delivered.map fun d => (x.cmd, d.2)

/-- One response was delivered, and its success returned. -/
def Served.Once (cb : κ) (x : Served κ) : Prop :=
  ∃ resp, x.delivered = [(cb, resp)] ∧ x.returned = resp.success

/-- **A session follows the reference from wherever it does.** -/
theorem session_follows (sim : Simulates s.handler.memory log) (hcb : s.handler.responseCb = some cb)
    (hfits : ∀ cmd ∈ cmds, cmd.Fits)
    (hallocs : allocs log + cmds.countP (·.type = .allocate) < 2 ^ 64 - 1)
    (hsizes : ∀ cmd ∈ cmds, cmd.type = .write → cmd.size.toNat ≤ cmd.data.length) :
    ∃ s' new log', machine.run s cmds = .ok s' ∧ s'.served = s.served ++ new ∧
      new.map Served.cmd = cmds ∧ (∀ x ∈ new, x.Once cb) ∧ Answers log (exchanges new) log' ∧
      Simulates s'.handler.memory log' := by
  induction cmds generalizing s log with
  | nil => exact ⟨s, [], log, rfl, by simp, rfl, by simp, rfl, sim⟩
  | cons cmd cmds ih =>
      rw [List.countP_cons] at hallocs
      obtain ⟨resp, m', mid, hresp, href, sim', hmid⟩ := @Simulates.respond _ _ cmd sim
        (hfits cmd List.mem_cons_self) (fun ht => by simp only [ht, decide_true, if_true] at hallocs; omega)
        (hsizes cmd List.mem_cons_self)
      have hstep : machine.step s cmd = .ok
          { handler := { s.handler with memory := m' }
            served := s.served ++ [⟨cmd, resp.success, [(cb, resp)]⟩] } := by
        simp only [machine, CxlProtocolHandlerImpl.issueCommand, hresp, ok_bind,
          CxlProtocolHandlerImpl.invokeResponse, hcb]
        rfl
      obtain ⟨s', new, log', hrun, hserved, hcmds, honce, hanswers, sim''⟩ :=
        ih (s := ⟨{ s.handler with memory := m' }, s.served ++ [⟨cmd, resp.success, [(cb, resp)]⟩]⟩)
          sim' hcb (fun cmd' hmem => hfits cmd' (List.mem_cons_of_mem _ hmem))
          (by rw [hmid]; simp only [decide_eq_true_eq] at hallocs; omega)
          fun cmd' hmem => hsizes cmd' (List.mem_cons_of_mem _ hmem)
      refine ⟨s', ⟨cmd, resp.success, [(cb, resp)]⟩ :: new, log', ?_, by simp [hserved],
        by simp [hcmds], ?_, ⟨mid, href, hanswers⟩, sim''⟩
      · rw [Machine.run_cons, hstep]
        exact hrun
      · intro x hx
        rcases List.mem_cons.mp hx with rfl | hx
        · exact ⟨resp, rfl, rfl⟩
        · exact honce x hx

/-- **The commands are answered as a reference store answers them.** The
session comes to its end, each command is answered once with the success
returned, the answers are the reference's and the memory is the store
its history leaves. So allocations are answered with fresh non-zero
addresses, reads with the bytes last written, and what was deallocated
is refused. -/
def FollowsReference (cb : κ) (cmds : List CxlCommand) : Prop :=
  ∃ s log, machine.run (Session.init cb) cmds = .ok s ∧ s.served.map Served.cmd = cmds ∧
    (∀ x ∈ s.served, x.Once cb) ∧
    Answers [] (exchanges s.served) log ∧ s.handler.memory.store = replay 0 log ∧
    AllocatesFresh (exchanges s.served) ∧ ReadsLastWritten (exchanges s.served) ∧
    DeallocatesForGood (exchanges s.served)

/-- **Only commands that fit return.** -/
theorem fits_of_run {s' : Session κ} (h : machine.run s cmds = .ok s') :
    ∀ cmd ∈ cmds, cmd.Fits := by
  induction cmds generalizing s with
  | nil => exact fun cmd hmem => absurd hmem List.not_mem_nil
  | cons cmd cmds ih =>
      rw [Machine.run_cons, bind_eq_ok] at h
      obtain ⟨mid, hstep, hrun⟩ := h
      intro cmd' hmem
      rcases List.mem_cons.mp hmem with rfl | hmem
      · by_contra hlong
        obtain ⟨left, hthrows⟩ := @CxlProtocolHandlerImpl.respond_throws cmd' s.handler.memory hlong
        simp only [machine, CxlProtocolHandlerImpl.issueCommand, hthrows] at hstep
        cases hstep
      · exact ih hrun cmd' hmem

/-- **The handler answers as a reference store does**, exactly where no
read and no allocation asks for more bytes than a vector can have. The
sequence of commands is any that allocates fewer than `2 ^ 64 - 1` times
and whose writes carry the bytes they announce. -/
theorem commands_follow_reference_iff (cb : κ)
    (hallocs : cmds.countP (·.type = .allocate) < 2 ^ 64 - 1)
    (hsizes : ∀ cmd ∈ cmds, cmd.type = .write → cmd.size.toNat ≤ cmd.data.length) :
    FollowsReference cb cmds ↔ ∀ cmd ∈ cmds, cmd.Fits := by
  constructor
  · rintro ⟨s, log, hrun, -⟩
    exact fits_of_run hrun
  · intro hfits
    have hbound : allocs [] + cmds.countP (·.type = .allocate) < 2 ^ 64 - 1 := by
      rw [allocs, List.countP_nil, Nat.zero_add]
      exact hallocs
    obtain ⟨s, new, log, hrun, hserved, hcmds, honce, hanswers, sim⟩ :=
      session_follows (s := Session.init cb) Simulates.init rfl hfits hbound hsizes
    obtain rfl : s.served = new := hserved
    exact ⟨s, log, hrun, hcmds, honce, hanswers, sim.store, hanswers.allocatesFresh,
      hanswers.readsLastWritten, hanswers.deallocatesForGood⟩

end Sessions

/-! ### A partial overwrite -/

/-- Four bytes are allocated, three and then one are written, and read
back; after the region is freed a read of it fails. -/
def overwrite : List CxlCommand :=
  [{ type := .allocate, address := 0, size := 4 },
    { type := .write, address := 1, size := 3, data := [1, 2, 3] },
    { type := .write, address := 1, size := 1, data := [9] },
    { type := .read, address := 1, size := 4 },
    { type := .write, address := 1, size := 5, data := [0, 0, 0, 0, 0] },
    { type := .deallocate, address := 1, size := 0 },
    { type := .read, address := 1, size := 1 }]

theorem commands_follow_reference_overwrite :
    ∃ s log, machine.run (Session.init ()) overwrite = .ok s ∧
      Answers [] (exchanges s.served) log ∧
      s.served.map (·.returned) = [true, true, true, true, false, true, false] ∧
      (exchanges s.served)[3]?.map (·.2) = some ⟨true, [9, 2, 3, 0]⟩ := by
  obtain ⟨s, log, hrun, -, -, hanswers, -⟩ :=
    (@commands_follow_reference_iff _ overwrite () (by decide) (by decide)).mpr (by decide)
  have hfacts : (machine.run (Session.init ()) overwrite).map (fun s =>
      (s.served.map (·.returned), (exchanges s.served)[3]?.map (·.2))) =
      .ok ([true, true, true, true, false, true, false], some ⟨true, [9, 2, 3, 0]⟩) := by
    decide +kernel
  rw [hrun] at hfacts
  obtain ⟨hreturned, hread⟩ := Prod.mk.inj (Except.ok.inj hfacts)
  exact ⟨s, log, hrun, hanswers, hreturned, hread⟩

/-! ### A vector that is too long -/

/-- A read of more bytes than a vector can have. -/
def longRead : CxlCommand := { type := .read, address := 1, size := 0x8000000000000000 }

/-- An allocation of as many. -/
def longAllocate : CxlCommand := { type := .allocate, address := 0, size := 0x8000000000000000 }

/-- **They throw where they should fail**: no response comes to the read
of an allocation that is too short, nor to the allocation, which takes
an address with it. -/
theorem long_commands_throw :
    (∃ s : Session Unit, machine.run (Session.init ()) (overwrite.take 1) = .ok s ∧
      CxlProtocolHandlerImpl.respond longRead s.handler.memory =
        .error (.lengthError s.handler.memory)) ∧
    CxlProtocolHandlerImpl.respond longAllocate {} =
      .error (.lengthError { nextFreeAddress := 2 }) ∧
    ¬ FollowsReference () [longAllocate] ∧
    ¬ FollowsReference () (overwrite.take 1 ++ [longRead]) := by
  refine ⟨⟨_, rfl, CxlProtocolHandlerImpl.respond_read_throws rfl (by decide)⟩,
    CxlProtocolHandlerImpl.respond_allocate_throws rfl (by decide), ?_, ?_⟩
  · rintro ⟨s, log, hrun, -⟩
    exact absurd (fits_of_run hrun) (by decide)
  · rintro ⟨s, log, hrun, -⟩
    exact absurd (fits_of_run hrun) (by decide)

end Cxl

end Vans
