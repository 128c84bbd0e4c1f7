import Vans.Gem5.Calls
import Vans.Rmc.Addresses
/-!
# The gem5 front end — the high memory

The memory from 4GB on moves what it is asked down by where it starts,
and calls back with what it moved. The front end looks a packet up under
the address it came with, so no callback finds the packet it is for.
-/

namespace Vans

/-! ## The addresses below -/

section Below

variable {κ σ : Type} {C : Component Rmw.Callback σ} {rounds : ℕ} {rmc : Rmc.Config}
  {imc : Imc.Config} {systems : List (NvramSystem.Sys (Rmw.Sys κ σ))}

/-- **What is called back with** is at least as far below what was asked
with as the memory starts. -/
theorem ran_below {calls : List (Call κ)}
    {d : Driven κ (Rmc.Sys (Imc.Sys κ (NvramSystem.Sys (Rmw.Sys κ σ))))}
    (hrmc : ∃ name, getComponentMappingFunc name = .ok rmc.mappingFunc)
    (himc : imc.mappingFunc = strideMapping4096) (hsystems : ∀ s ∈ systems, NvramSystem.New s)
    (h : (nvramPath rounds C).machine.run
      { state := Rmc.Sys.init rmc [Imc.Sys.init imc systems] } calls = .ok d) :
    (∀ req ∈ d.accepted, rmc.startAddr ≤ req.addr) ∧ ∀ inv ∈ d.ran, ∃ req ∈ d.accepted,
      req.callback = some inv.callback ∧
        inv.addr.toNat + rmc.startAddr.toNat ≤ req.addr.toNat := by
  obtain ⟨name, hrmc⟩ := hrmc
  have hd : Completes rmc.startAddr systems.length d.accepted d :=
    (nvramPath rounds C).machine.invariant
      (P := fun e => (∀ req ∈ e.accepted, req ∈ d.accepted) →
        Completes rmc.startAddr systems.length d.accepted e)
      (fun _ _ _ hu hstep hreqs =>
        (hu fun req hreq => hreqs req (accepted_subset hstep req hreq)).step hstep hreqs)
      (fun _ => .init hrmc himc hsystems) h fun _ hreq => hreq
  refine ⟨hd.bound, fun inv hinv => ?_⟩
  -- the address was moved down, and not back
  have hmoved : ∀ req ∈ d.accepted, ∀ a : Addr, a.toNat ≤ (req.addr - rmc.startAddr).toNat →
      a.toNat + rmc.startAddr.toNat ≤ req.addr.toNat := by
    intro req hreq a hle
    have hbound := hd.bound req hreq
    rw [UInt64.toNat_sub_of_le _ _ hbound] at hle
    have hbound' := UInt64.le_iff_toNat_le.mp hbound
    omega
  rcases hd.ran inv hinv with ⟨req, hreq, -, hcb, haddr⟩ |
    ⟨a, ⟨req, hreq, -, hcb, n, -, rfl⟩, hline⟩
  · exact ⟨req, hreq, hcb, hmoved req hreq _ (haddr ▸ le_rfl)⟩
  · refine ⟨req, hreq, hcb, hmoved req hreq _ ?_⟩
    have hle := @lineAddr_le ((ComponentMapping.localAddr strideMapping4096 systems.length)^[n]
      (req.addr - rmc.startAddr))
    rw [hline, ComponentMapping.iterate_stride_toNat] at hle
    have hdiv :=
      Nat.div_le_self ((req.addr - rmc.startAddr).toNat / 4096) (systems.length ^ n)
    omega

end Below

namespace Gem5

variable {δ μ σ : Type} {M : AbstractMemory δ μ} {C : Component Callback σ}
  {Q : Packet δ → Prop} {s t : Sys δ μ σ} {pkt : Packet δ}

/-! ## What was asked was called back for, or waits -/

/-- **The requests are accounted for**: of those of a callback and an
address, as many were not called back for as packets wait. -/
def Sys.Counted (s : Sys δ μ σ) : Prop :=
  ∀ callback addr, (asked s.log).count (callback, addr) =
    (completed s.log).count (callback, addr) + ((s.packets callback).waiting addr).length

theorem packets_eq (hreads : t.reads = s.reads) (hwrites : t.writes = s.writes) :
    t.packets = s.packets := by
  funext callback
  cases callback with
  | readComplete => exact hreads
  | writeComplete => exact hwrites

namespace Sys.Counted

theorem of_silent (seen : List (Obs δ)) (h : s.Counted) (hpackets : t.packets = s.packets)
    (hlog : t.log = s.log ++ seen) (hasked : asked seen = []) (hcompleted : completed seen = []) :
    t.Counted := by
  intro callback addr
  rw [hlog, asked_append, completed_append, hasked, hcompleted, List.append_nil, List.append_nil,
    hpackets]
  exact h callback addr

/-- A packet waits for what is asked for it. -/
theorem asks (callback : Callback) (pkt : Packet δ) (seen : List (Obs δ)) (h : s.Counted)
    (hpackets : t.packets =
      Function.update s.packets callback ((s.packets callback).push pkt.addr pkt))
    (hlog : t.log = s.log ++ seen) (hasked : asked seen = [(callback, pkt.addr)])
    (hcompleted : completed seen = []) : t.Counted := by
  intro cb addr
  have hold := h cb addr
  rw [hlog, asked_append, completed_append, hasked, hcompleted, List.append_nil,
    List.count_append, hpackets, hold]
  by_cases hcb : cb = callback
  · subst hcb
    rw [Function.update_self, Fifos.waiting_push]
    by_cases haddr : addr = pkt.addr
    · subst haddr
      simp [Nat.add_assoc]
    · simp [haddr, Ne.symm haddr]
  · rw [Function.update_of_ne hcb]
    simp [Ne.symm hcb]

/-- The first that waits is called back for. -/
theorem answers (callback : Callback) (addr : Addr) (seen : List (Obs δ))
    {rest : Fifos Addr (Packet δ)} (h : s.Counted) (hpop : (s.packets callback).pop addr = some (pkt, rest))
    (hpackets : t.packets = Function.update s.packets callback rest)
    (hlog : t.log = s.log ++ seen) (hasked : asked seen = [])
    (hcompleted : completed seen = [(callback, addr)]) : t.Counted := by
  obtain ⟨hfirst, hothers, -⟩ := Fifos.pop_eq_some hpop
  intro cb a
  have hold := h cb a
  rw [hlog, asked_append, completed_append, hasked, hcompleted, List.append_nil,
    List.count_append, hpackets, hold]
  by_cases hcb : cb = callback
  · subst hcb
    rw [Function.update_self]
    by_cases haddr : a = addr
    · subst haddr
      rw [hfirst]
      simp
      omega
    · rw [hothers a haddr]
      simp [Ne.symm haddr]
  · rw [Function.update_of_ne hcb]
    simp [Ne.symm hcb]

theorem signalIfDone (h : s.Counted) : s.signalIfDone.Counted := by
  rw [Sys.signalIfDone]
  split
  · exact h.of_silent [.signalDrainDone] rfl rfl rfl rfl
  · exact h

theorem takes {accepted : Bool} (h : s.Counted) (htakes : Takes M C s pkt accepted t) :
    t.Counted := by
  cases htakes with
  | ignored => exact h
  | refused hstall => exact h.of_silent [.recvTimingReq pkt false] rfl rfl rfl rfl
  | turnedDown hfree hsend =>
      exact h.of_silent [.recvTimingReq pkt false] (packets_eq rfl rfl) rfl rfl rfl
  | read hfree hread hsend =>
      refine h.asks .readComplete pkt [.recvTimingReq pkt true] ?_ rfl ?_ rfl
      · funext cb
        cases cb <;> rfl
      · simp [asked, accepts, askedAs, hread]
  | write hfree hread hwrite hsend =>
      refine h.asks .writeComplete pkt
        [.recvTimingReq pkt true, .access pkt (M.access pkt s.store).1] ?_ ?_ ?_ rfl
      · funext cb
        cases cb <;> rfl
      · simp [Sys.accessed]
      · simp [asked, accepts, askedAs, hread, hwrite]
  | other hfree hread hwrite =>
      refine h.of_silent [.recvTimingReq pkt true, .access pkt (M.access pkt s.store).1]
        (packets_eq rfl rfl) ?_ ?_ rfl
      · simp [Sys.accessed, Sys.emit]
      · simp [asked, accepts, askedAs, hread, hwrite]

theorem completes {inv : Invocation Callback} (h : s.Counted) (hdone : Completes M s inv t) :
    t.Counted := by
  cases hdone with
  | @read pkt reads hcb hpop hpos =>
      refine h.answers .readComplete inv.addr
        [.complete .readComplete inv.addr, .access pkt (M.access pkt s.store).1] hpop ?_ ?_ rfl rfl
      · funext cb
        cases cb <;> rfl
      · simp [Sys.accessed]
  | @write pkt writes hcb hpop hpos =>
      refine signalIfDone (h.answers .writeComplete inv.addr [.complete .writeComplete inv.addr]
        hpop ?_ rfl rfl rfl)
      funext cb
      cases cb <;> rfl

/-- **Every move keeps the account.** -/
theorem move (h : s.Counted) (hm : Move M C Q s t) : t.Counted := by
  cases hm with
  | takes hQ htakes => exact h.takes htakes
  | completes hdone => exact h.completes hdone
  | @sends pkt rest taken hfree hqueue =>
      cases taken with
      | false => exact h.of_silent [.sendTimingResp pkt false] (packets_eq rfl rfl) rfl rfl rfl
      | true =>
          rw [Sys.sent, if_pos rfl]
          exact signalIfDone
            (h.of_silent [.sendTimingResp pkt true] (packets_eq rfl rfl) rfl rfl rfl)
  | retries hstall => exact h.of_silent [.sendRetryReq] (packets_eq rfl rfl) rfl rfl rfl
  | resumes hstall => exact h.of_silent [] (packets_eq rfl rfl) (List.append_nil _).symm rfl rfl
  | memory => exact h.of_silent [] (packets_eq rfl rfl) (List.append_nil _).symm rfl rfl
  | clock => exact h.of_silent [] (packets_eq rfl rfl) (List.append_nil _).symm rfl rfl
  | @atomic pkt =>
      exact h.of_silent [.recvAtomic pkt (M.access pkt s.store).1] (packets_eq rfl rfl) rfl rfl rfl
  | @functional pkt => exact h.of_silent [.recvFunctional pkt _] (packets_eq rfl rfl) rfl rfl rfl
  | drain => exact h.of_silent [.drain _] (packets_eq rfl rfl) rfl rfl rfl

end Sys.Counted

/-! ## What the memory called back for -/

section Runs

variable {memory : σ} {store : μ} {ticksPerClk clockEdge : Tick} {s₀ : Sys δ μ σ}
  {es : List (Event δ)}

/-- **In every run** the requests are accounted for. -/
theorem counted (hnew : Sys.new memory store ticksPerClk clockEdge = .ok s₀)
    (hrun : (machine M C).run s₀ es = .ok s) : s.Counted := by
  refine run_keeps (Q := fun _ => True) (P := Sys.Counted) (fun _ _ h hm => h.move hm)
    (fun _ _ _ _ => trivial) ?_ hrun
  obtain rfl := Sys.new_eq_ok hnew
  intro callback addr
  cases callback <;> rfl

/-- The reads that were asked for are those that were taken. -/
theorem count_asked {addr : Addr} {log : List (Obs δ)} :
    (asked log).count (.readComplete, addr) = (readsAt addr (accepts log)).length := by
  rw [asked]
  induction accepts log with
  | nil => rfl
  | cons pkt pkts ih =>
      rw [List.filterMap_cons, readsAt, List.filter_cons]
      rw [readsAt] at ih
      by_cases hread : pkt.isRead = true
      · by_cases haddr : pkt.addr = addr <;> simp [askedAs, hread, haddr, ih]
      · by_cases hwrite : pkt.isWrite = true <;> simp [askedAs, hread, hwrite, ih]

end Runs

/-! ## The memory from 4GB on -/

section High

variable {R : Component Rmw.Callback σ} {rounds : ℕ} {rmc : Rmc.Config} {imc : Imc.Config}
  {systems : List (NvramSystem.Sys (Rmw.Sys Callback σ))}

/-- **No callback of the high memory answers the packet it is for.** In
every run over it, whatever the peer does, a callback is answered under
an address that is lower than that of the packet it is for by where the
memory starts, or more. Where that is all the addresses there are, none
is answered at all: no read is ever accessed. -/
theorem high_memory_answers_none {store : μ} {ticksPerClk clockEdge : Tick}
    {s₀ s : Sys δ μ (Rmc.Sys (Imc.Sys Callback (NvramSystem.Sys (Rmw.Sys Callback σ))))}
    {es : List (Event δ)} (hrmc : ∃ name, getComponentMappingFunc name = .ok rmc.mappingFunc)
    (himc : imc.mappingFunc = strideMapping4096) (hsystems : ∀ s ∈ systems, NvramSystem.New s)
    (hnew : Sys.new (Rmc.Sys.init rmc [Imc.Sys.init imc systems]) store ticksPerClk clockEdge =
      .ok s₀)
    (hrun : (machine M (nvramPath rounds R)).run s₀ es = .ok s) :
    (∀ p ∈ completed s.log, ∃ q ∈ asked s.log, q.1 = p.1 ∧
      p.2.toNat + rmc.startAddr.toNat ≤ q.2.toNat) ∧
    ((∀ q ∈ asked s.log, q.2.toNat < 2 * rmc.startAddr.toNat) →
      completed s.log = [] ∧ ∀ addr, readsAt addr (accesses s.log) = []) := by
  obtain ⟨calls, d, -, hdriven, -, haccepted, hran⟩ := memory_is_driven hnew hrun
  obtain ⟨hbound, hbelow⟩ := ran_below hrmc himc hsystems hdriven
  have hasked : ∀ req ∈ d.accepted, ∀ callback, req.callback = some callback →
      (callback, req.addr) ∈ asked s.log := by
    intro req hreq callback hcb
    have hmem : askedFor req ∈ d.accepted.map askedFor := List.mem_map_of_mem hreq
    rw [haccepted] at hmem
    obtain ⟨q, hq, heq⟩ := List.mem_map.mp hmem
    rw [askedFor, hcb, Prod.mk.injEq, Option.some.injEq] at heq
    obtain ⟨rfl, haddr⟩ := heq
    exact haddr ▸ hq
  have hothers : ∀ p ∈ completed s.log, ∃ q ∈ asked s.log, q.1 = p.1 ∧
      p.2.toNat + rmc.startAddr.toNat ≤ q.2.toNat := by
    intro p hp
    rw [← hran] at hp
    obtain ⟨inv, hinv, rfl⟩ := List.mem_map.mp hp
    obtain ⟨req, hreq, hcb, hle⟩ := hbelow inv hinv
    exact ⟨_, hasked req hreq _ hcb, rfl, hle⟩
  refine ⟨hothers, fun hall => ?_⟩
  have hcounted := counted hnew hrun
  have hnone : completed s.log = [] := by
    refine List.eq_nil_iff_forall_not_mem.mpr fun ⟨callback, addr⟩ hp => ?_
    obtain ⟨q, hq, -, hle⟩ := hothers _ hp
    -- what is answered under an address was asked under it
    have hp' : (callback, addr) ∈ asked s.log := by
      have hcount := hcounted callback addr
      have hpos := List.count_pos_iff.mpr hp
      exact List.count_pos_iff.mp (by omega)
    have hstart : rmc.startAddr.toNat ≤ addr.toNat := by
      have hmem := List.mem_map_of_mem (f := fun p : Callback × Addr => (some p.1, p.2)) hp'
      rw [← haccepted] at hmem
      obtain ⟨req, hreq, heq⟩ := List.mem_map.mp hmem
      have haddr : req.addr = addr := congrArg Prod.snd heq
      exact haddr ▸ UInt64.le_iff_toNat_le.mp (hbound req hreq)
    have hlt := hall q hq
    dsimp only at hle
    omega
  refine ⟨hnone, fun addr => ?_⟩
  obtain ⟨-, hreads, -⟩ := packets_kept hnew hrun
  have hcount := hcounted .readComplete addr
  rw [hnone, count_asked, hreads addr, List.length_append, List.count_nil] at hcount
  have hlen : (readsAt addr (accesses s.log)).length = 0 := by
    change _ = 0 + (s.reads.waiting addr).length at hcount
    omega
  exact List.length_eq_zero_iff.mp hlen

/-- One small module. -/
def hiSystem : NvramSystem.Sys (Rmw.Sys Callback (Ait.Sys Rmw.Callback
    (List (BaseRequest Ait.SubreqCallback)) StaticMemory)) :=
  NvramSystem.Sys.init noneMapping
    [Rmw.Sys.init Rmw.smallConfig [Ait.Sys.init Nvram.smallAit [] [⟨1, 1⟩]]]

/-- The memory from 4GB on. -/
def hiMemory : Rmc.Sys (Imc.Sys Callback (NvramSystem.Sys (Rmw.Sys Callback (Ait.Sys Rmw.Callback
    (List (BaseRequest Ait.SubreqCallback)) StaticMemory)))) :=
  Rmc.Sys.init { mappingFunc := noneMapping, startAddr := 4294967296 }
    [Imc.Sys.init Imc.interleaved [hiSystem]]

/-- The front end over it. -/
def hiMachine := machine cells (nvramPath 2 (Ait.component Nvram.promptMemory
  StaticMemory.component))

/-- A read of it is never answered: the callback finds no packet, which
ends the simulation. -/
theorem high_memory_answers_none_hi : ∃ s₀ s, Sys.new hiMemory (fun _ => 0) 750 0 = .ok s₀ ∧
    hiMachine.run s₀ [.recvTimingReq (readOf 4294967360)] = .ok s ∧
    asked s.log = [(.readComplete, 4294967360)] ∧ completed s.log = [] ∧
    hiMachine.run s (List.replicate 14 (.tick (fun _ => .asHeld) [])) =
      .error "Assertion failed: reads.count(addr) != 0" := by
  obtain ⟨s₀, s, hnew, hrun, hasked, hfails⟩ : ∃ s₀ s,
      Sys.new hiMemory (fun _ => 0) 750 0 = .ok s₀ ∧
      hiMachine.run s₀ [.recvTimingReq (readOf 4294967360)] = .ok s ∧
      asked s.log = [(.readComplete, 4294967360)] ∧
      hiMachine.run s (List.replicate 14 (.tick (fun _ => .asHeld) [])) =
        .error "Assertion failed: reads.count(addr) != 0" := ⟨_, _, rfl, rfl, rfl, rfl⟩
  have hsystems : ∀ system ∈ [hiSystem], NvramSystem.New system := by
    intro system hsystem
    obtain rfl := List.mem_singleton.mp hsystem
    exact ⟨"none_mapping", _, _, _, rfl, rfl⟩
  obtain ⟨-, hnone⟩ :=
    high_memory_answers_none ⟨"none_mapping", rfl⟩ rfl hsystems hnew hrun
  refine ⟨s₀, s, hnew, hrun, hasked, (hnone fun q hq => ?_).1, hfails⟩
  rw [hasked] at hq
  obtain rfl := List.mem_singleton.mp hq
  decide

end High

end Gem5

end Vans
