import Vans.Gem5.Moves
import Vans.Common.History
/-!
# The gem5 front end — its packets

Where a packet is that was taken, over whatever memory: a read waits
under its address, first in first out, until the memory calls back, and
any other packet was accessed when it came. Of each access that makes a
response, the response waits or was taken, in the order of the accesses.
The store holds what the packets wrote that came, and a read returns what
it holds when the memory calls back.
-/

namespace Vans

namespace Gem5

variable {δ μ σ : Type}

/-! ## What the log says -/

/-- The packets that were taken. -/
def accepts (log : List (Obs δ)) : List (Packet δ) :=
  log.filterMap fun
    | .recvTimingReq pkt true => some pkt
    | _ => none

/-- The packets that were accessed. -/
def accesses (log : List (Obs δ)) : List (Packet δ) :=
  log.filterMap fun
    | .access pkt _ => some pkt
    | _ => none

/-- The responses that were made. -/
def answers (log : List (Obs δ)) : List (Packet δ) :=
  log.flatMap fun
    | .access pkt accessed => responses pkt accessed
    | _ => []

/-- The responses that the peer took. -/
def delivered (log : List (Obs δ)) : List (Packet δ) :=
  log.filterMap fun
    | .sendTimingResp pkt true => some pkt
    | _ => none

/-- How often the memory called back for a write of the address. -/
def written (addr : Addr) (log : List (Obs δ)) : ℕ :=
  log.countP fun
    | .complete .writeComplete a => a = addr
    | _ => false

def readsAt (addr : Addr) (pkts : List (Packet δ)) : List (Packet δ) :=
  pkts.filter fun pkt => pkt.isRead ∧ pkt.addr = addr

def writesAt (addr : Addr) (pkts : List (Packet δ)) : List (Packet δ) :=
  pkts.filter fun pkt => ¬ pkt.isRead ∧ pkt.isWrite ∧ pkt.addr = addr

/-- The packets that are accessed when they come. -/
def notReads (pkts : List (Packet δ)) : List (Packet δ) := pkts.filter fun pkt => ¬ pkt.isRead

section Log

variable {log new : List (Obs δ)} {addr : Addr} {pkts pkts' : List (Packet δ)}

theorem accepts_append : accepts (log ++ new) = accepts log ++ accepts new :=
  List.filterMap_append

theorem accesses_append : accesses (log ++ new) = accesses log ++ accesses new :=
  List.filterMap_append

theorem answers_append : answers (log ++ new) = answers log ++ answers new := List.flatMap_append

theorem delivered_append : delivered (log ++ new) = delivered log ++ delivered new :=
  List.filterMap_append

theorem written_append : written addr (log ++ new) = written addr log + written addr new :=
  List.countP_append

theorem written_silent (h : written addr new = 0) :
    written addr (log ++ new) = written addr log := by
  rw [written_append, h, Nat.add_zero]

theorem readsAt_append : readsAt addr (pkts ++ pkts') = readsAt addr pkts ++ readsAt addr pkts' :=
  List.filter_append _ _

theorem writesAt_append :
    writesAt addr (pkts ++ pkts') = writesAt addr pkts ++ writesAt addr pkts' :=
  List.filter_append _ _

theorem notReads_append : notReads (pkts ++ pkts') = notReads pkts ++ notReads pkts' :=
  List.filter_append _ _

end Log

/-! ## Where the packets are -/

/-- **Where the packets are** that were taken: some are in hand, between
being taken and being accessed. -/
structure Sys.Kept (Q : Packet δ → Prop) (hand : List (Packet δ)) (s : Sys δ μ σ) : Prop where
  count : s.reqsInFlight = s.reads.size + s.writes.size
  waiting : ∀ addr, ∀ pkt ∈ s.reads.waiting addr, Q pkt ∧ pkt.isRead ∧ pkt.addr = addr
  reads : ∀ addr, readsAt addr (accepts s.log) =
    readsAt addr (accesses s.log ++ hand) ++ s.reads.waiting addr
  writes : ∀ addr, ∃ done, writesAt addr (accepts s.log) = done ++ s.writes.waiting addr ∧
    done.length = written addr s.log
  notReads : notReads (accepts s.log) = notReads (accesses s.log ++ hand)
  responses : answers s.log = delivered s.log ++ s.respQueue

namespace Sys.Kept

variable {M : AbstractMemory δ μ} {C : Component Callback σ} {Q : Packet δ → Prop}
  {s t : Sys δ μ σ} {pkt : Packet δ} {hand : List (Packet δ)} {seen : List (Obs δ)}

/-- Where nothing that was seen moves a packet, the packets are where
they were. -/
theorem of_silent (h : s.Kept Q hand) (hcount : t.reqsInFlight = s.reqsInFlight)
    (hreads : t.reads = s.reads) (hwrites : t.writes = s.writes)
    (hqueue : t.respQueue = s.respQueue) (hlog : t.log = s.log ++ seen)
    (hsilent : accepts seen = [] ∧ accesses seen = [] ∧ answers seen = [] ∧ delivered seen = [] ∧
      ∀ addr, written addr seen = 0) : t.Kept Q hand := by
  obtain ⟨haccepts, haccesses, hanswers, hdelivered, hwritten⟩ := hsilent
  refine ⟨?_, ?_, fun addr => ?_, fun addr => ?_, ?_, ?_⟩
  · rw [hcount, hreads, hwrites]
    exact h.count
  · rw [hreads]
    exact h.waiting
  · rw [hlog, accepts_append, accesses_append, haccepts, haccesses, List.append_nil,
      List.append_nil, hreads]
    exact h.reads addr
  · rw [hlog, accepts_append, written_append, haccepts, hwritten, List.append_nil, hwrites]
    exact h.writes addr
  · rw [hlog, accepts_append, accesses_append, haccepts, haccesses, List.append_nil,
      List.append_nil]
    exact h.notReads
  · rw [hlog, answers_append, delivered_append, hanswers, hdelivered, List.append_nil,
      List.append_nil, hqueue]
    exact h.responses

theorem signalIfDone (h : s.Kept Q hand) : s.signalIfDone.Kept Q hand := by
  rw [Sys.signalIfDone]
  split
  · exact h.of_silent rfl rfl rfl rfl rfl ⟨rfl, rfl, rfl, rfl, fun _ => rfl⟩
  · exact h

/-- **The packet in hand is accessed.** -/
theorem accessed (h : s.Kept Q [pkt]) : (s.accessed M pkt).Kept Q [] := by
  have haccesses : ∀ a, accesses (s.log ++ [.access pkt a]) = accesses s.log ++ [pkt] :=
    fun a => accesses_append
  refine ⟨h.count, h.waiting, fun addr => ?_, fun addr => ?_, ?_, ?_⟩
  · rw [Sys.accessed, haccesses, accepts_append, List.append_nil]
    exact (congrArg (readsAt addr) (List.append_nil _)).trans (h.reads addr)
  · rw [Sys.accessed, accepts_append, written_append]
    exact (List.append_nil (accepts s.log)).symm ▸ h.writes addr
  · rw [Sys.accessed, haccesses, accepts_append, List.append_nil]
    exact (congrArg Gem5.notReads (List.append_nil _)).trans h.notReads
  · rw [Sys.accessed, answers_append, delivered_append, h.responses, List.append_assoc,
      List.append_assoc]
    simp [answers, delivered]

/-- **A read comes**, and waits. -/
theorem read {wrapper : Wrapper σ} (h : s.Kept Q []) (hQ : Q pkt) (hread : pkt.isRead) :
    ({ s with
      wrapper := wrapper
      reads := s.reads.push pkt.addr pkt
      reqsInFlight := s.reqsInFlight + 1
      log := s.log ++ [.recvTimingReq pkt true] } : Sys δ μ σ).Kept Q [] := by
  refine ⟨?_, fun addr p hp => ?_, fun addr => ?_, fun addr => ?_, ?_, ?_⟩
  · simp only [Fifos.size_push, h.count]
    omega
  · rw [Fifos.waiting_push] at hp
    split at hp
    · rename_i haddr
      subst haddr
      rcases List.mem_append.mp hp with hp | hp
      · exact h.waiting _ p hp
      · obtain rfl := List.mem_singleton.mp hp
        exact ⟨hQ, hread, rfl⟩
    · exact h.waiting addr p hp
  · have hold := h.reads addr
    rw [List.append_nil] at hold ⊢
    simp only [accepts_append, accesses_append, readsAt_append, hold, Fifos.waiting_push]
    by_cases haddr : addr = pkt.addr
    · subst haddr
      simp [accepts, accesses, readsAt, hread]
    · simp [accepts, accesses, readsAt, hread, haddr, Ne.symm haddr]
  · obtain ⟨done, hdone, hlen⟩ := h.writes addr
    refine ⟨done, ?_, hlen.trans (written_silent rfl).symm⟩
    rw [accepts_append, writesAt_append, hdone]
    simp [accepts, writesAt, hread]
  · have hold := h.notReads
    rw [List.append_nil] at hold ⊢
    rw [accepts_append, accesses_append, notReads_append, notReads_append, hold]
    simp [accepts, accesses, Gem5.notReads, hread]
  · rw [answers_append, delivered_append, h.responses]
    simp [answers, delivered]

/-- A write comes: its completion is counted, and the packet in hand. -/
theorem write {wrapper : Wrapper σ} (h : s.Kept Q []) (hread : pkt.isRead = false)
    (hwrite : pkt.isWrite) :
    ({ s with
      wrapper := wrapper
      writes := s.writes.push pkt.addr pkt
      reqsInFlight := s.reqsInFlight + 1
      log := s.log ++ [.recvTimingReq pkt true] } : Sys δ μ σ).Kept Q [pkt] := by
  refine ⟨?_, h.waiting, fun addr => ?_, fun addr => ?_, ?_, ?_⟩
  · simp only [Fifos.size_push, h.count]
    omega
  · have hold := h.reads addr
    rw [List.append_nil] at hold
    simp only [accepts_append, accesses_append, readsAt_append, hold]
    simp [accepts, accesses, readsAt, hread]
  · obtain ⟨done, hdone, hlen⟩ := h.writes addr
    refine ⟨done, ?_, hlen.trans (written_silent rfl).symm⟩
    rw [accepts_append, writesAt_append, hdone, Fifos.waiting_push]
    by_cases haddr : addr = pkt.addr
    · subst haddr
      simp [accepts, writesAt, hread, hwrite]
    · simp [accepts, writesAt, haddr, Ne.symm haddr]
  · have hold := h.notReads
    rw [List.append_nil] at hold
    rw [accepts_append, accesses_append, notReads_append, notReads_append, notReads_append, hold]
    simp [accepts, accesses, Gem5.notReads, hread]
  · rw [answers_append, delivered_append, h.responses]
    simp [answers, delivered]

/-- Any other packet comes, and is in hand. -/
theorem other (h : s.Kept Q []) (hread : pkt.isRead = false) (hwrite : pkt.isWrite = false) :
    (s.emit (.recvTimingReq pkt true)).Kept Q [pkt] := by
  refine ⟨h.count, h.waiting, fun addr => ?_, fun addr => ?_, ?_, ?_⟩
  · have hold := h.reads addr
    rw [List.append_nil] at hold
    simp only [Sys.emit, accepts_append, accesses_append, readsAt_append, hold]
    simp [accepts, accesses, readsAt, hread]
  · obtain ⟨done, hdone, hlen⟩ := h.writes addr
    refine ⟨done, ?_, hlen.trans (written_silent rfl).symm⟩
    rw [Sys.emit, accepts_append, writesAt_append, hdone]
    simp [accepts, writesAt, hwrite]
  · have hold := h.notReads
    rw [List.append_nil] at hold
    rw [Sys.emit, accepts_append, accesses_append, notReads_append, notReads_append,
      notReads_append, hold]
    simp [accepts, accesses, Gem5.notReads, hread]
  · rw [Sys.emit, answers_append, delivered_append, h.responses]
    simp [answers, delivered]

/-- **A packet comes.** -/
theorem takes {accepted : Bool} (h : s.Kept Q []) (hQ : Q pkt)
    (htakes : Takes M C s pkt accepted t) : t.Kept Q [] := by
  cases htakes with
  | ignored => exact h
  | refused | turnedDown =>
      exact h.of_silent rfl rfl rfl rfl rfl ⟨rfl, rfl, rfl, rfl, fun _ => rfl⟩
  | read hfree hread hsend => exact h.read hQ hread
  | write hfree hread hwrite hsend => exact (h.write hread hwrite).accessed
  | other hfree hread hwrite => exact (h.other hread hwrite).accessed

/-- **The memory calls back.** -/
theorem completes {inv : Invocation Callback} (h : s.Kept Q []) (hdone : Completes M s inv t) :
    t.Kept Q [] := by
  cases hdone with
  | @read pkt reads hcb hpop hpos =>
      obtain ⟨hfirst, hothers, hsize⟩ := Fifos.pop_eq_some hpop
      obtain ⟨-, hread, haddr⟩ := h.waiting inv.addr pkt (hfirst ▸ List.mem_cons_self)
      refine accessed ⟨?_, fun addr p hp => ?_, fun addr => ?_, fun addr => ?_, ?_, ?_⟩
      · have hcount := h.count
        dsimp only
        omega
      · by_cases hsame : addr = inv.addr
        · subst hsame
          exact h.waiting _ p (hfirst ▸ List.mem_cons_of_mem _ hp)
        · exact h.waiting addr p (hothers addr hsame ▸ hp)
      · have hold := h.reads addr
        rw [List.append_nil] at hold
        rw [accepts_append, accesses_append, readsAt_append, hold, readsAt_append, readsAt_append]
        by_cases hsame : addr = inv.addr
        · subst hsame
          simp [hfirst, accepts, accesses, readsAt, hread, haddr]
        · simp [hothers addr hsame, accepts, accesses, readsAt, haddr, Ne.symm hsame]
      · obtain ⟨done, hdone, hlen⟩ := h.writes addr
        refine ⟨done, ?_, hlen.trans (written_silent rfl).symm⟩
        rw [accepts_append]
        exact (congrArg (writesAt addr) (List.append_nil _)).trans hdone
      · have hold := h.notReads
        rw [List.append_nil] at hold
        rw [accepts_append, accesses_append, notReads_append, hold, notReads_append,
          notReads_append]
        simp [accepts, accesses, Gem5.notReads, hread]
      · rw [answers_append, delivered_append, h.responses]
        simp [answers, delivered]
  | @write pkt writes hcb hpop hpos =>
      obtain ⟨hfirst, hothers, hsize⟩ := Fifos.pop_eq_some hpop
      refine signalIfDone ⟨?_, h.waiting, fun addr => ?_, fun addr => ?_, ?_, ?_⟩
      · have hcount := h.count
        dsimp only
        omega
      · rw [accepts_append, accesses_append]
        simpa [accepts, accesses] using h.reads addr
      · obtain ⟨done, hdone, hlen⟩ := h.writes addr
        by_cases hsame : addr = inv.addr
        · subst hsame
          refine ⟨done ++ [pkt], ?_, ?_⟩
          · rw [accepts_append, List.append_assoc, List.singleton_append, ← hfirst]
            exact (congrArg (writesAt _) (List.append_nil _)).trans hdone
          · rw [List.length_append, hlen, written_append]
            simp [written]
        · refine ⟨done, ?_, ?_⟩
          · rw [accepts_append, hothers addr hsame]
            exact (congrArg (writesAt _) (List.append_nil _)).trans hdone
          · rw [hlen, written_append]
            simp [written, Ne.symm hsame]
      · rw [accepts_append, accesses_append]
        simpa [accepts, accesses] using h.notReads
      · rw [answers_append, delivered_append, h.responses]
        simp [answers, delivered]

theorem move (h : s.Kept Q []) (hm : Move M C Q s t) : t.Kept Q [] := by
  cases hm with
  | takes hQ htakes => exact h.takes hQ htakes
  | completes hdone => exact h.completes hdone
  | @sends pkt rest taken hfree hqueue =>
      cases taken with
      | false => exact h.of_silent rfl rfl rfl rfl rfl ⟨rfl, rfl, rfl, rfl, fun _ => rfl⟩
      | true =>
          refine signalIfDone ⟨h.count, h.waiting, fun addr => ?_, fun addr => ?_, ?_, ?_⟩
          · rw [accepts_append, accesses_append]
            simpa [accepts, accesses] using h.reads addr
          · obtain ⟨done, hdone, hlen⟩ := h.writes addr
            refine ⟨done, ?_, hlen.trans (written_silent rfl).symm⟩
            rw [accepts_append]
            exact (congrArg (writesAt addr) (List.append_nil _)).trans hdone
          · rw [accepts_append, accesses_append]
            simpa [accepts, accesses] using h.notReads
          · rw [answers_append, delivered_append, h.responses, hqueue]
            simp [answers, delivered]
  | retries =>
      have hlog : s.log ++ [.sendRetryReq] = s.log ++ [Obs.sendRetryReq] := rfl
      exact h.of_silent rfl rfl rfl rfl hlog ⟨rfl, rfl, rfl, rfl, fun _ => rfl⟩
  | resumes | memory | clock =>
      exact ⟨h.count, h.waiting, h.reads, h.writes, h.notReads, h.responses⟩
  | atomic | functional | drain =>
      exact h.of_silent rfl rfl rfl rfl rfl ⟨rfl, rfl, rfl, rfl, fun _ => rfl⟩

theorem new {memory : σ} {store : μ} {ticksPerClk clockEdge : Tick}
    (h : Sys.new memory store ticksPerClk clockEdge = .ok s) : s.Kept Q [] := by
  obtain rfl := Sys.new_eq_ok h
  exact ⟨rfl, fun _ _ h => absurd h List.not_mem_nil, fun _ => rfl, fun _ => ⟨[], rfl, rfl⟩, rfl,
    rfl⟩

end Sys.Kept

/-! ## A run -/

/-- A store of numbers. -/
def cells : AbstractMemory ℕ (Addr → ℕ) where
  access := fun pkt store =>
    if pkt.isRead then
      ({ pkt with isResponse := pkt.needsResponse, data := store pkt.addr }, store)
    else ({ pkt with isResponse := pkt.needsResponse }, Function.update store pkt.addr pkt.data)
  functionalAccess := fun pkt store =>
    if pkt.isRead then ({ pkt with data := store pkt.addr }, store)
    else (pkt, Function.update store pkt.addr pkt.data)
  trySatisfyFunctional := fun pkt other =>
    if pkt.addr = other.addr then { pkt with data := other.data } else pkt

/-- A memory with room for one request, which calls back at its next
tick. -/
def onePlace : Component Callback (Option (BaseRequest Callback)) where
  issueRequest := fun req s => pure (⟨s.isNone, false, clkInvalid⟩, req, s.or (some req))
  full := fun s => pure s.isSome
  pending := Option.isSome
  drain := pure
  tick := fun _ clk s =>
    pure (none, (s.bind fun req => req.callback.map fun c => ⟨c, req.addr, clk⟩).toList)

def writeOf (addr : Addr) (data : ℕ) : Packet ℕ where
  addr := addr
  isRead := false
  isWrite := true
  needsResponse := true
  data := data

def readOf (addr : Addr) : Packet ℕ where
  addr := addr
  isRead := true
  isWrite := false
  needsResponse := true
  data := 0

def emptyCells : Result (Sys ℕ (Addr → ℕ) (Option (BaseRequest Callback))) :=
  Sys.new none (fun _ => 0) 750 0

/-- A line is written and read: the read is refused at first, and a drain
waits for it. -/
def writeRead : List (Event ℕ) :=
  [.recvTimingReq (writeOf 64 7), .recvTimingReq (readOf 64), .tick (fun _ => .asHeld) [readOf 64],
    .sendResponse true [], .drain, .advance 750, .tick (fun _ => .asHeld) [],
    .sendResponse true []]

section Runs

variable {M : AbstractMemory δ μ} {C : Component Callback σ} {s₀ s t : Sys δ μ σ} {memory : σ}
  {store : μ} {ticksPerClk clockEdge : Tick} {es : List (Event δ)} {pkt : Packet δ}
  {log new : List (Obs δ)}

/-- **No packet is lost, doubled or overtaken.** In every run, over
whatever memory: of the reads of an address, those that were accessed
come first in the order they were taken, and the others wait in that
order; any other packet was accessed, in the order they were taken; as
many writes of an address were called back for as do not wait any more;
and the responses the accesses made were delivered in their order, up to
those that wait. -/
theorem packets_kept (hnew : Sys.new memory store ticksPerClk clockEdge = .ok s₀)
    (hrun : (machine M C).run s₀ es = .ok s) :
    s.reqsInFlight = s.reads.size + s.writes.size ∧
      (∀ addr, readsAt addr (accepts s.log) =
        readsAt addr (accesses s.log) ++ s.reads.waiting addr) ∧
      notReads (accepts s.log) = notReads (accesses s.log) ∧
      (∀ addr, (writesAt addr (accepts s.log)).drop (written addr s.log) =
        s.writes.waiting addr) ∧
      answers s.log = delivered s.log ++ s.respQueue := by
  obtain ⟨hcount, -, hreads, hwrites, hothers, hresponses⟩ := run_keeps (Q := fun _ => True)
    (P := fun s => s.Kept (fun _ => True) []) (fun _ _ h hm => h.move hm)
    (fun _ _ _ _ => trivial) (.new hnew) hrun
  refine ⟨hcount, fun addr => ?_, ?_, fun addr => ?_, hresponses⟩
  · rw [hreads, List.append_nil]
  · rw [hothers, List.append_nil]
  · obtain ⟨done, hdone, hlen⟩ := hwrites addr
    rw [hdone, ← hlen, List.drop_left]

/-- The write and the read, each accessed once. -/
theorem packets_kept_writeRead : ∃ s₀ s : Sys ℕ (Addr → ℕ) (Option (BaseRequest Callback)),
    emptyCells = .ok s₀ ∧ (machine cells onePlace).run s₀ writeRead = .ok s ∧
      accesses s.log = [writeOf 64 7, readOf 64] ∧
      readsAt 64 (accepts s.log) = [readOf 64] ++ s.reads.waiting 64 ∧
      answers s.log = delivered s.log ++ s.respQueue := by
  obtain ⟨s₀, s, hnew, hrun, haccesses⟩ :
      ∃ s₀ s : Sys ℕ (Addr → ℕ) (Option (BaseRequest Callback)), emptyCells = .ok s₀ ∧
        (machine cells onePlace).run s₀ writeRead = .ok s ∧
        accesses s.log = [writeOf 64 7, readOf 64] := ⟨_, _, rfl, rfl, by decide⟩
  obtain ⟨-, hreads, -, -, hresponses⟩ := packets_kept hnew hrun
  refine ⟨s₀, s, hnew, hrun, haccesses, ?_, hresponses⟩
  rw [hreads, haccesses]
  rfl

/-! ## What the store holds -/

/-- What is stored once this was seen: what a packet writes that comes,
unless it is a read. -/
def storedBy (M : AbstractMemory δ μ) (store : μ) : Obs δ → μ
  | .recvTimingReq pkt true => if pkt.isRead then store else (M.access pkt store).2
  | .recvAtomic pkt _ => (M.access pkt store).2
  | .recvFunctional pkt _ => (M.functionalAccess pkt store).2
  | _ => store

def stored (M : AbstractMemory δ μ) (store : μ) (log : List (Obs δ)) : μ :=
  log.foldl (storedBy M) store

/-- A packet that leaves the store, if it reads. -/
def Leaves (M : AbstractMemory δ μ) (pkt : Packet δ) : Prop :=
  pkt.isRead → ∀ store, (M.access pkt store).2 = store

/-- What is read is what is stored. -/
def Returns (M : AbstractMemory δ μ) (store : μ) (before : List (Obs δ)) : Obs δ → Prop
  | .access pkt accessed => pkt.isRead → accessed = (M.access pkt (stored M store before)).1
  | .recvAtomic pkt accessed => accessed = (M.access pkt (stored M store before)).1
  | _ => True

theorem stored_append : stored M store (log ++ new) = stored M (stored M store log) new :=
  List.foldl_append

/-- **The store is what came**, and the reads are what it was. -/
structure Sys.Stored (M : AbstractMemory δ μ) (store : μ) (s : Sys δ μ σ) : Prop where
  holds : s.store = stored M store s.log
  returns : History.Always (Returns M store) s.log

namespace Sys.Stored

/-- **Something was seen** that returns what is stored. -/
theorem emit {o : Obs δ} (h : s.Stored M store) (hlog : t.log = s.log ++ [o])
    (hstore : t.store = storedBy M s.store o) (ho : Returns M store s.log o) :
    t.Stored M store := by
  refine ⟨?_, ?_⟩
  · rw [hlog, stored_append, ← h.holds, hstore]
    rfl
  · rw [hlog]
    exact History.always_concat.mpr ⟨h.returns, ho⟩

theorem signalIfDone (h : s.Stored M store) : s.signalIfDone.Stored M store := by
  rw [Sys.signalIfDone]
  split
  · exact h.emit rfl rfl trivial
  · exact h

/-- **A read is accessed.** -/
theorem read (h : s.Stored M store) (hleaves : Leaves M pkt) (hread : pkt.isRead) :
    (s.accessed M pkt).Stored M store := by
  refine h.emit rfl (hleaves hread _) fun _ => ?_
  rw [h.holds]

/-- **Any other packet is accessed** as it comes. -/
theorem notRead (h : s.Stored M store) (hread : pkt.isRead = false) (hstore : t.store = s.store)
    (hlog : t.log = s.log ++ [.recvTimingReq pkt true]) : (t.accessed M pkt).Stored M store := by
  have hnot : ¬ pkt.isRead := by simp [hread]
  refine ⟨?_, ?_⟩
  · simp only [Sys.accessed, hlog, hstore, stored_append, ← h.holds]
    exact (if_neg hnot).symm
  · simp only [Sys.accessed, hlog]
    exact History.always_concat.mpr ⟨History.always_concat.mpr ⟨h.returns, trivial⟩,
      fun hyes => absurd hyes hnot⟩

theorem move (h : s.Stored M store) (kept : s.Kept (Leaves M) [])
    (hm : Move M C (Leaves M) s t) : t.Stored M store := by
  cases hm with
  | takes hQ htakes =>
      cases htakes with
      | ignored => exact h
      | refused | turnedDown => exact h.emit rfl rfl trivial
      | read hfree hread hsend => exact h.emit rfl (if_pos hread).symm trivial
      | write hfree hread hwrite hsend => exact h.notRead hread rfl rfl
      | other hfree hread hwrite => exact h.notRead hread rfl rfl
  | @completes inv _ hdone =>
      cases hdone with
      | @read pkt reads hcb hpop hpos =>
          obtain ⟨hfirst, -⟩ := Fifos.pop_eq_some hpop
          obtain ⟨hleaves, hread, -⟩ := kept.waiting inv.addr pkt (hfirst ▸ List.mem_cons_self)
          exact read (h.emit (o := .complete .readComplete inv.addr) rfl rfl trivial) hleaves hread
      | write hcb hpop hpos => exact signalIfDone (h.emit rfl rfl trivial)
  | @sends pkt rest taken hfree hqueue =>
      cases taken with
      | false => exact h.emit rfl rfl trivial
      | true => exact signalIfDone (h.emit rfl rfl trivial)
  | retries => exact h.emit (o := .sendRetryReq) rfl rfl trivial
  | resumes | memory | clock => exact ⟨h.holds, h.returns⟩
  | @atomic pkt => exact h.emit rfl rfl (by rw [h.holds]; rfl)
  | functional | drain => exact h.emit rfl rfl trivial

end Sys.Stored

/-- **The memory is what was written to it.** Where reads leave the store,
it holds in every run what the packets wrote that were taken, in the order
they were taken; and a read returns what it holds, of all that came before
the memory called back for the read, whatever is still in flight there. -/
theorem reads_return_stored (hnew : Sys.new memory store ticksPerClk clockEdge = .ok s₀)
    (hleaves : ∀ ev ∈ es, ∀ pkt ∈ ev.requests, Leaves M pkt)
    (hrun : (machine M C).run s₀ es = .ok s) :
    s.store = stored M store s.log ∧ History.Always (Returns M store) s.log := by
  have hstored₀ : s₀.Stored M store := by
    obtain rfl := Sys.new_eq_ok hnew
    exact ⟨rfl, History.always_nil⟩
  obtain ⟨-, hholds, hreturns⟩ := run_keeps (Q := Leaves M)
    (P := fun s => s.Kept (Leaves M) [] ∧ s.Stored M store)
    (fun _ _ h hm => ⟨h.1.move hm, h.2.move h.1 hm⟩) hleaves ⟨.new hnew, hstored₀⟩ hrun
  exact ⟨hholds, hreturns⟩

/-- The read returns what was written. -/
theorem reads_return_stored_writeRead :
    ∃ s₀ s : Sys ℕ (Addr → ℕ) (Option (BaseRequest Callback)),
      emptyCells = .ok s₀ ∧ (machine cells onePlace).run s₀ writeRead = .ok s ∧
        (delivered s.log).map Packet.data = [7, 7] ∧ s.store = stored cells (fun _ => 0) s.log ∧
        History.Always (Returns cells fun _ => 0) s.log := by
  obtain ⟨s₀, s, hnew, hrun, hdata⟩ :
      ∃ s₀ s : Sys ℕ (Addr → ℕ) (Option (BaseRequest Callback)), emptyCells = .ok s₀ ∧
        (machine cells onePlace).run s₀ writeRead = .ok s ∧
        (delivered s.log).map Packet.data = [7, 7] := ⟨_, _, rfl, rfl, by decide⟩
  have hleaves : ∀ ev ∈ writeRead, ∀ pkt ∈ ev.requests, Leaves cells pkt :=
    fun _ _ _ _ hread _ => by simp only [cells, hread, if_true]
  exact ⟨s₀, s, hnew, hrun, hdata, reads_return_stored hnew hleaves hrun⟩

end Runs

end Gem5

end Vans
