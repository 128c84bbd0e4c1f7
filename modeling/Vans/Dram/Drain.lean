import Vans.Dram.Liveness
import Vans.Dram.Retire
/-!
# DDR4 — the memory drains

When no more is issued, the columns that are queued are served within the
limit no request waits longer than. Then nothing is added to the reads
that wait for their answers, all of these are due after the read latency,
and they are answered one a tick. So the memory comes to rest, with every
read answered once and every write served.
-/

namespace Vans

namespace Dram

namespace Ddr4

variable {κ : Type} {o : Organization} {t : Timing} {cfg : Config} {longest last last' : ℕ}
  {s m u : Memory κ} {ev : Event κ}

/-- A read that is issued has a callback. -/
def Answerable : Event κ → Prop
  | .issueRequest _ type callback => type = .read → callback.isSome
  | .tick _ => True

instance : ∀ ev : Event κ, Decidable (Answerable ev)
  | .issueRequest _ type callback => inferInstanceAs (Decidable (type = .read → callback.isSome))
  | .tick _ => inferInstanceAs (Decidable True)

/-- The clocks from a read's column to its answer. -/
def latency (o : Organization) (t : Timing) : ℕ := (UInt64.ofInt (spec o t).readLatency).toNat

/-- The columns that are queued. -/
def columns (s : Memory κ) : ℕ :=
  (s.reqs .act).length + (s.reqs .read).length + (s.reqs .write).length

/-- The columns that are queued, and the reads that wait. -/
def unanswered (s : Memory κ) : ℕ := s.ctrl.pendingQueue.length + columns s

/-- The clocks after which what came by now is served. -/
def serviceTime (o : Organization) (t : Timing) (cfg : Config) (longest : ℕ) : ℕ :=
  dueLimit o t cfg longest / (t.interval - refreshCost o longest) + 1

/-- The ticks after which the memory is at rest. -/
def drainTime (o : Organization) (t : Timing) (cfg : Config) (longest : ℕ) (s : Memory κ) : ℕ :=
  serviceTime o t cfg longest + (latency o t + 1) + unanswered s

/-- No column is queued. -/
def Idle (s : Memory κ) : Prop := ∀ n, n ≠ .misc → s.reqs n = []

/-- **The reads that wait** have callbacks, and are answered soon; those
that are queued have callbacks. -/
structure Awaits (o : Organization) (t : Timing) (s : Memory κ) : Prop where
  callback : ∀ req ∈ s.ctrl.pendingQueue, req.callback.isSome
  depart : ∀ req ∈ s.ctrl.pendingQueue, req.depart.toUInt64.toNat ≤ s.now + (latency o t + 1)
  reads : ∀ n, ∀ req ∈ s.reqs n, req.type = .read → req.callback.isSome

section Pending

variable {name : QueueName} {req : Request κ} {rest : List (Request κ)} {cmd : Command} {clk : Clk}

/-- A wait is no longer than the latency, whether or not the sum wraps. -/
theorem add_le {d : UInt64} : (clk + d).toInt64.toUInt64.toNat ≤ clk.toNat + d.toNat := by
  have hsame : (clk + d).toInt64.toUInt64 = clk + d := rfl
  rw [hsame, UInt64.toNat_add]
  exact Nat.mod_le _ _

/-- The first read that waits is answered, or all wait on. -/
theorem servePending_pending : (servePending s).ctrl.pendingQueue = s.ctrl.pendingQueue ∨
    ∃ req, s.ctrl.pendingQueue = req :: (servePending s).ctrl.pendingQueue := by
  unfold servePending
  split
  · exact .inl rfl
  · rename_i req rest hq
    split
    · split
      · exact .inl rfl
      · exact .inr ⟨req, hq⟩
    · exact .inl rfl

/-- **A command adds no more to the reads that wait** than it takes from
the queues. -/
theorem issue_unanswered (sch : Scheduled s) (hissues : Issues (spec o t) s u name req rest cmd)
    (hnext : cmd = nextCmd (rowsOf s) req) : unanswered u ≤ unanswered s := by
  have htype := sch.types name req (hissues.front ▸ List.mem_cons_self)
  have hfront := congrArg List.length hissues.front
  have hpending := congrArg List.length hissues.pending
  have hact := congrArg List.length (hissues.queue .act)
  have hread := congrArg List.length (hissues.queue .read)
  have hwrite := congrArg List.length (hissues.queue .write)
  rw [List.length_cons] at hfront
  rw [List.length_append] at hpending hact hread hwrite
  rw [unanswered, unanswered, columns, columns]
  by_cases hname : name = .misc
  · -- a refresh is neither a column nor waited for
    subst hname
    have hrefresh : req.type = .refresh := htype
    have hopening : (spec o t).isOpening cmd = false := by
      rw [hnext, nextCmd, if_pos hrefresh]
      split <;> rfl
    simp [hrefresh, hopening] at hpending hact hread hwrite
    omega
  · -- a read waits only where it left its queue
    have hadded : u.ctrl.pendingQueue.length ≤
        s.ctrl.pendingQueue.length + if (spec o t).ends cmd then 1 else 0 := by
      rw [hpending]
      refine Nat.add_le_add_left ?_ _
      by_cases hends : (spec o t).ends cmd = true ∧ req.type = .read
      · rw [if_pos hends, if_pos hends.1]
        exact le_rfl
      · rw [if_neg hends]
        exact Nat.zero_le _
    cases hends : (spec o t).ends cmd <;> cases hopening : (spec o t).isOpening cmd <;>
      cases name <;> simp [hends, hopening] at hadded hact hread hwrite hname <;> omega

/-- Where no column is queued, a command leaves the reads that wait. -/
theorem issue_idle (sch : Scheduled s) (hissues : Issues (spec o t) s u name req rest cmd)
    (hnext : cmd = nextCmd (rowsOf s) req) (hidle : Idle s) :
    Idle u ∧ u.ctrl.pendingQueue = s.ctrl.pendingQueue := by
  have hname : name = .misc := by
    by_contra hne
    have hfront := hissues.front
    rw [hidle name hne] at hfront
    cases hfront
  subst hname
  have htype : req.type = .refresh := sch.types .misc req (hissues.front ▸ List.mem_cons_self)
  have hopening : (spec o t).isOpening cmd = false := by
    rw [hnext, nextCmd, if_pos htype]
    split <;> rfl
  refine ⟨fun n hn => ?_, ?_⟩
  · simp [hissues.queue, hn, hopening, hidle n hn]
  · simp [hissues.pending, htype]

/-- What a tick leaves of the reads that wait, before its command. -/
theorem pending_begun (begun : Begun (spec o t) s clk m) :
    m.ctrl.pendingQueue = s.ctrl.pendingQueue ∨
      ∃ req, s.ctrl.pendingQueue = req :: m.ctrl.pendingQueue := by
  rw [begun.pending]
  exact servePending_pending (s := { s with ctrl.currClk := clk })

/-- **The first read that waits is answered**, where it is due. -/
theorem pending_answered (begun : Begun (spec o t) s clk m)
    (hq : s.ctrl.pendingQueue = req :: rest) (hcb : req.callback.isSome)
    (hdue : req.depart.toUInt64 ≤ clk) : m.ctrl.pendingQueue = rest := by
  obtain ⟨callback, hcb⟩ := Option.isSome_iff_exists.mp hcb
  rw [begun.pending, servePending_answers (s := { s with ctrl.currClk := clk }) hq hdue hcb]
  rfl

namespace Awaits

/-- **A request is queued**, or waits at once. -/
theorem request (hcallback : req.type = .read → req.callback.isSome)
    (htaken : Accept s u req ∨ Forward s u req) (h : Awaits o t s) : Awaits o t u := by
  rcases htaken with haccept | hforward
  · have hnow : u.now = s.now := congrArg UInt64.toNat haccept.became.clock
    refine ⟨?_, ?_, fun n r hr htype => ?_⟩
    · rw [haccept.became.pending]
      exact h.callback
    · rw [haccept.became.pending, hnow]
      exact h.depart
    · rw [haccept.became.queue] at hr
      rcases List.mem_append.mp hr with hr | hr
      · exact h.reads n r hr htype
      · split at hr
        · obtain rfl := List.mem_singleton.mp hr
          exact hcallback htype
        · exact absurd hr List.not_mem_nil
  · have hnow : u.now = s.now := congrArg UInt64.toNat hforward.became.clock
    have hread : req.type = .read :=
      of_decide_eq_true (Bool.and_eq_true_iff.mp hforward.forwards).1
    refine ⟨fun r hr => ?_, fun r hr => ?_, fun n r hr htype => ?_⟩
    · rw [hforward.became.pending] at hr
      rcases List.mem_append.mp hr with hr | hr
      · exact h.callback r hr
      · obtain rfl := List.mem_singleton.mp hr
        exact hcallback hread
    · rw [hforward.became.pending] at hr
      rw [hnow]
      rcases List.mem_append.mp hr with hr | hr
      · exact h.depart r hr
      · obtain rfl := List.mem_singleton.mp hr
        have hle := @add_le s.ctrl.currClk 1
        exact hle.trans (Nat.add_le_add_left (Nat.le_add_left _ _) _)
    · rw [hforward.became.queue] at hr
      exact h.reads n r hr htype

/-- **A tick** answers one at most, and the column it issues waits for
the latency. -/
theorem tick (hle : s.now ≤ clk.toNat) (hticked : Ticked o t longest s last clk m u last')
    (h : Awaits o t s) : Awaits o t u := by
  have hm : Awaits o t m := by
    have hnow : m.now = clk.toNat := congrArg UInt64.toNat hticked.begun.clock
    have hmem : ∀ r ∈ m.ctrl.pendingQueue, r ∈ s.ctrl.pendingQueue := by
      intro r hr
      rcases pending_begun hticked.begun with hsame | ⟨req, hq⟩
      · exact hsame ▸ hr
      · exact hq ▸ List.mem_cons_of_mem _ hr
    obtain ⟨new, hadds, hnew, -, -⟩ := begun_adds hticked.begun
    refine ⟨fun r hr => h.callback r (hmem r hr), fun r hr => ?_, fun n r hr htype => ?_⟩
    · have hdepart := h.depart r (hmem r hr)
      omega
    · rw [hadds.queue] at hr
      rcases List.mem_append.mp hr with hr | hr
      · exact h.reads n r hr htype
      · obtain ⟨-, rank, -, rfl⟩ := hnew n r hr
        cases htype
  rcases hticked.outcome with ⟨rfl, -, -⟩ | ⟨-, name, req, rest, cmd, -, hissues, -⟩
  · exact hm
  have hreq : req ∈ m.reqs name := hissues.front ▸ List.mem_cons_self
  have hnow : u.now = m.now := congrArg UInt64.toNat hissues.clock
  have hadded : ∀ r ∈ u.ctrl.pendingQueue, r ∈ m.ctrl.pendingQueue ∨ (req.type = .read ∧
      r = { marked req with
        depart := (m.ctrl.currClk + UInt64.ofInt (spec o t).readLatency).toInt64 }) := by
    intro r hr
    rw [hissues.pending] at hr
    rcases List.mem_append.mp hr with hr | hr
    · exact .inl hr
    · split at hr
      · rename_i hends
        exact .inr ⟨hends.2, List.mem_singleton.mp hr⟩
      · exact absurd hr List.not_mem_nil
  refine ⟨fun r hr => ?_, fun r hr => ?_, fun n r hr htype => ?_⟩
  · rcases hadded r hr with hr | ⟨hread, rfl⟩
    · exact hm.callback r hr
    · exact hm.reads name req hreq hread
  · rw [hnow]
    rcases hadded r hr with hr | ⟨-, rfl⟩
    · exact hm.depart r hr
    · have hle := @add_le m.ctrl.currClk (UInt64.ofInt (spec o t).readLatency)
      exact hle.trans (Nat.add_le_add_left (Nat.le_add_right _ _) _)
  · obtain ⟨n', r', hr', rfl | rfl⟩ := mem_of_issues hissues hr
    · exact hm.reads n' r hr' htype
    · exact hm.reads n' r' hr' htype

/-- **A step keeps the reads that wait.** -/
theorem step (hev : Answerable ev) (hsteady : Steady s ev)
    (hstepped : Stepped o t longest s last ev u last') (h : Awaits o t s) : Awaits o t u := by
  cases ev with
  | issueRequest logicAddr type callback =>
      obtain ⟨-, -, -, rfl | ⟨req, rfl, rfl, htaken⟩⟩ := hstepped
      · exact h
      · exact h.request hev htaken
  | tick clk =>
      obtain ⟨m, hticked⟩ := hstepped
      exact h.tick hsteady.1 hticked

end Awaits

/-! ## The columns are served -/

/-- What the first ticks keep: no column came later, and no more are
unanswered. -/
structure Serves (o : Organization) (t : Timing) (a limit : ℕ) (s : Memory κ) : Prop where
  awaits : Awaits o t s
  came : ∀ n, ∀ req ∈ s.reqs n, req.type ≠ .refresh → req.arrive.toInt ≤ a
  unanswered : unanswered s ≤ limit

namespace Serves

variable {a limit : ℕ}

/-- **A tick** adds no column, and leaves no more unanswered. -/
theorem tick (hle : s.now ≤ clk.toNat) (hticked : Ticked o t longest s last clk m u last')
    (h : Serves o t a limit s) : Serves o t a limit u := by
  have awaits : Awaits o t u := h.awaits.tick hle hticked
  obtain ⟨new, hadds, hnew, -, -⟩ := begun_adds hticked.begun
  have hcame : ∀ n, ∀ req ∈ m.reqs n, req.type ≠ .refresh → req.arrive.toInt ≤ a := by
    intro n r hr htype
    rw [hadds.queue] at hr
    rcases List.mem_append.mp hr with hr | hr
    · exact h.came n r hr htype
    · obtain ⟨-, rank, -, rfl⟩ := hnew n r hr
      exact absurd rfl htype
  have hlimit : Ddr4.unanswered m ≤ limit := by
    have hsame : ∀ n, n ≠ .misc → m.reqs n = s.reqs n := by
      intro n hn
      have hnil : new n = [] :=
        List.eq_nil_iff_forall_not_mem.mpr fun r hr => hn (hnew n r hr).1
      rw [hadds.queue, hnil, List.append_nil]
    have hpending : m.ctrl.pendingQueue.length ≤ s.ctrl.pendingQueue.length := by
      rcases pending_begun hticked.begun with hq | ⟨req, hq⟩
      · rw [hq]
      · rw [hq]
        exact Nat.le_succ _
    have hle := h.unanswered
    rw [Ddr4.unanswered, columns] at hle ⊢
    rw [hsame .act (by decide), hsame .read (by decide), hsame .write (by decide)]
    omega
  rcases hticked.outcome with ⟨rfl, -, -⟩ | ⟨-, name, req, rest, cmd, -, hissues, hnext⟩
  · exact ⟨awaits, hcame, hlimit⟩
  · refine ⟨awaits, fun n r hr htype => ?_,
      (issue_unanswered hticked.sch hissues hnext).trans hlimit⟩
    obtain ⟨n', r', hr', rfl | rfl⟩ := mem_of_issues hissues hr
    · exact hcame n' r hr' htype
    · exact hcame n' r' hr' htype

/-- **What came by a clock is served** within the time of the service. -/
theorem idle (ok : Timely o t cfg longest) (h : Serving o t cfg longest s last)
    (serves : Serves o t a limit s) (hlate : a + serviceTime o t cfg longest ≤ s.now) :
    Idle s := by
  have hquiet : Quiet a s := by
    refine h.quiet (by omega) ?_
    have hpos : 0 < t.interval - refreshCost o longest := by
      have hcost := ok.cost_lt
      omega
    refine (Nat.lt_mul_div_succ _ hpos).trans_le (Nat.mul_le_mul_left _ ?_)
    rw [serviceTime] at hlate
    omega
  intro n hn
  refine List.eq_nil_iff_forall_not_mem.mpr fun r hr => ?_
  have htype : r.type ≠ .refresh := by
    have hholds := h.sch.types n r hr
    intro hrefresh
    rw [hrefresh] at hholds
    cases n <;> simp [holds] at hholds hn
  have hlate := hquiet n r hr htype
  have hcame := serves.came n r hr htype
  omega

end Serves

/-! ## The reads are answered -/

/-- What the last ticks keep: no column is queued; and after `clk`, when
all that wait are due, each clock leaves one less. -/
structure Answers (clk limit : ℕ) (s : Memory κ) : Prop where
  idle : Idle s
  callback : ∀ req ∈ s.ctrl.pendingQueue, req.callback.isSome
  due : ∀ req ∈ s.ctrl.pendingQueue, req.depart.toUInt64.toNat ≤ clk
  fewer : s.ctrl.pendingQueue.length ≤ limit - (s.now - clk)

/-- **A tick** answers the first read that waits, once it is due. -/
theorem Answers.tick {now limit : ℕ} (hone : clk.toNat ≤ s.now + 1)
    (hticked : Ticked o t longest s last clk m u last') (h : Answers now limit s) :
    Answers now limit u := by
  have hnow := hticked.now_eq
  obtain ⟨new, hadds, hnew, -, -⟩ := begun_adds hticked.begun
  have hidle : Idle m := by
    intro n hn
    have hnil : new n = [] :=
      List.eq_nil_iff_forall_not_mem.mpr fun r hr => hn (hnew n r hr).1
    rw [hadds.queue, hnil, h.idle n hn, List.append_nil]
  have hmem : ∀ r ∈ m.ctrl.pendingQueue, r ∈ s.ctrl.pendingQueue := by
    intro r hr
    rcases pending_begun hticked.begun with hsame | ⟨req, hq⟩
    · exact hsame ▸ hr
    · exact hq ▸ List.mem_cons_of_mem _ hr
  have hfewer : m.ctrl.pendingQueue.length ≤ limit - (clk.toNat - now) := by
    have hle := h.fewer
    cases hq : s.ctrl.pendingQueue with
    | nil =>
        have hnil : m.ctrl.pendingQueue = [] :=
          List.eq_nil_iff_forall_not_mem.mpr fun r hr => by
          have hr' := hmem r hr
          rw [hq] at hr'
          exact List.not_mem_nil hr'
        rw [hnil]
        exact Nat.zero_le _
    | cons req rest =>
        have hfirst : req ∈ s.ctrl.pendingQueue := hq ▸ List.mem_cons_self
        have hdue := h.due req hfirst
        by_cases hpassed : now ≤ clk.toNat
        · rw [pending_answered hticked.begun hq (h.callback req hfirst)
            (UInt64.le_iff_toNat_le.mpr (hdue.trans hpassed))]
          rw [hq, List.length_cons] at hle
          omega
        · rcases pending_begun hticked.begun with hsame | ⟨r, hr⟩
          · rw [hsame]
            omega
          · rw [hr, List.length_cons] at hle
            omega
  obtain ⟨hidle', hpending⟩ : Idle u ∧ u.ctrl.pendingQueue = m.ctrl.pendingQueue := by
    rcases hticked.outcome with ⟨rfl, -, -⟩ | ⟨-, name, req, rest, cmd, -, hissues, hcmd⟩
    · exact ⟨hidle, rfl⟩
    · exact issue_idle hticked.sch hissues hcmd hidle
  refine ⟨hidle', fun r hr => h.callback r (hmem r (hpending ▸ hr)),
    fun r hr => h.due r (hmem r (hpending ▸ hr)), ?_⟩
  rw [hpending, hnow]
  exact hfewer

/-! ## The memory comes to rest -/

/-- **On the way to rest**: nothing came after the clock `a`, and once
what came by then is served, the reads are answered. -/
structure Resting (o : Organization) (t : Timing) (cfg : Config) (longest a limit : ℕ)
    (s : Memory κ) : Prop where
  serves : Serves o t a limit s
  answers : a + serviceTime o t cfg longest ≤ s.now →
    Answers (a + serviceTime o t cfg longest + (latency o t + 1)) limit s

namespace Resting

variable {a limit : ℕ}

/-- All that waits came by now. -/
theorem of_awaits (h : Serving o t cfg longest s last) (awaits : Awaits o t s) :
    Resting o t cfg longest s.now (Ddr4.unanswered s) s := by
  have hpos : 0 < serviceTime o t cfg longest := Nat.succ_pos _
  exact ⟨⟨awaits, fun n r hr _ => h.ord.came n r hr, le_rfl⟩, fun hlate => by omega⟩

/-- **A tick** brings it on. -/
theorem tick (ok : Timely o t cfg longest) (hle : s.now ≤ clk.toNat)
    (hone : clk.toNat ≤ s.now + 1) (hticked : Ticked o t longest s last clk m u last')
    (h' : Serving o t cfg longest u last') (h : Resting o t cfg longest a limit s) :
    Resting o t cfg longest a limit u := by
  have serves := h.serves.tick hle hticked
  refine ⟨serves, fun hlate => ?_⟩
  by_cases hbefore : a + serviceTime o t cfg longest ≤ s.now
  · exact (h.answers hbefore).tick hone hticked
  · -- the columns have all been served, and the reads are due after the latency
    have hnow := hticked.now_eq
    have hwaiting := serves.unanswered
    rw [Ddr4.unanswered] at hwaiting
    refine ⟨serves.idle ok h' hlate, serves.awaits.callback, fun r hr => ?_, by omega⟩
    have hdepart := serves.awaits.depart r hr
    omega

/-- **Once the clocks have gone by, nothing waits.** -/
theorem rests (h : Resting o t cfg longest a limit s)
    (hlong : a + serviceTime o t cfg longest + (latency o t + 1) + limit ≤ s.now) :
    Idle s ∧ s.ctrl.pendingQueue = [] := by
  have answers := h.answers (by omega)
  have hfewer := answers.fewer
  exact ⟨answers.idle, List.length_eq_zero_iff.mp (by omega)⟩

end Resting

/-- **Once the ticks have passed, nothing waits.** -/
theorem Serving.comes_to_rest (ok : Timely o t cfg longest) (h : Serving o t cfg longest s last)
    (awaits : Awaits o t s) {n : ℕ} (hlong : drainTime o t cfg longest s ≤ n)
    (hfits : s.now + n < 2 ^ 63) : ∃ u, (machine (spec o t) 2).run s (ticksFrom κ s.now n) = .ok u ∧
      Idle u ∧ u.ctrl.pendingQueue = [] := by
  obtain ⟨hmeets, hend⟩ := h.ticks ok (n := n) hfits
  obtain ⟨u, -, hu, -, resting⟩ := h.run ok
    (P := Resting o t cfg longest s.now (unanswered s)) (fun _ _ h => h.steady)
    (fun {s u _ _ ev} hev _ h' hstepped hP => by
      cases ev with
      | issueRequest => exact hev.elim
      | tick clk =>
          obtain ⟨m, hticked⟩ := hstepped
          exact hP.tick ok hev.steady.1 hev.1.le hticked h')
    (.of_awaits h awaits) hmeets
  have hnow := hend u hu
  rw [drainTime] at hlong
  exact ⟨u, hu, resting.rests (by omega)⟩

end Pending

end Ddr4

end Dram

end Vans
