import Vans.Dram.Service
/-!
# DDR4 — no refresh is missed and no request starves

The bounds of the service, and the runs they hold in: those whose clock
goes on one at a time. What is still to be issued for the refreshes ends
before the next are due; what is still to be issued for the columns that
came by a clock shrinks with every clock after it, but for what the
refreshes add.
-/

namespace Vans

namespace Dram

namespace Ddr4

/-- **What is asked of a configuration.** The tables make sense, the
addresses are mapped into the tree, and the refreshes of all ranks, and
one column before them, take less than the interval between refreshes. -/
structure Timely (o : Organization) (t : Timing) (cfg : Config) (longest : ℕ) : Prop where
  mappable : Mappable o cfg.mediaMappingFunc
  delay : ∀ level x, ∀ e ∈ timingTable t level x, 0 ≤ e.delay ∧ e.delay ≤ longest
  window : 0 < t.nFAW
  ranks : o.rank ≤ cfg.queueSize
  refresh : ((3 * o.rank + 1) * (longest + 1) : ℕ) < t.nREFI
  word : t.nREFI < 2 ^ 63

/-- The clock goes on by one at most, and stays positive as a signed
number; and what is requested is read or written. -/
def Steady {κ : Type} (s : Memory κ) : Event κ → Prop
  | .issueRequest _ type _ => type = .read ∨ type = .write
  | .tick clk => s.now ≤ clk.toNat ∧ clk.toNat ≤ s.now + 1 ∧ clk.toNat < 2 ^ 63

instance {κ : Type} {s : Memory κ} : ∀ ev : Event κ, Decidable (Steady s ev)
  | .issueRequest _ type _ => inferInstanceAs (Decidable (type = .read ∨ type = .write))
  | .tick clk =>
    inferInstanceAs (Decidable (s.now ≤ clk.toNat ∧ clk.toNat ≤ s.now + 1 ∧ clk.toNat < 2 ^ 63))

variable {κ : Type}

/-- The interval between refreshes. -/
def Timing.interval (t : Timing) : ℕ := t.nREFI.toNat

/-- The clocks the refreshes of all ranks may take. -/
def refreshCost (o : Organization) (longest : ℕ) : ℕ := 3 * o.rank * (longest + 1)

/-- The clocks full queues may take, but for later refreshes. -/
def queuesCost (cfg : Config) (longest : ℕ) : ℕ := (9 * cfg.queueSize + 1) * (longest + 1) + longest

/-- The clocks since the last refresh. -/
def age (s : Memory κ) : ℕ := s.now - s.ctrl.lastRefreshedClk.toNat

/-- The clocks a number of commands may take, where the last was issued
at `last`. -/
def clocksFor (longest last : ℕ) (s : Memory κ) (commands : ℕ) : ℕ :=
  commands * (longest + 1) + (last + longest - s.now)

/-- **What a column that came by `a` may still wait**, with what it has
waited, and what the next refresh will have taken. -/
noncomputable def due (o : Organization) (t : Timing) (longest last a : ℕ) (s : Memory κ) : ℕ :=
  t.interval * clocksFor longest last s (urgentWork s + columnWork a s) +
    (t.interval - refreshCost o longest) * (s.now - a) + refreshCost o longest * age s

def dueLimit (o : Organization) (t : Timing) (cfg : Config) (longest : ℕ) : ℕ :=
  t.interval * (queuesCost cfg longest + refreshCost o longest)

/-- **The invariant of the service.** -/
structure Serving (o : Organization) (t : Timing) (cfg : Config) (longest : ℕ) (s : Memory κ)
    (last : ℕ) : Prop where
  sch : Scheduled s
  ord : Orderly o t longest cfg.queueSize last s
  clock : s.now < 2 ^ 63
  refreshed : s.ctrl.lastRefreshedClk.toNat ≤ s.now
  recent : age s < t.interval
  urgent : s.reqs .misc = [] ∨
    clocksFor longest last s (urgentWork s) + age s ≤ (3 * o.rank + 1) * (longest + 1) + longest
  waiting : ∀ a : ℕ, a ≤ s.now → Quiet a s ∨ due o t longest last a s ≤ dueLimit o t cfg longest

section Costs

variable {o : Organization} {t : Timing} {cfg : Config} {longest last a : ℕ} {s u : Memory κ}

namespace Timely

theorem interval_eq (ok : Timely o t cfg longest) : (t.interval : ℤ) = t.nREFI := by
  have hpos := ok.refresh
  rw [Timing.interval]
  omega

theorem refresh_lt (ok : Timely o t cfg longest) :
    (3 * o.rank + 1) * (longest + 1) < t.interval := by
  have hlt := ok.refresh
  rw [← ok.interval_eq] at hlt
  exact Int.ofNat_lt.mp hlt

theorem cost_lt (ok : Timely o t cfg longest) : refreshCost o longest < t.interval := by
  have hlt := ok.refresh_lt
  rw [Nat.add_mul] at hlt
  rw [refreshCost]
  omega

theorem longest_lt (ok : Timely o t cfg longest) : longest < 2 ^ 64 := by
  have hlt := ok.refresh_lt
  have hword := ok.word
  have hinterval := ok.interval_eq
  have hmul : longest + 1 ≤ (3 * o.rank + 1) * (longest + 1) :=
    Nat.le_mul_of_pos_left _ (Nat.succ_pos _)
  omega

theorem proper (ok : Timely o t cfg longest) : (spec o t).Proper 3 :=
  spec_proper (fun level x e he => (ok.delay level x e he).1) ok.window

theorem longestDelay (ok : Timely o t cfg longest) : (spec o t).Longest 3 longest :=
  fun level _ x e he => (ok.delay level x e he).2

end Timely

/-- A clock passes: what is left shrinks by it, and what was waited grows. -/
theorem due_step {N c W W' x age δ : ℕ} (hW : W' + δ ≤ W) (hc : c ≤ N) :
    N * W' + (N - c) * (x + δ) + c * (age + δ) ≤ N * W + (N - c) * x + c * age := by
  have hmul : N * (W' + δ) ≤ N * W := Nat.mul_le_mul_left N hW
  have hsplit : (N - c) * δ + c * δ = N * δ := by rw [← Nat.add_mul, Nat.sub_add_cancel hc]
  rw [Nat.mul_add] at hmul
  rw [Nat.mul_add, Nat.mul_add]
  omega

/-- The refreshes are due: they add what was put by for them. -/
theorem due_refresh {N c W W' x age δ : ℕ} (hW : W' + δ ≤ W + c) (hc : c ≤ N) (hdue : N ≤ age + δ) :
    N * W' + (N - c) * (x + δ) ≤ N * W + (N - c) * x + c * age := by
  have hmul : N * (W' + δ) ≤ N * (W + c) := Nat.mul_le_mul_left N hW
  have hsplit : (N - c) * δ + c * δ = N * δ := by rw [← Nat.add_mul, Nat.sub_add_cancel hc]
  have hage : c * N ≤ c * (age + δ) := Nat.mul_le_mul_left c hdue
  rw [Nat.mul_add, Nat.mul_add] at hmul
  rw [Nat.mul_add] at hage
  rw [Nat.mul_add, Nat.mul_comm N c] at *
  omega

/-- **Full queues cost no more than they can**, whatever the clock. -/
theorem clocksFor_le (sch : Scheduled s) (ord : Orderly o t longest cfg.queueSize last s) :
    clocksFor longest last s (urgentWork s + columnWork a s) ≤ queuesCost cfg longest := by
  have hread := ord.length .read
  have hwrite := ord.length .write
  have hmisc := ord.length .misc
  have hsingle := sch.single
  have hpast := ord.past
  have hfront : frontWork (rowsOf s) (s.reqs .misc) ≤ 3 * (s.reqs .misc).length := frontWork_le
  have hcolumn := columnWork_le (a := a) (s := s)
  have hread' : (cameBy (a : ℤ) (s.reqs .read)).length ≤ _ := List.length_filter_le _ _
  have hwrite' : (cameBy (a : ℤ) (s.reqs .write)).length ≤ _ := List.length_filter_le _ _
  have hwork : urgentWork s + columnWork a s ≤ 9 * cfg.queueSize + 1 := by
    rw [olderCount] at hcolumn
    rw [urgentWork]
    omega
  have hmul := Nat.mul_le_mul_right (longest + 1) hwork
  rw [clocksFor, queuesCost]
  omega

/-- At the clock a column comes at, what it may wait is within the limit. -/
theorem due_now (sch : Scheduled s) (ord : Orderly o t longest cfg.queueSize last s)
    (hrecent : age s < t.interval) :
    due o t longest last s.now s ≤ dueLimit o t cfg longest := by
  have hclocks := Nat.mul_le_mul_left t.interval (clocksFor_le (a := s.now) sch ord)
  have hage := Nat.mul_le_mul_left (refreshCost o longest) hrecent.le
  rw [due, dueLimit, Nat.sub_self, Nat.mul_zero, Nat.add_zero, Nat.mul_add]
  rw [Nat.mul_comm (refreshCost o longest) t.interval] at hage
  omega

/-- The refreshes are due where the interval has passed. -/
theorem due_iff (ok : Timely o t cfg longest) {clk : Clk}
    (hle : s.ctrl.lastRefreshedClk.toNat ≤ clk.toNat) :
    Due (spec o t) s clk ↔ t.interval ≤ clk.toNat - s.ctrl.lastRefreshedClk.toNat := by
  have hinterval := ok.interval_eq
  have hword := ok.word
  have hof : (UInt64.ofInt (spec o t).nREFI).toNat = t.interval := by
    change (UInt64.ofInt t.nREFI).toNat = t.interval
    rw [UInt64.ofInt, UInt64.toNat_ofNat', Timing.interval]
    omega
  rw [Due, ge_iff_le, UInt64.le_iff_toNat_le, hof,
    UInt64.toNat_sub_of_le _ _ (UInt64.le_iff_toNat_le.mpr hle)]

end Costs

/-! ## What a tick does to the bounds -/

/-- **A tick, in its parts**: what is due is queued, and then a command is
issued, unless a delay has not passed or there is nothing to do. -/
structure Ticked (o : Organization) (t : Timing) (longest : ℕ) (s : Memory κ) (last : ℕ) (clk : Clk)
    (m u : Memory κ) (last' : ℕ) : Prop where
  begun : Begun (spec o t) s clk m
  sch : Scheduled m
  outcome : (u = m ∧ last' = last ∧ ((∀ n, m.reqs n = []) ∨ m.now < last + longest)) ∨
    (last' = u.now ∧ ∃ name req rest cmd, TurnsTo m name ∧
      Issues (spec o t) m u name req rest cmd ∧ cmd = nextCmd (rowsOf m) req)
  emptied : Due (spec o t) s clk → s.reqs .misc = []

section Ticks

variable {o : Organization} {t : Timing} {cfg : Config} {longest last last' a : ℕ}
  {s m u : Memory κ} {clk : Clk}

/-- A clock passes: either a delay goes on, or a command was issued. -/
theorem clocksFor_passes {n n' : ℕ} (hle : s.now ≤ u.now) (hone : u.now ≤ s.now + 1)
    (h : (last' = last ∧ n' ≤ n ∧ u.now < last + longest) ∨ (last' = u.now ∧ n' + 1 ≤ n)) :
    clocksFor longest last' u n' + (u.now - s.now) ≤ clocksFor longest last s n := by
  rw [clocksFor, clocksFor]
  rcases h with ⟨rfl, hn, hwait⟩ | ⟨rfl, hn⟩
  · have hmul := Nat.mul_le_mul_right (longest + 1) hn
    omega
  · have hmul := Nat.mul_le_mul_right (longest + 1) hn
    rw [Nat.add_mul] at hmul
    omega

theorem rowsOf_adds {new : QueueName → List (Request κ)} (hadds : Adds s m new) :
    rowsOf m = rowsOf s := by
  funext p
  rw [rowsOf, rowsOf, hadds.commands]

/-- **Columns that come later leave what is to be issued** for those that
came by the clock. -/
theorem columnWork_adds {size : ℕ} {new : QueueName → List (Request κ)}
    (ord : Orderly o t longest size last s) (hadds : Adds s m new)
    (hnew : ∀ n, n = .read ∨ n = .write → ∀ r ∈ new n, (a : ℤ) < r.arrive.toInt) :
    columnWork (a : ℤ) m ≤ columnWork a s := by
  have hcame : ∀ n, n = .read ∨ n = .write → cameBy (a : ℤ) (m.reqs n) = cameBy a (s.reqs n) := by
    intro n hn
    have hnil : cameBy (a : ℤ) (new n) = [] :=
      List.filter_eq_nil_iff.mpr fun r hr hle => by
        have hlt := hnew n hn r hr
        have hle' := of_decide_eq_true hle
        omega
    rw [hadds.queue, cameBy, List.filter_append]
    exact (congrArg _ hnil).trans (List.append_nil _)
  have hcount : olderCount (a : ℤ) m = olderCount a s := by
    rw [olderCount, olderCount, hcame .read (.inl rfl), hcame .write (.inr rfl)]
  rcases Nat.eq_zero_or_pos (olderCount (a : ℤ) s) with hzero | hpos
  · have hle := columnWork_le (a := (a : ℤ)) (s := m)
    omega
  obtain ⟨req, rest, hfront, hle⟩ := front_older ord hpos
  -- the older front stays the one that is turned to
  have hname : columnName m = columnName s := by
    have hread := hadds.queue .read
    have hwrite := hadds.queue .write
    cases hr : s.reqs .read with
    | nil =>
        cases hw : s.reqs .write with
        | nil =>
            rcases columnName_eq (s := s) with hn | hn <;> rw [hn] at hfront
            · rw [hr] at hfront
              cases hfront
            · rw [hw] at hfront
              cases hfront
        | cons w ws =>
            have hs : columnName s = .write := by rw [columnName, hr, hw]
            rw [hs, hw] at hfront
            obtain ⟨rfl, rfl⟩ := List.cons.inj hfront
            rw [hs, columnName, hread, hwrite, hr, hw]
            cases hn : new .read with
            | nil => rfl
            | cons r rs =>
                have hlt := hnew .read (.inl rfl) r (hn ▸ List.mem_cons_self)
                have harrive : w.arrive < r.arrive := Int64.lt_iff_toInt_lt.mpr (by omega)
                simp [harrive]
    | cons r rs =>
        cases hw : s.reqs .write with
        | nil =>
            have hs : columnName s = .read := by rw [columnName, hr, hw]
            rw [hs, hr] at hfront
            obtain ⟨rfl, rfl⟩ := List.cons.inj hfront
            rw [hs, columnName, hread, hwrite, hr, hw]
            cases hn : new .write with
            | nil => rfl
            | cons w ws =>
                have hlt := hnew .write (.inr rfl) w (hn ▸ List.mem_cons_self)
                have harrive : ¬ w.arrive < r.arrive := by
                  rw [Int64.lt_iff_toInt_lt]
                  omega
                simp [harrive]
        | cons w ws =>
            rw [hr] at hread
            rw [hw] at hwrite
            exact columnName_congr (by rw [hread, hr]; rfl) (by rw [hwrite, hw]; rfl)
  have hfront' : m.reqs (columnName m) = req :: (rest ++ new (columnName s)) := by
    rw [hname, hadds.queue, hfront]
    rfl
  rw [columnWork, columnWork, hfront', hfront, hcount, rowsOf_adds hadds]

/-- **A tick's refreshes** are all that is added to what is urgent. -/
theorem urgentWork_begun (begun : Begun (spec o t) s clk m)
    (hemptied : Due (spec o t) s clk → s.reqs .misc = []) :
    (¬ Due (spec o t) s clk → urgentWork m = urgentWork s) ∧
      urgentWork m ≤ urgentWork s + 3 * s.ctrl.channel.2.length := by
  obtain ⟨new, hadds, hnew, hlen, hnone⟩ := begun_adds begun
  have hact : m.reqs .act = s.reqs .act := by
    have hnil : new .act = [] :=
      List.eq_nil_iff_forall_not_mem.mpr fun r hr => by cases (hnew _ r hr).1
    rw [hadds.queue, hnil, List.append_nil]
  have hsame : ¬ Due (spec o t) s clk → urgentWork m = urgentWork s := fun hno => by
    rw [urgentWork, urgentWork, hact, rowsOf_adds hadds, hadds.queue, hnone hno, List.append_nil]
  refine ⟨hsame, ?_⟩
  by_cases hdue : Due (spec o t) s clk
  · have hle : frontWork (rowsOf m) (m.reqs .misc) ≤ 3 * (m.reqs .misc).length := frontWork_le
    have hmisc : m.reqs .misc = new .misc := by
      rw [hadds.queue, hemptied hdue]
      rfl
    rw [hmisc] at hle
    rw [urgentWork, urgentWork, hact, hmisc, hemptied hdue, frontWork_nil]
    omega
  · exact (hsame hdue).le.trans (Nat.le_add_right _ _)

namespace Ticked

theorem now_eq (h : Ticked o t longest s last clk m u last') : u.now = clk.toNat := by
  have hm : m.now = clk.toNat := congrArg UInt64.toNat h.begun.clock
  rcases h.outcome with ⟨rfl, -, -⟩ | ⟨-, name, req, rest, cmd, -, hissues, -⟩
  · exact hm
  · exact (congrArg UInt64.toNat hissues.clock).trans hm

theorem refreshed_eq (h : Ticked o t longest s last clk m u last') :
    u.ctrl.lastRefreshedClk = m.ctrl.lastRefreshedClk := by
  rcases h.outcome with ⟨rfl, -, -⟩ | ⟨-, name, req, rest, cmd, -, hissues, -⟩
  · rfl
  · exact hissues.refreshed

/-- Where no refresh is queued, the command adds none. -/
theorem misc_nil (h : Ticked o t longest s last clk m u last') (hnil : m.reqs .misc = []) :
    u.reqs .misc = [] := by
  rcases h.outcome with ⟨rfl, -, -⟩ | ⟨-, name, req, rest, cmd, -, hissues, -⟩
  · exact hnil
  · have hne : QueueName.misc ≠ name := by
      rintro rfl
      rw [hissues.front] at hnil
      cases hnil
    simp [hissues.queue, hne, hnil]

/-- **A clock brings the refreshes nearer.** -/
theorem urgent_passes (h : Ticked o t longest s last clk m u last') {size : ℕ}
    (ord : Orderly o t longest size last m) (hle : s.now ≤ clk.toNat) (hone : clk.toNat ≤ s.now + 1)
    (hne : m.reqs .misc ≠ []) :
    clocksFor longest last' u (urgentWork u) + (u.now - s.now) ≤
      clocksFor longest last s (urgentWork m) := by
  have hnow := h.now_eq
  refine clocksFor_passes (hnow ▸ hle) (hnow ▸ hone) ?_
  rcases h.outcome with ⟨rfl, rfl, hidle | hwait⟩ |
    ⟨rfl, name, req, rest, cmd, turn, hissues, hnext⟩
  · exact absurd (hidle .misc) hne
  · exact .inl ⟨rfl, le_rfl, hwait⟩
  · exact .inr ⟨rfl, (issue_shrinks (a := 0) h.sch ord turn hissues hnext).1 hne⟩

/-- **A clock brings the columns nearer** that came by any clock. -/
theorem column_passes (h : Ticked o t longest s last clk m u last') {size : ℕ}
    (ord : Orderly o t longest size last m) (hle : s.now ≤ clk.toNat)
    (hone : clk.toNat ≤ s.now + 1) :
    Quiet a u ∨ clocksFor longest last' u (urgentWork u + columnWork a u) + (u.now - s.now) ≤
      clocksFor longest last s (urgentWork m + columnWork a m) := by
  have hnow := h.now_eq
  rcases h.outcome with ⟨rfl, rfl, hidle | hwait⟩ |
    ⟨rfl, name, req, rest, cmd, turn, hissues, hnext⟩
  · refine .inl fun n r hr => ?_
    rw [hidle n] at hr
    exact absurd hr List.not_mem_nil
  · exact .inr (clocksFor_passes (hnow ▸ hle) (hnow ▸ hone) (.inl ⟨rfl, le_rfl, hwait⟩))
  · rcases (issue_shrinks (a := a) h.sch ord turn hissues hnext).2 with hquiet | hless
    · exact .inl (hquiet.issues hissues)
    · exact .inr (clocksFor_passes (hnow ▸ hle) (hnow ▸ hone) (.inr ⟨rfl, hless⟩))

end Ticked

namespace Serving

/-- **The refreshes are done before the next are due.** -/
theorem emptied (ok : Timely o t cfg longest) (h : Serving o t cfg longest s last)
    (hle : s.now ≤ clk.toNat) (hone : clk.toNat ≤ s.now + 1) (hdue : Due (spec o t) s clk) :
    s.reqs .misc = [] := by
  rcases h.urgent with hnil | hbound
  · exact hnil
  by_contra hne
  have hlate := (due_iff ok (h.refreshed.trans hle)).mp hdue
  have hlt := ok.refresh_lt
  have hwork : 1 ≤ urgentWork s := by
    obtain ⟨req, rest, hq⟩ := List.exists_cons_of_ne_nil hne
    have hpos := @weight_pos (nextCmd (rowsOf s) req)
    rw [urgentWork, hq, frontWork_cons]
    omega
  have hmul := Nat.mul_le_mul_right (longest + 1) hwork
  have hrefreshed := h.refreshed
  rw [clocksFor, age] at hbound
  omega

/-- **A tick does not fail**, and comes to what it should. -/
theorem ticked (ok : Timely o t cfg longest) (h : Serving o t cfg longest s last)
    (hle : s.now ≤ clk.toNat) (hone : clk.toNat ≤ s.now + 1) (hclk : clk.toNat < 2 ^ 63) :
    ∃ m u last', tick (spec o t) clk s = .ok u ∧ Ticked o t longest s last clk m u last' ∧
      Orderly o t longest cfg.queueSize last m := by
  have hemptied := h.emptied ok hle hone
  have hranks : s.ctrl.channel.2.length = o.rank := by
    have hlen := congrArg List.length h.ord.ranks
    simpa using hlen
  obtain ⟨m, begun⟩ : ∃ m, Begun (spec o t) s clk m := tick_begun fun hdue => by
    rw [hemptied hdue, hranks, h.ord.bound]
    simpa using ok.ranks
  have hnow : m.now = clk.toNat := congrArg UInt64.toNat begun.clock
  obtain ⟨new, hadds, hnew, hlen, hnone⟩ := begun_adds begun
  have hroom : ∀ n, (s.reqs n).length + (new n).length ≤ cfg.queueSize := by
    intro n
    cases hq : new n with
    | nil => exact h.ord.length n
    | cons r rs =>
        obtain ⟨rfl, -⟩ := hnew n r (hq ▸ List.mem_cons_self)
        have hdue : Due (spec o t) s clk := by
          by_contra hno
          rw [hnone hno] at hq
          cases hq
        have hranks' := ok.ranks
        rw [hemptied hdue, ← hq, List.length_nil]
        omega
  have sch : Scheduled m := h.sch.begun begun
  have ord : Orderly o t longest cfg.queueSize last m := by
    refine h.ord.adds hadds (hnow ▸ hle) (fun n r hr => ?_) hroom
    obtain ⟨-, rank, hrank, rfl⟩ := hnew n r hr
    exact ⟨h.ord.refresh_inRange hrank, (toInt_toInt64 hclk).trans (congrArg Nat.cast hnow.symm)⟩
  obtain ⟨u, hu, hcases⟩ := schedule_outcome sch ord (turnsTo begun.mode)
  rcases hcases with ⟨rfl, hidle⟩ | ⟨req, rest, cmd, hissues, hnext⟩
  · exact ⟨u, u, last, begun.tick.trans hu, ⟨begun, sch, .inl ⟨rfl, rfl, hidle⟩, hemptied⟩, ord⟩
  · exact ⟨m, u, u.now, begun.tick.trans hu,
      ⟨begun, sch, .inr ⟨rfl, _, req, rest, cmd, turnsTo begun.mode, hissues, hnext⟩, hemptied⟩,
      ord⟩

/-- **A tick keeps the invariant.** -/
theorem tick (ok : Timely o t cfg longest) (h : Serving o t cfg longest s last)
    (hle : s.now ≤ clk.toNat) (hone : clk.toNat ≤ s.now + 1) (hclk : clk.toNat < 2 ^ 63) :
    ∃ m u last', Dram.tick (spec o t) clk s = .ok u ∧ Ticked o t longest s last clk m u last' ∧
      Serving o t cfg longest u last' := by
  obtain ⟨m, u, last', hu, ticked, ord⟩ := h.ticked ok hle hone hclk
  have sch := ticked.sch
  have hnow := ticked.now_eq
  have sch' : Scheduled u := h.sch.step (show IsAccess (.tick clk) from trivial) hu
  have ord' : Orderly o t longest cfg.queueSize last' u := by
    rcases ticked.outcome with ⟨rfl, rfl, -⟩ | ⟨rfl, name, req, rest, cmd, turn, hissues, -⟩
    · exact ord
    · exact ord.issue hissues turn sch.single ok.proper ok.longestDelay ok.longest_lt
  have hranks : s.ctrl.channel.2.length = o.rank := by
    have hlen := congrArg List.length h.ord.ranks
    simpa using hlen
  obtain ⟨hsame, hmore⟩ := urgentWork_begun ticked.begun ticked.emptied
  rw [hranks] at hmore
  have hdueiff := due_iff ok (h.refreshed.trans hle)
  have hpast := h.ord.past
  have hrefreshed := h.refreshed
  have hcost := ok.cost_lt
  have hinterval := ok.refresh_lt
  obtain ⟨new, hadds, hnew, -, hnone⟩ := begun_adds ticked.begun
  have hcolumns : ∀ a : ℕ, columnWork (a : ℤ) m ≤ columnWork a s := fun a =>
    columnWork_adds h.ord hadds fun n hn r hr => by
      obtain ⟨rfl, -⟩ := hnew n r hr
      rcases hn with hn | hn <;> cases hn
  have hquiet : ∀ a : ℕ, Quiet a s → Quiet a m := fun a hq =>
    hq.adds hadds fun n r hr htype => by
      obtain ⟨-, rank, -, rfl⟩ := hnew n r hr
      exact absurd rfl htype
  have hquiet' : ∀ a : ℕ, Quiet a m → Quiet a u := fun a hq => by
    rcases ticked.outcome with ⟨rfl, -, -⟩ | ⟨-, name, req, rest, cmd, -, hissues, -⟩
    · exact hq
    · exact hq.issues hissues
  -- the age of the last refresh goes on, or begins anew
  have hage : (¬ Due (spec o t) s clk ∧ age u = age s + (u.now - s.now) ∧ age u < t.interval ∧
      u.ctrl.lastRefreshedClk.toNat ≤ u.now) ∨
      (Due (spec o t) s clk ∧ age u = 0 ∧ t.interval ≤ age s + (u.now - s.now) ∧
        u.ctrl.lastRefreshedClk.toNat ≤ u.now) := by
    rcases ticked.begun.refresh with ⟨hno, -, hclock⟩ | ⟨hdue, hclock, -⟩
    · have hlt := mt hdueiff.mpr hno
      refine .inl ⟨hno, ?_, ?_, ?_⟩ <;> simp only [age, ticked.refreshed_eq, hclock] at * <;> omega
    · have hlate := hdueiff.mp hdue
      refine .inr ⟨hdue, ?_, ?_, ?_⟩ <;> simp only [age, ticked.refreshed_eq, hclock] at * <;> omega
  have hrecent : age u < t.interval := by
    rcases hage with ⟨-, -, hlt, -⟩ | ⟨-, hzero, -, -⟩ <;> omega
  refine ⟨m, u, last', hu, ticked, sch', ord', hnow ▸ hclk, ?_, hrecent, ?_, fun a ha => ?_⟩
  · rcases hage with ⟨-, -, -, hrefreshed'⟩ | ⟨-, -, -, hrefreshed'⟩ <;> exact hrefreshed'
  · by_cases hmisc : m.reqs .misc = []
    · exact .inl (ticked.misc_nil hmisc)
    · have hpasses := ticked.urgent_passes ord hle hone hmisc
      refine .inr ?_
      rcases hage with ⟨hno, hage', -, -⟩ | ⟨hdue, hage', -, -⟩
      · rw [hsame hno] at hpasses
        rcases h.urgent with hnil | hbound
        · rw [hadds.queue, hnone hno, List.append_nil] at hmisc
          exact absurd hnil hmisc
        · omega
      · -- only the activated request is urgent beside the refreshes
        have hsingle := h.sch.single
        have hwork : urgentWork m ≤ 3 * o.rank + 1 := by
          have hact : urgentWork s = (s.reqs .act).length := by
            rw [urgentWork, ticked.emptied hdue]
            rfl
          omega
        have hmul := Nat.mul_le_mul_right (longest + 1) hwork
        rw [clocksFor, clocksFor] at hpasses
        rw [clocksFor]
        omega
  · rcases Nat.lt_or_ge s.now a with hnew' | hold
    · obtain rfl : a = u.now := by omega
      exact .inr (due_now sch' ord' hrecent)
    rcases h.waiting a hold with hq | hdue
    · exact .inl (hquiet' a (hquiet a hq))
    rcases ticked.column_passes (a := a) ord hle hone with hq | hpasses
    · exact .inl hq
    refine .inr (le_trans ?_ hdue)
    have hwait : u.now - a = (s.now - a) + (u.now - s.now) := by omega
    have hcol := hcolumns a
    rw [due, due, hwait]
    rcases hage with ⟨hno, hage', -, -⟩ | ⟨hdue', hage', hlate, -⟩
    · rw [hage']
      refine due_step (hpasses.trans ?_) hcost.le
      have hwork := hsame hno
      have hmul : (urgentWork m + columnWork (a : ℤ) m) * (longest + 1) ≤
          (urgentWork s + columnWork (a : ℤ) s) * (longest + 1) := Nat.mul_le_mul_right _ (by omega)
      rw [clocksFor, clocksFor]
      omega
    · rw [hage', Nat.mul_zero, Nat.add_zero]
      refine due_refresh (hpasses.trans ?_) hcost.le hlate
      have hmul : (urgentWork m + columnWork (a : ℤ) m) * (longest + 1) ≤
          (urgentWork s + columnWork (a : ℤ) s + 3 * o.rank) * (longest + 1) :=
        Nat.mul_le_mul_right _ (by omega)
      rw [Nat.add_mul (urgentWork s + columnWork (a : ℤ) s)] at hmul
      rw [clocksFor, clocksFor, refreshCost]
      omega

/-- Columns that come at the clock keep the invariant. -/
theorem adds {new : QueueName → List (Request κ)} (h : Serving o t cfg longest s last)
    (hadds : Adds s u new) (sch' : Scheduled u) (hclock : u.ctrl.currClk = s.ctrl.currClk)
    (hrefreshed : u.ctrl.lastRefreshedClk = s.ctrl.lastRefreshedClk)
    (hnew : ∀ n, ∀ r ∈ new n, (n = .read ∨ n = .write) ∧ InRange (spec o t) 3 0 r.mappedAddr ∧
      r.arrive.toInt = s.now)
    (hroom : ∀ n, (s.reqs n).length + (new n).length ≤ cfg.queueSize) :
    Serving o t cfg longest u last := by
  have hnow : u.now = s.now := congrArg UInt64.toNat hclock
  have hage : age u = age s := by rw [age, age, hnow, hrefreshed]
  have hsame : ∀ n, n ≠ .read → n ≠ .write → u.reqs n = s.reqs n := by
    intro n hread hwrite
    have hnil : new n = [] := List.eq_nil_iff_forall_not_mem.mpr fun r hr =>
      (hnew n r hr).1.elim hread hwrite
    rw [hadds.queue, hnil, List.append_nil]
  have hmisc : u.reqs .misc = s.reqs .misc := hsame .misc (by decide) (by decide)
  have hurgent : urgentWork u = urgentWork s := by
    rw [urgentWork, urgentWork, rowsOf_adds hadds, hmisc, hsame .act (by decide) (by decide)]
  have hclocks : ∀ n, clocksFor longest last u n = clocksFor longest last s n := by
    intro n
    rw [clocksFor, clocksFor, hnow]
  have ord' : Orderly o t longest cfg.queueSize last u :=
    h.ord.adds hadds hnow.ge (fun n r hr => by rw [hnow]; exact (hnew n r hr).2) hroom
  have hrecent : age u < t.interval := hage ▸ h.recent
  refine ⟨sch', ord', hnow ▸ h.clock, ?_, hrecent, ?_, fun a ha => ?_⟩
  · rw [hrefreshed, hnow]
    exact h.refreshed
  · rw [hmisc, hclocks, hurgent, hage]
    exact h.urgent
  · rw [hnow] at ha
    rcases Nat.lt_or_eq_of_le ha with hlt | rfl
    · have hlate : ∀ n, ∀ r ∈ new n, (a : ℤ) < r.arrive.toInt := fun n r hr => by
        rw [(hnew n r hr).2.2]
        exact Int.ofNat_lt.mpr hlt
      refine (h.waiting a ha).imp (fun hq => hq.adds hadds fun n r hr _ => hlate n r hr)
        fun hdue => ?_
      have hcol := columnWork_adds (a := a) h.ord hadds fun n _ r hr => hlate n r hr
      have hmul : clocksFor longest last s (urgentWork s + columnWork (a : ℤ) u) ≤
          clocksFor longest last s (urgentWork s + columnWork (a : ℤ) s) := by
        have hwork := Nat.mul_le_mul_right (longest + 1) (Nat.add_le_add_left hcol (urgentWork s))
        rw [clocksFor, clocksFor]
        omega
      refine le_trans ?_ hdue
      rw [due, due, hclocks, hurgent, hnow, hage]
      exact Nat.add_le_add_right (Nat.add_le_add_right (Nat.mul_le_mul_left _ hmul) _) _
    · exact .inr (hnow ▸ due_now sch' ord' hrecent)

/-- **A request keeps the invariant**, taken or refused. -/
theorem request (h : Serving o t cfg longest s last) (logicAddr : Addr) {type : ReqType}
    (callback : Option κ) (htype : type = .read ∨ type = .write) :
    ∃ u, (machine (spec o t) 2).step s (.issueRequest logicAddr type callback) = .ok u ∧
      Serving o t cfg longest u last ∧ u.ctrl.lastRefreshedClk = s.ctrl.lastRefreshedClk ∧
      (u = s ∨ ∃ req, req.type = type ∧ req.callback = callback ∧
        (Accept s u req ∨ Forward s u req)) := by
  obtain ⟨addr, hmap⟩ := h.ord.mapper logicAddr
  have hin := h.ord.mapped logicAddr addr hmap
  obtain ⟨b, u, hissue⟩ : ∃ b u, issueRequest
      { logicAddr, mappedAddr := addr, type, callback } s = .ok (b, u) := issueRequest_yields (by
    rw [h.ord.bound]
    exact h.ord.length _)
  have hstep : (machine (spec o t) 2).step s (.issueRequest logicAddr type callback) = .ok u := by
    simp only [machine, Sys.mapped, hmap, ok_bind, pure_bind, hissue]
    rfl
  have sch' : Scheduled u :=
    h.sch.step (show IsAccess (.issueRequest logicAddr type callback) from htype) hstep
  have hrefreshed := issueRequest_refreshed hissue
  have harrive : (s.ctrl.currClk.toInt64).toInt = s.now := toInt_toInt64 h.clock
  refine ⟨u, hstep, ?_⟩
  rcases issueRequest_cases hissue with ⟨-, rfl, -⟩ | ⟨-, req, rfl, haccept | hforward⟩
  · exact ⟨h, rfl, .inl rfl⟩
  · refine ⟨h.adds (.of_accept haccept) sch' haccept.became.clock hrefreshed (fun n r hr => ?_)
      fun n => ?_, hrefreshed, .inr ⟨_, rfl, rfl, .inl haccept⟩⟩
    · split at hr
      · rename_i hn
        obtain rfl := List.mem_singleton.mp hr
        refine ⟨?_, hin, harrive⟩
        rw [hn]
        rcases htype with rfl | rfl
        · exact .inl rfl
        · exact .inr rfl
      · exact absurd hr List.not_mem_nil
    · have hroom := haccept.room
      have hlen := h.ord.length n
      split
      · rename_i hn
        rw [h.ord.bound] at hroom
        rw [hn]
        exact hroom
      · exact hlen
  · exact ⟨h.adds (.of_forward hforward) sch' hforward.became.clock hrefreshed
      (fun n r hr => absurd hr List.not_mem_nil) h.ord.length, hrefreshed,
      .inr ⟨_, rfl, rfl, .inr hforward⟩⟩

end Serving

end Ticks

end Ddr4

end Dram

end Vans
