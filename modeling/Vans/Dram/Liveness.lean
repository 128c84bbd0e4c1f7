import Vans.Dram.Deadlines
/-!
# DDR4 — liveness

What follows of the bounds for whole runs. A controller that is driven
clock by clock never fails; it refreshes every rank in every stretch of
two refresh intervals; no request waits longer than a bound that does not
depend on those that come after it; and when no more are issued, the
queues empty and every read is answered.
-/

namespace Vans

namespace Dram

namespace Ddr4

variable {κ : Type} {o : Organization} {t : Timing} {cfg : Config} {longest last last' : ℕ}
  {s u : Memory κ} {ev : Event κ}

/-- What a step comes to, of a run whose clock goes on one at a time. -/
def Stepped (o : Organization) (t : Timing) (longest : ℕ) (s : Memory κ) (last : ℕ) :
    Event κ → Memory κ → ℕ → Prop
  | .issueRequest _ type callback, u, last' => last' = last ∧ (type = .read ∨ type = .write) ∧
      u.ctrl.lastRefreshedClk = s.ctrl.lastRefreshedClk ∧ (u = s ∨ ∃ req, req.type = type ∧
        req.callback = callback ∧ (Accept s u req ∨ Forward s u req))
  | .tick clk, u, last' => ∃ m, Ticked o t longest s last clk m u last'

namespace Serving

/-- **A new memory serves.** -/
theorem new (ok : Timely o t cfg longest) : ∃ s : Memory κ, Sys.new (spec o t) 2 cfg = .ok s ∧
    Serving o t cfg longest s 0 ∧ s.now = 0 ∧ s.ctrl.pendingQueue = [] ∧ ∀ n, s.reqs n = [] := by
  obtain ⟨m, hm, proper, -⟩ := ok.mappable.new_eq (t := t)
  have hchannel : isPwrOf2 ((spec o t).count 0) = true := (ok.mappable.counts 0 (by decide)).1
  have hrank : isPwrOf2 ((spec o t).count 1) = true := (ok.mappable.counts 1 (by decide)).1
  have hinterval := ok.refresh_lt
  obtain ⟨s, hs⟩ : ∃ s : Memory κ, Sys.new (spec o t) 2 cfg = .ok s := by
    rw [Sys.new, hm]
    simp only [hchannel, hrank, ok_bind]
    exact ⟨_, rfl⟩
  have sch : Scheduled s := .new hs
  have placed : Placed o t s := .new hs
  refine ⟨s, hs, ?_⟩
  simp only [Sys.new, hm, hchannel, hrank, ok_bind] at hs
  obtain rfl := pure_eq_ok.mp hs
  refine ⟨⟨sch, ⟨placed, fun a => ?_, fun n => ?_, fun n => ?_, .new, le_rfl,
    fun n req hreq => ?_, fun n hn => ?_⟩, Nat.two_pow_pos 63, le_rfl, ?_, .inl rfl,
    fun a _ => .inl fun n req hreq => ?_⟩, rfl, rfl, fun n => by cases n <;> rfl⟩
  · obtain ⟨x, hx, -⟩ := proper.map_digits a
    exact ⟨x, hx⟩
  · cases n <;> exact Nat.zero_le _
  · cases n <;> rfl
  · cases n <;> exact absurd hreq List.not_mem_nil
  · rcases hn with rfl | rfl <;> exact List.Pairwise.nil
  · change 0 - 0 < t.interval
    omega
  · cases n <;> exact absurd hreq List.not_mem_nil

/-- **A step serves on.** -/
theorem step (ok : Timely o t cfg longest) (h : Serving o t cfg longest s last)
    (hev : Steady s ev) : ∃ u last', (machine (spec o t) 2).step s ev = .ok u ∧
      Serving o t cfg longest u last' ∧ Stepped o t longest s last ev u last' := by
  cases ev with
  | issueRequest logicAddr type callback =>
      obtain ⟨u, hu, hserving, htaken⟩ := h.request logicAddr callback hev
      exact ⟨u, last, hu, hserving, rfl, hev, htaken⟩
  | tick clk =>
      obtain ⟨hle, hone, hclk⟩ := hev
      obtain ⟨m, u, last', hu, hticked, hserving⟩ := h.tick ok hle hone hclk
      exact ⟨u, last', hu, hserving, m, hticked⟩

/-- What every step keeps that serves, a run keeps whose clock goes on. -/
theorem run (ok : Timely o t cfg longest) {C : Memory κ → Event κ → Prop} {P : Memory κ → Prop}
    (hsteady : ∀ s ev, C s ev → Steady s ev)
    (hstep : ∀ {s u : Memory κ} {last last' : ℕ} {ev : Event κ}, C s ev →
      Serving o t cfg longest s last → Serving o t cfg longest u last' →
      Stepped o t longest s last ev u last' → P s → P u)
    {es : List (Event κ)} (h : Serving o t cfg longest s last) (hP : P s)
    (hmeets : (machine (spec o t) 2).Meets C s es) :
    ∃ u last', (machine (spec o t) 2).run s es = .ok u ∧ Serving o t cfg longest u last' ∧ P u := by
  obtain ⟨u, hu, ⟨last', hserving⟩, hPu⟩ := (machine (spec o t) 2).run_yields (C := C)
    (P := fun s => (∃ last, Serving o t cfg longest s last) ∧ P s)
    (fun s ev ⟨⟨last, h⟩, hP⟩ hC => by
      obtain ⟨u, last', hu, h', hstepped⟩ := h.step ok (hsteady s ev hC)
      exact ⟨u, hu, ⟨last', h'⟩, hstep hC h h' hstepped hP⟩)
    ⟨⟨last, h⟩, hP⟩ hmeets
  exact ⟨u, last', hu, hserving, hPu⟩

/-- **No request waits longer than the limit.** -/
theorem quiet (h : Serving o t cfg longest s last) {a : ℕ} (ha : a ≤ s.now)
    (hlate : dueLimit o t cfg longest < (t.interval - refreshCost o longest) * (s.now - a)) :
    Quiet a s := by
  rcases h.waiting a ha with hquiet | hdue
  · exact hquiet
  · rw [due] at hdue
    omega

end Serving

/-- The next clock, and nothing else. -/
def Advances (s : Memory κ) : Event κ → Prop
  | .tick clk => clk.toNat = s.now + 1 ∧ clk.toNat < 2 ^ 63
  | .issueRequest .. => False

/-- So many ticks, from the clock after `now`. -/
def ticksFrom (κ : Type) : ℕ → ℕ → List (Event κ)
  | _, 0 => []
  | now, n + 1 => .tick (.ofNat (now + 1)) :: ticksFrom κ (now + 1) n

theorem Advances.steady (h : Advances s ev) : Steady s ev := by
  cases ev with
  | issueRequest => exact h.elim
  | tick clk =>
      obtain ⟨hnext, hlt⟩ := h
      exact ⟨by omega, hnext.le, hlt⟩

/-- **The clock goes on**, for as long as it fits. -/
theorem Serving.ticks (ok : Timely o t cfg longest) {n : ℕ} (h : Serving o t cfg longest s last)
    (hfits : s.now + n < 2 ^ 63) : (machine (spec o t) 2).Meets Advances s (ticksFrom κ s.now n) ∧
      ∀ u, (machine (spec o t) 2).run s (ticksFrom κ s.now n) = .ok u → u.now = s.now + n := by
  induction n generalizing s last with
  | zero =>
      refine ⟨trivial, fun u hu => ?_⟩
      obtain rfl := Except.ok.inj hu
      rfl
  | succ n ih =>
      have hclk : (UInt64.ofNat (s.now + 1)).toNat = s.now + 1 :=
        UInt64.toNat_ofNat_of_lt' (by change _ < 2 ^ 64; omega)
      have hadvances : Advances s (.tick (.ofNat (s.now + 1))) := ⟨hclk, by omega⟩
      obtain ⟨v, last', hv, h', m, hticked⟩ := h.step ok hadvances.steady
      have hnow : v.now = s.now + 1 := hticked.now_eq.trans hclk
      obtain ⟨hmeets, hend⟩ := ih h' (by omega)
      rw [hnow] at hmeets hend
      refine ⟨⟨hadvances, fun w hw => ?_⟩, fun u hu => ?_⟩
      · obtain rfl := Except.ok.inj (hv.symm.trans hw)
        exact hmeets
      · rw [ticksFrom, Machine.run_cons, hv, ok_bind] at hu
        have hlast := hend u hu
        omega

/-! ## Nothing fails -/

/-- **A controller that is driven clock by clock never fails.** For every
configuration that leaves time for the refreshes, the memory is made; and
whatever reads and writes are issued, every call succeeds, no queue
exceeds its bound, and the refreshes that were queued are all done before
the next are due. -/
theorem never_fails (ok : Timely o t cfg longest) : ∃ s₀ : Memory κ,
    Sys.new (spec o t) 2 cfg = .ok s₀ ∧
    ∀ es, (machine (spec o t) 2).Meets Steady s₀ es → ∃ s,
      (machine (spec o t) 2).run s₀ es = .ok s ∧ (∀ n, (s.reqs n).length ≤ cfg.queueSize) ∧
      ∀ clk, Steady s (.tick clk) → Due (spec o t) s clk → s.reqs .misc = [] := by
  obtain ⟨s₀, hnew, h₀, -⟩ := Serving.new (κ := κ) ok
  refine ⟨s₀, hnew, fun es hmeets => ?_⟩
  obtain ⟨s, last, hrun, h, -⟩ := h₀.run ok (P := fun _ => True) (fun _ _ h => h)
    (fun _ _ _ _ _ => trivial) trivial hmeets
  exact ⟨s, hrun, h.ord.length, fun clk ⟨hle, hone, _⟩ hdue => h.emptied ok hle hone hdue⟩

/-- The configuration that comes with the simulator leaves time: a
refresh takes 467 clocks of 10400. -/
theorem vans_timely : Timely (vansOrganization 1) vansTiming vansConfig 467 := by
  refine ⟨⟨by decide, by decide +kernel, by decide⟩, ?_, by decide, by decide, by decide, by decide⟩
  rintro (_ | _ | _ | _ | level)
  · decide
  · decide
  · decide
  · decide
  · intro x e he
    simp [timingTable] at he

theorem never_fails_vans : ∃ s₀ : Memory ℕ,
    Sys.new (spec (vansOrganization 1) vansTiming) 2 vansConfig = .ok s₀ ∧
    ∀ es, (machine (spec (vansOrganization 1) vansTiming) 2).Meets Steady s₀ es →
      ∃ s, (machine (spec (vansOrganization 1) vansTiming) 2).run s₀ es = .ok s := by
  obtain ⟨s₀, hnew, hall⟩ := never_fails (κ := ℕ) vans_timely
  refine ⟨s₀, hnew, fun es hmeets => ?_⟩
  obtain ⟨s, hrun, -⟩ := hall es hmeets
  exact ⟨s, hrun⟩

/-! ## No request starves -/

/-- **No request starves.** In every run whose clock goes on one at a
time, a read or write that came by a clock is no longer queued once the
bound has passed, whatever was issued since: the bound is of the
configuration alone. -/
theorem no_request_starves (ok : Timely o t cfg longest) {s₀ s : Memory κ} {es : List (Event κ)}
    (hnew : Sys.new (spec o t) 2 cfg = .ok s₀)
    (hmeets : (machine (spec o t) 2).Meets Steady s₀ es)
    (hrun : (machine (spec o t) 2).run s₀ es = .ok s) {a : ℕ}
    (hlate : dueLimit o t cfg longest < (t.interval - refreshCost o longest) * (s.now - a)) :
    ∀ n, ∀ req ∈ s.reqs n, req.type ≠ .refresh → a < req.arrive.toInt := by
  obtain ⟨s₀', hnew', h₀, -⟩ := Serving.new (κ := κ) ok
  obtain rfl := Except.ok.inj (hnew.symm.trans hnew')
  obtain ⟨s', last, hrun', h, -⟩ := h₀.run ok (P := fun _ => True) (fun _ _ h => h)
    (fun _ _ _ _ _ => trivial) trivial hmeets
  obtain rfl := Except.ok.inj (hrun.symm.trans hrun')
  have hold : a ≤ s.now := by
    by_contra hnot
    rw [Nat.sub_eq_zero_of_le (Nat.le_of_not_le hnot), Nat.mul_zero] at hlate
    exact absurd hlate (Nat.not_lt_zero _)
  exact h.quiet hold hlate

/-- Where a read comes to the configuration that comes with the simulator,
it is served within 315000 clocks. -/
theorem no_request_starves_vans :
    ∃ s₀ s : Memory ℕ, Sys.new (spec (vansOrganization 1) vansTiming) 2 vansConfig = .ok s₀ ∧
      (machine (spec (vansOrganization 1) vansTiming) 2).run s₀
        (.issueRequest 0 .read (some 0) :: ticksFrom ℕ 0 315000) = .ok s ∧
      ∀ n, ∀ req ∈ s.reqs n, req.type ≠ .refresh → 0 < req.arrive.toInt := by
  obtain ⟨s₀, hnew, h₀, hstart, -⟩ := Serving.new (κ := ℕ) vans_timely
  obtain ⟨u, hu, h, -, htaken⟩ := h₀.request 0 (some 0) (.inl rfl)
  have hclock : u.now = 0 := by
    rcases htaken with rfl | ⟨req, -, -, haccept | hforward⟩
    · exact hstart
    · exact (congrArg UInt64.toNat haccept.became.clock).trans hstart
    · exact (congrArg UInt64.toNat hforward.became.clock).trans hstart
  obtain ⟨hmeets, hend⟩ := h.ticks vans_timely (n := 315000) (by rw [hclock]; decide)
  rw [hclock] at hmeets hend
  have hsteady := Machine.meets_mono (fun _ _ h => h.steady) hmeets
  obtain ⟨s, -, hrun, -⟩ := h.run vans_timely (P := fun _ => True) (fun _ _ h => h)
    (fun _ _ _ _ _ => trivial) trivial hsteady
  have hlast := hend s hrun
  have hall : (machine (spec (vansOrganization 1) vansTiming) 2).run s₀
      (.issueRequest 0 .read (some 0) :: ticksFrom ℕ 0 315000) = .ok s := by
    rw [Machine.run_cons, hu]
    exact hrun
  have hmeets₀ : (machine (spec (vansOrganization 1) vansTiming) 2).Meets Steady s₀
      (.issueRequest 0 .read (some 0) :: ticksFrom ℕ 0 315000) := by
    refine ⟨.inl rfl, fun v hv => ?_⟩
    obtain rfl := Except.ok.inj (hu.symm.trans hv)
    exact hsteady
  refine ⟨s₀, s, hnew, hall, no_request_starves vans_timely hnew hmeets₀ hall (a := 0) ?_⟩
  rw [hlast]
  decide

/-! ## Every rank is refreshed -/

/-- The rank was refreshed at the clock or after. -/
def RefreshedSince (rank clk : ℕ) (s : Memory κ) : Prop :=
  ∃ i ∈ issued s.log, i.cmd = .REF ∧ path i.addr 1 = rank ∧ clk ≤ i.clk.toNat

/-- **The refreshes that were called for**: each waits or was done; and
those called for before were done. -/
structure Covered (o : Organization) (t : Timing) (s : Memory κ) : Prop where
  now : ∀ rank < o.rank, (∃ req ∈ s.reqs .misc, path req.mappedAddr 1 = rank) ∨
    RefreshedSince rank s.ctrl.lastRefreshedClk.toNat s ∨ s.ctrl.lastRefreshedClk.toNat = 0
  before : ∀ rank < o.rank, RefreshedSince rank (s.ctrl.lastRefreshedClk.toNat - t.interval) s ∨
    s.ctrl.lastRefreshedClk.toNat ≤ t.interval

section Refreshes

variable {name : QueueName} {req : Request κ} {rest : List (Request κ)} {cmd : Command}
  {rank clk : ℕ}

theorem RefreshedSince.mono {clk' : ℕ} (h : RefreshedSince rank clk s) (hle : clk' ≤ clk)
    (hlog : ∀ i ∈ issued s.log, i ∈ issued u.log) : RefreshedSince rank clk' u := by
  obtain ⟨i, hi, hcmd, hrank, hclk⟩ := h
  exact ⟨i, hlog i hi, hcmd, hrank, hle.trans hclk⟩

/-- **A refresh that is queued stays or is done.** -/
theorem refresh_waits (sch : Scheduled s) (hissues : Issues (spec o t) s u name req rest cmd)
    (hnext : cmd = nextCmd (rowsOf s) req) (h : ∃ r ∈ s.reqs .misc, path r.mappedAddr 1 = rank) :
    (∃ r ∈ u.reqs .misc, path r.mappedAddr 1 = rank) ∨ RefreshedSince rank u.now u := by
  obtain ⟨r, hr, hrank⟩ := h
  by_cases hname : name = .misc
  · subst hname
    have htype : req.type = .refresh := sch.types .misc req (hissues.front ▸ List.mem_cons_self)
    rw [nextCmd, if_pos htype] at hnext
    rw [hissues.front] at hr
    have hnow : u.now = s.ctrl.currClk.toNat := congrArg UInt64.toNat hissues.clock
    split at hnext
    · -- the rank is closed first
      subst hnext
      have hmisc : u.reqs .misc = marked req :: rest := by
        simp [hissues.queue, Spec.ends, spec, isAccessing, isRefreshing, isOpening]
      refine .inl ?_
      rw [hmisc]
      rcases List.mem_cons.mp hr with rfl | hr
      · exact ⟨marked r, List.mem_cons_self, hrank⟩
      · exact ⟨r, List.mem_cons_of_mem _ hr, hrank⟩
    · subst hnext
      have hmisc : u.reqs .misc = rest := by
        simp [hissues.queue, Spec.ends, spec, isAccessing, isRefreshing]
      rcases List.mem_cons.mp hr with rfl | hr
      · refine .inr ⟨⟨.REF, r.mappedAddr, s.ctrl.currClk⟩, ?_, rfl, hrank, hnow.le⟩
        rw [hissues.commands]
        exact List.mem_append_right _ List.mem_cons_self
      · exact .inl ⟨r, hmisc ▸ hr, hrank⟩
  · refine .inl ⟨r, ?_, hrank⟩
    rw [hissues.queue, if_neg (Ne.symm hname)]
    exact List.mem_append_left _ hr

namespace Covered

/-- Requests are added, and the refreshes are as they were. -/
theorem adds {new : QueueName → List (Request κ)} (h : Covered o t s) (hadds : Adds s u new)
    (hrefreshed : u.ctrl.lastRefreshedClk = s.ctrl.lastRefreshedClk) : Covered o t u := by
  have hlog : ∀ i ∈ issued s.log, i ∈ issued u.log := fun i hi => hadds.commands ▸ hi
  refine ⟨fun rank hrank => ?_, fun rank hrank => ?_⟩ <;> rw [hrefreshed]
  · rcases h.now rank hrank with ⟨req, hreq, hat⟩ | hdone | hzero
    · exact .inl ⟨req, hadds.queue .misc ▸ List.mem_append_left _ hreq, hat⟩
    · exact .inr (.inl (hdone.mono le_rfl hlog))
    · exact .inr (.inr hzero)
  · exact (h.before rank hrank).imp_left fun hdone => hdone.mono le_rfl hlog

/-- **The refreshes of all ranks are called for anew**, when those called
for before were done. -/
theorem due {clk : Clk} {m : Memory κ} (ok : Timely o t cfg longest)
    (serving : Serving o t cfg longest s last) (h : Covered o t s) (hclk : clk.toNat ≤ s.now + 1)
    (hmisc : s.reqs .misc = []) (hrefreshed : m.ctrl.lastRefreshedClk = clk)
    (hadds : Adds s m fun n => if n = .misc then
      s.ctrl.channel.2.map fun rank => refreshAt (spec o t) s.ctrl.channel.node.id clk rank.node.id
      else []) : Covered o t m := by
  have hlog : ∀ i ∈ issued s.log, i ∈ issued m.log := fun i hi => hadds.commands ▸ hi
  have hrecent := serving.recent
  have hold := serving.refreshed
  rw [age] at hrecent
  refine ⟨fun rank hrank => .inl ?_, fun rank hrank => ?_⟩
  · -- the rank is one of those the refreshes are for
    have hmem : rank ∈ s.ctrl.channel.2.map fun rank => rank.node.id := by
      rw [serving.ord.ranks]
      exact List.mem_range.mpr hrank
    obtain ⟨node, hnode, rfl⟩ := List.mem_map.mp hmem
    refine ⟨_, hadds.queue .misc ▸ List.mem_append_right _ (List.mem_map_of_mem hnode), ?_⟩
    have hlt := (ok.mappable.counts 1 (by decide)).2
    exact UInt64.toNat_ofNat_of_lt' (hrank.trans (hlt.trans (by decide)))
  · rw [hrefreshed]
    rcases h.now rank hrank with ⟨req, hreq, -⟩ | hdone | hzero
    · rw [hmisc] at hreq
      exact absurd hreq List.not_mem_nil
    · exact .inl (hdone.mono (by omega) hlog)
    · exact .inr (by omega)

/-- **A step keeps the refreshes covered.** -/
theorem step (ok : Timely o t cfg longest) (hev : Steady s ev)
    (serving : Serving o t cfg longest s last) (serving' : Serving o t cfg longest u last')
    (hstepped : Stepped o t longest s last ev u last') (h : Covered o t s) :
    Covered o t u := by
  cases ev with
  | issueRequest logicAddr type callback =>
      obtain ⟨-, -, hrefreshed, rfl | ⟨req, -, -, haccept | hforward⟩⟩ := hstepped
      · exact h
      · exact h.adds (.of_accept haccept) hrefreshed
      · exact h.adds (.of_forward hforward) hrefreshed
  | tick clk =>
      obtain ⟨m, hticked⟩ := hstepped
      have hm : Covered o t m := by
        rcases hticked.begun.refresh with ⟨-, hadds, hrefreshed⟩ | ⟨hdue, hrefreshed, hadds⟩
        · exact h.adds hadds hrefreshed
        · exact h.due ok serving hev.2.1 (hticked.emptied hdue) hrefreshed hadds
      rcases hticked.outcome with ⟨rfl, -, -⟩ | ⟨-, name, req, rest, cmd, -, hissues, hnext⟩
      · exact hm
      have hlog : ∀ i ∈ issued m.log, i ∈ issued u.log := fun i hi => by
        rw [hissues.commands]
        exact List.mem_append_left _ hi
      have hle := serving'.refreshed
      refine ⟨fun rank hrank => ?_, fun rank hrank => ?_⟩ <;> rw [hissues.refreshed]
      · rcases hm.now rank hrank with hwaits | hdone | hzero
        · refine (refresh_waits hticked.sch hissues hnext hwaits).imp_right fun hdone => .inl ?_
          exact hdone.mono (hissues.refreshed ▸ hle) fun _ hi => hi
        · exact .inr (.inl (hdone.mono le_rfl hlog))
        · exact .inr (.inr hzero)
      · exact (hm.before rank hrank).imp_left fun hdone => hdone.mono le_rfl hlog

end Covered

/-- **Every rank is refreshed in time.** In every run whose clock goes on
one at a time, once two intervals have passed, each rank was refreshed
within the last two: no refresh is missed, whatever is read and written. -/
theorem every_rank_refreshed (ok : Timely o t cfg longest) {s₀ s : Memory κ}
    {es : List (Event κ)} (hnew : Sys.new (spec o t) 2 cfg = .ok s₀)
    (hmeets : (machine (spec o t) 2).Meets Steady s₀ es)
    (hrun : (machine (spec o t) 2).run s₀ es = .ok s) (hlate : 2 * t.interval ≤ s.now) :
    ∀ rank < o.rank, ∃ i ∈ issued s.log, i.cmd = .REF ∧ path i.addr 1 = rank ∧
      s.now < i.clk.toNat + 2 * t.interval := by
  intro rank hrank
  obtain ⟨s₀', hnew', h₀, hstart, -⟩ := Serving.new (κ := κ) ok
  obtain rfl := Except.ok.inj (hnew.symm.trans hnew')
  have hzero : s₀.ctrl.lastRefreshedClk.toNat = 0 :=
    Nat.le_zero.mp (hstart ▸ h₀.refreshed)
  obtain ⟨s', last, hrun', h, hcovered⟩ := h₀.run ok (P := Covered o t) (fun _ _ h => h)
    (fun hev h h' hstepped hP => hP.step ok hev h h' hstepped)
    ⟨fun _ _ => .inr (.inr hzero), fun _ _ => .inr (hzero ▸ Nat.zero_le _)⟩ hmeets
  obtain rfl := Except.ok.inj (hrun.symm.trans hrun')
  have hrecent := h.recent
  rw [age] at hrecent
  rcases hcovered.before rank hrank with ⟨i, hi, hcmd, hat, hclk⟩ | hfirst
  · exact ⟨i, hi, hcmd, hat, by omega⟩
  · omega

end Refreshes

/-- Two intervals of the configuration that comes with the simulator,
without a request. -/
theorem every_rank_refreshed_vans :
    ∃ s₀ s : Memory ℕ, Sys.new (spec (vansOrganization 1) vansTiming) 2 vansConfig = .ok s₀ ∧
      (machine (spec (vansOrganization 1) vansTiming) 2).run s₀ (ticksFrom ℕ 0 20800) = .ok s ∧
      ∃ i ∈ issued s.log, i.cmd = .REF ∧ path i.addr 1 = 0 := by
  obtain ⟨s₀, hnew, h₀, hstart, -⟩ := Serving.new (κ := ℕ) vans_timely
  obtain ⟨hmeets, hend⟩ := h₀.ticks vans_timely (n := 20800) (by rw [hstart]; decide)
  rw [hstart] at hmeets hend
  obtain ⟨s, -, hrun, -⟩ := h₀.run vans_timely (P := fun _ => True)
    (fun _ _ h => h.steady) (fun _ _ _ _ _ => trivial) trivial hmeets
  have hsteady : (machine (spec (vansOrganization 1) vansTiming) 2).Meets Steady s₀
      (ticksFrom ℕ 0 20800) := Machine.meets_mono (fun _ _ h => h.steady) hmeets
  obtain ⟨i, hi, hcmd, hrank, -⟩ := every_rank_refreshed vans_timely hnew hsteady hrun
    (by rw [hend s hrun]; decide) 0 (by decide)
  exact ⟨s₀, s, hnew, hrun, i, hi, hcmd, hrank⟩

end Ddr4

end Dram

end Vans
