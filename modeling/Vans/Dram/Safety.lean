import Vans.Dram.Controller
import Vans.Dram.Timing
import Vans.Common.History
/-!
# The DRAM media controller — the delays of the timing tables

The controller issues a command only after the tree has let it through,
and at once records it there; so the tree tracks the record of commands
issued, and the record keeps every delay of the tables. Two things are
asked of what comes in: the addresses are in the channel of the tree's
root, and the clocks have room for the delays.
-/

namespace Vans

namespace Dram

variable {κ γ ς : Type} [DecidableEq γ] {k : ℕ} {spec : Spec γ ς}

/-! ## The commands of a record -/

def Obs.issuedCmd : Obs κ γ → Option (Issued γ)
  | .issued cmd addr clk => some ⟨cmd, addr, clk⟩
  | _ => none

/-- The commands issued, in order. -/
def issued (log : List (Obs κ γ)) : List (Issued γ) := log.filterMap Obs.issuedCmd

/-- The clocks at which `x` was issued to addresses that agree with
`addr` on the levels up to `L`, the most recent first. -/
def recent (x : γ) (L : ℕ) (addr : MappedAddr) (before : List (Issued γ)) : List Clk :=
  clocks x (before.filter fun i => ∀ l ≤ L, coord i.addr l = coord addr l).reverse

/-- **The command keeps its delays**: at every level up to its scope, and
for every entry of the table that delays it after a command on its own
path, the command the entry looks back to was issued early enough. -/
def InTime (spec : Spec γ ς) (before : List (Issued γ)) (y : Issued γ) : Prop :=
  ∀ L ≤ spec.scope y.cmd, ∀ x, ∀ t ∈ spec.timingTable L x, t.cmd = y.cmd → t.hasSibling = false →
    ∀ c, (recent x L y.addr before)[t.dist - 1]? = some c → c.toNat + t.delay ≤ y.clk.toNat

/-- **The controller's invariant.** -/
structure Sys.Safe (spec : Spec γ ς) (s : Sys κ γ ς k) : Prop where
  tracks : Tracks spec (k + 1) 0 (issued s.log).reverse s.ctrl.channel
  root : s.ctrl.channel.node.id = 0
  /-- Requests and commands are in the channel of the root. -/
  queued : ∀ name, ∀ req ∈ (s.ctrl.queue name).queue, coord req.mappedAddr 0 = 0
  sent : ∀ i ∈ issued s.log, coord i.addr 0 = 0
  inTime : History.Always (InTime spec) (issued s.log)

section Lists

omit [DecidableEq γ] in
theorem issued_append {log log' : List (Obs κ γ)} :
    issued (log ++ log') = issued log ++ issued log' :=
  List.filterMap_append

/-- In the channel of the root, agreeing from the root on is agreeing on
every level. -/
theorem recent_eq {x : γ} {L : ℕ} {addr : MappedAddr} {before : List (Issued γ)}
    (hsent : ∀ i ∈ before, coord i.addr 0 = 0) (haddr : coord addr 0 = 0) :
    recent x L addr before = clocks x (along 0 L addr before.reverse) := by
  rw [recent, along, List.filter_reverse]
  refine congrArg _ (congrArg _ (List.filter_congr fun i hi => ?_))
  rw [decide_eq_decide]
  constructor
  · exact fun h l hl _ => h l hl
  · intro h l hl
    rcases Nat.eq_zero_or_pos l with rfl | hpos
    · rw [hsent i hi, haddr]
    · exact h l hl hpos

end Lists

/-! ## What each step keeps -/

namespace Sys.Safe

variable {s t : Sys κ γ ς k}

/-- Neither the tree nor the record of commands changes. -/
theorem quiet (safe : s.Safe spec) (hchan : t.ctrl.channel = s.ctrl.channel)
    (hlog : issued t.log = issued s.log)
    (hqueued : ∀ name, ∀ req ∈ (t.ctrl.queue name).queue, coord req.mappedAddr 0 = 0) :
    t.Safe spec :=
  ⟨hlog ▸ hchan ▸ safe.tracks, hchan ▸ safe.root, hqueued, hlog ▸ safe.sent, hlog ▸ safe.inTime⟩

/-- A request of the root's channel enters its queue, or is refused. -/
theorem issueRequest {request : Request κ} {b : Bool} (safe : s.Safe spec)
    (haddr : coord request.mappedAddr 0 = 0)
    (h : Dram.issueRequest request s = .ok (b, t)) :
    t.Safe spec ∧ t.ctrl.currClk = s.ctrl.currClk := by
  simp only [Dram.issueRequest, bind_eq_ok, Prod.exists] at h
  obtain ⟨success, queue, henq, h⟩ := h
  obtain ⟨-, ⟨rfl, -, -⟩ | ⟨rfl, -, rfl⟩⟩ := RequestQueue.enqueue_eq_ok.mp henq
  · simp only [Bool.not_false, if_true, pure_eq_ok, Prod.mk.injEq] at h
    obtain ⟨-, rfl⟩ := h
    exact ⟨safe, rfl⟩
  · simp only [Bool.not_true, Bool.false_eq_true, if_false] at h
    have hadded : ∀ reqs : List (Request κ), reqs = (s.ctrl.queue (getQueue request.type)).queue ++
        [{ request with arrive := s.ctrl.currClk.toInt64 }] →
        (Sys.emit { s with ctrl := s.ctrl.setQueue (getQueue request.type) reqs }
          (.accepted { request with arrive := s.ctrl.currClk.toInt64 })).Safe spec := by
      rintro reqs rfl
      refine safe.quiet channel_setQueue ?_ fun name req hreq => ?_
      · simp [Sys.emit, issued, Obs.issuedCmd]
      · simp only [Sys.emit, queue_setQueue] at hreq
        split at hreq
        · rcases List.mem_append.mp hreq with hreq | hreq
          · exact safe.queued _ req hreq
          · rw [List.mem_singleton.mp hreq]
            exact haddr
        · exact safe.queued name req hreq
    split at h
    · obtain ⟨-, rfl⟩ := Prod.mk.inj (pure_eq_ok.mp h)
      refine ⟨(hadded _ rfl).quiet rfl rfl fun name req hreq => ?_, currClk_setQueue⟩
      cases name with
      | read => exact (hadded _ rfl).queued .read req (List.dropLast_subset _ hreq)
      | act => exact (hadded _ rfl).queued .act req hreq
      | misc => exact (hadded _ rfl).queued .misc req hreq
      | write => exact (hadded _ rfl).queued .write req hreq
    · obtain ⟨-, rfl⟩ := Prod.mk.inj (pure_eq_ok.mp h)
      exact ⟨hadded _ rfl, currClk_setQueue⟩

theorem servePending (safe : s.Safe spec) :
    (Dram.servePending s).Safe spec ∧ (Dram.servePending s).ctrl.currClk = s.ctrl.currClk := by
  unfold Dram.servePending
  split
  · exact ⟨safe, rfl⟩
  · split
    · split
      · exact ⟨safe, rfl⟩
      · exact ⟨safe.quiet rfl (by simp [Sys.emit, issued, Obs.issuedCmd]) safe.queued, rfl⟩
    · exact ⟨safe, rfl⟩

omit [DecidableEq γ] in
/-- A refresh is for the root's channel. -/
theorem coord_refreshRequest {rankId : ℕ} :
    coord (refreshRequest (κ := κ) spec 0 rankId).mappedAddr 0 = 0 := by
  simp only [coord, refreshRequest, List.getD_eq_getElem?_getD]
  rw [List.getElem?_set_ne (by decide), List.getElem?_set_self']
  cases h : (List.replicate (spec.totalLevels - 1) (0 : UInt64))[0]? <;> simp

theorem issueRefresh (safe : s.Safe spec) (h : Dram.issueRefresh spec s = .ok t) :
    t.Safe spec ∧ t.ctrl.currClk = s.ctrl.currClk := by
  refine issueRefresh_keeps (P := fun u : Sys κ γ ς k => u.Safe spec ∧
    u.ctrl.currClk = s.ctrl.currClk) h ?_ ?_ ⟨safe, rfl⟩
  · rintro u v rankId ⟨hu, hclk⟩ hissue
    rw [hu.root] at hissue
    obtain ⟨hv, hclk'⟩ := hu.issueRequest coord_refreshRequest hissue
    exact ⟨hv, hclk'.trans hclk⟩
  · rintro u ⟨hu, hclk⟩
    exact ⟨hu.quiet rfl rfl hu.queued, hclk⟩

theorem chooseMode (safe : s.Safe spec) :
    (Dram.chooseMode s).Safe spec ∧ (Dram.chooseMode s).ctrl.currClk = s.ctrl.currClk := by
  unfold Dram.chooseMode
  split <;> exact ⟨safe.quiet rfl rfl safe.queued, rfl⟩

/-- What follows a command only moves its request. -/
theorem afterCmd {name : QueueName} {cmd : γ} {req : Request κ} {rest : List (Request κ)}
    (safe : s.Safe spec) (haddr : coord req.mappedAddr 0 = 0)
    (hrest : ∀ r ∈ rest, coord r.mappedAddr 0 = 0) :
    (Dram.afterCmd spec name cmd req rest s).Safe spec := by
  have hset : ∀ (n : QueueName) (reqs : List (Request κ)) {u : Sys κ γ ς k}, u.Safe spec →
      (∀ r ∈ reqs, coord r.mappedAddr 0 = 0) →
      ({ u with ctrl := u.ctrl.setQueue n reqs } : Sys κ γ ς k).Safe spec := by
    intro n reqs u hu hreqs
    refine hu.quiet channel_setQueue rfl fun name r hr => ?_
    rw [queue_setQueue] at hr
    split at hr
    · exact hreqs r hr
    · exact hu.queued name r hr
  have hfirst := hset name (req :: rest) safe (by simpa [haddr] using hrest)
  unfold Dram.afterCmd
  dsimp only
  split
  · split
    · have hpushed := hset .act (((s.ctrl.setQueue name (req :: rest)).queue .act).queue ++ [req])
        hfirst fun r hr => by
          rcases List.mem_append.mp hr with hr | hr
          · exact hfirst.queued .act r hr
          · rw [List.mem_singleton.mp hr]
            exact haddr
      exact hset _ _ hpushed fun r hr => hpushed.queued name r (List.mem_of_mem_tail hr)
    · exact hfirst
  · have hdone := hset name rest hfirst hrest
    have hserved : (Sys.emit { s with
        ctrl := (s.ctrl.setQueue name (req :: rest)).setQueue name rest }
        (.served req)).Safe spec :=
      hdone.quiet rfl (by simp [Sys.emit, issued, Obs.issuedCmd]) hdone.queued
    split
    · exact hserved.quiet rfl rfl hserved.queued
    · exact hserved

/-- **A command that was let through is recorded, in time.** -/
theorem issueCmd (hproper : spec.Proper (k + 1)) (hfits : spec.Fits (k + 1) s.ctrl.currClk)
    (hdeep : ∀ level, k + 1 < level → ∀ x, spec.timingTable level x = []) {cmd : γ}
    {addr : MappedAddr} (safe : s.Safe spec) (haddr : coord addr 0 = 0)
    (hready : check spec cmd addr s.ctrl.currClk (k + 1) 0 s.ctrl.channel = .ok true)
    (h : Dram.issueCmd spec cmd addr s = .ok t) : t.Safe spec ∧ t.ctrl.queue = s.ctrl.queue := by
  simp only [Dram.issueCmd, update, bind_eq_ok, pure_eq_ok] at h
  obtain ⟨-, ⟨d, hstate, rfl⟩, rfl⟩ := h
  obtain ⟨hid, htracks⟩ := safe.tracks.updateState hstate
  have hroot : d.node.id = 0 := hid.trans safe.root
  have hupd := htracks.updateTiming hproper (i := ⟨cmd, addr, s.ctrl.currClk⟩) hfits (by omega)
  rw [if_pos (by rw [hroot, haddr]; rfl)] at hupd
  have hlog : issued (s.log ++ [Obs.issued cmd addr s.ctrl.currClk]) =
      issued s.log ++ [⟨cmd, addr, s.ctrl.currClk⟩] := issued_append
  refine ⟨⟨?_, updateTiming_id.trans hroot, safe.queued, ?_, ?_⟩, rfl⟩
  · change Tracks spec (k + 1) 0 (issued (s.log ++ [_])).reverse _
    rw [hlog, List.reverse_append]
    exact hupd
  · change ∀ i ∈ issued (s.log ++ [_]), _
    rw [hlog]
    intro i hi
    rcases List.mem_append.mp hi with hi | hi
    · exact safe.sent i hi
    · rw [List.mem_singleton.mp hi]
      exact haddr
  · change History.Always (InTime spec) (issued (s.log ++ [_]))
    rw [hlog]
    refine History.always_concat.mpr ⟨safe.inTime, fun L hL x t ht hcmd hs c hc => ?_⟩
    rw [recent_eq safe.sent haddr] at hc
    have hle : L ≤ k + 1 := by
      by_contra hlt
      simp [hdeep L (by omega)] at ht
    exact safe.tracks.check hready L (by omega) (by omega) hL x t ht hcmd hs c hc

theorem schedule (hproper : spec.Proper (k + 1)) (hfits : spec.Fits (k + 1) s.ctrl.currClk)
    (hdeep : ∀ level, k + 1 < level → ∀ x, spec.timingTable level x = []) {name : QueueName}
    (safe : s.Safe spec) (h : Dram.schedule spec name s = .ok t) : t.Safe spec := by
  unfold Dram.schedule at h
  split at h
  · obtain rfl := pure_eq_ok.mp h
    exact safe
  · rename_i req rest hq
    have hmem := safe.queued name
    rw [hq] at hmem
    simp only [bind_eq_ok] at h
    obtain ⟨ready, hready, h⟩ := h
    cases ready with
    | false =>
        simp only [Bool.not_false, if_true, pure_eq_ok] at h
        exact h ▸ safe
    | true =>
        simp only [Bool.not_true, Bool.false_eq_true, if_false, bind_eq_ok, pure_eq_ok] at h
        obtain ⟨cmd, hcmd, u, hu, rfl⟩ := h
        simp only [isReady, bind_eq_ok] at hready
        obtain ⟨cmd', hcmd', hcheck⟩ := hready
        obtain rfl : cmd' = cmd := Except.ok.inj (hcmd'.symm.trans hcmd)
        obtain ⟨hsafe, -⟩ := safe.issueCmd hproper hfits hdeep (hmem req (by simp)) hcheck hu
        exact hsafe.afterCmd (hmem req (by simp)) fun r hr => hmem r (by simp [hr])

/-- **A tick keeps the invariant**, at a clock that has room for the
delays. -/
theorem tick (hproper : spec.Proper (k + 1)) {clk : Clk} (hfits : spec.Fits (k + 1) clk)
    (hdeep : ∀ level, k + 1 < level → ∀ x, spec.timingTable level x = []) (safe : s.Safe spec)
    (h : Dram.tick spec clk s = .ok t) : t.Safe spec := by
  simp only [Dram.tick, bind_eq_ok] at h
  obtain ⟨u, hu, h⟩ := h
  have hset : ({ s with ctrl.currClk := clk } : Sys κ γ ς k).Safe spec :=
    safe.quiet rfl rfl safe.queued
  obtain ⟨hpending, hclk₁⟩ := hset.servePending
  obtain ⟨hrefresh, hclk₂⟩ := hpending.issueRefresh hu
  obtain ⟨hmode, hclk₃⟩ := hrefresh.chooseMode
  have hclk : (Dram.chooseMode u).ctrl.currClk = clk := by rw [hclk₃, hclk₂, hclk₁]
  exact hmode.schedule hproper (hclk ▸ hfits) hdeep h

end Sys.Safe

/-! ## What every run keeps -/

/-- What is asked of an event: a request is for the channel of the root,
and a tick has room for the delays. -/
def EventOk (spec : Spec γ ς) (s : Sys κ γ ς k) : Event κ → Prop
  | .issueRequest logicAddr _ _ => ∀ addr, s.mapper.map logicAddr = .ok addr → coord addr 0 = 0
  | .tick clk => spec.Fits (k + 1) clk

instance [Fintype γ] {s : Sys κ γ ς k} : ∀ ev : Event κ, Decidable (EventOk spec s ev)
  | .issueRequest logicAddr _ _ =>
    inferInstanceAs (Decidable (∀ addr, s.mapper.map logicAddr = .ok addr → _))
  | .tick clk => inferInstanceAs (Decidable (spec.Fits (k + 1) clk))

theorem Sys.Safe.step (hproper : spec.Proper (k + 1))
    (hdeep : ∀ level, k + 1 < level → ∀ x, spec.timingTable level x = []) {s t : Sys κ γ ς k}
    {ev : Event κ} (safe : s.Safe spec) (hok : EventOk spec s ev)
    (h : (machine spec k).step s ev = .ok t) : t.Safe spec := by
  cases ev with
  | issueRequest logicAddr type callback =>
      simp only [machine, Sys.mapped, bind_eq_ok, Prod.exists, pure_eq_ok] at h
      obtain ⟨request, ⟨addr, hmap, rfl⟩, b, u, hissue, rfl⟩ := h
      exact (safe.issueRequest (hok addr hmap) hissue).1
  | tick clk => exact safe.tick hproper hok hdeep h

/-- A new memory has issued nothing. -/
theorem Sys.Safe.new {cfg : Config} {s : Sys κ γ ς k}
    (hcount : ∀ l, 0 < l → l ≤ k + 1 → 0 < spec.count l)
    (h : Sys.new spec k cfg = .ok s) : s.Safe spec := by
  simp only [Sys.new, bind_eq_ok] at h
  obtain ⟨mapper, -, h⟩ := h
  split at h
  · simp only [bind_eq_ok, throw_ne_ok, false_and, exists_false] at h
  · obtain rfl := pure_eq_ok.mp h
    refine ⟨?_, rfl, fun name req hreq => ?_, fun i hi => ?_, History.always_nil⟩
    · exact Tracks.new fun l hl hl' => hcount l hl (by omega)
    · cases name <;> simp [Controller.queue] at hreq
    · simp [issued] at hi

/-- **The delays are kept throughout every run** whose requests are for
the channel of the root, at clocks that have room for the delays. -/
theorem Sys.Safe.run (hproper : spec.Proper (k + 1))
    (hdeep : ∀ level, k + 1 < level → ∀ x, spec.timingTable level x = []) {s t : Sys κ γ ς k}
    {es : List (Event κ)} (safe : s.Safe spec) (hok : (machine spec k).Meets (EventOk spec) s es)
    (h : (machine spec k).run s es = .ok t) : t.Safe spec :=
  (machine spec k).invariant_of_meets (fun _ _ _ hu hev hv => hu.step hproper hdeep hev hv) safe
    hok h

end Dram

end Vans
