import Vans.Imc.Delivery
import Vans.Model.Recorded
import Vans.Common.Merge
import Vans.Common.History
/-!
# The iMC — a first-come-first-served merge

The two queues of the controller are a merge of the requests it accepts:
reads yield to writes on ties. The merge is replayed from what was
observed; the controller's queues are the replay's, a waiting read's
address apart, which is mapped each time the read is held back.
-/

namespace Vans

namespace Imc

variable {κ σ : Type} {C : Component κ σ} {rounds : ℕ}

/-! ## The merge a record stands for -/

def arrival : Obs κ → Option (BaseRequest κ)
  | .accepted req => some req
  | _ => none

/-- The requests accepted, of both types, in order. -/
def arrivals (log : List (Obs κ)) : List (BaseRequest κ) := log.filterMap arrival

def isRead (req : BaseRequest κ) : Bool := req.type = .read

def ran (log : List (Obs κ)) : List (Invocation κ) := log.filterMap ranInvocation

def mergeStep (m : Merge (BaseRequest κ)) : Obs κ → Merge (BaseRequest κ)
  | .accepted req => if isRead req then m.putLeft req else m.putRight req
  | .handed .read _ _ => m.takeLeft
  | .handed .write _ _ => m.takeRight
  | .heldBack | .ran _ => m

/-- The merge replayed: a request accepted enters the queue of its type,
a request handed on leaves the front of its queue. -/
def merge (log : List (Obs κ)) : Merge (BaseRequest κ) := log.foldl mergeStep {}

/-- The requests handed on, in order. -/
def forwarded (log : List (Obs κ)) : List (BaseRequest κ) := (merge log).out

/-- A request but for its address. -/
def unaddressed (req : BaseRequest κ) : BaseRequest κ := { req with addr := 0 }

/-- Requests arrive in the order of their stamps. -/
def StampsAscend (log : List (Obs κ)) : Prop :=
  ((arrivals log).map (·.arrive.toNat)).Pairwise (· ≤ ·)

/-- What an observation must find: a read handed on has an earlier stamp
than every write waiting, and a callback is run just after the write
that carries it was handed on. -/
def InTime (before : List (Obs κ)) : Obs κ → Prop
  | .handed .read _ _ => ∃ r ∈ (merge before).left.head?,
      ∀ w ∈ (merge before).right, r.arrive < w.arrive
  | .handed .write _ _ => (merge before).right ≠ []
  | .ran inv => ∃ earlier i addr, before = earlier ++ [.handed .write i addr] ∧
      ∃ w ∈ (merge earlier).right.head?, w.callback = some inv.callback
  | .accepted _ | .heldBack => True

section Logs

variable {log new : List (Obs κ)} {o : Obs κ} {req : BaseRequest κ} {type : BaseRequestType}
  {i : ℕ} {addr : Addr} {invs : List (Invocation κ)}

theorem arrivals_append : arrivals (log ++ new) = arrivals log ++ arrivals new :=
  List.filterMap_append

theorem ran_append : ran (log ++ new) = ran log ++ ran new := List.filterMap_append

theorem arrivals_concat : arrivals (log ++ [o]) = arrivals log ++ (arrival o).toList := by
  rw [arrivals_append]
  cases o <;> rfl

theorem ran_concat : ran (log ++ [o]) = ran log ++ (ranInvocation o).toList := by
  rw [ran_append]
  cases o <;> rfl

@[simp] theorem merge_concat : merge (log ++ [o]) = mergeStep (merge log) o := by
  simp [merge]

@[simp] theorem merge_append_ran :
    merge (log ++ invs.map .ran) = merge log := by
  induction invs using List.reverseRecOn with
  | nil => simp
  | append_singleton invs inv ih =>
      rw [List.map_append, ← List.append_assoc]
      exact merge_concat.trans ih

/-- Stamps that ascend did so before. -/
theorem StampsAscend.of_append (h : StampsAscend (log ++ new)) : StampsAscend log := by
  unfold StampsAscend at h
  rw [arrivals_append, List.map_append, List.pairwise_append] at h
  exact h.1

/-- What arrives last has the latest stamp. -/
theorem StampsAscend.latest (h : StampsAscend (log ++ [.accepted req])) :
    ∀ r ∈ arrivals log, r.arrive.toNat ≤ req.arrive.toNat := by
  intro r hr
  unfold StampsAscend at h
  rw [arrivals_append, List.map_append, List.pairwise_append] at h
  exact h.2.2 _ (List.mem_map_of_mem hr) _ (by simp [arrivals, arrival])

end Logs

/-! ## The invariant -/

/-- A component that is not full takes what it is given. -/
def AcceptsUnlessFull (C : Component κ σ) : Prop :=
  ∀ req s resp req' s', C.full s = .ok false → C.issueRequest req s = .ok (resp, req', s') →
    resp.issued = true

/-- A component leaves the callback of a request as it was. -/
def KeepsCallback (C : Component κ σ) : Prop :=
  ∀ req s resp req' s', C.issueRequest req s = .ok (resp, req', s') → req'.callback = req.callback

theorem issueTo_accepts (hC : AcceptsUnlessFull C) {next next' : List σ} {i : ℕ}
    {req req' : BaseRequest κ} {resp : BaseResponse} (hfull : C.fullAt next i = .ok false)
    (h : C.issueTo next i req = .ok (resp, req', next')) : resp.issued = true := by
  obtain ⟨st, st', hst, hissue, -⟩ := Component.issueTo_eq_ok.mp h
  unfold Component.fullAt at hfull
  simp only [hst] at hfull
  exact hC _ _ _ _ _ hfull hissue

/-- **The controller's queues are the merge's**, and what was observed
was in time. -/
structure Sys.Merges (s : Sys κ σ) : Prop where
  holds : Merge.Holds isRead (arrivals s.log) (merge s.log)
  ordered : Merge.Ordered (·.arrive.toNat) (merge s.log)
  reads : s.ctrl.rpq.queue.map unaddressed = (merge s.log).left.map unaddressed
  writes : s.ctrl.wpq.queue = (merge s.log).right
  callbacks : (ran s.log).map (·.callback) =
    ((forwarded s.log).filter (!isRead ·)).filterMap (·.callback)
  inTime : History.Always InTime s.log

namespace Sys.Merges

variable {s t : Sys κ σ} {req : BaseRequest κ} {rest : List (BaseRequest κ)}

/-- Nothing is accepted and nothing handed on. -/
theorem quiet (mg : s.Merges) (hlog : t.log = s.log) (hwpq : t.ctrl.wpq.queue = s.ctrl.wpq.queue)
    (hrpq : t.ctrl.rpq.queue = s.ctrl.rpq.queue) : t.Merges := by
  obtain ⟨holds, ordered, reads, writes, callbacks, inTime⟩ := mg
  exact ⟨hlog ▸ holds, hlog ▸ ordered, hrpq ▸ hlog ▸ reads, hwpq ▸ hlog ▸ writes,
    hlog ▸ callbacks, hlog ▸ inTime⟩

/-- A request enters its queue. -/
theorem accept (mg : s.Merges) (hlog : t.log = s.log ++ [.accepted req])
    (hascend : StampsAscend t.log)
    (hrpq : t.ctrl.rpq.queue = if isRead req then s.ctrl.rpq.queue ++ [req] else s.ctrl.rpq.queue)
    (hwpq : t.ctrl.wpq.queue = if isRead req then s.ctrl.wpq.queue else s.ctrl.wpq.queue ++ [req]) :
    t.Merges := by
  rw [hlog] at hascend
  have hlatest := hascend.latest
  have harr : arrivals t.log = arrivals s.log ++ [req] := by
    rw [hlog, arrivals_append]
    rfl
  have hran : ran t.log = ran s.log := by
    rw [hlog, ran_append]
    exact List.append_nil _
  have hin : History.Always InTime t.log := by
    rw [hlog]
    exact History.always_concat.mpr ⟨mg.inTime, trivial⟩
  have hmerge : merge t.log =
      if isRead req then (merge s.log).putLeft req else (merge s.log).putRight req := by
    rw [hlog, merge_concat]
    rfl
  cases hread : isRead req with
  | true =>
      simp only [hread, if_true] at hmerge hrpq hwpq
      refine ⟨?_, ?_, ?_, ?_, ?_, hin⟩
      · rw [harr, hmerge]
        exact mg.holds.putLeft hread
      · rw [hmerge]
        -- it has come after all that came
        refine mg.ordered.putLeft fun b hb => hlatest b ?_
        rcases List.mem_append.mp hb with hb | hb
        · exact mg.holds.of_mem_out hb
        · exact (mg.holds.of_mem_left hb).1
      · rw [hrpq, hmerge, List.map_append, mg.reads]
        exact List.map_append.symm
      · rw [hwpq, hmerge]
        exact mg.writes
      · rw [hran, forwarded, hmerge]
        exact mg.callbacks
  | false =>
      simp only [hread, Bool.false_eq_true, if_false] at hmerge hrpq hwpq
      refine ⟨?_, ?_, ?_, ?_, ?_, hin⟩
      · rw [harr, hmerge]
        exact mg.holds.putRight hread
      · rw [hmerge]
        refine mg.ordered.putRight fun b hb => hlatest b ?_
        rcases List.mem_append.mp hb with hb | hb
        · exact mg.holds.of_mem_out hb
        · exact mg.holds.of_mem_right hb
      · rw [hrpq, hmerge]
        exact mg.reads
      · rw [hwpq, hmerge, mg.writes]
        rfl
      · rw [hran, forwarded, hmerge]
        exact mg.callbacks

/-- The read at the front is tried, and stays. -/
theorem holdBack (mg : s.Merges) (hq : s.ctrl.rpq.queue = req :: rest) {addr : Addr}
    (hlog : t.log = s.log ++ [.heldBack]) (hwpq : t.ctrl.wpq.queue = s.ctrl.wpq.queue)
    (hrpq : t.ctrl.rpq.queue = { req with addr := addr } :: rest) : t.Merges := by
  have hmerge : merge t.log = merge s.log := by
    rw [hlog, merge_concat]
    rfl
  refine ⟨?_, hmerge ▸ mg.ordered, ?_, hwpq ▸ hmerge ▸ mg.writes, ?_, ?_⟩
  · rw [hmerge, hlog, arrivals_concat]
    simpa [arrival] using mg.holds
  · rw [hmerge, ← mg.reads, hrpq, hq]
    rfl
  · rw [forwarded, hmerge, hlog, ran_concat]
    simpa [ranInvocation, forwarded] using mg.callbacks
  · rw [hlog]
    exact History.always_concat.mpr ⟨mg.inTime, trivial⟩

/-- The read at the front is handed on. -/
theorem handRead (mg : s.Merges) (hq : s.ctrl.rpq.queue = req :: rest) (hfirst : ReadsFirst s req)
    {i : ℕ} {addr : Addr} (hlog : t.log = s.log ++ [.handed .read i addr])
    (hwpq : t.ctrl.wpq.queue = s.ctrl.wpq.queue) (hrpq : t.ctrl.rpq.queue = rest) : t.Merges := by
  have hmerge : merge t.log = (merge s.log).takeLeft := by
    rw [hlog, merge_concat]
    rfl
  -- the same read is at the front of the merge, but for the address it was tried under
  obtain ⟨r, rs, hleft⟩ : ∃ r rs, (merge s.log).left = r :: rs := by
    have h := mg.reads
    rw [hq, List.map_cons] at h
    exact List.exists_cons_of_ne_nil fun hnil => by simp [hnil] at h
  have hsame := mg.reads
  rw [hq, hleft, List.map_cons, List.map_cons] at hsame
  obtain ⟨hr, hrs⟩ := List.cons.inj hsame
  have harrive : (unaddressed r).arrive = (unaddressed req).arrive :=
    (congrArg BaseRequest.arrive hr).symm
  change r.arrive = req.arrive at harrive
  -- the writes that wait are no earlier than their first
  have hearly : ∀ w ∈ (merge s.log).right, r.arrive.toNat < w.arrive.toNat := by
    intro w hw
    cases hright : (merge s.log).right with
    | nil => simp [hright] at hw
    | cons w' ws =>
        have hlt : req.arrive < w'.arrive := hfirst w' (by rw [mg.writes, hright]; rfl)
        have hle := Merge.front_le mg.ordered.right (by rw [hright]; rfl : w' ∈ _) hw
        exact lt_of_lt_of_le (harrive ▸ UInt64.lt_iff_toNat_lt.mp hlt) hle
  have hread : isRead r := (mg.holds.of_mem_left (by rw [hleft]; exact List.mem_cons_self)).2
  refine ⟨?_, ?_, ?_, ?_, ?_, ?_⟩
  · rw [hmerge, hlog, arrivals_concat]
    simpa [arrival] using mg.holds.takeLeft
  · rw [hmerge]
    exact mg.ordered.takeLeft hleft fun b hb => le_of_lt (hearly b (List.mem_of_mem_head? hb))
  · rw [hrpq, hmerge, Merge.takeLeft_cons hleft]
    exact hrs
  · rw [hwpq, hmerge, Merge.takeLeft_cons hleft]
    exact mg.writes
  · have hout : (forwarded t.log).filter (!isRead ·) = (forwarded s.log).filter (!isRead ·) := by
      rw [forwarded, hmerge, Merge.takeLeft_cons hleft]
      simp [forwarded, hread]
    rw [hout, hlog, ran_concat]
    simpa [ranInvocation] using mg.callbacks
  · rw [hlog]
    refine History.always_concat.mpr ⟨mg.inTime, r, by rw [hleft]; rfl, fun w hw => ?_⟩
    exact UInt64.lt_iff_toNat_lt.mpr (hearly w hw)

/-- The write at the front is handed on, and its callback run. -/
theorem handWrite (mg : s.Merges) (hq : s.ctrl.wpq.queue = req :: rest) (hfirst : WritesFirst s req)
    {i : ℕ} {addr addr' : Addr} {clk : Clk}
    (hlog : t.log = s.log ++ .handed .write i addr :: (invoke req.callback addr' clk).map Obs.ran)
    (hwpq : t.ctrl.wpq.queue = rest) (hrpq : t.ctrl.rpq.queue = s.ctrl.rpq.queue) : t.Merges := by
  have hlog' : t.log = (s.log ++ [.handed .write i addr]) ++
      (invoke req.callback addr' clk).map Obs.ran := by
    rw [hlog, List.append_assoc, List.singleton_append]
  have hmerge : merge t.log = (merge s.log).takeRight := by
    rw [hlog', merge_append_ran, merge_concat]
    rfl
  have hright : (merge s.log).right = req :: rest := mg.writes.symm.trans hq
  -- a read that waits has not come before the write
  have hearly : ∀ r ∈ (merge s.log).left.head?, req.arrive.toNat ≤ r.arrive.toNat := by
    intro r hr
    cases hl : (merge s.log).left with
    | nil => simp [hl] at hr
    | cons r' rs =>
        obtain rfl : r' = r := by simpa [hl] using hr
        have hreads := mg.reads
        rw [hl] at hreads
        cases hrq : s.ctrl.rpq.queue with
        | nil => simp [hrq] at hreads
        | cons q qs =>
            rw [hrq, List.map_cons, List.map_cons] at hreads
            have harrive : (unaddressed q).arrive = (unaddressed r').arrive :=
              congrArg BaseRequest.arrive (List.cons.inj hreads).1
            change q.arrive = r'.arrive at harrive
            have hno := hfirst q (by rw [hrq]; rfl)
            rw [UInt64.lt_iff_toNat_lt, harrive] at hno
            omega
  have hwrite : isRead req = false := by
    have hmem : req ∈ (merge s.log).swap.left := by
      change req ∈ (merge s.log).right
      rw [hright]
      exact List.mem_cons_self
    simpa using (mg.holds.swap.of_mem_left hmem).2
  have harr : arrivals t.log = arrivals s.log := by
    have hnone : arrivals ((invoke req.callback addr' clk).map Obs.ran) = [] := by
      simp [arrivals, arrival]
    rw [hlog', arrivals_append, arrivals_append, hnone, List.append_nil]
    exact List.append_nil _
  refine ⟨?_, ?_, ?_, ?_, ?_, ?_⟩
  · rw [harr, hmerge]
    exact mg.holds.takeRight
  · rw [hmerge]
    exact mg.ordered.takeRight hright hearly
  · rw [hrpq, hmerge, Merge.takeRight_cons hright]
    exact mg.reads
  · rw [hwpq, hmerge, Merge.takeRight_cons hright]
  · have hout : (forwarded t.log).filter (!isRead ·) =
        (forwarded s.log).filter (!isRead ·) ++ [req] := by
      rw [forwarded, hmerge, Merge.takeRight_cons hright]
      simp [forwarded, hwrite]
    have hcalls : (ran t.log).map (·.callback) =
        (ran s.log).map (·.callback) ++ req.callback.toList := by
      rw [hlog', ran_append, ran_append]
      cases req.callback <;> simp [ran, ranInvocation, invoke]
    rw [hout, hcalls, mg.callbacks, List.filterMap_append]
    cases hcb : req.callback <;> simp [hcb]
  · rw [hlog']
    have hhanded : History.Always InTime (s.log ++ [.handed .write i addr]) := by
      refine History.always_concat.mpr ⟨mg.inTime, ?_⟩
      simp [InTime, hright]
    cases hcb : req.callback with
    | none => simpa [invoke] using hhanded
    | some c =>
        exact History.always_concat.mpr ⟨hhanded, s.log, i, addr, rfl, req,
          by rw [hright]; rfl, hcb⟩

/-- **Every move keeps the controller's queues the merge's**, where
stamps ascend and the components take what they have room for. -/
theorem move (mg : s.Merges) (hC : AcceptsUnlessFull C) (hcb : KeepsCallback C)
    (h : Move C Any s t) (hascend : StampsAscend t.log) : t.Merges := by
  cases h with
  | child | draining => exact mg.quiet rfl rfl rfl
  | @acceptRead req ht room =>
      have hread : isRead req = true := by simp [isRead, ht]
      exact mg.accept rfl hascend (by simp [hread]) (by simp [hread])
  | @acceptWrite req ht room =>
      have hread : isRead req = false := by simp [isRead, ht]
      exact mg.accept rfl hascend (by simp [hread]) (by simp [hread])
  | hands hm =>
      cases hm with
      | clock => exact mg.quiet rfl rfl rfl
      | holdRead hq hfull => exact mg.holdBack hq rfl rfl rfl
      | refuseRead hq hfull hissue hno =>
          rw [issueTo_accepts hC hfull hissue] at hno
          cases hno
      | handRead hq hfirst hissue hyes => exact mg.handRead hq hfirst rfl rfl rfl
      | refuseWrite hq hfull hissue hno =>
          rw [issueTo_accepts hC hfull hissue] at hno
          cases hno
      | @handWrite req req' rest resp next hq hfirst hissue hyes =>
          obtain ⟨st, st', -, hst, -⟩ := Component.issueTo_eq_ok.mp hissue
          have hkept : req'.callback = req.callback := hcb _ _ _ _ _ hst
          have hlog : s.log ++ Obs.handed .write (s.ctrl.mappingFunc req.addr s.next.length).2 req.addr ::
                (invoke req'.callback req'.addr s.ctrl.imcCurrClk).map Obs.ran =
              s.log ++ Obs.handed .write (s.ctrl.mappingFunc req.addr s.next.length).2 req.addr ::
                (invoke req.callback req'.addr s.ctrl.imcCurrClk).map Obs.ran := by rw [hkept]
          exact mg.handWrite hq hfirst hlog rfl rfl

theorem init {cfg : Config} {next : List σ} : (Sys.init cfg next : Sys κ σ).Merges :=
  ⟨.nil, .nil, rfl, rfl, rfl, History.always_nil⟩

/-- What a move observes comes after what was observed. -/
theorem move_log {Q : Sys κ σ → BaseRequest κ → Prop} (h : Move C Q s t) : s.log <+: t.log := by
  cases h with
  | acceptRead | acceptWrite => exact List.prefix_append ..
  | hands hm => exact hm.log_prefix
  | child | draining => exact List.prefix_refl _

/-- **In every state of a run in which stamps ascend, the controller's
queues are the merge's.** -/
theorem run {es : List (Event κ σ)} (mg : s.Merges) (hC : AcceptsUnlessFull C)
    (hcb : KeepsCallback C) (h : (machine rounds C).run s es = .ok t)
    (hascend : StampsAscend t.log) : t.Merges := by
  refine run_keeps (P := fun u => StampsAscend u.log → u.Merges) (fun u v hu hm hv => ?_)
    (fun _ => mg) h hascend
  obtain ⟨new, hnew⟩ := move_log hm
  exact (hu (by rw [← hnew] at hv; exact hv.of_append)).move hC hcb hm hv

end Sys.Merges

/-! ## What is handed on is taken -/

section Taken

variable {s t : Sys κ (σ × List (Exchange κ))}

/-- The addresses of the requests handed to one component, in order. -/
def handedTo (i : ℕ) (log : List (Obs κ)) : List Addr :=
  ((handed log).filter fun h => h.2.1 = i).map fun h => h.2.2

/-- Nobody but the controller has a component below take a request. -/
def OnlyAsked (s : Sys κ (σ × List (Exchange κ))) : Event κ (σ × List (Exchange κ)) → Prop
  | .child i c => ∀ c' ∈ s.next[i]?, Exchange.taken c.2 = Exchange.taken c'.2
  | _ => True

/-- The record of the controller and those of the components agree. -/
def Sys.Agrees (s : Sys κ (σ × List (Exchange κ))) : Prop :=
  ∀ i, handedTo i s.log = (Component.takenAt s.next i).map (·.addr)

theorem Sys.Agrees.hands (h : s.Agrees) (hm : Hands C.recorded s t) : t.Agrees := by
  intro i
  rcases hm.handed with ⟨hnext, hsame⟩ | ⟨type, j, req, resp, req', hissue, hnew⟩
  · rw [handedTo, hsame, hnext]
    exact h i
  · rw [handedTo, hnew, Component.takenAt_issueTo hissue, List.filter_append, List.map_append,
      List.map_append]
    refine congrArg₂ _ (h i) ?_
    by_cases hji : j = i <;> cases resp.issued <;> simp [hji]

/-- **What the controller records as handed on, a component took.** In
every run over components that keep a record of what they take, the
requests handed to each are those it took, in order. -/
theorem handed_taken {cfg : Config} {next : List (σ × List (Exchange κ))}
    {es : List (Event κ (σ × List (Exchange κ)))} (hnew : ∀ i, Component.takenAt next i = [])
    (hasked : (machine rounds C.recorded).Meets OnlyAsked (Sys.init cfg next) es)
    (h : (machine rounds C.recorded).run (Sys.init cfg next) es = .ok s) (i : ℕ) :
    handedTo i s.log = (Component.takenAt s.next i).map (·.addr) := by
  have hinit : (Sys.init cfg next : Sys κ (σ × List (Exchange κ))).Agrees := fun i => by
    change [] = (Component.takenAt next i).map _
    rw [hnew, List.map_nil]
  refine (machine rounds C.recorded).invariant_of_meets (P := Sys.Agrees) ?_ hinit hasked h i
  intro u ev v hu hev hstep
  cases ev with
  | issueRequest req =>
      simp only [machine, bind_eq_ok, Prod.exists, pure_eq_ok] at hstep
      obtain ⟨resp, v', hissue, rfl⟩ := hstep
      have hsame : v'.next = u.next ∧ handed v'.log = handed u.log := by
        unfold issueRequest at hissue
        split at hissue
        all_goals
          simp only [bind_eq_ok, Prod.exists, pure_eq_ok, Prod.mk.injEq] at hissue
          obtain ⟨success, q, -, -, rfl⟩ := hissue
          cases success <;> simp [handed]
      intro j
      rw [handedTo, hsame.1, hsame.2]
      exact hu j
  | tick clk => exact reflTransGen_keeps (fun _ _ hv hm => hv.hands hm) (tick_hands hstep) hu
  | child j c =>
      obtain rfl := pure_eq_ok.mp hstep
      intro i
      exact (hu i).trans (congrArg _ (Component.takenAt_set hev).symm)

end Taken

/-! ## First come, first served -/

/-- **First come, first served.** Where requests arrive in the order of
their stamps, and the components take what they have room for: the
requests of each type accepted are those handed on, and those that wait;
what was handed on is ordered by its stamps; a read is handed on only
where every write waiting has a later stamp; and the callbacks run are
those of the writes handed on, each just after its write. -/
theorem first_come_first_served {cfg : Config} {next : List σ} {es : List (Event κ σ)}
    {s : Sys κ σ} (hC : AcceptsUnlessFull C) (hcb : KeepsCallback C)
    (h : (machine rounds C).run (Sys.init cfg next) es = .ok s) (hascend : StampsAscend s.log) :
    (∃ reads, (arrivals s.log).filter isRead = (forwarded s.log).filter isRead ++ reads ∧
      s.ctrl.rpq.queue.map unaddressed = reads.map unaddressed) ∧
    (arrivals s.log).filter (!isRead ·) =
      (forwarded s.log).filter (!isRead ·) ++ s.ctrl.wpq.queue ∧
    ((forwarded s.log).map (·.arrive.toNat)).Pairwise (· ≤ ·) ∧
    (ran s.log).map (·.callback) =
      ((forwarded s.log).filter (!isRead ·)).filterMap (·.callback) ∧
    History.Always InTime s.log := by
  have mg := Sys.Merges.init.run hC hcb h hascend
  refine ⟨⟨_, mg.holds.left, mg.reads⟩, ?_, mg.ordered.out, mg.callbacks, mg.inTime⟩
  rw [mg.writes]
  exact mg.holds.right

theorem gate_acceptsUnlessFull : AcceptsUnlessFull (gate : Component κ Bool) := by
  intro req s resp req' s' hfull h
  simp only [gate, pure_eq_ok, Prod.mk.injEq] at hfull h
  rw [← h.1, hfull]
  rfl

theorem gate_keepsCallback : KeepsCallback (gate : Component κ Bool) := by
  intro req s resp req' s' h
  simp only [gate, pure_eq_ok, Prod.mk.injEq] at h
  rw [h.2.1]

/-- A write and a read of one stamp: the write goes first. -/
def tie : List (Event ℕ Bool) :=
  [.issueRequest { addr := 0, arrive := 3, type := .write, callback := some 7 },
    .issueRequest { addr := 64, arrive := 3, type := .read }, .tick 3, .tick 4]

theorem first_come_first_served_tie :
    ∃ s, (machine 2 gate).run (Sys.init interleaved [false, false]) tie = .ok s ∧
      (forwarded s.log).map isRead = [false, true] ∧ (ran s.log).map (·.callback) = [7] := by
  obtain ⟨s, hrun, hfwd, hascend⟩ : ∃ s,
      (machine 2 gate).run (Sys.init interleaved [false, false]) tie = .ok s ∧
      forwarded s.log = [{ addr := 0, arrive := 3, type := .write, callback := some 7 },
        { addr := 64, arrive := 3, type := .read }] ∧
      (arrivals s.log).map (·.arrive.toNat) = [3, 3] := ⟨_, rfl, by decide, by decide⟩
  have hall := first_come_first_served gate_acceptsUnlessFull gate_keepsCallback hrun
    (by rw [StampsAscend, hascend]; decide)
  refine ⟨s, hrun, by rw [hfwd]; rfl, ?_⟩
  rw [hall.2.2.2.1, hfwd]
  rfl

end Imc

end Vans
