import Vans.Dram.Ddr4
import Vans.Rmc.Addresses
/-!
# The request path — when nothing is pending

The driver of the tree ticks it until its root says that nothing is
pending. Each controller of an NVRAM system counts all its queues, so
that nothing is then in progress anywhere below; and the callback of
every request was run, as long as no read takes the place of another in
an entry of an RMW controller. A DRAM counts only the reads that wait
for their answers, and says that it is done while it has not begun.
-/

namespace Vans

variable {κ σ : Type}

/-! ## What is in flight -/

/-- The callback a request carries, if it does. -/
def BaseRequest.owed (req : BaseRequest κ) : Multiset κ := req.callback.elim 0 fun c => {c}

/-- The callback of a read. -/
def BaseRequest.owedRead (req : BaseRequest κ) : Multiset κ :=
  if req.type = .read then req.owed else 0

/-- The callbacks of a list of requests. -/
def owedAll (reqs : List (BaseRequest κ)) : Multiset κ := (reqs.map BaseRequest.owed).sum

/-- The callbacks that were run. -/
def calledBack (ran : List (Invocation κ)) : Multiset κ := (ran.map (·.callback) : List κ)

theorem calledBack_append {ran ran' : List (Invocation κ)} :
    calledBack (ran ++ ran') = calledBack ran + calledBack ran' := by
  rw [calledBack, List.map_append, ← Multiset.coe_add]
  rfl

theorem owedAll_cons {req : BaseRequest κ} {reqs : List (BaseRequest κ)} :
    owedAll (req :: reqs) = req.owed + owedAll reqs := List.sum_cons

theorem owedAll_append {reqs reqs' : List (BaseRequest κ)} :
    owedAll (reqs ++ reqs') = owedAll reqs + owedAll reqs' := by
  rw [owedAll, List.map_append, List.sum_append]
  rfl

theorem BaseRequest.owed_congr {req req' : BaseRequest κ} (h : req'.callback = req.callback) :
    req'.owed = req.owed := by
  rw [owed, owed, h]

/-- **A component that accounts for its callbacks.** What it takes is in
flight, and a tick runs the callbacks it takes off what is in flight.
Where it says that nothing is pending, nothing is in flight. Its ticks
may be asked to meet a condition. -/
structure Component.Accounts (C : Component κ σ) (owes : BaseRequest κ → Multiset κ)
    (may : Clk → σ → Prop) where
  fit : σ → Prop
  inFlight : σ → Multiset κ
  issue : ∀ {req s resp req' s'}, fit s → C.issueRequest req s = .ok (resp, req', s') →
    (req'.type = req.type ∧ req'.callback = req.callback) ∧ fit s' ∧
      inFlight s' = inFlight s + if resp.issued then owes req else 0
  tick : ∀ {visit clk s s' ran}, fit s → may clk s → C.tick visit clk s = .ok (s', ran) →
    fit s' ∧ inFlight s = inFlight s' + calledBack ran
  drain : ∀ {s s'}, fit s → C.drain s = .ok s' → fit s' ∧ inFlight s' = inFlight s
  idle : ∀ {s}, fit s → C.pending s = false → inFlight s = 0

namespace Component.Accounts

variable {C : Component κ σ} {owes : BaseRequest κ → Multiset κ} {may : Clk → σ → Prop}
  {next next' : List σ} {i : ℕ} {req req' : BaseRequest κ} {resp : BaseResponse}

/-- What is in flight in the children. -/
def inFlightNext (A : C.Accounts owes may) (next : List σ) : Multiset κ :=
  (next.map A.inFlight).sum

theorem issueTo (A : C.Accounts owes may) (hfit : ∀ st ∈ next, A.fit st)
    (h : C.issueTo next i req = .ok (resp, req', next')) :
    (req'.type = req.type ∧ req'.callback = req.callback) ∧ (∀ st ∈ next', A.fit st) ∧
      A.inFlightNext next' = A.inFlightNext next + if resp.issued then owes req else 0 := by
  obtain ⟨st, st', hst, hissue, rfl⟩ := Component.issueTo_eq_ok.mp h
  obtain ⟨hsame, hst', hflight⟩ := A.issue (hfit st (List.mem_of_getElem? hst)) hissue
  refine ⟨hsame, fun u hu => ?_, ?_⟩
  · rcases List.mem_or_eq_of_mem_set hu with hold | rfl
    · exact hfit u hold
    · exact hst'
  · clear h hfit
    induction next generalizing i with
    | nil => simp at hst
    | cons u next ih =>
        cases i with
        | zero =>
            obtain rfl : u = st := by simpa using hst
            simp only [inFlightNext, List.set_cons_zero, List.map_cons, List.sum_cons, hflight]
            abel
        | succ i =>
            have hrest := ih (i := i) (by simpa using hst)
            simp only [inFlightNext, List.set_cons_succ, List.map_cons, List.sum_cons] at hrest ⊢
            rw [hrest, add_assoc]

/-- The children tick one after another. -/
private theorem tickNext_forall₂ (A : C.Accounts owes may) {visit : Visit} {clk : Clk}
    {l : List (σ × ℕ)} {outs : List (σ × List (Invocation κ))}
    (h : List.Forall₂ (fun si out => C.tick (visit.child si.2) clk si.1 = .ok out) l outs)
    (hl : ∀ si ∈ l, A.fit si.1 ∧ may clk si.1) :
    (∀ st ∈ outs.map Prod.fst, A.fit st) ∧ A.inFlightNext (l.map Prod.fst) =
      A.inFlightNext (outs.map Prod.fst) + calledBack (outs.flatMap Prod.snd) := by
  induction h with
  | nil => exact ⟨fun _ h => absurd h List.not_mem_nil, rfl⟩
  | @cons si out l outs htick hall ih =>
      obtain ⟨⟨hst, hmay⟩, hl⟩ := List.forall_mem_cons.mp hl
      obtain ⟨hst', hflight⟩ := A.tick hst hmay htick
      obtain ⟨houts, hrest⟩ := ih hl
      refine ⟨List.forall_mem_cons.mpr ⟨hst', houts⟩, ?_⟩
      simp only [inFlightNext, List.map_cons, List.sum_cons, List.flatMap_cons] at hrest ⊢
      rw [hflight, hrest, calledBack_append]
      abel

theorem tickNext (A : C.Accounts owes may) {visit : Visit} {clk : Clk} {ran : List (Invocation κ)}
    (hfit : ∀ st ∈ next, A.fit st) (hmay : ∀ st ∈ next, may clk st)
    (h : C.tickNext visit clk next = .ok (next', ran)) :
    (∀ st ∈ next', A.fit st) ∧ A.inFlightNext next = A.inFlightNext next' + calledBack ran := by
  obtain ⟨outs, houts, rfl, rfl⟩ := tickNext_eq_ok h
  have hsame : next.zipIdx.map Prod.fst = next := List.zipIdx_map_fst _ _
  have hall := A.tickNext_forall₂ houts fun si hsi => by
    have hmem : si.1 ∈ next := hsame ▸ List.mem_map_of_mem hsi
    exact ⟨hfit _ hmem, hmay _ hmem⟩
  rwa [hsame] at hall

theorem drainNext (A : C.Accounts owes may) (hfit : ∀ st ∈ next, A.fit st)
    (h : next.mapM C.drain = .ok next') :
    (∀ st ∈ next', A.fit st) ∧ A.inFlightNext next' = A.inFlightNext next := by
  have hall := mapM_eq_ok.mp h
  clear h
  induction hall with
  | nil => exact ⟨fun _ h => absurd h List.not_mem_nil, rfl⟩
  | @cons st st' next next' hdrain hall ih =>
      obtain ⟨hst, hnext⟩ := List.forall_mem_cons.mp hfit
      obtain ⟨hst', hsame⟩ := A.drain hst hdrain
      obtain ⟨hnext', hrest⟩ := ih hnext
      refine ⟨List.forall_mem_cons.mpr ⟨hst', hnext'⟩, ?_⟩
      simp only [inFlightNext, List.map_cons, List.sum_cons] at hrest ⊢
      rw [hsame, hrest]

/-- Where no child is pending, nothing is in flight in any. -/
theorem idleNext (A : C.Accounts owes may) (hfit : ∀ st ∈ next, A.fit st)
    (h : next.any C.pending = false) : A.inFlightNext next = 0 := by
  refine List.sum_eq_zero fun x hx => ?_
  obtain ⟨st, hst, rfl⟩ := List.mem_map.mp hx
  exact A.idle (hfit st hst) (by simpa using List.any_eq_false.mp h st hst)

end Component.Accounts

/-! ## The RMW controller -/

namespace Rmw

variable {C : Component Callback σ} {s t : Sys κ σ}

/-- No request comes in. -/
def closed : Env κ := { accept := fun _ => False }

/-- Where no request comes in, none is recorded. -/
theorem Sys.Ok.grows (ok : s.Ok) (h : Move C closed s t) :
    ∃ new, t.log = s.log ++ new ∧ accepted new = [] := by
  cases h with
  | accept room hQ => exact absurd hQ id
  | run => exact ⟨_, rfl, accepted_map_ran⟩
  | readCold | readPatch | readFf => exact ⟨_, rfl, rfl⟩
  | writeNew | writeComb | writeJoin | writePatch => exact ⟨_, rfl, accepted_map_taken⟩
  | @transfer key e e' s' he hact hm =>
      rcases hm.log (ok key e he) with hlog | ⟨hlog, -⟩ | ⟨hlog, -⟩
      · exact ⟨[], hlog.trans (List.append_nil _).symm, rfl⟩
      · exact ⟨_, hlog, rfl⟩
      · exact ⟨_, hlog, rfl⟩
  | wake => exact ⟨_, rfl, rfl⟩
  | evict | below | draining | flush => exact ⟨[], (List.append_nil _).symm, rfl⟩

/-- At rest nothing is dirty, so `drain` has nothing to write back. -/
theorem Sys.Ok.drainCurrent_eq (ok : s.Ok) : drainCurrent s = s := by
  refine List.foldl_fixed' (fun key => ?_) _
  cases he : s.entry key with
  | none => rfl
  | some e =>
      refine if_neg ?_
      rintro ⟨hdirty, hend⟩
      simp [ok.clean_of_end he hend] at hdirty

/-- Each read weighs its callback. -/
abbrev byCallback : κ → Addr → Multiset κ := fun c _ => {c}

theorem doneWeight_byCallback {log : List (Obs κ)} :
    doneWeight byCallback log = calledBack (ran log) := by
  rw [doneWeight, calledBack]
  induction ran log with
  | nil => rfl
  | cons inv invs ih =>
      rw [List.map_cons, List.sum_cons, ih, List.map_cons, ← Multiset.cons_coe,
        Multiset.singleton_add]

/-- What a tick takes off what is in flight is called back. -/
theorem inFlight_of_grows {new : List (Obs κ)} (hs : s.Balanced byCallback)
    (ht : t.Balanced byCallback) (hlog : t.log = s.log ++ new) (hnew : accepted new = []) :
    s.inFlight byCallback = t.inFlight byCallback + calledBack (ran new) := by
  have hdue : readsWeight byCallback t.ctrl.startAddr (accepted t.log) =
      readsWeight byCallback s.ctrl.startAddr (accepted s.log) := by
    rw [hlog, accepted_append, hnew, List.append_nil]
    rfl
  refine add_right_cancel (b := doneWeight byCallback s.log) ?_
  calc s.inFlight byCallback + doneWeight byCallback s.log
      = readsWeight byCallback s.ctrl.startAddr (accepted s.log) := hs.symm
    _ = t.inFlight byCallback + doneWeight byCallback t.log := hdue.symm.trans ht
    _ = _ := by
      rw [hlog, doneWeight_append, @doneWeight_byCallback _ new]
      abel

/-- A request that enters the load/store queue is in flight, if it is a
read. -/
theorem inFlight_queued {req : BaseRequest κ} (hlsq : t.ctrl.lsq.queue = s.ctrl.lsq.queue ++ [req])
    (hbuf : t.ctrl.buffer = s.ctrl.buffer) (hroq : t.ctrl.roq = s.ctrl.roq) :
    t.inFlight byCallback = s.inFlight byCallback + req.owedRead := by
  have hone : readsWeight byCallback t.ctrl.startAddr [req] = req.owedRead := by
    cases ht : req.type <;> cases hcb : req.callback <;>
      simp [readsWeight, isReadReq, BaseRequest.owedRead, BaseRequest.owed, share, ht, hcb]
  rw [Sys.inFlight, Sys.inFlight, hlsq, hbuf, hroq, readsWeight_append, hone]
  -- the weight does not depend on where the controller starts
  change readsWeight byCallback s.ctrl.startAddr s.ctrl.lsq.queue + req.owedRead
    + Keyed.total (BufferEntry.waitingWeight byCallback s.ctrl.startAddr) s.ctrl.buffer.entryMap
    + roqWeight byCallback s.ctrl.startAddr s.ctrl.roq.queue = _
  abel

/-- No read joins an entry in which a read of its line waits. -/
abbrev LinesFree (s : Sys κ σ) : Prop := PatchOk linesFree s

/-- **The RMW controller accounts for its reads**, as long as they join
entries on free lines only. -/
def accounts (C : Component Callback σ) :
    (component C : Component κ (Sys κ σ)).Accounts BaseRequest.owedRead fun _ => LinesFree where
  fit := fun s => s.Ok ∧ s.Balanced byCallback
  inFlight := fun s => s.inFlight byCallback
  issue := by
    rintro req s resp req' s' ⟨ok, bal⟩ hissue
    simp only [component, bind_eq_ok, Prod.exists, pure_eq_ok, Prod.mk.injEq] at hissue
    obtain ⟨resp, t, hissue, rfl, rfl, rfl⟩ := hissue
    refine ⟨⟨rfl, rfl⟩, ?_⟩
    simp only [issueRequest, bind_eq_ok, Prod.exists, pure_eq_ok, Prod.mk.injEq] at hissue
    obtain ⟨success, lsq, henq, rfl, rfl⟩ := hissue
    obtain ⟨-, ⟨rfl, -, rfl⟩ | ⟨rfl, hlt, rfl⟩⟩ := RequestQueue.enqueue_eq_ok.mp henq
    · exact ⟨⟨ok, bal⟩, (add_zero _).symm⟩
    · have hmove := @Move.accept _ _ C linesFree s req hlt trivial
      exact ⟨⟨ok.move hmove, bal.move ok hmove⟩, inFlight_queued rfl rfl rfl⟩
  tick := by
    rintro visit clk s s' ran ⟨ok, bal⟩ hfree htick
    simp only [component, bind_eq_ok, pure_eq_ok, Prod.mk.injEq] at htick
    obtain ⟨t, htick, rfl, rfl⟩ := htick
    obtain ⟨ok', bal'⟩ := reflTransGen_keeps (P := fun u => u.Ok ∧ u.Balanced byCallback)
      (fun _ _ hu hm => ⟨hu.1.move hm, hu.2.move hu.1 hm⟩)
      (tickComponent_moves hfree trivial htick) ⟨ok, bal⟩
    obtain ⟨-, new, hlog, hnew⟩ := reflTransGen_keeps
      (P := fun u => u.Ok ∧ ∃ new, u.log = s.log ++ new ∧ accepted new = [])
      (fun _ _ ⟨hok, new, hlog, hnew⟩ hm => by
        obtain ⟨new', hlog', hnew'⟩ := hok.grows hm
        refine ⟨hok.move hm, new ++ new', ?_, ?_⟩
        · rw [hlog', hlog, List.append_assoc]
        · rw [accepted_append, hnew, hnew', List.append_nil])
      (tickComponent_moves (Q := closed) (by simp [PatchOk, closed]) trivial htick)
      ⟨ok, [], (List.append_nil _).symm, rfl⟩
    refine ⟨⟨ok', bal'⟩, ?_⟩
    rw [inFlight_of_grows bal bal' hlog hnew, hlog, List.drop_left]
    rfl
  drain := by
    rintro s s' ⟨ok, bal⟩ hdrain
    obtain ⟨next, -, rfl⟩ := drain_eq_ok hdrain
    have ok' : Sys.Ok { s with ctrl.isDraining := true } := ok
    rw [ok'.drainCurrent_eq]
    exact ⟨⟨ok, bal⟩, rfl⟩
  idle := by
    rintro s ⟨ok, bal⟩ hpending
    exact Sys.Balanced.inFlight_eq_zero ok (Bool.or_eq_false_iff.mp hpending).1

end Rmw

/-! ## The NVRAM system -/

/-- **The NVRAM system accounts for what its modules do.** -/
def NvramSystem.accounts {C : Component κ σ} {may : Clk → σ → Prop}
    (A : C.Accounts BaseRequest.owedRead may) :
    (NvramSystem.component C).Accounts BaseRequest.owedRead
      fun clk s => ∀ st ∈ s.next, may clk st where
  fit := fun s => ∀ st ∈ s.next, A.fit st
  inFlight := fun s => A.inFlightNext s.next
  issue := by
    intro req s resp req' s' hfit hissue
    obtain ⟨next, hnext, rfl⟩ := NvramSystem.issueRequest_eq_ok.mp hissue
    have hchild := A.issueTo hfit hnext
    exact hchild
  tick := by
    intro visit clk s s' ran hfit hmay htick
    simp only [NvramSystem.component, bind_eq_ok, Prod.exists, pure_eq_ok, Prod.mk.injEq] at htick
    obtain ⟨next, ran, htick, rfl, rfl⟩ := htick
    exact A.tickNext hfit hmay htick
  drain := by
    intro s s' hfit hdrain
    obtain ⟨next, hnext, rfl⟩ := NvramSystem.drain_eq_ok hdrain
    exact A.drainNext hfit hnext
  idle := fun hfit hpending => A.idleNext hfit hpending

/-! ## The iMC -/

namespace Imc

variable {C : Component κ σ} {may : Clk → σ → Prop} {rounds : ℕ} {s t : Sys κ σ} {clk : Clk}
  {A : C.Accounts BaseRequest.owedRead may}

/-- The children as they come to their ticks: the controller has ticked,
and handed requests on. -/
def cameToTick (rounds : ℕ) (C : Component κ σ) (clk : Clk) (s : Sys κ σ) : List σ :=
  match tick C rounds clk s with
  | .ok t => t.next
  | .error _ => []

/-- The queues hold what they are for, over children that are fit. -/
structure Sys.Sorted (A : C.Accounts BaseRequest.owedRead may) (s : Sys κ σ) : Prop where
  reads : ∀ req ∈ s.ctrl.rpq.queue, req.type = .read
  writes : ∀ req ∈ s.ctrl.wpq.queue, req.type = .write
  next : ∀ st ∈ s.next, A.fit st

/-- The callbacks in the queues, and in the children. -/
def Sys.inFlight (A : C.Accounts BaseRequest.owedRead may) (s : Sys κ σ) : Multiset κ :=
  owedAll s.ctrl.rpq.queue + owedAll s.ctrl.wpq.queue + A.inFlightNext s.next

/-- **What a tick of the controller hands on stays in flight**, if it is a
read, and is called back at once if it is a write. -/
theorem Hands.inFlight (sorted : s.Sorted A) (h : Hands C s t) : t.Sorted A ∧
    t.inFlight A + calledBack (Imc.ran t.log) = s.inFlight A + calledBack (Imc.ran s.log) := by
  obtain ⟨reads, writes, next⟩ := sorted
  have hheld : ∀ {i : ℕ} {a : Addr}, Imc.ran (s.log ++ [.heldBack]) = Imc.ran s.log ∧
      Imc.ran (s.log ++ [.handed .read i a]) = Imc.ran s.log := by
    simp [ran_concat, ranInvocation]
  cases h with
  | clock => exact ⟨⟨reads, writes, next⟩, rfl⟩
  | @holdRead req rest hq hfull =>
      rw [hq] at reads
      refine ⟨⟨List.forall_mem_cons.mpr (List.forall_mem_cons.mp reads), writes, next⟩, ?_⟩
      rw [(@hheld 0 0).1, Sys.inFlight, Sys.inFlight, hq, owedAll_cons, owedAll_cons]
      rfl
  | @refuseRead req req' rest resp next' hq hfull hissue hno =>
      rw [hq] at reads
      obtain ⟨htype, hreads⟩ := List.forall_mem_cons.mp reads
      obtain ⟨⟨htype', hcb⟩, hnext, hflight⟩ := A.issueTo next hissue
      rw [hno, if_neg Bool.false_ne_true, add_zero] at hflight
      refine ⟨⟨List.forall_mem_cons.mpr ⟨htype'.trans htype, hreads⟩, writes, hnext⟩, ?_⟩
      rw [(@hheld 0 0).1, Sys.inFlight, Sys.inFlight, hq, owedAll_cons, owedAll_cons, hflight,
        BaseRequest.owed_congr hcb]
      rfl
  | @handRead req req' rest resp next' hq hfirst hissue hyes =>
      rw [hq] at reads
      obtain ⟨htype, hreads⟩ := List.forall_mem_cons.mp reads
      obtain ⟨-, hnext, hflight⟩ := A.issueTo next hissue
      -- a read is owed wherever it is
      have howed : BaseRequest.owedRead
          { req with addr := (s.ctrl.mappingFunc req.addr s.next.length).1 } = req.owed :=
        if_pos htype
      rw [hyes, if_pos rfl, howed] at hflight
      refine ⟨⟨hreads, writes, hnext⟩, ?_⟩
      rw [hheld.2, Sys.inFlight, Sys.inFlight, hq, owedAll_cons, hflight]
      abel
  | @refuseWrite req req' rest resp next' hq hfull hissue hno =>
      rw [hq] at writes
      obtain ⟨htype, hwrites⟩ := List.forall_mem_cons.mp writes
      obtain ⟨⟨htype', hcb⟩, hnext, hflight⟩ := A.issueTo next hissue
      rw [hno, if_neg Bool.false_ne_true, add_zero] at hflight
      refine ⟨⟨reads, List.forall_mem_cons.mpr ⟨htype'.trans htype, hwrites⟩, hnext⟩, ?_⟩
      rw [Sys.inFlight, Sys.inFlight, hq, owedAll_cons, owedAll_cons, hflight,
        BaseRequest.owed_congr hcb]
  | @handWrite req req' rest resp next' hq hfirst hissue hyes =>
      rw [hq] at writes
      obtain ⟨htype, hwrites⟩ := List.forall_mem_cons.mp writes
      obtain ⟨⟨-, hcb⟩, hnext, hflight⟩ := A.issueTo next hissue
      have hzero : req.owedRead = 0 := if_neg (by rw [htype]; exact BaseRequestType.noConfusion)
      rw [hzero, ite_self, add_zero] at hflight
      refine ⟨⟨reads, hwrites, hnext⟩, ?_⟩
      -- the callback of a write is run as it is handed on
      have hran : calledBack (Imc.ran (.handed .write
          (s.ctrl.mappingFunc req.addr s.next.length).2 req.addr ::
            (invoke req'.callback req'.addr s.ctrl.imcCurrClk).map Obs.ran)) = req.owed := by
        rw [← BaseRequest.owed_congr hcb, BaseRequest.owed]
        cases req'.callback <;> rfl
      rw [Sys.inFlight, ran_append, calledBack_append, hran, hflight, Sys.inFlight, hq,
        owedAll_cons]
      abel

/-- A request that enters its queue is in flight. -/
theorem issueRequest_inFlight {req : BaseRequest κ} {resp : BaseResponse} (sorted : s.Sorted A)
    (h : issueRequest req s = .ok (resp, t)) : t.Sorted A ∧
      t.inFlight A = s.inFlight A + if resp.issued then req.owed else 0 := by
  have hone : owedAll [req] = req.owed := List.sum_singleton
  have hmem : ∀ {queue : List (BaseRequest κ)} {type : BaseRequestType}, req.type = type →
      (∀ r ∈ queue, r.type = type) → ∀ r ∈ queue ++ [req], r.type = type := by
    intro queue type ht hqueue r hr
    rcases List.mem_append.mp hr with hr | hr
    · exact hqueue r hr
    · rwa [List.mem_singleton.mp hr]
  unfold issueRequest at h
  split at h <;> rename_i ht
  all_goals
    simp only [bind_eq_ok, Prod.exists, pure_eq_ok, Prod.mk.injEq] at h
    obtain ⟨success, q, henq, rfl, rfl⟩ := h
    obtain ⟨-, ⟨rfl, -, rfl⟩ | ⟨rfl, hlt, rfl⟩⟩ := RequestQueue.enqueue_eq_ok.mp henq
  · exact ⟨sorted, (add_zero _).symm⟩
  · refine ⟨⟨hmem ht sorted.reads, sorted.writes, sorted.next⟩, ?_⟩
    change owedAll (s.ctrl.rpq.queue ++ [req]) + owedAll s.ctrl.wpq.queue + A.inFlightNext s.next =
      _ + req.owed
    rw [owedAll_append, hone, Sys.inFlight]
    abel
  · exact ⟨sorted, (add_zero _).symm⟩
  · refine ⟨⟨sorted.reads, hmem ht sorted.writes, sorted.next⟩, ?_⟩
    change owedAll s.ctrl.rpq.queue + owedAll (s.ctrl.wpq.queue ++ [req]) + A.inFlightNext s.next =
      _ + req.owed
    rw [owedAll_append, hone, Sys.inFlight]
    abel

/-- **The iMC accounts for what it takes**, if its children do. -/
def accounts (rounds : ℕ) (A : C.Accounts BaseRequest.owedRead may) :
    (component rounds C).Accounts BaseRequest.owed
      fun clk s => ∀ st ∈ cameToTick rounds C clk s, may clk st where
  fit := fun s => s.Sorted A
  inFlight := fun s => s.inFlight A
  issue := by
    intro req s resp req' s' sorted hissue
    simp only [component, bind_eq_ok, Prod.exists, pure_eq_ok, Prod.mk.injEq] at hissue
    obtain ⟨resp, t, hissue, rfl, rfl, rfl⟩ := hissue
    exact ⟨⟨rfl, rfl⟩, issueRequest_inFlight sorted hissue⟩
  tick := by
    intro visit clk s s' ran sorted hmay htick
    simp only [component, bind_eq_ok, Prod.exists, pure_eq_ok, Prod.mk.injEq] at htick
    obtain ⟨t, htick, next, ran', hnext, rfl, rfl⟩ := htick
    obtain ⟨sorted', ⟨new, hlog⟩, hbalance⟩ := reflTransGen_keeps
      (P := fun u : Sys κ σ => u.Sorted A ∧ s.log <+: u.log ∧
        u.inFlight A + calledBack (Imc.ran u.log) = s.inFlight A + calledBack (Imc.ran s.log))
      (fun u v ⟨hu, hlog, hbal⟩ hm => by
        obtain ⟨hv, hsame⟩ := hm.inFlight hu
        exact ⟨hv, hlog.trans hm.log_prefix, hsame.trans hbal⟩)
      (tick_hands htick) ⟨sorted, List.prefix_refl _, rfl⟩
    have hcame : cameToTick rounds C clk s = t.next := by rw [cameToTick, htick]
    obtain ⟨hfit, hflight⟩ := A.tickNext sorted'.next (hcame ▸ hmay) hnext
    refine ⟨⟨sorted'.reads, sorted'.writes, hfit⟩, ?_⟩
    rw [← hlog, ran_append, calledBack_append] at hbalance
    have howed : t.inFlight A + calledBack (Imc.ran new) = s.inFlight A := by
      refine add_right_cancel (b := calledBack (Imc.ran s.log)) ?_
      rw [← hbalance]
      abel
    rw [← hlog, List.drop_left, calledBack_append, ← howed, Sys.inFlight, hflight]
    change _ = owedAll t.ctrl.rpq.queue + owedAll t.ctrl.wpq.queue + A.inFlightNext next
      + (calledBack (Imc.ran new) + calledBack ran')
    abel
  drain := by
    intro s s' sorted hdrain
    obtain ⟨next, hnext, rfl⟩ := drain_eq_ok hdrain
    obtain ⟨hfit, hsame⟩ := A.drainNext sorted.next hnext
    exact ⟨⟨sorted.reads, sorted.writes, hfit⟩, congrArg (_ + ·) hsame⟩
  idle := by
    intro s sorted hpending
    obtain ⟨hqueues, hnext⟩ := Bool.or_eq_false_iff.mp hpending
    obtain ⟨hwpq, hrpq⟩ := Bool.or_eq_false_iff.mp hqueues
    rw [RequestQueue.pending_eq_false] at hwpq hrpq
    rw [Sys.inFlight, hwpq, hrpq, A.idleNext sorted.next hnext]
    rfl

end Imc

/-! ## The whole tree -/

section Tree

variable {C : Component Rmw.Callback σ} {rounds : ℕ}

/-- **The tree accounts for what it takes**, below its root. -/
abbrev belowRoot (rounds : ℕ) (C : Component Rmw.Callback σ) :=
  Imc.accounts rounds (NvramSystem.accounts (κ := κ) (Rmw.accounts C))

/-- A call under which no read joins an entry in which a read of its line
waits: the controllers tick after the iMC has handed requests on. -/
def ReadsApart (rounds : ℕ) (C : Component Rmw.Callback σ)
    (d : Driven κ (Rmc.Sys (Imc.Sys κ (NvramSystem.Sys (Rmw.Sys κ σ))))) : Call κ → Prop
  | .tick _ clk => ∀ imc ∈ d.state.next,
      ∀ sys ∈ Imc.cameToTick rounds (NvramSystem.component (Rmw.component C)) clk imc,
        ∀ rmw ∈ sys.next, Rmw.LinesFree rmw
  | .issueRequest _ | .drain => True

instance : ∀ (d : Driven κ (Rmc.Sys (Imc.Sys κ (NvramSystem.Sys (Rmw.Sys κ σ))))) (call : Call κ),
    Decidable (ReadsApart rounds C d call)
  | d, .tick _ clk => inferInstanceAs (Decidable (∀ imc ∈ d.state.next,
      ∀ sys ∈ Imc.cameToTick rounds (NvramSystem.component (Rmw.component C)) clk imc,
        ∀ rmw ∈ sys.next, Rmw.LinesFree rmw))
  | _, .issueRequest _ | _, .drain => isTrue trivial

/-- What was accepted is in flight, or was called back. -/
structure Accounted (rounds : ℕ) (C : Component Rmw.Callback σ)
    (d : Driven κ (Rmc.Sys (Imc.Sys κ (NvramSystem.Sys (Rmw.Sys κ σ))))) : Prop where
  fit : ∀ imc ∈ d.state.next, (belowRoot rounds C).fit imc
  balance : owedAll d.accepted =
    (belowRoot rounds C).inFlightNext d.state.next + calledBack d.ran

/-- **A call keeps the account**, under which reads stay apart. -/
theorem Accounted.step {d e : Driven κ (Rmc.Sys (Imc.Sys κ (NvramSystem.Sys (Rmw.Sys κ σ))))}
    {call : Call κ} (h : Accounted rounds C d) (hapart : ReadsApart rounds C d call)
    (hs : (nvramPath rounds C).machine.step d call = .ok e) : Accounted rounds C e := by
  obtain ⟨hfit, hbalance⟩ := h
  cases call with
  | issueRequest req =>
      simp only [Component.machine, bind_eq_ok, Prod.exists, pure_eq_ok] at hs
      obtain ⟨resp, req', state, hissue, rfl⟩ := hs
      obtain ⟨-, next, hchild, rfl⟩ := Rmc.issueRequest_eq_ok hissue
      obtain ⟨-, hfit', hflight⟩ := (belowRoot rounds C).issueTo hfit hchild
      refine ⟨hfit', ?_⟩
      cases hyes : resp.issued with
      | false =>
          rw [hyes, if_neg Bool.false_ne_true, add_zero] at hflight
          exact hbalance.trans (by rw [← hflight])
      | true =>
          rw [hyes, if_pos rfl] at hflight
          have hone : owedAll [req] = req.owed := List.sum_singleton
          change owedAll (d.accepted ++ [req]) = _ + calledBack d.ran
          rw [owedAll_append, hone, hbalance, hflight]
          change _ = _ + req.owed + _
          abel
  | tick visit clk =>
      simp only [Component.machine, Rmc.component, bind_eq_ok, Prod.exists, pure_eq_ok,
        Prod.mk.injEq] at hs
      obtain ⟨_, _, ⟨next, ran, hnext, rfl, rfl⟩, rfl⟩ := hs
      obtain ⟨hfit', hflight⟩ := (belowRoot rounds C).tickNext hfit hapart hnext
      refine ⟨hfit', ?_⟩
      rw [hbalance, hflight, calledBack_append]
      abel
  | drain =>
      simp only [Component.machine, bind_eq_ok, pure_eq_ok] at hs
      obtain ⟨state, hdrain, rfl⟩ := hs
      obtain ⟨next, hnext, rfl⟩ := Rmc.drain_eq_ok hdrain
      obtain ⟨hfit', hflight⟩ := (belowRoot rounds C).drainNext hfit hnext
      exact ⟨hfit', hbalance.trans (by rw [← hflight])⟩

theorem Accounted.init {rmc : Rmc.Config} {imc : Imc.Config}
    {systems : List (NvramSystem.Sys (Rmw.Sys κ σ))} (hnew : ∀ s ∈ systems, NvramSystem.New s) :
    Accounted rounds C { state := Rmc.Sys.init rmc [Imc.Sys.init imc systems] } := by
  have hrmw : ∀ s ∈ systems, ∀ rmw ∈ s.next, (rmw.Ok ∧ rmw.Balanced Rmw.byCallback) ∧
      rmw.inFlight Rmw.byCallback = 0 := by
    intro s hs rmw hmem
    obtain ⟨name, f, cfg, next, -, rfl⟩ := hnew s hs
    obtain rfl := List.mem_singleton.mp hmem
    exact ⟨⟨.init, .init⟩, Rmw.Sys.Balanced.inFlight_eq_zero .init rfl⟩
  refine ⟨fun st hst => ?_, ?_⟩
  · obtain rfl := List.mem_singleton.mp hst
    exact ⟨fun _ h => absurd h List.not_mem_nil, fun _ h => absurd h List.not_mem_nil,
      fun s hs rmw hmem => (hrmw s hs rmw hmem).1⟩
  · have hzero : (systems.map fun s => (s.next.map fun rmw =>
        rmw.inFlight Rmw.byCallback).sum).sum = 0 := by
      refine List.sum_eq_zero fun x hx => ?_
      obtain ⟨s, hs, rfl⟩ := List.mem_map.mp hx
      refine List.sum_eq_zero fun y hy => ?_
      obtain ⟨rmw, hmem, rfl⟩ := List.mem_map.mp hy
      exact (hrmw s hs rmw hmem).2
    change 0 = (0 + 0 + (systems.map fun s => (s.next.map fun rmw =>
        rmw.inFlight Rmw.byCallback).sum).sum + 0) + 0
    rw [hzero]
    rfl

variable {τ μ : Type} {L : Component Ait.SubreqCallback τ} {M : Component Ait.Callback μ}

/-- **Nothing is in progress** in any of the controllers of the tree. -/
structure Quiet (s : Rmc.Sys (Imc.Sys κ (NvramSystem.Sys
    (Rmw.Sys κ (Ait.Sys Rmw.Callback τ μ))))) : Prop where
  imc : ∀ imc ∈ s.next, imc.ctrl.rpq.queue = [] ∧ imc.ctrl.wpq.queue = []
  rmw : ∀ imc ∈ s.next, ∀ sys ∈ imc.next, ∀ rmw ∈ sys.next,
    rmw.ctrl.lsq.queue = [] ∧ rmw.ctrl.roq.queue = [] ∧
      ∀ key e, rmw.entry key = some e → e.pending = false
  ait : ∀ imc ∈ s.next, ∀ sys ∈ imc.next, ∀ rmw ∈ sys.next, ∀ ait ∈ rmw.next,
    ait.ctrl.lsq.queue = [] ∧ ait.ctrl.lmemq.queue = [] ∧
      ∀ key e, ait.entry key = some e → e.pending = false

/-- A child of a component that is not pending is not pending. -/
theorem child_not_pending {D : Component κ σ} {next : List σ} (h : next.any D.pending = false)
    {st : σ} (hst : st ∈ next) : D.pending st = false := by
  simpa using List.any_eq_false.mp h st hst

/-- **Every controller of the tree counts what it has in progress.** -/
theorem quiet_of_not_pending
    {s : Rmc.Sys (Imc.Sys κ (NvramSystem.Sys (Rmw.Sys κ (Ait.Sys Rmw.Callback τ μ))))}
    (h : (nvramPath rounds (Ait.component L M)).pending s = false) : Quiet s := by
  have himc : ∀ imc ∈ s.next, Imc.pendingCurrent imc = false ∧ imc.next.any
      (NvramSystem.component (Rmw.component (Ait.component L M))).pending = false :=
    fun imc himc => Bool.or_eq_false_iff.mp (child_not_pending h himc)
  have hrmw : ∀ imc ∈ s.next, ∀ sys ∈ imc.next, ∀ rmw ∈ sys.next,
      Rmw.pendingCurrent rmw = false ∧ rmw.next.any (Ait.component L M).pending = false :=
    fun imc hmem sys hsys rmw hrmw => Bool.or_eq_false_iff.mp
      (child_not_pending (child_not_pending (himc imc hmem).2 hsys) hrmw)
  refine ⟨fun imc hmem => ?_, fun imc hmem sys hsys rmw hmem' => ?_,
    fun imc hmem sys hsys rmw hmem' ait hait => ?_⟩
  · have hidle := (himc imc hmem).1
    simp only [Imc.pendingCurrent, Bool.or_eq_false_iff, RequestQueue.pending_eq_false] at hidle
    exact hidle.symm
  · have hidle := (hrmw imc hmem sys hsys rmw hmem').1
    simp only [Rmw.pendingCurrent, Bool.or_eq_false_iff, RequestQueue.pending_eq_false,
      InternalBuffer.any_eq_false] at hidle
    exact ⟨hidle.1.1, hidle.1.2, hidle.2⟩
  · have hidle := (Bool.or_eq_false_iff.mp
      (child_not_pending (hrmw imc hmem sys hsys rmw hmem').2 hait)).1
    simp only [Ait.pendingCurrent, Bool.or_eq_false_iff, RequestQueue.pending_eq_false,
      InternalBuffer.any_eq_false] at hidle
    exact ⟨hidle.1.1, hidle.2, hidle.1.2⟩

/-- **Where nothing is pending, nothing is in progress, and each request
was completed.** The tree is over NVRAM systems. Where its root says that
nothing is pending, nothing is in progress in any of its controllers; and
the callbacks that were run are those of the requests accepted, each as
often, if in the run no read took the place of another. -/
theorem pending_complete {rmc : Rmc.Config} {imc : Imc.Config}
    {systems : List (NvramSystem.Sys (Rmw.Sys κ (Ait.Sys Rmw.Callback τ μ)))}
    {calls : List (Call κ)}
    {d : Driven κ (Rmc.Sys (Imc.Sys κ (NvramSystem.Sys (Rmw.Sys κ (Ait.Sys Rmw.Callback τ μ)))))}
    (hnew : ∀ s ∈ systems, NvramSystem.New s)
    (h : (nvramPath rounds (Ait.component L M)).machine.run
      { state := Rmc.Sys.init rmc [Imc.Sys.init imc systems] } calls = .ok d)
    (hidle : (nvramPath rounds (Ait.component L M)).pending d.state = false) :
    Quiet d.state ∧
    ((nvramPath rounds (Ait.component L M)).machine.Meets (ReadsApart rounds (Ait.component L M))
        { state := Rmc.Sys.init rmc [Imc.Sys.init imc systems] } calls →
      calledBack d.ran = owedAll d.accepted) := by
  refine ⟨quiet_of_not_pending hidle, fun hapart => ?_⟩
  obtain ⟨hfit, hbalance⟩ :=
    (nvramPath rounds (Ait.component L M)).machine.invariant_of_meets
      (P := Accounted rounds (Ait.component L M)) (fun _ _ _ hd hcall hstep => hd.step hcall hstep)
      (Accounted.init hnew) hapart h
  rw [hbalance, (belowRoot rounds (Ait.component L M)).idleNext hfit hidle, zero_add]

theorem pending_complete_interleavedRead :
    ∃ d, interleavedRead 64 = .ok d ∧ Quiet d.state ∧ owedAll d.accepted = {0} ∧
      calledBack d.ran = {0} := by
  obtain ⟨d, hrun, hidle, howed⟩ : ∃ d, interleavedRead 64 = .ok d ∧
      (nvramPath 2 (Ait.component Nvram.promptMemory StaticMemory.component)).pending d.state =
        false ∧ owedAll d.accepted = {0} := ⟨_, rfl, by decide, rfl⟩
  have hnew : ∀ s ∈ [oneModule, oneModule], NvramSystem.New s := by
    intro s hs
    obtain rfl : s = oneModule := by simpa using hs
    exact ⟨"none_mapping", _, _, _, rfl, rfl⟩
  obtain ⟨hquiet, hdone⟩ := pending_complete hnew hrun hidle
  exact ⟨d, hrun, hquiet, howed, (hdone (by decide)).trans howed⟩

/-! ### A tree over a DDR4 system -/

section Ddr4

open Dram.Ddr4 (Memory spec vansOrganization vansTiming vansConfig)

/-- The layers over a DDR4 system. -/
abbrev ddr4Path : Component ℕ (Rmc.Sys (Imc.Sys ℕ
    (Ddr4System.Sys ℕ Dram.Ddr4.Command Dram.Ddr4.State 2))) :=
  Rmc.component (Imc.component 2 (Ddr4System.component (spec (vansOrganization 1) vansTiming) 2))

/-- One read, and one tick, of a tree over a DDR4 system. -/
def ddr4Read : Result (Driven ℕ (Rmc.Sys (Imc.Sys ℕ
    (Ddr4System.Sys ℕ Dram.Ddr4.Command Dram.Ddr4.State 2)))) := do
  let memory ← Dram.Sys.new (spec (vansOrganization 1) vansTiming) 2 vansConfig
  ddr4Path.machine.run
    { state := Rmc.Sys.init { mappingFunc := noneMapping, startAddr := 0 }
        [Imc.Sys.init Imc.interleaved [{ localMemoryModel := memory }]] }
    [.issueRequest { addr := 64, arrive := 0, type := .read, callback := some 0 },
      .tick (fun _ => .asHeld) 0]

/-- The requests a DRAM has yet to serve. -/
def Ddr4System.Sys.unserved {γ ς : Type} {k : ℕ} (s : Ddr4System.Sys κ γ ς k) :
    List (Dram.Request κ) :=
  s.localMemoryModel.reqs .read ++ s.localMemoryModel.reqs .write
    ++ s.localMemoryModel.reqs .act

/-- **A DRAM with a read to serve says that nothing is pending**: the
driver stops, and the read is not completed. -/
theorem ddr4Read_not_pending :
    ∃ d, ddr4Read = .ok d ∧ ddr4Path.pending d.state = false ∧ d.accepted.length = 1 ∧
      d.ran = [] ∧ d.state.next.map (fun imc => imc.next.map (·.unserved.length)) = [[1]] :=
  ⟨_, rfl, by decide +kernel, by decide +kernel, by decide +kernel, by decide +kernel⟩

end Ddr4

end Tree

end Vans
