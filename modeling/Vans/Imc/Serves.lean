import Vans.Imc.Flush
import Vans.Imc.Order
import Vans.Model.Serves
import Mathlib.Tactic.Abel
/-!
# The iMC — it serves what it takes

Over one component that serves its reads, and takes what it says it has
room for, the iMC serves what it takes: what is in flight is what is in
its queues and what is in flight below, reads are called back below, and
writes as they are handed on. No flush runs out of rounds, and no call
fails.
-/

namespace Vans

namespace Imc

variable {κ σ : Type} {C : Component κ σ} {limit n rounds : ℕ}
  {S : C.Serves BaseRequest.dueRead limit} {s t : Sys κ σ}

/-- **The controller over a component that serves**: the queues hold what
they are for, within their bounds, and a flush has rounds enough. -/
structure Sys.Passes (S : C.Serves BaseRequest.dueRead limit) (rounds n : ℕ) (s : Sys κ σ) :
    Prop where
  single : ∃ st, s.next = [st] ∧ S.fit n st
  mapping : s.ctrl.mappingFunc = noneMapping ∨ s.ctrl.mappingFunc = strideMapping4096
  reads : ∀ req ∈ s.ctrl.rpq.queue, req.type = .read
  writes : ∀ req ∈ s.ctrl.wpq.queue, req.type = .write
  rpq : s.ctrl.rpq.queue.length ≤ s.ctrl.rpq.maxEntries
  wpq : s.ctrl.wpq.queue.length ≤ s.ctrl.wpq.maxEntries
  rounds : s.ctrl.wpq.maxEntries < rounds

/-- What is in the queues, and below. -/
def Sys.dueInFlight (S : C.Serves BaseRequest.dueRead limit) (s : Sys κ σ) :
    Multiset (κ × Addr) :=
  dueAll s.ctrl.rpq.queue + dueAll s.ctrl.wpq.queue + (s.next.map S.inFlight).sum

namespace Sys.Passes

theorem pick (h : s.Passes S rounds n) (a : Addr) :
    s.ctrl.mappingFunc a s.next.length = (a, 0) := by
  obtain ⟨st, hone, -⟩ := h.single
  rw [hone]
  exact mapping_one h.mapping a

theorem fits (h : s.Passes S rounds n) : Fit (S.fit n) s := by
  obtain ⟨st, hone, hfit⟩ := h.single
  refine ⟨fun a => ?_, fun st' hst' => ?_⟩
  · rw [h.pick, hone]
    exact Nat.zero_lt_one
  · rw [hone, List.mem_singleton] at hst'
    exact hst' ▸ hfit

/-- **The component below takes a request, or refuses it.** -/
theorem issueTo (h : s.Passes S rounds n) (req : BaseRequest κ) : Yields (C.issueTo s.next 0 req)
    fun out => out.2.1 = req ∧ (∃ st, out.2.2 = [st] ∧ S.fit n st) ∧
      (out.2.2.map S.inFlight).sum =
        (s.next.map S.inFlight).sum + if out.1.issued then req.dueRead else 0 := by
  obtain ⟨st, hone, hfit⟩ := h.single
  rw [hone]
  refine (S.issueTo req hfit).mono fun out _ ⟨hreq, st', hnext, hfit', hflight⟩ => ?_
  refine ⟨hreq, ⟨st', hnext, hfit'⟩, ?_⟩
  rw [hnext, List.map_singleton, List.map_singleton, List.sum_singleton, List.sum_singleton,
    hflight]

end Sys.Passes

/-- **What a tick of the controller hands on stays in flight**, if it is a
read, and is called back at once if it is a write. -/
theorem Hands.passes (h : s.Passes S rounds n) (hm : Hands C s t) :
    t.Passes S rounds n ∧ t.dueInFlight S + calledWith (Imc.ran t.log) =
      s.dueInFlight S + calledWith (Imc.ran s.log) := by
  have hheld : ∀ {i : ℕ} {a : Addr}, Imc.ran (s.log ++ [.heldBack]) = Imc.ran s.log ∧
      Imc.ran (s.log ++ [.handed .read i a]) = Imc.ran s.log := by
    simp [ran_concat, ranInvocation]
  have hread := h.reads
  have hwrite := h.writes
  have hrpq := h.rpq
  have hwpq := h.wpq
  cases hm with
  | clock => exact ⟨⟨h.single, h.mapping, h.reads, h.writes, h.rpq, h.wpq, h.rounds⟩, rfl⟩
  | @holdRead req rest hq hfull =>
      rw [hq] at hread hrpq
      rw [h.pick]
      refine ⟨⟨h.single, h.mapping, hread, h.writes, hrpq, h.wpq, h.rounds⟩, ?_⟩
      rw [(@hheld 0 0).1, Sys.dueInFlight, Sys.dueInFlight, hq]
  | @refuseRead req req' rest resp next' hq hfull hissue hno =>
      rw [hq] at hread hrpq
      rw [h.pick] at hissue
      obtain ⟨out, hout, hreq, hsingle, hflight⟩ := h.issueTo req
      obtain rfl := Except.ok.inj (hissue.symm.trans hout)
      obtain rfl : req' = req := hreq
      rw [hno, if_neg Bool.false_ne_true, add_zero] at hflight
      refine ⟨⟨hsingle, h.mapping, hread, h.writes, hrpq, h.wpq, h.rounds⟩, ?_⟩
      rw [(@hheld 0 0).1, Sys.dueInFlight, Sys.dueInFlight, hq, hflight]
  | @handRead req req' rest resp next' hq hfirst hissue hyes =>
      rw [hq] at hread hrpq
      rw [h.pick] at hissue ⊢
      obtain ⟨htype, hreads⟩ := List.forall_mem_cons.mp hread
      obtain ⟨out, hout, -, hsingle, hflight⟩ := h.issueTo req
      obtain rfl := Except.ok.inj (hissue.symm.trans hout)
      -- a read is owed wherever it is
      have howed : req.dueRead = req.due := if_pos htype
      rw [hyes, if_pos rfl, howed] at hflight
      refine ⟨⟨hsingle, h.mapping, hreads, h.writes, (Nat.le_succ _).trans hrpq, h.wpq,
        h.rounds⟩, ?_⟩
      rw [hheld.2, Sys.dueInFlight, Sys.dueInFlight, hq, dueAll_cons, hflight]
      abel
  | @refuseWrite req req' rest resp next' hq hfull hissue hno =>
      rw [hq] at hwrite hwpq
      rw [h.pick] at hissue
      obtain ⟨out, hout, hreq, hsingle, hflight⟩ := h.issueTo req
      obtain rfl := Except.ok.inj (hissue.symm.trans hout)
      obtain rfl : req' = req := hreq
      rw [hno, if_neg Bool.false_ne_true, add_zero] at hflight
      refine ⟨⟨hsingle, h.mapping, h.reads, hwrite, h.rpq, hwpq, h.rounds⟩, ?_⟩
      rw [Sys.dueInFlight, Sys.dueInFlight, hq, hflight]
  | @handWrite req req' rest resp next' hq hfirst hissue hyes =>
      rw [hq] at hwrite hwpq
      rw [h.pick] at hissue ⊢
      obtain ⟨htype, hwrites⟩ := List.forall_mem_cons.mp hwrite
      obtain ⟨out, hout, hreq, hsingle, hflight⟩ := h.issueTo req
      obtain rfl := Except.ok.inj (hissue.symm.trans hout)
      obtain rfl : req' = req := hreq
      have hzero : req'.dueRead = 0 := if_neg (by rw [htype]; exact BaseRequestType.noConfusion)
      rw [hzero, ite_self, add_zero] at hflight
      refine ⟨⟨hsingle, h.mapping, h.reads, hwrites, h.rpq, (Nat.le_succ _).trans hwpq,
        h.rounds⟩, ?_⟩
      -- the callback of a write is run as it is handed on
      have hran : calledWith (Imc.ran (.handed .write 0 req'.addr ::
          (invoke req'.callback req'.addr s.ctrl.imcCurrClk).map Obs.ran)) = req'.due := by
        rw [BaseRequest.due]
        cases req'.callback <;> rfl
      rw [Sys.dueInFlight, ran_append, calledWith_append, hran, hflight, Sys.dueInFlight, hq,
        dueAll_cons]
      abel

namespace Sys.Passes

/-- **A flush has rounds enough.** -/
theorem flush (hC : Flushable C) (hA : Answers C (S.fit n)) (h : s.Passes S rounds n) :
    ∃ t, flushWpq C rounds s = .ok t :=
  (flushWpq_enough hC hA rfl rounds (h.wpq.trans_lt h.rounds)).2.2 h.fits

theorem hands (h : s.Passes S rounds n) (hm : Relation.ReflTransGen (Hands C) s t) :
    t.Passes S rounds n ∧ s.log <+: t.log ∧
      t.dueInFlight S + calledWith (Imc.ran t.log) = s.dueInFlight S + calledWith (Imc.ran s.log) :=
  reflTransGen_keeps (P := fun u : Sys κ σ => u.Passes S rounds n ∧ s.log <+: u.log ∧
      u.dueInFlight S + calledWith (Imc.ran u.log) = s.dueInFlight S + calledWith (Imc.ran s.log))
    (fun u v ⟨hu, hlog, hbal⟩ hm => by
      obtain ⟨hv, hsame⟩ := hm.passes hu
      exact ⟨hv, hlog.trans hm.log_prefix, hsame.trans hbal⟩)
    hm ⟨h, List.prefix_refl _, rfl⟩

/-- The read at the front is tried. -/
theorem tickRead (hA : Answers C (S.fit n)) (h : s.Passes S rounds n)
    (hread : queueToTick s = some .read) : ∃ t, Imc.tickRead C s = .ok t := by
  unfold Imc.tickRead
  split
  · rename_i hq
    unfold queueToTick at hread
    rw [hq] at hread
    cases hwpq : s.ctrl.wpq.queue <;> simp [hwpq] at hread
  · rename_i req rest hq
    have hlt : 0 < s.next.length := by
      have hpick := h.fits.1 req.addr
      rwa [h.pick] at hpick
    obtain ⟨full, hfull⟩ := hA.fullAt hlt h.fits.2
    simp only [h.pick, hfull, ok_bind]
    cases full with
    | true => exact ⟨_, rfl⟩
    | false =>
        obtain ⟨⟨resp, req', next⟩, hissue, -⟩ := h.issueTo req
        simp only [Bool.false_eq_true, if_false, hissue, ok_bind]
        split <;> exact ⟨_, rfl⟩

/-- **A tick of the controller succeeds.** -/
theorem tick (hC : Flushable C) (hA : Answers C (S.fit n)) (h : s.Passes S rounds n) (clk : Clk) :
    ∃ t, Imc.tick C rounds clk s = .ok t := by
  obtain ⟨u, hu⟩ : ∃ u : Sys κ σ, u = { s with ctrl.imcCurrClk := clk } := ⟨_, rfl⟩
  have hpasses : u.Passes S rounds n :=
    hu ▸ ⟨h.single, h.mapping, h.reads, h.writes, h.rpq, h.wpq, h.rounds⟩
  obtain ⟨v, hv⟩ : ∃ v, tickQueue C rounds u = .ok v := by
    unfold tickQueue
    split
    · rename_i hread
      exact hpasses.tickRead hA hread
    · rw [RequestQueue.full_of_le hpasses.wpq, ok_bind]
      split
      · exact hpasses.flush hC hA
      · exact ⟨_, rfl⟩
    · exact ⟨_, rfl⟩
  obtain ⟨hv', -⟩ := hpasses.hands (tickQueue_hands hv)
  rw [Imc.tick, ← hu, hv, ok_bind]
  split
  · unfold adr
    split
    · split
      · exact hv'.flush hC hA
      · exact ⟨_, rfl⟩
    · exact ⟨_, rfl⟩
  · exact ⟨_, rfl⟩

/-- **A request enters its queue, or is refused.** -/
theorem issue (h : s.Passes S rounds n) (req : BaseRequest κ) :
    Yields (Imc.issueRequest req s) fun out => out.2.Passes S rounds n ∧
      out.2.dueInFlight S = s.dueInFlight S + if out.1.issued then req.due else 0 := by
  have hone : dueAll [req] = req.due := List.sum_singleton
  have hmem : ∀ {queue : List (BaseRequest κ)} {type : BaseRequestType}, req.type = type →
      (∀ r ∈ queue, r.type = type) → ∀ r ∈ queue ++ [req], r.type = type := by
    intro queue type ht hqueue r hr
    rcases List.mem_append.mp hr with hr | hr
    · exact hqueue r hr
    · rwa [List.mem_singleton.mp hr]
  unfold Imc.issueRequest
  split <;> rename_i ht
  · obtain ⟨⟨success, rpq⟩, henq⟩ := RequestQueue.enqueue_of_le (r := req) h.rpq
    rw [henq, ok_bind]
    refine .pure ?_
    obtain ⟨-, ⟨rfl, -, rfl⟩ | ⟨rfl, hlt, rfl⟩⟩ := RequestQueue.enqueue_eq_ok.mp henq
    · exact ⟨h, (add_zero _).symm⟩
    · refine ⟨⟨h.single, h.mapping, hmem ht h.reads, h.writes, ?_, h.wpq, h.rounds⟩, ?_⟩
      · rw [if_pos rfl, List.length_append, List.length_singleton]
        exact hlt
      · change dueAll (s.ctrl.rpq.queue ++ [req]) + dueAll s.ctrl.wpq.queue +
          (s.next.map S.inFlight).sum = _ + req.due
        rw [dueAll_append, hone, Sys.dueInFlight]
        abel
  · obtain ⟨⟨success, wpq⟩, henq⟩ := RequestQueue.enqueue_of_le (r := req) h.wpq
    rw [henq, ok_bind]
    refine .pure ?_
    obtain ⟨-, ⟨rfl, -, rfl⟩ | ⟨rfl, hlt, rfl⟩⟩ := RequestQueue.enqueue_eq_ok.mp henq
    · exact ⟨h, (add_zero _).symm⟩
    · refine ⟨⟨h.single, h.mapping, h.reads, hmem ht h.writes, h.rpq, ?_, h.rounds⟩, ?_⟩
      · rw [if_pos rfl, List.length_append, List.length_singleton]
        exact hlt
      · change dueAll s.ctrl.rpq.queue + dueAll (s.ctrl.wpq.queue ++ [req]) +
          (s.next.map S.inFlight).sum = _ + req.due
        rw [dueAll_append, hone, Sys.dueInFlight]
        abel

end Sys.Passes

/-- **The iMC serves what it takes**, reads and writes, over a component
that serves its reads. -/
def serves (hC : Flushable C) (S : C.Serves BaseRequest.dueRead limit)
    (hA : ∀ n, Answers C (S.fit n)) (rounds : ℕ) :
    (component rounds C).Serves BaseRequest.due limit where
  limit_lt := S.limit_lt
  fit := fun n s => s.Passes S rounds n
  inFlight := fun s => s.dueInFlight S
  issue := by
    intro n s req h
    obtain ⟨⟨resp, t⟩, hissue, h', hflight⟩ := h.issue req
    refine ⟨(resp, req, t), ?_, rfl, h', hflight⟩
    simp only [component, hissue, ok_bind]
    rfl
  tick := by
    intro clk s visit h hclk
    obtain ⟨t, htick⟩ := h.tick hC (hA _) clk
    obtain ⟨h', ⟨new, hlog⟩, hbalance⟩ := h.hands (tick_hands htick)
    obtain ⟨st, hone, hfit⟩ := h'.single
    obtain ⟨⟨next, ran⟩, hnext, st', rfl, hfit', hflight⟩ := S.tickNext visit hfit hclk
    refine ⟨({ t with next := [st'] }, Imc.ran new ++ ran), ?_,
      ⟨⟨st', rfl, hfit'⟩, h'.mapping, h'.reads, h'.writes, h'.rpq, h'.wpq, h'.rounds⟩, ?_⟩
    · simp only [component, htick, hone, hnext, ok_bind, ← hlog, List.drop_left]
      rfl
    · rw [← hlog, ran_append, calledWith_append] at hbalance
      have howed : t.dueInFlight S + calledWith (Imc.ran new) = s.dueInFlight S := by
        refine add_right_cancel (b := calledWith (Imc.ran s.log)) ?_
        rw [← hbalance]
        abel
      rw [calledWith_append, ← howed, Sys.dueInFlight, Sys.dueInFlight, hone, List.map_singleton,
        List.map_singleton, List.sum_singleton, List.sum_singleton, hflight]
      abel

end Imc

end Vans
