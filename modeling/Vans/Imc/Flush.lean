import Vans.Imc.Fcfs
import Vans.Rmw.Step
import Vans.Nvram.System
import Vans.Dram.System
import Vans.Dram.Moves
/-!
# The iMC — the flush ends

A round of the flush that asks a component with room hands the write on,
because each kind of component below the iMC takes what it says it has
room for: the NVRAM system asks every child, and a DDR4 system both of
its queues. So a flush takes no more rounds than there are writes.
-/

namespace Vans

/-! ## Components of two kinds -/

/-- A child that is of one kind or of the other. -/
def Component.either {κ σ τ : Type} (C : Component κ σ) (D : Component κ τ) :
    Component κ (σ ⊕ τ) where
  issueRequest := fun req s =>
    match s with
    | .inl s => do
        let (resp, req, s) ← C.issueRequest req s
        return (resp, req, .inl s)
    | .inr s => do
        let (resp, req, s) ← D.issueRequest req s
        return (resp, req, .inr s)
  full := fun s => s.elim C.full D.full
  pending := fun s => s.elim C.pending D.pending
  drain := fun s =>
    match s with
    | .inl s => .inl <$> C.drain s
    | .inr s => .inr <$> D.drain s
  tick := fun visit clk s =>
    match s with
    | .inl s => do
        let (s, ran) ← C.tick visit clk s
        return (.inl s, ran)
    | .inr s => do
        let (s, ran) ← D.tick visit clk s
        return (.inr s, ran)

namespace Imc

variable {κ σ τ γ ς : Type} {k : ℕ}

/-! ## What a flush relies on -/

/-- How a flush fails whose rounds are used up. -/
def unended : String := "flush_wpq does not end"

/-- A component that takes what it has room for, and fails in its own
ways only. -/
structure Flushable (C : Component κ σ) : Prop where
  accepts : AcceptsUnlessFull C
  full : ∀ s, C.full s ≠ .error unended
  issue : ∀ req s, C.issueRequest req s ≠ .error unended

/-- What a component in a fit state is asked it answers, and it stays
fit. -/
structure Answers (C : Component κ σ) (fit : σ → Prop) : Prop where
  full : ∀ s, fit s → ∃ b, C.full s = .ok b
  issue : ∀ req s, fit s → C.full s = .ok false →
    Yields (C.issueRequest req s) fun out => fit out.2.2

theorem overflow_ne {a b : String} :
    ("Internal error: queue overflow, " ++ a ++ " > " ++ b : String) ≠ unended := by
  intro h
  have hhead := congrArg (fun m : String => m.toList.head?) h
  simp [String.toList_append, unended] at hhead

section Children

variable {C : Component κ σ} {fit : σ → Prop} {next : List σ} {i : ℕ} {req : BaseRequest κ}

theorem Flushable.fullAt_ne (hC : Flushable C) : C.fullAt next i ≠ .error unended := by
  unfold Component.fullAt
  split
  · exact fun h => absurd (Except.error.inj h) (by decide)
  · exact hC.full _

theorem Flushable.issueTo_ne (hC : Flushable C) : C.issueTo next i req ≠ .error unended := by
  unfold Component.issueTo
  split
  · exact fun h => absurd (Except.error.inj h) (by decide)
  · exact bind_ne_error (hC.issue _ _) fun _ _ => pure_ne_error

theorem Answers.fullAt (hC : Answers C fit) (hi : i < next.length) (hfit : ∀ st ∈ next, fit st) :
    ∃ b, C.fullAt next i = .ok b := by
  obtain ⟨b, hb⟩ := hC.full next[i] (hfit _ (List.getElem_mem hi))
  refine ⟨b, ?_⟩
  simp only [Component.fullAt, List.getElem?_eq_getElem hi, hb]

/-- A child with room answers, and the children stay fit. -/
theorem Answers.issueTo (hC : Answers C fit) (hi : i < next.length) (hfit : ∀ st ∈ next, fit st)
    (hfull : C.fullAt next i = .ok false) : Yields (C.issueTo next i req)
      fun out => out.2.2.length = next.length ∧ ∀ st ∈ out.2.2, fit st := by
  simp only [Component.fullAt, List.getElem?_eq_getElem hi] at hfull
  obtain ⟨⟨resp, req', st'⟩, htake, hfit'⟩ := hC.issue req _ (hfit _ (List.getElem_mem hi)) hfull
  refine ⟨_, Component.issueTo_eq_ok.mpr ⟨_, st', List.getElem?_eq_getElem hi, htake, rfl⟩,
    List.length_set, fun st hst => ?_⟩
  rcases List.mem_or_eq_of_mem_set hst with hold | rfl
  · exact hfit st hold
  · exact hfit'

end Children

section Queues

variable {ρ : Type} {q : RequestQueue ρ} {r : ρ}

theorem queue_full_ne : q.full ≠ .error unended := by
  unfold RequestQueue.full
  split
  · exact fun h => overflow_ne (Except.error.inj h)
  · exact pure_ne_error

theorem queue_enqueue_ne : q.enqueue r ≠ .error unended := by
  refine bind_ne_error queue_full_ne fun b _ => ?_
  split <;> exact pure_ne_error

end Queues

/-! ## The components below the iMC -/

section Children

variable {C : Component κ σ} {D : Component κ τ}

/-- The RMW controller takes a request where its load/store queue has
room. -/
theorem rmw_flushable {C : Component Rmw.Callback σ} :
    Flushable (Rmw.component C : Component κ (Rmw.Sys κ σ)) where
  accepts := by
    intro req s resp req' s' hfull h
    simp only [Rmw.component, Rmw.issueRequest, bind_eq_ok, Prod.exists, pure_eq_ok,
      Prod.mk.injEq] at h
    obtain ⟨_, _, ⟨success, lsq, henq, rfl, -⟩, rfl, -, -⟩ := h
    obtain ⟨-, ⟨rfl, heq, -⟩ | ⟨rfl, -, -⟩⟩ := RequestQueue.enqueue_eq_ok.mp henq
    · exact absurd ((RequestQueue.full_eq_ok.mp hfull).2.mpr heq) (by decide)
    · rfl
  full := fun _ => queue_full_ne
  issue := fun req s => bind_ne_error
    (bind_ne_error queue_enqueue_ne fun _ _ => pure_ne_error) fun _ _ => pure_ne_error

theorem rmw_answers {C : Component Rmw.Callback σ} :
    Answers (Rmw.component C : Component κ (Rmw.Sys κ σ))
      (fun s => s.ctrl.lsq.queue.length ≤ s.ctrl.lsq.maxEntries) where
  full := fun s hs => ⟨_, RequestQueue.full_of_le hs⟩
  issue := by
    intro req s hs _
    obtain ⟨⟨success, lsq⟩, henq⟩ := RequestQueue.enqueue_of_le (r := req) hs
    simp only [Rmw.component, Rmw.issueRequest, henq, ok_bind]
    refine .pure ?_
    obtain ⟨-, ⟨rfl, -, rfl⟩ | ⟨rfl, hlt, rfl⟩⟩ := RequestQueue.enqueue_eq_ok.mp henq
    · exact hs
    · simp only [if_true, Rmw.Sys.emit, List.length_append, List.length_singleton]
      omega

/-- **The NVRAM system has room where all its children have**, so the one
a request is mapped to takes it. -/
theorem nvramSystem_flushable (hC : Flushable C) : Flushable (NvramSystem.component C) where
  accepts := by
    intro req s resp req' s' hfull h
    obtain ⟨next, hissue, -⟩ := NvramSystem.issueRequest_eq_ok.mp h
    obtain ⟨st, st', hst, htake, -⟩ := Component.issueTo_eq_ok.mp hissue
    exact hC.accepts _ _ _ _ _
      (NvramSystem.full_eq_false.mp hfull st (List.mem_of_getElem? hst)) htake
  full := by
    intro s
    change s.next.anyM C.full ≠ _
    induction s.next with
    | nil => exact pure_ne_error
    | cons st next ih =>
        rw [List.anyM_cons]
        refine bind_ne_error (hC.full st) fun b _ => ?_
        cases b with
        | false => exact ih
        | true => exact pure_ne_error
  issue := by
    intro req s
    exact bind_ne_error hC.issueTo_ne fun _ _ => pure_ne_error

/-- A system is fit whose mapping picks a child there is, of which each
is fit. -/
def NvramFit (fit : σ → Prop) (s : NvramSystem.Sys σ) : Prop :=
  (∀ a, (s.ctrl.mappingFunc a s.next.length).2 < s.next.length) ∧ ∀ st ∈ s.next, fit st

theorem nvramSystem_answers {fit : σ → Prop} (hC : Answers C fit) :
    Answers (NvramSystem.component C) (NvramFit fit) where
  full := by
    rintro s ⟨-, hfit⟩
    change ∃ b, s.next.anyM C.full = .ok b
    generalize s.next = next at hfit
    induction next with
    | nil => exact ⟨false, rfl⟩
    | cons st next ih =>
        obtain ⟨b, hb⟩ := hC.full st (hfit st List.mem_cons_self)
        obtain ⟨b', hb'⟩ := ih fun st' hst' => hfit st' (List.mem_cons_of_mem _ hst')
        rw [List.anyM_cons, hb, ok_bind]
        cases b with
        | false => exact ⟨b', hb'⟩
        | true => exact ⟨true, rfl⟩
  issue := by
    rintro req s ⟨hmap, hfit⟩ hfull
    have hlt := hmap req.addr
    have hfullAt : C.fullAt s.next (s.ctrl.mappingFunc req.addr s.next.length).2 = .ok false := by
      simp only [Component.fullAt, List.getElem?_eq_getElem hlt]
      exact NvramSystem.full_eq_false.mp hfull _ (List.getElem_mem hlt)
    obtain ⟨⟨resp, req', next⟩, hissue, hlen, hfit'⟩ := @Answers.issueTo _ _ _ _ _ _
      { req with addr := (s.ctrl.mappingFunc req.addr s.next.length).1 } hC hlt hfit hfullAt
    refine ⟨_, NvramSystem.issueRequest_eq_ok.mpr ⟨next, hissue, rfl⟩, fun a => ?_, hfit'⟩
    rw [hlen]
    exact hmap a

/-- The memory has room where both queues have. -/
theorem dram_full_eq_false {s : Dram.Sys κ γ ς k} :
    Dram.full s = .ok false ↔
      (s.reqs .read).length < (s.ctrl.queue .read).maxEntries ∧
      (s.reqs .write).length < (s.ctrl.queue .write).maxEntries := by
  simp only [Dram.full, bind_eq_ok]
  constructor
  · rintro ⟨b, hread, h⟩
    cases b with
    | true => exact absurd (pure_eq_ok.mp h) (by decide)
    | false =>
        obtain ⟨hle, hfull⟩ := RequestQueue.full_eq_ok.mp hread
        obtain ⟨hle', hfull'⟩ := RequestQueue.full_eq_ok.mp h
        exact ⟨lt_of_le_of_ne hle fun h => absurd (hfull.mpr h) (by decide),
          lt_of_le_of_ne hle' fun h => absurd (hfull'.mpr h) (by decide)⟩
  · rintro ⟨hread, hwrite⟩
    refine ⟨false, RequestQueue.full_eq_ok.mpr ⟨hread.le, iff_of_false (by decide) hread.ne⟩, ?_⟩
    exact RequestQueue.full_eq_ok.mpr ⟨hwrite.le, iff_of_false (by decide) hwrite.ne⟩

/-- A mapping fails where the language leaves a shift undefined, and
nowhere else. -/
theorem mapping_ne {m : Dram.Mapping} {a : Addr} : m.map a ≠ .error unended := by
  refine bind_ne_error (foldlM_ne_error (P := fun _ => True) (fun _ _ _ _ _ => trivial)
    (fun acc level _ => ?_) trivial) fun _ _ => pure_ne_error
  dsimp only
  split
  · exact fun h => absurd (Except.error.inj h) (by decide)
  · exact pure_ne_error

/-- Within their bounds, the queues can be asked. -/
theorem dram_issueRequest_of_le {s : Dram.Sys κ γ ς k}
    (hbound : ∀ name, (s.reqs name).length ≤ (s.ctrl.queue name).maxEntries)
    (request : Dram.Request κ) : ∃ out, Dram.issueRequest request s = .ok out := by
  obtain ⟨⟨issued, queue⟩, henq⟩ := RequestQueue.enqueue_of_le
    (r := { request with arrive := s.ctrl.currClk.toInt64 }) (hbound (Dram.getQueue request.type))
  rw [Dram.issueRequest]
  simp only [henq, ok_bind]
  cases issued with
  | false => exact ⟨_, rfl⟩
  | true =>
      simp only [Bool.not_true, Bool.false_eq_true, if_false]
      split <;> exact ⟨_, rfl⟩

/-- A request taken leaves the queues within their bounds. -/
theorem dram_issueRequest_bound {request : Dram.Request κ} {b : Bool} {s u : Dram.Sys κ γ ς k}
    (hbound : ∀ name, (s.reqs name).length ≤ (s.ctrl.queue name).maxEntries)
    (h : Dram.issueRequest request s = .ok (b, u)) :
    (∀ name, (u.reqs name).length ≤ (u.ctrl.queue name).maxEntries) ∧ u.mapper = s.mapper := by
  rcases Dram.issueRequest_cases h with ⟨-, rfl, -⟩ | ⟨-, req, -, acc | fwd⟩
  · exact ⟨hbound, rfl⟩
  · refine ⟨fun name => ?_, acc.became.mapper⟩
    rw [acc.became.queue, acc.became.bound]
    by_cases hname : name = Dram.getQueue req.type
    · subst hname
      have hroom := acc.room
      simp only [if_true, List.length_append, List.length_singleton]
      omega
    · simpa [hname] using hbound name
  · refine ⟨fun name => ?_, fwd.became.mapper⟩
    rw [fwd.became.queue, fwd.became.bound]
    exact hbound name

section Dram

variable [DecidableEq γ] {spec : Dram.Spec γ ς}

/-- The memory takes a read or a write where neither of their queues is
full. -/
theorem ddr4System_flushable :
    Flushable (Ddr4System.component spec k : Component κ (Ddr4System.Sys κ γ ς k)) where
  accepts := by
    intro req s resp req' s' hfull h
    obtain ⟨memory, h, -⟩ := Ddr4System.issueRequest_eq_ok.mp h
    simp only [Dram.component, bind_eq_ok, Prod.exists, pure_eq_ok, Prod.mk.injEq] at h
    obtain ⟨request, hmapped, issued, u, hissue, rfl, -, -⟩ := h
    rcases Dram.issueRequest_cases hissue with ⟨-, -, heq⟩ | ⟨rfl, -⟩
    · -- the queue of the request is one of the two asked
      have htype : request.type = Dram.reqTypeOf req.type := by
        simp only [Dram.Sys.mapped, bind_eq_ok, pure_eq_ok] at hmapped
        obtain ⟨_, -, rfl⟩ := hmapped
        rfl
      obtain ⟨hread, hwrite⟩ := dram_full_eq_false.mp hfull
      rw [htype] at heq
      cases hreq : req.type with
      | read =>
          rw [hreq] at heq
          exact absurd heq hread.ne
      | write =>
          rw [hreq] at heq
          exact absurd heq hwrite.ne
    · rfl
  full := by
    intro s
    refine bind_ne_error queue_full_ne fun b _ => ?_
    cases b with
    | false => exact queue_full_ne
    | true => exact pure_ne_error
  issue := by
    intro req s
    refine bind_ne_error (bind_ne_error (bind_ne_error mapping_ne fun _ _ => pure_ne_error)
      fun _ _ => bind_ne_error ?_ fun _ _ => pure_ne_error) fun _ _ => pure_ne_error
    refine bind_ne_error queue_enqueue_ne fun out _ => ?_
    obtain ⟨issued, queue⟩ := out
    cases issued with
    | false => exact pure_ne_error
    | true =>
        simp only [Bool.not_true, Bool.false_eq_true, if_false]
        split <;> exact pure_ne_error

/-- A memory is fit whose queues are within their bounds, and whose
mapping takes every address. -/
def Ddr4Fit (s : Ddr4System.Sys κ γ ς k) : Prop :=
  (∀ name, (s.localMemoryModel.reqs name).length ≤
    (s.localMemoryModel.ctrl.queue name).maxEntries) ∧
  ∀ a, ∃ x, s.localMemoryModel.mapper.map a = .ok x

theorem ddr4System_answers :
    Answers (Ddr4System.component spec k : Component κ (Ddr4System.Sys κ γ ς k)) Ddr4Fit where
  full := by
    rintro s ⟨hbound, -⟩
    have hread := RequestQueue.full_of_le (hbound .read)
    have hwrite := RequestQueue.full_of_le (hbound .write)
    change ∃ b, Dram.full s.localMemoryModel = .ok b
    rw [Dram.full, show s.localMemoryModel.ctrl.readQueue.full = _ from hread, ok_bind]
    split
    · exact ⟨true, rfl⟩
    · exact ⟨_, hwrite⟩
  issue := by
    rintro req s ⟨hbound, hmap⟩ hfull
    obtain ⟨x, hx⟩ := hmap req.addr
    obtain ⟨⟨issued, memory⟩, hissue⟩ := dram_issueRequest_of_le hbound
      { logicAddr := req.addr, mappedAddr := x, type := Dram.reqTypeOf req.type,
        callback := req.callback }
    obtain ⟨hbound', hmapper⟩ := dram_issueRequest_bound hbound hissue
    refine ⟨(⟨issued, false, clkInvalid⟩, req, { s with localMemoryModel := memory }), ?_,
      hbound', fun a => hmapper ▸ hmap a⟩
    refine Ddr4System.issueRequest_eq_ok.mpr ⟨memory, ?_, rfl⟩
    have hmapped : s.localMemoryModel.mapped req.addr (Dram.reqTypeOf req.type) req.callback =
        .ok { logicAddr := req.addr, mappedAddr := x, type := Dram.reqTypeOf req.type,
              callback := req.callback } := by
      rw [Dram.Sys.mapped, hx]
      rfl
    simp only [Dram.component, hmapped, hissue, ok_bind]
    rfl

end Dram

theorem either_flushable (hC : Flushable C) (hD : Flushable D) : Flushable (C.either D) where
  accepts := by
    rintro req (s | s) resp req' s' hfull h
    all_goals
      simp only [Component.either, bind_eq_ok, Prod.exists, pure_eq_ok, Prod.mk.injEq] at h
      obtain ⟨resp', req'', u, hissue, rfl, -, -⟩ := h
    · exact hC.accepts _ _ _ _ _ hfull hissue
    · exact hD.accepts _ _ _ _ _ hfull hissue
  full
    | .inl s => hC.full s
    | .inr s => hD.full s
  issue
    | req, .inl s => bind_ne_error (hC.issue req s) fun _ _ => pure_ne_error
    | req, .inr s => bind_ne_error (hD.issue req s) fun _ _ => pure_ne_error

theorem either_answers {fit : σ → Prop} {fit' : τ → Prop} (hC : Answers C fit)
    (hD : Answers D fit') : Answers (C.either D) (Sum.elim fit fit') where
  full
    | .inl s, hs => hC.full s hs
    | .inr s, hs => hD.full s hs
  issue
    | req, .inl s, hs, hfull => (hC.issue req s hs hfull).bind fun _ _ hout => .pure hout
    | req, .inr s, hs, hfull => (hD.issue req s hs hfull).bind fun _ _ hout => .pure hout

end Children

/-! ## The flush ends -/

section Flush

variable {C : Component κ σ} {s : Sys κ σ}

/-- The children are fit, and the mapping picks one there is. -/
def Fit (fit : σ → Prop) (s : Sys κ σ) : Prop :=
  (∀ a, (s.ctrl.mappingFunc a s.next.length).2 < s.next.length) ∧ ∀ st ∈ s.next, fit st

/-- What a round leaves that hands the front write on. -/
structure HandsOn (C : Component κ σ) (s u : Sys κ σ) : Prop where
  front : ∃ req, s.ctrl.wpq.queue = req :: u.ctrl.wpq.queue
  rest : ∀ fuel, flushWpq C (fuel + 1) s = flushWpq C fuel u

/-- **A round of the flush breaks the loop, or hands the front write on.**
Where the children are fit, breaking it is all that ends it. -/
theorem flushWpq_round {fit : σ → Prop} (hC : Flushable C) (hfit : Answers C fit) (s : Sys κ σ) :
    (∃ out, out ≠ .error unended ∧ (∀ fuel, flushWpq C (fuel + 1) s = out) ∧
      (Fit fit s → out = .ok s)) ∨
    ∃ u, HandsOn C s u ∧ (Fit fit s → Fit fit u) := by
  cases hq : s.ctrl.wpq.queue with
  | nil => exact .inl ⟨.ok s, by simp, fun fuel => by simp only [flushWpq, hq]; rfl, fun _ => rfl⟩
  | cons req rest =>
      by_cases hblocked : (s.ctrl.rpq.queue.head?.any fun r => r.arrive < req.arrive) = true
      · -- an earlier read stops the loop
        refine .inl ⟨.ok s, by simp, fun fuel => ?_, fun _ => rfl⟩
        simp only [flushWpq, hq, hblocked, if_true]
        rfl
      · cases hfull : C.fullAt s.next (s.ctrl.mappingFunc req.addr s.next.length).2 with
        | error e =>
            refine .inl ⟨.error e, fun h =>
              hC.fullAt_ne (hfull.trans (congrArg _ (Except.error.inj h))), fun fuel => ?_,
              fun hs => ?_⟩
            · simp only [flushWpq, hq, hblocked, hfull]
              rfl
            · obtain ⟨b, hb⟩ := hfit.fullAt (hs.1 req.addr) hs.2
              exact absurd (hfull.symm.trans hb) (by simp)
        | ok b =>
            cases b with
            | true =>
                -- the child is full: the loop ends
                refine .inl ⟨.ok s, by simp, fun fuel => ?_, fun _ => rfl⟩
                simp only [flushWpq, hq, hblocked, hfull]
                rfl
            | false =>
                have htakes : Fit fit s → Yields
                    (C.issueTo s.next (s.ctrl.mappingFunc req.addr s.next.length).2 req)
                    fun out => out.2.2.length = s.next.length ∧ ∀ st ∈ out.2.2, fit st :=
                  fun hs => hfit.issueTo (hs.1 req.addr) hs.2 hfull
                cases hissue : C.issueTo s.next (s.ctrl.mappingFunc req.addr s.next.length).2 req with
                | error e =>
                    refine .inl ⟨.error e, fun h =>
                      hC.issueTo_ne (hissue.trans (congrArg _ (Except.error.inj h))), fun fuel => ?_,
                      fun hs => ?_⟩
                    · simp only [flushWpq, hq, hblocked, hfull, hissue, ok_bind]
                      rfl
                    · obtain ⟨out, hout, -⟩ := htakes hs
                      exact absurd (hissue.symm.trans hout) (by simp)
                | ok out =>
                    obtain ⟨resp, req', next⟩ := out
                    -- it has room, so it takes the write
                    have hyes : resp.issued = true := issueTo_accepts hC.accepts hfull hissue
                    have hlen : next.length = s.next.length := Component.issueTo_length hissue
                    refine .inr ⟨{ s with
                      ctrl.wpq.queue := rest
                      next := next
                      log := s.log ++
                        .handed .write (s.ctrl.mappingFunc req.addr s.next.length).2 req.addr ::
                        (invoke req'.callback req'.addr s.ctrl.imcCurrClk).map Obs.ran },
                      ⟨⟨req, hq⟩, fun fuel => ?_⟩, fun hs => ⟨fun a => ?_, fun st hst => ?_⟩⟩
                    · simp only [flushWpq, hq, hblocked, hfull, hissue, ok_bind, hyes]
                      rfl
                    · rw [hlen]
                      exact hs.1 a
                    · obtain ⟨out, hout, -, hfits⟩ := htakes hs
                      obtain rfl := Except.ok.inj (hissue.symm.trans hout)
                      exact hfits st hst

/-- **A flush takes no more rounds than there are writes.** -/
theorem flushWpq_enough {fit : σ → Prop} (hC : Flushable C) (hfit : Answers C fit) :
    ∀ {n : ℕ} {s : Sys κ σ}, s.ctrl.wpq.queue.length = n → ∀ rounds, n < rounds →
      flushWpq C rounds s ≠ .error unended ∧ flushWpq C rounds s = flushWpq C (n + 1) s ∧
      (Fit fit s → ∃ t, flushWpq C rounds s = .ok t) := by
  intro n
  induction n with
  | zero =>
      intro s hlen rounds hrounds
      obtain ⟨rounds, rfl⟩ := Nat.exists_eq_succ_of_ne_zero hrounds.ne'
      rcases flushWpq_round hC hfit s with ⟨out, hne, hout, hok⟩ | ⟨u, hands, -⟩
      · rw [hout, hout]
        exact ⟨hne, rfl, fun hs => ⟨s, hok hs⟩⟩
      · obtain ⟨req, hq⟩ := hands.front
        simp [hq] at hlen
  | succ n ih =>
      intro s hlen rounds hrounds
      obtain ⟨rounds, rfl⟩ := Nat.exists_eq_succ_of_ne_zero (Nat.ne_zero_of_lt hrounds)
      rcases flushWpq_round hC hfit s with ⟨out, hne, hout, hok⟩ | ⟨u, hands, hkeeps⟩
      · rw [hout, hout]
        exact ⟨hne, rfl, fun hs => ⟨s, hok hs⟩⟩
      · obtain ⟨req, hq⟩ := hands.front
        rw [hq, List.length_cons] at hlen
        rw [hands.rest, hands.rest]
        obtain ⟨hne, hsame, hok⟩ := ih (Nat.succ.inj hlen) rounds (Nat.lt_of_succ_lt_succ hrounds)
        exact ⟨hne, hsame, fun hs => hok (hkeeps hs)⟩

end Flush

/-- What the configurations place below the iMC: NVRAM systems, each over
RMW controllers, and DDR4 systems. -/
def below [DecidableEq γ] (C : Component Rmw.Callback σ) (spec : Dram.Spec γ ς) (k : ℕ) :
    Component κ (NvramSystem.Sys (Rmw.Sys κ σ) ⊕ Ddr4System.Sys κ γ ς k) :=
  (NvramSystem.component (Rmw.component C)).either (Ddr4System.component spec k)

/-- A component below the iMC whose queues are within their bounds, and
whose mappings take every address. -/
abbrev BelowFit : NvramSystem.Sys (Rmw.Sys κ σ) ⊕ Ddr4System.Sys κ γ ς k → Prop :=
  Sum.elim (NvramFit fun s => s.ctrl.lsq.queue.length ≤ s.ctrl.lsq.maxEntries) Ddr4Fit

/-- **The flush ends**, over any set of the components below the iMC,
under any mapping and in any state: a component that is not full takes
the request; each round breaks the loop or hands the front write on; so
as many rounds as there are writes, and one, are enough. Where the
components answer what they are asked, the flush returns. -/
theorem flushWpq_ends [DecidableEq γ] (C : Component Rmw.Callback σ) (spec : Dram.Spec γ ς)
    (s : Sys κ (NvramSystem.Sys (Rmw.Sys κ σ) ⊕ Ddr4System.Sys κ γ ς k)) :
    AcceptsUnlessFull (below C spec k : Component κ _) ∧
    ((∃ out, out ≠ .error unended ∧ ∀ fuel, flushWpq (below C spec k) (fuel + 1) s = out) ∨
      ∃ u, HandsOn (below C spec k) s u) ∧
    ∀ rounds, s.ctrl.wpq.queue.length < rounds →
      flushWpq (below C spec k) rounds s ≠ .error unended ∧
      flushWpq (below C spec k) rounds s =
        flushWpq (below C spec k) (s.ctrl.wpq.queue.length + 1) s ∧
      (Fit BelowFit s → ∃ t, flushWpq (below C spec k) rounds s = .ok t) := by
  have hC : Flushable (below C spec k : Component κ _) :=
    either_flushable (nvramSystem_flushable rmw_flushable) ddr4System_flushable
  have hfit : Answers (below C spec k : Component κ _) BelowFit :=
    either_answers (nvramSystem_answers rmw_answers) ddr4System_answers
  refine ⟨hC.accepts, ?_, flushWpq_enough hC hfit rfl⟩
  rcases flushWpq_round hC hfit s with ⟨out, hne, hout, -⟩ | ⟨u, hands, -⟩
  · exact .inl ⟨out, hne, hout⟩
  · exact .inr ⟨u, hands⟩

end Imc

end Vans
