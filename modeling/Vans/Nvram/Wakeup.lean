import Vans.Rmw.Waiting
import Vans.Ait.Invariant
/-!
# The RMW controller over the AIT controller — the wake-up protocol

The two controllers share one message: a read of a 256-byte block, whose
callback tells the entry that issued it to go on. An entry that waits is
owed exactly one such callback, and no other entry is owed any; so each
callback finds the entry that asked for it, still waiting, and none is
lost. The local memory and the media of the AIT controller are any
components.
-/

namespace Vans

namespace Nvram

variable {κ τ μ : Type} {L : Component Ait.SubreqCallback τ} {M : Component Ait.Callback μ}

/-- The reads of the block the AIT controller still has to call back
for: in its load/store queue, or as the pending request of an entry. -/
def outstanding (block : Addr) (ait : Ait.Sys Rmw.Callback τ μ) : ℕ :=
  ait.ctrl.lsq.queue.countP (fun req => req.type = .read &&
      req.callback = some .nextLevelReadCallback && Rmw.translateToBlockAddr req.addr = block)
    + Keyed.total (fun _ e => if e.pending && !Ait.isWrite e.pendingRequest.type &&
      e.cb = some .nextLevelReadCallback && e.pendingRequest.rmwBlockAddr = block then 1 else 0)
      ait.ctrl.buffer.entryMap

/-- The weight that counts the callbacks for a block. -/
def forBlock (block : Addr) : Rmw.Callback → Addr → ℕ := fun _ addr => if addr = block then 1 else 0

/-- **Where only reads carry callbacks**, the weight of what is in
progress is the number of reads outstanding. -/
theorem outstanding_eq {ait : Ait.Sys Rmw.Callback τ μ} (ro : ait.ReadsOnly) (block : Addr) :
    outstanding block ait = ait.inFlight (forBlock block) := by
  have hcb : ∀ cb : Option Rmw.Callback, cb.isSome → cb = some .nextLevelReadCallback := by
    rintro (_ | ⟨⟩) h
    · simp at h
    · rfl
  unfold outstanding Ait.Sys.inFlight Ait.requestsWeight
  congr 1
  · have hq := ro.queued
    generalize ait.ctrl.lsq.queue = q at hq
    induction q with
    | nil => rfl
    | cons req q ih =>
        rw [List.countP_cons, List.map_cons, List.sum_cons,
          ih fun r hr => hq r (List.mem_cons_of_mem _ hr), Nat.add_comm]
        congr 1
        have hread := hq req (by simp)
        cases hsome : req.callback with
        | none => simp [Ait.share]
        | some c => simp [Ait.share, forBlock, hread (by simp [hsome])]
  · refine Keyed.total_congr fun key e he => ?_
    have hread := ro.entries key e he
    cases hsome : e.cb with
    | none => simp [Ait.BufferEntry.pendingWeight, Ait.share, hsome]
    | some c =>
        rw [hsome] at hread
        by_cases hp : e.pending <;>
          simp [Ait.BufferEntry.pendingWeight, Ait.share, forBlock, hsome, hp, hread]

/-! ## The invariant -/

/-- What a callback of the AIT controller is to find: the entry that
asked last for the block, waiting, its request not replaced since. -/
def WakeInTurn (before : List (Rmw.Obs κ)) (o : Rmw.Obs κ) : Prop :=
  ∀ block state waiting, o = .woken block state waiting →
    state = .pendingAitR ∧ waiting = true ∧
      History.Owes (Rmw.asksFor block ·) (fun o => Rmw.wakes block o || Rmw.replaces block o) before

/-- **The invariant of the two controllers**, while the callbacks `due`
have been run and have not reached the RMW controller. -/
structure Linked (due : List (Invocation Rmw.Callback))
    (s : Rmw.Sys κ (Ait.Sys Rmw.Callback τ μ)) (ait : Ait.Sys Rmw.Callback τ μ) : Prop where
  next : s.next = [ait]
  mapping : s.ctrl.mappingFunc = noneMapping
  ok : s.Ok
  aitOk : ait.Ok
  readsOnly : ait.ReadsOnly
  balanced : ∀ weight : Rmw.Callback → Addr → ℕ, ait.Balanced weight
  /-- An entry that waits is owed one callback, and no other any. -/
  owed : ∀ block, ait.inFlight (forBlock block) + Ait.ranWeight (forBlock block) due =
    if s.waits block then 1 else 0
  /-- An entry that waits has asked, and its request is still the same. -/
  asked : ∀ block, s.waits block → History.Owes (Rmw.asksFor block ·)
    (fun o => Rmw.wakes block o || Rmw.replaces block o) s.log
  /-- Callbacks answer the reads asked. -/
  answered : ∀ block, s.log.countP (Rmw.asksFor block) =
    s.log.countP (Rmw.wakes block) + if s.waits block then 1 else 0
  turns : History.Always WakeInTurn s.log

/-- **What the AIT controller does with what it is asked**: it refuses
and stays as it was, or queues the request; when it will be served is
not known. -/
theorem asked_cases {key : Addr} {s : Rmw.Sys κ (Ait.Sys Rmw.Callback τ μ)}
    {ait : Ait.Sys Rmw.Callback τ μ} {e : Rmw.BufferEntry κ} {type : BaseRequestType}
    {callback : Option Rmw.Callback} {resp : BaseResponse}
    {next : List (Ait.Sys Rmw.Callback τ μ)} (hnext : s.next = [ait])
    (hmap : s.ctrl.mappingFunc = noneMapping)
    (h : Rmw.Asked (Ait.component L M) key s e type callback resp next) :
    resp.deterministic = false ∧
      ((resp.issued = false ∧ next = [ait]) ∨
        (resp.issued = true ∧ ∃ req : BaseRequest Rmw.Callback, req.type = type ∧
          req.addr = Rmw.translateToBlockAddr e.pendingRequest.logicAddr ∧
          req.callback = callback ∧ ait.ctrl.lsq.queue.length < ait.ctrl.lsq.maxEntries ∧
          next = [{ ait with
            ctrl.lsq.queue := ait.ctrl.lsq.queue ++ [req]
            log := ait.log ++ [.accepted req] }])) := by
  obtain ⟨clk, req', h⟩ := h
  rw [hmap, hnext] at h
  obtain ⟨s₀, ait', hget, hissue, rfl⟩ := Component.issueTo_eq_ok.mp h
  obtain rfl : ait = s₀ := by simpa [noneMapping] using hget
  simp only [Ait.component, bind_eq_ok, Prod.exists, pure_eq_ok, Prod.mk.injEq] at hissue
  obtain ⟨resp', ait'', hissue, rfl, rfl, rfl⟩ := hissue
  obtain ⟨hdet, ⟨hno, rfl⟩ | ⟨hyes, hroom, rfl⟩⟩ := Ait.issueRequest_cases hissue
  · exact ⟨hdet, .inl ⟨hno, rfl⟩⟩
  · exact ⟨hdet, .inr ⟨hyes, _, rfl, rfl, rfl, hroom, rfl⟩⟩

namespace Linked

variable {due : List (Invocation Rmw.Callback)} {s t : Rmw.Sys κ (Ait.Sys Rmw.Callback τ μ)}
  {ait ait' : Ait.Sys Rmw.Callback τ μ}

/-- Nothing happens between the controllers. -/
theorem still (lk : Linked due s ait) (hmap : t.ctrl.mappingFunc = noneMapping) (ok : t.Ok)
    (hwaits : t.waits = s.waits) (hnext : t.next = [ait'])
    (hait : ait' = ait ∨ ∃ req : BaseRequest Rmw.Callback, req.callback = none ∧
      ait.ctrl.lsq.queue.length < ait.ctrl.lsq.maxEntries ∧ ait' = { ait with
        ctrl.lsq.queue := ait.ctrl.lsq.queue ++ [req], log := ait.log ++ [.accepted req] })
    {new : List (Rmw.Obs κ)} (hlog : t.log = s.log ++ new) (hnew : ∀ o ∈ new, s.Still o) :
    Linked due t ait' := by
  have hbelow : ait'.Ok ∧ ait'.ReadsOnly ∧
      (∀ weight : Rmw.Callback → Addr → ℕ, ait'.Balanced weight) ∧
      ∀ block, ait'.inFlight (forBlock block) = ait.inFlight (forBlock block) := by
    rcases hait with rfl | ⟨req, hcb, hroom, rfl⟩
    · exact ⟨lk.aitOk, lk.readsOnly, lk.balanced, fun _ => rfl⟩
    · have hmove : Ait.Move Ait.readsOnly ait _ :=
        .accept hroom (by simp [Ait.readsOnly, hcb] : Ait.readsOnly req)
      refine ⟨lk.aitOk.move hmove, lk.readsOnly.move hmove,
        fun weight => (lk.balanced weight).move lk.aitOk hmove, fun block => ?_⟩
      rw [Ait.inFlight_accept, hcb]
      rfl
  obtain ⟨aitOk, ro, bal, hflight⟩ := hbelow
  have hcount : ∀ p : Rmw.Obs κ → Bool, (∀ o ∈ new, p o = false) →
      t.log.countP p = s.log.countP p := fun p hp => by
    have hzero : new.countP p = 0 := List.countP_eq_zero.mpr fun o ho => by simp [hp o ho]
    rw [hlog, List.countP_append, hzero, add_zero]
  refine ⟨hnext, hmap, ok, aitOk, ro, bal, fun block => ?_, fun block hw => ?_, fun block => ?_, ?_⟩
  · rw [hflight, hwaits]
    exact lk.owed block
  · rw [hwaits] at hw
    rw [hlog, History.owes_append]
    refine .inr ⟨lk.asked block hw, fun o ho => ?_⟩
    obtain ⟨-, hwake, hrep⟩ := hnew o ho block
    simp [hwake, hrep hw]
  · rw [hcount _ fun o ho => (hnew o ho block).1, hcount _ fun o ho => (hnew o ho block).2.1, hwaits]
    exact lk.answered block
  · rw [hlog]
    refine lk.turns.append (History.always_of_forall fun before o ho block state waiting heq => ?_)
    have := (hnew o ho block).2.1
    simp [heq, Rmw.wakes] at this

/-- An entry asks for its block, and waits. -/
theorem fetch (lk : Linked due s ait) (hmap : t.ctrl.mappingFunc = noneMapping) (ok : t.Ok)
    {key : Addr} {req : BaseRequest Rmw.Callback} (hkey : s.waits key = false)
    (hwaits : t.waits = fun k => if k = key then true else s.waits k)
    (hreq : req.type = .read ∧ Rmw.translateToBlockAddr req.addr = key ∧
      req.callback = some .nextLevelReadCallback)
    (hroom : ait.ctrl.lsq.queue.length < ait.ctrl.lsq.maxEntries)
    (hait : ait' = { ait with
      ctrl.lsq.queue := ait.ctrl.lsq.queue ++ [req], log := ait.log ++ [.accepted req] })
    (hnext : t.next = [ait']) (hlog : t.log = s.log ++ [.nextLevel .read key]) :
    Linked due t ait' := by
  obtain ⟨htype, haddr, hcb⟩ := hreq
  have hmove : Ait.Move Ait.readsOnly ait ait' :=
    hait ▸ .accept hroom (fun _ => htype)
  refine ⟨hnext, hmap, ok, lk.aitOk.move hmove, lk.readsOnly.move hmove,
    fun weight => (lk.balanced weight).move lk.aitOk hmove, fun block => ?_, fun block hw => ?_,
    fun block => ?_, ?_⟩
  · have hold := lk.owed block
    rw [hait, Ait.inFlight_accept, hcb, haddr, hwaits]
    simp only [Ait.share, Option.elim, forBlock]
    by_cases hb : block = key
    · subst hb
      simp only [hkey, Bool.false_eq_true, if_false] at hold
      simp only [if_true]
      omega
    · simpa [hb, Ne.symm hb] using hold
  · rw [hlog, History.owes_concat]
    by_cases hb : block = key
    · exact .inl (by simp [Rmw.asksFor, hb])
    · rw [hwaits] at hw
      simp only [hb, if_false] at hw
      exact .inr ⟨lk.asked block hw, by simp [Rmw.wakes, Rmw.replaces]⟩
  · rw [hlog, List.countP_append, List.countP_append, lk.answered block, hwaits]
    by_cases hb : block = key
    · simp [hb, hkey, Rmw.asksFor, Rmw.wakes]
    · simp [hb, Ne.symm hb, Rmw.asksFor, Rmw.wakes]
  · rw [hlog]
    exact History.always_concat.mpr ⟨lk.turns, fun _ _ _ h => by cases h⟩

/-- **Every move of the RMW controller keeps the invariant.** -/
theorem move (lk : Linked due s ait) (h : Rmw.Move (Ait.component L M) Rmw.alone s t) :
    ∃ ait', Linked due t ait' := by
  have hmap := (h.mappingFunc lk.ok).trans lk.mapping
  have ok := lk.ok.move h
  cases h.waits lk.ok with
  | @fetch key e next resp he hkey hask hyes hnext hwaits hlog =>
      obtain ⟨hdet, ⟨hno, -⟩ | ⟨-, req, htype, haddr, hcb, hroom, rfl⟩⟩ :=
        asked_cases lk.next lk.mapping hask
      · simp [hno] at hyes
      · have hblock := (lk.ok key e he).block
        refine ⟨_, lk.fetch hmap ok hkey (by simpa [hdet] using hwaits) ⟨htype, ?_, hcb⟩ hroom rfl
          hnext hlog⟩
        rw [haddr, Rmw.translateToBlockAddr_idem, hblock]
  | still hwaits hnext hlog =>
      obtain ⟨new, hlog, hnew⟩ := hlog
      rcases hnext with hnext | ⟨key, e, type, callback, resp, next, hask, hnext, hcall⟩
      · exact ⟨ait, lk.still hmap ok hwaits (hnext.trans lk.next) (.inl rfl) hlog hnew⟩
      · obtain ⟨-, ⟨-, rfl⟩ | ⟨hyes, req, -, -, hcb, hroom, rfl⟩⟩ :=
          asked_cases lk.next lk.mapping hask
        · exact ⟨ait, lk.still hmap ok hwaits hnext (.inl rfl) hlog hnew⟩
        · exact ⟨_, lk.still hmap ok hwaits hnext (.inr ⟨req, hcb.trans (hcall hyes), hroom, rfl⟩)
            hlog hnew⟩

theorem moves (lk : Linked due s ait) (h : Rmw.Moves (Ait.component L M) Rmw.alone s t) :
    ∃ ait', Linked due t ait' :=
  reflTransGen_keeps (P := fun u => ∃ ait, Linked due u ait)
    (fun _ _ ⟨_, lk⟩ hm => lk.move hm) h ⟨ait, lk⟩

/-- **A callback reaches the entry that asked for it**, which then no
longer waits. -/
theorem wake {inv : Invocation Rmw.Callback} {clk : Clk} (lk : Linked (inv :: due) s ait)
    (h : Rmw.nextLevelReadCallback inv.addr clk s = .ok t) : Linked due t ait := by
  have hrun : ∀ block, Ait.ranWeight (forBlock block) (inv :: due) =
      (if inv.addr = block then 1 else 0) + Ait.ranWeight (forBlock block) due := fun block => by
    simp [Ait.ranWeight, forBlock]
  -- the callback due makes its block wait
  have hwaits : s.waits inv.addr = true := by
    have hdue := lk.owed inv.addr
    rw [hrun, if_pos rfl] at hdue
    by_contra hno
    simp only [hno, if_false] at hdue
    omega
  obtain ⟨e, he, hew⟩ := Rmw.waits_eq_true.mp hwaits
  have hok := lk.ok _ e he
  obtain ⟨hst, hwait, -⟩ := hok.of_waits hew
  simp only [Rmw.nextLevelReadCallback, hok.aligned, he, pure_eq_ok] at h
  subst h
  -- that block waits no longer, and the others as before
  have hnow : ∀ block, Rmw.Sys.waits ((s.setEntry inv.addr
      { e with waitingActionClkUpdate := false, nextActionClk := clk + 1 }).emit
        (.woken inv.addr e.state e.waitingActionClkUpdate)) block =
      if block = inv.addr then false else s.waits block := fun block => by
    rw [Rmw.waits_of_entry_ite fun k => show _ = if k = inv.addr then _ else s.entry k by
      rw [Rmw.entry_emit, Rmw.entry_setEntry]]
    simp [Rmw.BufferEntry.waits]
  refine ⟨lk.next, lk.mapping, ?_, lk.aitOk, lk.readsOnly, lk.balanced, fun block => ?_,
    fun block hw => ?_, fun block => ?_, ?_⟩
  · exact lk.ok.of_entry_ite hok.wake fun _ => by rw [Rmw.entry_emit, Rmw.entry_setEntry]
  · have hold := lk.owed block
    rw [hrun] at hold
    rw [hnow]
    by_cases hb : block = inv.addr
    · subst hb
      simp only [hwaits, if_true] at hold
      simp only [if_true, Bool.false_eq_true, if_false]
      omega
    · simpa [hb, Ne.symm hb] using hold
  · rw [hnow] at hw
    by_cases hb : block = inv.addr
    · simp [hb] at hw
    · simp only [hb, if_false] at hw
      refine History.owes_concat.mpr (.inr ⟨lk.asked block hw, ?_⟩)
      simp [Rmw.wakes, Rmw.replaces, Ne.symm hb]
  · have hold := lk.answered block
    rw [hnow]
    change (s.log ++ [_]).countP _ = (s.log ++ [_]).countP _ + _
    rw [List.countP_append, List.countP_append, hold]
    by_cases hb : block = inv.addr
    · simp [hb, hwaits, Rmw.asksFor, Rmw.wakes]
    · simp [hb, Ne.symm hb, Rmw.asksFor, Rmw.wakes]
  · refine History.always_concat.mpr ⟨lk.turns, fun block state waiting heq => ?_⟩
    cases heq
    exact ⟨hst, hwait, lk.asked _ hwaits⟩

/-- Every callback due reaches its entry. -/
theorem wakeAll {due : List (Invocation Rmw.Callback)} :
    ∀ {s t : Rmw.Sys κ (Ait.Sys Rmw.Callback τ μ)}, Linked due s ait →
      due.foldlM (fun s inv => Rmw.nextLevelReadCallback inv.addr inv.clk s) s = .ok t →
      Linked [] t ait := by
  induction due with
  | nil =>
      intro s t lk h
      obtain rfl := pure_eq_ok.mp h
      exact lk
  | cons inv due ih =>
      intro s t lk h
      rw [List.foldlM_cons, bind_eq_ok] at h
      obtain ⟨u, hu, h⟩ := h
      exact ih (lk.wake hu) h

/-- The AIT controller goes on by itself, and runs callbacks. -/
theorem below (lk : Linked [] s ait) (h : Ait.Moves (fun _ => False) ait ait')
    (hany : Ait.Moves Ait.readsOnly ait ait') :
    Linked ((ait'.log.drop ait.log.length).filterMap Ait.ranInvocation)
      { s with next := [ait'] } ait' where
  next := rfl
  mapping := lk.mapping
  ok := lk.ok.of_entry_eq fun _ => rfl
  aitOk := lk.aitOk.moves h
  readsOnly := reflTransGen_keeps (fun _ _ ro hm => ro.move hm) hany lk.readsOnly
  balanced weight := (lk.balanced weight).moves lk.aitOk h
  owed block := by
    rw [Ait.inFlight_of_moves (lk.balanced _) lk.aitOk h]
    exact lk.owed block
  asked := lk.asked
  answered := lk.answered
  turns := lk.turns

/-- **A tick of both keeps the invariant.** -/
theorem tick {visit : Visit} {clk : Clk} (lk : Linked [] s ait)
    (h : Rmw.tickComponent (Ait.component L M) visit clk s = .ok t) :
    ∃ ait', Linked [] t ait' := by
  simp only [Rmw.tickComponent, bind_eq_ok, Prod.exists] at h
  obtain ⟨u, htick, next, due, hnext, hdue⟩ := h
  obtain ⟨ait₁, lk₁⟩ := lk.moves (Rmw.tick_moves (Q := Rmw.alone) (fun _ _ _ _ _ _ _ => trivial) htick)
  obtain ⟨outs, houts, rfl, rfl⟩ := Component.tickNext_eq_ok hnext
  rw [lk₁.next] at houts
  obtain ⟨⟨ait₂, ran⟩, outs', hout, hnil, rfl⟩ := List.forall₂_cons_left_iff.mp houts
  obtain rfl := List.forall₂_nil_left_iff.mp hnil
  simp only [Ait.component, bind_eq_ok, pure_eq_ok, Prod.mk.injEq] at hout
  obtain ⟨ait', hait, rfl, rfl⟩ := hout
  have lk₂ := lk₁.below (Ait.tickComponent_moves hait) (Ait.tickComponent_moves hait)
  refine ⟨ait', wakeAll lk₂ ?_⟩
  simpa using hdue

/-- `drain` of both keeps it. -/
theorem drain (lk : Linked [] s ait) (h : Rmw.drain (Ait.component L M) s = .ok t) :
    ∃ ait', Linked [] t ait' := by
  unfold Rmw.drain at h
  split at h
  · simp only [bind_eq_ok, throw_ne_ok, false_and, exists_false] at h
  · simp only [bind_eq_ok, pure_eq_ok] at h
    obtain ⟨next, hdrain, rfl⟩ := h
    obtain ⟨ait₁, lk₁⟩ := lk.moves (L := L) (M := M)
      (t := Rmw.drainCurrent { s with ctrl.isDraining := true })
      ((Relation.ReflTransGen.single .draining).trans Rmw.drainCurrent_moves)
    rw [lk₁.next, mapM_eq_ok] at hdrain
    obtain ⟨ait', rest, hait, hnil, rfl⟩ := List.forall₂_cons_left_iff.mp hdrain
    obtain rfl := List.forall₂_nil_left_iff.mp hnil
    have lk₂ := lk₁.below (Ait.drain_moves hait) (Ait.drain_moves hait)
    rw [Ait.drain_log hait, List.drop_length, List.filterMap_nil] at lk₂
    exact ⟨ait', lk₂⟩

theorem init {cfg : Rmw.Config} (hmap : cfg.mappingFunc = noneMapping) {acfg : Ait.Config}
    {localMemory : τ} {media : List μ} :
    Linked [] (Rmw.Sys.init cfg [Ait.Sys.init acfg localMemory media] : Rmw.Sys κ _)
      (Ait.Sys.init acfg localMemory media) where
  next := rfl
  mapping := hmap
  ok := .init
  aitOk := .init
  readsOnly := .init
  balanced _ := .init
  owed block := by simp [Ait.Sys.inFlight, Ait.requestsWeight, Ait.ranWeight, Ait.Sys.init,
    Rmw.Sys.waits, Rmw.Sys.entry, Rmw.Sys.init]
  asked block hw := by simp [Rmw.Sys.waits, Rmw.Sys.entry, Rmw.Sys.init] at hw
  answered block := by simp [Rmw.Sys.waits, Rmw.Sys.entry, Rmw.Sys.init]
  turns := History.always_nil

/-- Every run of the component keeps it. -/
theorem run {calls : List (Call κ)} {s t : Driven κ (Rmw.Sys κ (Ait.Sys Rmw.Callback τ μ))}
    (lk : ∃ ait, Linked [] s.state ait)
    (h : (Rmw.component (Ait.component L M)).machine.run s calls = .ok t) :
    ∃ ait, Linked [] t.state ait := by
  refine Component.run_keeps (P := fun u => ∃ ait, Linked [] u ait) ?_ ?_ ?_ lk h
  · rintro req u resp req' v ⟨ait, lk⟩ hissue
    simp only [Rmw.component, bind_eq_ok, Prod.exists, pure_eq_ok, Prod.mk.injEq] at hissue
    obtain ⟨resp', v', hissue, -, -, rfl⟩ := hissue
    exact lk.moves (L := L) (M := M) (Rmw.issueRequest_moves trivial hissue)
  · rintro visit clk u v ran ⟨ait, lk⟩ htick
    simp only [Rmw.component, bind_eq_ok, pure_eq_ok, Prod.mk.injEq] at htick
    obtain ⟨v', htick, rfl, -⟩ := htick
    exact lk.tick htick
  · rintro u v ⟨ait, lk⟩ hdrain
    exact lk.drain hdrain

end Linked

/-! ## The protocol -/

/-- **The wake-up protocol.** In every reachable state of the RMW
controller over the AIT controller, an entry waits in `pending_ait_r`
if and only if exactly one read of its block is outstanding, and where
no entry waits none is. Every callback that was run found the entry in
`pending_ait_r`, still waiting, after the read that it answers, with no
other callback for the block and no new request in the entry in
between; and the reads asked for a block are the callbacks run and those
outstanding. -/
theorem wakeup_protocol {cfg : Rmw.Config} {acfg : Ait.Config} {localMemory : τ} {media : List μ}
    {calls : List (Call κ)} {s : Driven κ (Rmw.Sys κ (Ait.Sys Rmw.Callback τ μ))}
    (hmap : cfg.mappingFunc = noneMapping)
    (h : (Rmw.component (Ait.component L M)).machine.run
      ⟨Rmw.Sys.init cfg [Ait.Sys.init acfg localMemory media], [], []⟩ calls = .ok s) :
    ∃ ait, s.state.next = [ait] ∧
      (∀ block e, s.state.entry block = some e →
        (e.state = .pendingAitR ∧ e.waitingActionClkUpdate = true ↔ outstanding block ait = 1)) ∧
      (∀ block, s.state.waits block = false → outstanding block ait = 0) ∧
      (∀ before block state waiting after,
        s.state.log = before ++ .woken block state waiting :: after →
        state = .pendingAitR ∧ waiting = true ∧
          ∃ earlier since, before = earlier ++ .nextLevel .read block :: since ∧
            ∀ o ∈ since, Rmw.wakes block o = false ∧ Rmw.replaces block o = false) ∧
      (∀ block, s.state.log.countP (Rmw.asksFor block) =
        s.state.log.countP (Rmw.wakes block) + outstanding block ait) := by
  obtain ⟨ait, lk⟩ := Linked.run ⟨_, .init hmap⟩ h
  have howed : ∀ block, outstanding block ait = if s.state.waits block then 1 else 0 := fun block => by
    rw [outstanding_eq lk.readsOnly, ← lk.owed block]
    rfl
  refine ⟨ait, lk.next, fun block e he => ?_, fun block hno => ?_,
    fun before block state waiting after hlog => ?_, fun block => ?_⟩
  · rw [howed, Rmw.waits_of_entry he]
    by_cases hst : e.state = .pendingAitR <;> simp [Rmw.BufferEntry.waits, hst]
  · rw [howed, hno]
    rfl
  · obtain ⟨hst, hwait, earlier, o, since, hbefore, hask, hno⟩ :=
      lk.turns before _ after hlog block state waiting rfl
    refine ⟨hst, hwait, earlier, since, ?_, fun o ho => by simpa using hno o ho⟩
    rw [hbefore, Rmw.eq_of_asksFor hask]
  · rw [lk.answered block, howed]

/-- A small configuration, to run. -/
def smallAit : Ait.Config where
  mappingFunc := noneMapping
  bufferEntries := 1
  lsqEntries := 2
  lmemqEntries := 1
  wearLevelingThreshold := 2
  migrationBlockEntries := 1
  migrationLatency := 1

/-- A local memory that serves every access at its next tick. -/
def promptMemory : Component Ait.SubreqCallback (List (BaseRequest Ait.SubreqCallback)) where
  issueRequest := fun req q => pure (⟨true, false, clkInvalid⟩, req, q ++ [req])
  full := fun _ => pure false
  pending := fun q => !q.isEmpty
  drain := pure
  tick := fun _ clk q => pure ([], q.flatMap fun req => invoke req.callback req.addr clk)

/-- A read, and the ticks that see it through. -/
def oneRead : List (Call ℕ) :=
  .issueRequest { addr := 64, arrive := 0, type := .read, callback := some 0 } ::
    (List.range 14).map fun i => .tick (fun _ => .asHeld) (UInt64.ofNat i)

/-- In the run of one read the AIT controller calls back once, and
nothing is left outstanding. -/
theorem wakeup_protocol_oneRead :
    ∃ s ait, (Rmw.component (Ait.component promptMemory StaticMemory.component)).machine.run
        ⟨Rmw.Sys.init Rmw.smallConfig [Ait.Sys.init smallAit [] [⟨1, 1⟩]], [], []⟩ oneRead = .ok s ∧
      s.state.next = [ait] ∧ s.state.log.countP (Rmw.wakes 0) = 1 ∧ outstanding 0 ait = 0 := by
  obtain ⟨s, hrun, hwakes, hasks⟩ : ∃ s,
      (Rmw.component (Ait.component promptMemory StaticMemory.component)).machine.run
        ⟨Rmw.Sys.init Rmw.smallConfig [Ait.Sys.init smallAit [] [⟨1, 1⟩]], [], []⟩ oneRead = .ok s ∧
      s.state.log.countP (Rmw.wakes 0) = 1 ∧ s.state.log.countP (Rmw.asksFor 0) = 1 :=
    ⟨_, rfl, by decide, by decide⟩
  obtain ⟨ait, hnext, -, -, -, hcount⟩ := wakeup_protocol rfl hrun
  have hzero := hcount 0
  exact ⟨s, ait, hrun, hnext, hwakes, by omega⟩

end Nvram

end Vans
