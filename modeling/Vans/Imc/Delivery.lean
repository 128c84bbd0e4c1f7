import Vans.Imc.Model
import Vans.Model.Interleave
import Mathlib.Data.List.Induction
/-!
# The iMC — where it delivers

The two queues are first in, first out, so the requests delivered of
each type are the first of those accepted. A write is delivered to the
component its address maps to, under the address as it came. A read is
delivered under the mapped address; each time it is held back, its
address has been mapped once more.
-/

namespace Vans

namespace Imc

open ComponentMapping

variable {κ σ : Type} {C : Component κ σ} {rounds : ℕ}

/-! ## Deliveries -/

def acceptedReq (type : BaseRequestType) : Obs κ → Option (BaseRequest κ)
  | .accepted req => if req.type = type then some req else none
  | _ => none

/-- The requests of a type accepted, in order. -/
def accepted (type : BaseRequestType) (log : List (Obs κ)) : List (BaseRequest κ) :=
  log.filterMap (acceptedReq type)

/-- How often the read now at the front has been held back, and the
reads delivered: how often each was held back, and the address and the
component it was delivered with. -/
def readProgress (log : List (Obs κ)) : ℕ × List (ℕ × Addr × ℕ) :=
  log.foldl
    (fun (held, delivered) o =>
      match o with
      | .heldBack => (held + 1, delivered)
      | .handed .read component addr => (0, delivered ++ [(held, addr, component)])
      | _ => (held, delivered))
    (0, [])

def readDeliveries (log : List (Obs κ)) : List (ℕ × Addr × ℕ) := (readProgress log).2

/-- The writes delivered, in order. -/
def writeDeliveries (log : List (Obs κ)) : List (Addr × ℕ) :=
  log.filterMap fun
    | .handed .write component addr => some (addr, component)
    | _ => none

section Logs

variable {log : List (Obs κ)} {req : BaseRequest κ} {type type' : BaseRequestType}
  {component : ℕ} {addr : Addr} {invs : List (Invocation κ)}

theorem accepted_accepted (ht : req.type = type) :
    accepted type (log ++ [.accepted req]) = accepted type log ++ [req] := by
  simp [accepted, acceptedReq, ht]

theorem accepted_accepted_ne (ht : req.type ≠ type) :
    accepted type (log ++ [.accepted req]) = accepted type log := by
  simp [accepted, acceptedReq, ht]

@[simp] theorem accepted_heldBack :
    accepted type (log ++ [.heldBack]) = accepted type log := by
  simp [accepted, List.filterMap_cons, acceptedReq]

@[simp] theorem accepted_handed_read :
    accepted type (log ++ [.handed .read component addr]) = accepted type log := by
  simp [accepted, List.filterMap_cons, acceptedReq]

@[simp] theorem accepted_handed :
    accepted type (log ++ .handed type' component addr :: invs.map .ran) = accepted type log := by
  have hran : (invs.map Obs.ran).filterMap (acceptedReq type) = ([] : List (BaseRequest κ)) := by
    simp [List.filterMap_eq_nil_iff, acceptedReq]
  simp only [accepted, List.filterMap_append, List.filterMap_cons, hran, acceptedReq,
    List.append_nil]

@[simp] theorem writeDeliveries_accepted :
    writeDeliveries (log ++ [.accepted req]) = writeDeliveries log := by
  simp [writeDeliveries]

@[simp] theorem writeDeliveries_heldBack :
    writeDeliveries (log ++ [.heldBack]) = writeDeliveries log := by
  simp [writeDeliveries]

@[simp] theorem writeDeliveries_handed_read :
    writeDeliveries (log ++ [.handed .read component addr]) = writeDeliveries log := by
  simp [writeDeliveries]

theorem writeDeliveries_handed :
    writeDeliveries (log ++ .handed .write component addr :: invs.map .ran) =
      writeDeliveries log ++ [(addr, component)] := by
  simp [writeDeliveries]

@[simp] theorem readProgress_accepted :
    readProgress (log ++ [.accepted req]) = readProgress log := by
  simp [readProgress, List.foldl_append]

theorem readProgress_heldBack :
    readProgress (log ++ [.heldBack]) = ((readProgress log).1 + 1, (readProgress log).2) := by
  simp [readProgress, List.foldl_append]

theorem readProgress_handed :
    readProgress (log ++ [.handed .read component addr]) =
      (0, (readProgress log).2 ++ [((readProgress log).1, addr, component)]) := by
  simp [readProgress, List.foldl_append]

@[simp] theorem readProgress_handed_write :
    readProgress (log ++ .handed .write component addr :: invs.map .ran) = readProgress log := by
  induction invs using List.reverseRecOn with
  | nil => simp [readProgress, List.foldl_append]
  | append_singleton invs inv ih =>
      rw [List.map_append, ← List.cons_append, ← List.append_assoc]
      unfold readProgress at *
      rw [List.foldl_append, ih]
      rfl

end Logs

/-- The reads waiting, as the queue holds them: the first has been
mapped as often as it was held back. -/
def tried (f : ComponentMapping) (total held : ℕ) : List (BaseRequest κ) → List (BaseRequest κ)
  | [] => []
  | r :: rs => { r with addr := (localAddr f total)^[held] r.addr } :: rs

@[simp] theorem tried_zero {f : ComponentMapping} {total : ℕ} {rs : List (BaseRequest κ)} :
    tried f total 0 rs = rs := by
  cases rs <;> rfl

/-! ## The invariant -/

/-- A component that has room leaves a request it refuses as it was.
The components placed below the controller take whatever they have room
for. -/
def KeepsRefused (C : Component κ σ) : Prop :=
  ∀ req s resp req' s', C.full s = .ok false → C.issueRequest req s = .ok (resp, req', s') →
    resp.issued = false → req' = req

/-- The reads accepted are those delivered, each mapped once more than
it was held back, and those waiting. -/
def ReadsDelivered (f : ComponentMapping) (total : ℕ) (reads : List (BaseRequest κ))
    (progress : ℕ × List (ℕ × Addr × ℕ)) (queue : List (BaseRequest κ)) : Prop :=
  ∃ done waiting, reads = done ++ waiting ∧ queue = tried f total progress.1 waiting ∧
    (waiting = [] → progress.1 = 0) ∧
    List.Forall₂ (fun r d => d.2 = f ((localAddr f total)^[d.1] r.addr) total) done progress.2

/-- The writes accepted are those delivered, under their own addresses,
and those waiting. -/
def WritesDelivered (f : ComponentMapping) (total : ℕ) (writes : List (BaseRequest κ))
    (delivered : List (Addr × ℕ)) (queue : List (BaseRequest κ)) : Prop :=
  ∃ done, writes = done ++ queue ∧
    List.Forall₂ (fun w d => d = (w.addr, target f total w.addr)) done delivered

section Delivered

variable {f : ComponentMapping} {total held : ℕ} {reads queue rest : List (BaseRequest κ)}
  {req : BaseRequest κ} {delivered : List (ℕ × Addr × ℕ)} {written : List (Addr × ℕ)}

theorem ReadsDelivered.accept (h : ReadsDelivered f total reads (held, delivered) queue) :
    ReadsDelivered f total (reads ++ [req]) (held, delivered) (queue ++ [req]) := by
  obtain ⟨done, waiting, rfl, rfl, hzero, hdone⟩ := h
  refine ⟨done, waiting ++ [req], List.append_assoc .., ?_, by simp, hdone⟩
  cases waiting with
  | nil =>
      rw [show held = 0 from hzero rfl]
      simp [tried]
  | cons r rs => rfl

theorem ReadsDelivered.hold (h : ReadsDelivered f total reads (held, delivered) (req :: rest)) :
    ReadsDelivered f total reads (held + 1, delivered)
      ({ req with addr := localAddr f total req.addr } :: rest) := by
  obtain ⟨done, waiting, rfl, hqueue, -, hdone⟩ := h
  cases waiting with
  | nil => simp [tried] at hqueue
  | cons r rs =>
      obtain ⟨rfl, rfl⟩ := List.cons.inj hqueue
      refine ⟨done, r :: rest, rfl, ?_, nofun, hdone⟩
      rw [tried, Function.iterate_succ_apply']

theorem ReadsDelivered.hand (h : ReadsDelivered f total reads (held, delivered) (req :: rest)) :
    ReadsDelivered f total reads (0, delivered ++ [(held, f req.addr total)]) rest := by
  obtain ⟨done, waiting, rfl, hqueue, -, hdone⟩ := h
  cases waiting with
  | nil => simp [tried] at hqueue
  | cons r rs =>
      obtain ⟨rfl, rfl⟩ := List.cons.inj hqueue
      exact ⟨done ++ [r], rest, by simp, tried_zero.symm, fun _ => rfl,
        List.rel_append hdone (.cons rfl .nil)⟩

theorem WritesDelivered.accept (h : WritesDelivered f total reads written queue) :
    WritesDelivered f total (reads ++ [req]) written (queue ++ [req]) := by
  obtain ⟨done, rfl, hdone⟩ := h
  exact ⟨done, List.append_assoc .., hdone⟩

theorem WritesDelivered.hand (h : WritesDelivered f total reads written (req :: rest)) :
    WritesDelivered f total reads (written ++ [(req.addr, target f total req.addr)]) rest := by
  obtain ⟨done, rfl, hdone⟩ := h
  exact ⟨done ++ [req], by simp, List.rel_append hdone (.cons rfl .nil)⟩

end Delivered

/-- **The delivery invariant.** -/
structure Sys.Delivers (f : ComponentMapping) (total : ℕ) (s : Sys κ σ) : Prop where
  mapping : s.ctrl.mappingFunc = f
  count : s.next.length = total
  reads : ReadsDelivered f total (accepted .read s.log) (readProgress s.log) s.ctrl.rpq.queue
  writes : WritesDelivered f total (accepted .write s.log) (writeDeliveries s.log)
    s.ctrl.wpq.queue

/-- The component asked keeps a request it refuses. -/
theorem issueTo_refused (hC : KeepsRefused C) {next next' : List σ} {i : ℕ}
    {req req' : BaseRequest κ} {resp : BaseResponse} (hfull : C.fullAt next i = .ok false)
    (h : C.issueTo next i req = .ok (resp, req', next')) (hno : resp.issued = false) :
    req' = req := by
  obtain ⟨st, st', hst, hissue, -⟩ := Component.issueTo_eq_ok.mp h
  unfold Component.fullAt at hfull
  simp only [hst] at hfull
  exact hC _ _ _ _ _ hfull hissue hno

namespace Sys.Delivers

variable {f : ComponentMapping} {total : ℕ} {s t : Sys κ σ}

/-- **Every move keeps the delivery invariant.** -/
theorem move {Q : Sys κ σ → BaseRequest κ → Prop} (d : s.Delivers f total)
    (hC : KeepsRefused C) (h : Move C Q s t) :
    t.Delivers f total := by
  obtain ⟨rfl, rfl, reads, writes⟩ := d
  cases h with
  | draining => exact ⟨rfl, rfl, reads, writes⟩
  | child hlen => exact ⟨rfl, hlen, hlen ▸ reads, hlen ▸ writes⟩
  | acceptRead ht room =>
      refine ⟨rfl, rfl, ?_, ?_⟩
      · rw [accepted_accepted ht, readProgress_accepted]
        exact reads.accept
      · rw [accepted_accepted_ne (by simp [ht]), writeDeliveries_accepted]
        exact writes
  | acceptWrite ht room =>
      refine ⟨rfl, rfl, ?_, ?_⟩
      · rw [accepted_accepted_ne (by simp [ht]), readProgress_accepted]
        exact reads
      · rw [accepted_accepted ht, writeDeliveries_accepted]
        exact writes.accept
  | hands hm =>
      cases hm with
      | clock => exact ⟨rfl, rfl, reads, writes⟩
      | holdRead hq hfull =>
          refine ⟨rfl, rfl, ?_, by simpa using writes⟩
          rw [hq] at reads
          -- the read stays, mapped once more
          rw [accepted_heldBack, readProgress_heldBack]
          exact reads.hold
      | refuseRead hq hfull hissue hno =>
          have hlen := Component.issueTo_length hissue
          refine ⟨rfl, hlen, ?_, by simpa using writes⟩
          rw [hq] at reads
          rw [accepted_heldBack, readProgress_heldBack, issueTo_refused hC hfull hissue hno]
          exact reads.hold
      | handRead hq hfirst hissue hyes =>
          refine ⟨rfl, Component.issueTo_length hissue, ?_, ?_⟩
          · rw [hq] at reads
            rw [accepted_handed_read, readProgress_handed]
            exact reads.hand
          · simpa using writes
      | refuseWrite hq hfull hissue hno =>
          refine ⟨rfl, Component.issueTo_length hissue, reads, ?_⟩
          change WritesDelivered _ _ _ _ (_ :: _)
          rw [issueTo_refused hC hfull hissue hno, ← hq]
          exact writes
      | handWrite hq hfirst hissue hyes =>
          refine ⟨rfl, Component.issueTo_length hissue, by simpa using reads, ?_⟩
          rw [hq] at writes
          rw [accepted_handed, writeDeliveries_handed]
          exact writes.hand

theorem init {cfg : Config} {next : List σ} :
    (Sys.init cfg next : Sys κ σ).Delivers cfg.mappingFunc next.length :=
  ⟨rfl, rfl, ⟨[], [], rfl, rfl, fun _ => rfl, .nil⟩, ⟨[], rfl, .nil⟩⟩

theorem run {es : List (Event κ σ)} (d : s.Delivers f total) (hC : KeepsRefused C)
    (h : (machine rounds C).run s es = .ok t) : t.Delivers f total :=
  run_keeps (fun _ _ d hm => d.move hC hm) d h

end Sys.Delivers

/-! ## Where requests are delivered -/

/-- Two lists related element by element are related at every position,
whatever follows in the first. -/
theorem forall₂_getElem? {α β : Type} {R : α → β → Prop} {xs more : List α} {ys : List β}
    (h : List.Forall₂ R xs ys) {k : ℕ} {x : α} {y : β} (hx : (xs ++ more)[k]? = some x)
    (hy : ys[k]? = some y) : R x y := by
  induction h generalizing k with
  | nil => simp at hy
  | cons hxy _ ih =>
      cases k with
      | zero =>
          simp only [List.cons_append, List.getElem?_cons_zero, Option.some.injEq] at hx hy
          exact hx ▸ hy ▸ hxy
      | succ k =>
          simp only [List.cons_append, List.getElem?_cons_succ] at hx hy
          exact ih hx hy

section Runs

variable {name : String} {cfg : Config} {next : List σ} {es : List (Event κ σ)} {s : Sys κ σ}
  {r w : BaseRequest κ} {j k : ℕ}

/-- **Where a read is delivered**: its address has been mapped once more
than it was held back. -/
theorem read_delivery (hC : KeepsRefused C)
    (h : (machine rounds C).run (Sys.init cfg next) es = .ok s) {held : ℕ} {read : Addr × ℕ}
    (hr : (accepted .read s.log)[k]? = some r)
    (hread : (readDeliveries s.log)[k]? = some (held, read)) :
    read = cfg.mappingFunc ((localAddr cfg.mappingFunc next.length)^[held] r.addr) next.length := by
  obtain ⟨done, waiting, hacc, -, -, hdone⟩ := (Sys.Delivers.init.run hC h).reads
  rw [hacc] at hr
  exact forall₂_getElem? hdone hr hread

/-- **Where a write is delivered**: to the component of its address,
under the address it came with. -/
theorem write_delivery (hC : KeepsRefused C)
    (h : (machine rounds C).run (Sys.init cfg next) es = .ok s) {write : Addr × ℕ}
    (hw : (accepted .write s.log)[k]? = some w)
    (hwrite : (writeDeliveries s.log)[k]? = some write) :
    write = (w.addr, target cfg.mappingFunc next.length w.addr) := by
  obtain ⟨done, hacc, hdone⟩ := (Sys.Delivers.init.run hC h).writes
  rw [hacc] at hw
  exact forall₂_getElem? hdone hw hwrite

/-- **Reads and writes agree on settled addresses only.** A read that
was not held back and a write, both of one address, are both delivered
as the mapping says if and only if the mapping leaves the address as it
is. -/
theorem read_write_agree_iff (hf : getComponentMappingFunc name = .ok cfg.mappingFunc)
    (hC : KeepsRefused C) (h : (machine rounds C).run (Sys.init cfg next) es = .ok s)
    {read write : Addr × ℕ} (hr : (accepted .read s.log)[j]? = some r)
    (hread : (readDeliveries s.log)[j]? = some (0, read))
    (hw : (accepted .write s.log)[k]? = some w)
    (hwrite : (writeDeliveries s.log)[k]? = some write) (haddr : w.addr = r.addr) :
    (read = cfg.mappingFunc r.addr next.length ∧ write = cfg.mappingFunc r.addr next.length) ↔
      Settled cfg.mappingFunc next.length r.addr := by
  rw [read_delivery hC h hr hread, write_delivery hC h hw hwrite, haddr,
    ← localAddr_eq_self_iff (getComponentMappingFunc_eq_ok hf)]
  constructor
  · rintro ⟨-, hpair⟩
    exact (congrArg Prod.fst hpair).symm
  · intro hself
    exact ⟨rfl, Prod.ext hself.symm rfl⟩

/-- **A read goes astray when it is held back.** Each read accepted is
delivered once or waits; and it is delivered as the mapping says if and
only if it was never held back or the mapping leaves its address as it
is. -/
theorem read_delivered_iff (hf : getComponentMappingFunc name = .ok cfg.mappingFunc)
    (hC : KeepsRefused C) (hpos : 0 < next.length)
    (h : (machine rounds C).run (Sys.init cfg next) es = .ok s) :
    (accepted .read s.log).length =
      (readDeliveries s.log).length + s.ctrl.rpq.queue.length ∧
    ∀ (k : ℕ) (r : BaseRequest κ) (held : ℕ) (read : Addr × ℕ),
      (accepted .read s.log)[k]? = some r →
      (readDeliveries s.log)[k]? = some (held, read) →
      (read = cfg.mappingFunc r.addr next.length ↔
        held = 0 ∨ Settled cfg.mappingFunc next.length r.addr) := by
  constructor
  · obtain ⟨done, waiting, hacc, hqueue, -, hdone⟩ := (Sys.Delivers.init.run hC h).reads
    have hlen : s.ctrl.rpq.queue.length = waiting.length := by
      rw [hqueue]
      cases waiting <;> rfl
    rw [hacc, List.length_append, hlen, hdone.length_eq]
    rfl
  · intro k r held read hr hread
    rw [read_delivery hC h hr hread]
    exact iterate_eq_iff (getComponentMappingFunc_eq_ok hf) hpos

end Runs

/-! ### Runs over two components -/

/-- A component that takes every request while its gate is open, and is
full while it is shut. -/
def gate : Component κ Bool where
  issueRequest := fun req shut => pure (⟨!shut, false, clkInvalid⟩, req, shut)
  full := pure
  pending := fun _ => false
  drain := pure
  tick := fun _ _ shut => pure (shut, [])

theorem gate_keepsRefused : KeepsRefused (gate : Component κ Bool) := by
  intro req s resp req' s' _ h _
  simp only [gate, pure_eq_ok, Prod.mk.injEq] at h
  exact h.2.1.symm

/-- One place in each queue, over interleaved components. -/
def interleaved : Config where
  mappingFunc := strideMapping4096
  wpqEntries := 1
  rpqEntries := 1
  adrEpoch := 0

def gateRun (es : List (Event Unit Bool)) : Result (Sys Unit Bool) :=
  (machine 2 gate).run (Sys.init interleaved [false, false]) es

/-- A read and a write of one address, one after the other. -/
def readThenWrite (a : Addr) : List (Event Unit Bool) :=
  [.issueRequest { addr := a, arrive := 0, type := .read }, .tick 0,
    .issueRequest { addr := a, arrive := 1, type := .write }, .tick 1]

theorem read_write_agree_iff_firstPage :
    ∃ s, gateRun (readThenWrite 64) = .ok s ∧
      readDeliveries s.log = [(0, strideMapping4096 64 2)] ∧
      writeDeliveries s.log = [strideMapping4096 64 2] := by
  obtain ⟨s, hrun, hread, hreads, hwrite, hwrites⟩ : ∃ s, gateRun (readThenWrite 64) = .ok s ∧
      accepted .read s.log = [{ addr := 64, arrive := 0, type := .read }] ∧
      readDeliveries s.log = [(0, 64, 0)] ∧
      accepted .write s.log = [{ addr := 64, arrive := 1, type := .write }] ∧
      writeDeliveries s.log = [(64, 0)] := ⟨_, rfl, by decide, by decide, by decide, by decide⟩
  obtain ⟨hreadAt, hwriteAt⟩ := (read_write_agree_iff (j := 0) (k := 0)
    (r := { addr := 64, arrive := 0, type := .read })
    (w := { addr := 64, arrive := 1, type := .write })
    (rfl : getComponentMappingFunc "stride_mapping(4096)" = _) gate_keepsRefused hrun
    (by rw [hread]; rfl) (by rw [hreads]; rfl) (by rw [hwrite]; rfl) (by rw [hwrites]; rfl)
    rfl).mpr (.inr (.inr (by decide)))
  exact ⟨s, hrun, hreads.trans (congrArg (fun p => [(0, p)]) hreadAt),
    hwrites.trans (congrArg (fun p => [p]) hwriteAt)⟩

/-- **A write of the second page goes astray**: a read of its address is
delivered to the second component as address zero, the write to the same
component as address 4096. -/
theorem readThenWrite_disagree :
    ∃ s, gateRun (readThenWrite 4096) = .ok s ∧
      readDeliveries s.log = [(0, strideMapping4096 4096 2)] ∧
      writeDeliveries s.log = [(4096, 1)] ∧ strideMapping4096 4096 2 = (0, 1) :=
  ⟨_, rfl, by decide, by decide, by decide⟩

/-- A read whose component is full for a tick. -/
def heldRead (a : Addr) : List (Event Unit Bool) :=
  [.issueRequest { addr := a, arrive := 0, type := .read }, .child 0 true, .child 1 true, .tick 0,
    .child 0 false, .child 1 false, .tick 1]

theorem read_delivered_iff_firstPage :
    ∃ s, gateRun (heldRead 64) = .ok s ∧ readDeliveries s.log = [(1, strideMapping4096 64 2)] := by
  obtain ⟨s, hrun, hread, hreads⟩ : ∃ s, gateRun (heldRead 64) = .ok s ∧
      accepted .read s.log = [{ addr := 64, arrive := 0, type := .read }] ∧
      readDeliveries s.log = [(1, 64, 0)] := ⟨_, rfl, by decide, by decide⟩
  have hdeliv := ((read_delivered_iff
    (rfl : getComponentMappingFunc "stride_mapping(4096)" = _) gate_keepsRefused (by decide)
    hrun).2 0 _ 1 (64, 0) (by rw [hread]; rfl) (by rw [hreads]; rfl)).mpr
      (.inr (.inr (.inr (by decide))))
  exact ⟨s, hrun, hreads.trans (congrArg (fun p => [(1, p)]) hdeliv)⟩

/-- **A read held back for a tick goes astray**: it is for address zero
of the second component, and is delivered to the first. -/
theorem heldRead_astray :
    ∃ s, gateRun (heldRead 4096) = .ok s ∧ readDeliveries s.log = [(1, 0, 0)] ∧
      strideMapping4096 4096 2 = (0, 1) :=
  ⟨_, rfl, by decide, by decide⟩

end Imc

end Vans
