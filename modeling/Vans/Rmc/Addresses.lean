import Vans.Rmc.Retry
import Vans.Imc.Fcfs
import Vans.Imc.Order
import Vans.Nvram.System
import Vans.Nvram.Wakeup
import Vans.Rmw.Addresses
/-!
# The request path — the address of a completion

A request comes in at the RMC under one address, and its callback is run
with an address. On the way down the RMC moves the address by where it
starts and the iMC maps that of a read; nothing moves it back. So the
callback of a write is run with the moved address, and that of a read
with the line of the address inside its component.
-/

namespace Vans

variable {κ σ : Type}

/-! ## What a component runs callbacks with -/

/-- **A component that answers under the addresses it may**: asked only
what it may be, it runs only callbacks it may, with the addresses it may.
It gives a request back as it was. -/
structure Component.AnswersAt (C : Component κ σ) (asks : BaseRequest κ → Prop)
    (answers : κ → Addr → Prop) (fit : σ → Prop) : Prop where
  issue : ∀ {req s resp req' s'}, fit s → C.issueRequest req s = .ok (resp, req', s') →
    (resp.issued → asks req) → req' = req ∧ fit s'
  tick : ∀ {visit clk s s' ran}, fit s → C.tick visit clk s = .ok (s', ran) →
    fit s' ∧ ∀ inv ∈ ran, answers inv.callback inv.addr
  drain : ∀ {s s'}, fit s → C.drain s = .ok s' → fit s'

namespace Component.AnswersAt

variable {C : Component κ σ} {asks : BaseRequest κ → Prop} {answers : κ → Addr → Prop}
  {fit : σ → Prop} {next next' : List σ} {i : ℕ} {req req' : BaseRequest κ} {resp : BaseResponse}

theorem issueTo (hC : C.AnswersAt asks answers fit) (hfit : ∀ st ∈ next, fit st)
    (h : C.issueTo next i req = .ok (resp, req', next')) (hasks : resp.issued → asks req) :
    req' = req ∧ next'.length = next.length ∧ ∀ st ∈ next', fit st := by
  obtain ⟨st, st', hst, hissue, rfl⟩ := Component.issueTo_eq_ok.mp h
  obtain ⟨rfl, hst'⟩ := hC.issue (hfit st (List.mem_of_getElem? hst)) hissue hasks
  refine ⟨rfl, List.length_set, fun u hu => ?_⟩
  rcases List.mem_or_eq_of_mem_set hu with hold | rfl
  · exact hfit u hold
  · exact hst'

theorem tickNext {visit : Visit} {clk : Clk} {ran : List (Invocation κ)}
    (hC : C.AnswersAt asks answers fit) (hfit : ∀ st ∈ next, fit st)
    (h : C.tickNext visit clk next = .ok (next', ran)) :
    next'.length = next.length ∧ (∀ st ∈ next', fit st) ∧
      ∀ inv ∈ ran, answers inv.callback inv.addr := by
  have hlen := Component.tickNext_length h
  obtain ⟨outs, houts, rfl, rfl⟩ := tickNext_eq_ok h
  have hout : ∀ out ∈ outs, fit out.1 ∧ ∀ inv ∈ out.2, answers inv.callback inv.addr := by
    intro out hmem
    obtain ⟨i, hi, rfl⟩ := List.mem_iff_getElem.mp hmem
    have hi' : i < next.zipIdx.length := by rw [houts.length_eq]; exact hi
    have htick := houts.get hi' hi
    refine hC.tick (hfit _ ?_) htick
    simp
  refine ⟨hlen, fun st hst => ?_, fun inv hinv => ?_⟩
  · obtain ⟨out, hmem, rfl⟩ := List.mem_map.mp hst
    exact (hout out hmem).1
  · obtain ⟨out, hmem, hinv⟩ := List.mem_flatMap.mp hinv
    exact (hout out hmem).2 inv hinv

theorem drainNext (hC : C.AnswersAt asks answers fit) (hfit : ∀ st ∈ next, fit st)
    (h : next.mapM C.drain = .ok next') : next'.length = next.length ∧ ∀ st ∈ next', fit st := by
  have hall := mapM_eq_ok.mp h
  refine ⟨hall.length_eq.symm, fun st hst => ?_⟩
  obtain ⟨i, hi, rfl⟩ := List.mem_iff_getElem.mp hst
  have hi' : i < next.length := by rw [hall.length_eq]; exact hi
  exact hC.drain (hfit _ (List.getElem_mem hi')) (hall.get hi' hi)

end Component.AnswersAt

/-! ## The RMW controller and the NVRAM system -/

section Layers

open Rmw (ReadIssued Moves onlyIssued issueRequest_moves PatchOk tickComponent_moves drain_moves
  ranInvocation)

variable {issued : κ → Addr → Prop}

/-- The callback belongs to a read of the line. -/
def LineOf (issued : κ → Addr → Prop) (c : κ) (line : Addr) : Prop :=
  ∃ a, issued c a ∧ Rmw.lineAddr a = line

/-- **The RMW controller calls back reads it was asked**, each with its
line. -/
theorem Rmw.answersAt {C : Component Rmw.Callback σ} :
    (Rmw.component C : Component κ _).AnswersAt (ReadIssued issued) (LineOf issued)
      fun s => s.Ok ∧ s.Addressed issued := by
  have hmoves : ∀ {s t : Rmw.Sys κ σ}, Moves C (onlyIssued issued) s t →
      s.Ok ∧ s.Addressed issued → t.Ok ∧ t.Addressed issued :=
    fun hm hs => reflTransGen_keeps (P := fun u => u.Ok ∧ u.Addressed issued)
      (fun _ _ hu hm => ⟨hu.1.move hm, hu.2.move hu.1 hm⟩) hm hs
  refine ⟨?_, ?_, ?_⟩
  · intro req s resp req' s' hs hissue hasks
    simp only [Rmw.component, bind_eq_ok, Prod.exists, pure_eq_ok, Prod.mk.injEq] at hissue
    obtain ⟨resp, t, hissue, rfl, rfl, rfl⟩ := hissue
    refine ⟨rfl, ?_⟩
    cases hyes : resp.issued with
    | true => exact hmoves (issueRequest_moves (hasks hyes) hissue) hs
    | false =>
        obtain ⟨rfl, -⟩ := OnPath.refusesAs (.rmw C) req s resp req t
          (by simp [Rmw.component, hissue]) hyes
        exact hs
  · intro visit clk s s' ran hs htick
    simp only [Rmw.component, bind_eq_ok, pure_eq_ok, Prod.mk.injEq] at htick
    obtain ⟨t, htick, rfl, rfl⟩ := htick
    have ht := hmoves (tickComponent_moves (by simp [PatchOk, onlyIssued]) trivial htick) hs
    refine ⟨ht, fun inv hinv => ht.2.ran inv ?_⟩
    exact (List.drop_sublist _ _).filterMap ranInvocation |>.subset hinv
  · intro s s' hs hdrain
    exact hmoves (drain_moves trivial hdrain) hs

/-- An NVRAM system of one module, with either mapping. -/
def NvramSystem.Single (fit : σ → Prop) (s : NvramSystem.Sys σ) : Prop :=
  (∃ name, getComponentMappingFunc name = .ok s.ctrl.mappingFunc) ∧ s.next.length = 1 ∧
    ∀ st ∈ s.next, fit st

/-- **An NVRAM system of one module answers as the module does.** -/
theorem NvramSystem.answersAt {C : Component κ σ} {asks : BaseRequest κ → Prop}
    {answers : κ → Addr → Prop} {fit : σ → Prop} (hC : C.AnswersAt asks answers fit) :
    (NvramSystem.component C).AnswersAt asks answers (NvramSystem.Single fit) where
  issue := by
    rintro req s resp req' s' ⟨⟨name, hf⟩, hone, hfit⟩ hissue hasks
    obtain ⟨next, hnext, rfl⟩ := NvramSystem.issueRequest_eq_ok.mp hissue
    rw [hone, Imc.mapping_one (getComponentMappingFunc_eq_ok hf)] at hnext
    obtain ⟨rfl, hlen, hfit'⟩ := hC.issueTo hfit hnext hasks
    exact ⟨rfl, ⟨name, hf⟩, hlen.trans hone, hfit'⟩
  tick := by
    rintro visit clk s s' ran ⟨hf, hone, hfit⟩ htick
    simp only [NvramSystem.component, bind_eq_ok, Prod.exists, pure_eq_ok, Prod.mk.injEq] at htick
    obtain ⟨next, ran, htick, rfl, rfl⟩ := htick
    obtain ⟨hlen, hfit', hran⟩ := hC.tickNext hfit htick
    exact ⟨⟨hf, hlen.trans hone, hfit'⟩, hran⟩
  drain := by
    rintro s s' ⟨hf, hone, hfit⟩ hdrain
    obtain ⟨next, hnext, rfl⟩ := NvramSystem.drain_eq_ok hdrain
    obtain ⟨hlen, hfit'⟩ := hC.drainNext hfit hnext
    exact ⟨hf, hlen.trans hone, hfit'⟩

end Layers

/-! ## The iMC -/

namespace Imc

open ComponentMapping (localAddr)

/-- A request comes in under an address it may: a read, or a write. -/
def Came (read write : κ → Addr → Prop) (req : BaseRequest κ) : Prop :=
  ∀ c, req.callback = some c →
    match req.type with
    | .read => read c req.addr
    | .write => write c req.addr

/-- **What waits in the iMC came in**, a read held back since perhaps
mapped; and only callbacks of writes were run. -/
structure Sys.Addressed (f : ComponentMapping) (total : ℕ) (read write : κ → Addr → Prop)
    (fit : σ → Prop) (s : Sys κ σ) : Prop where
  mapping : s.ctrl.mappingFunc = f
  length : s.next.length = total
  reads : ∀ req ∈ s.ctrl.rpq.queue, req.type = .read ∧ Came read write req
  writes : ∀ req ∈ s.ctrl.wpq.queue, req.type = .write ∧ Came read write req
  next : ∀ st ∈ s.next, fit st
  ran : ∀ inv ∈ Imc.ran s.log, write inv.callback inv.addr

section Answers

variable {C : Component κ σ} {f : ComponentMapping} {total rounds : ℕ}
  {read handed write answers : κ → Addr → Prop} {fit : σ → Prop} {s t : Sys κ σ} {clk : Clk}

/-- **What a tick of the controller does keeps it.** A write is called
back under its own address; a read is mapped, whether or not it is handed
on. -/
theorem Hands.addressed (hC : C.AnswersAt (Rmw.ReadIssued handed) answers fit)
    (hmap : ∀ c a, read c a → handed c (localAddr f total a)) (hread : ∀ c a, handed c a → read c a)
    (hs : s.Addressed f total read write fit) (h : Hands C s t) :
    t.Addressed f total read write fit := by
  obtain ⟨mapping, length, reads, writes, next, hran⟩ := hs
  have hrest : ∀ {req : BaseRequest κ} {rest : List (BaseRequest κ)} {type : BaseRequestType},
      (∀ r ∈ req :: rest, r.type = type ∧ Came read write r) →
        (req.type = type ∧ Came read write req) ∧ ∀ r ∈ rest, r.type = type ∧ Came read write r :=
    fun h => List.forall_mem_cons.mp h
  -- the front of the reads, mapped once more
  have hmapped : ∀ {req : BaseRequest κ}, req.type = .read → Came read write req →
      Rmw.ReadIssued handed
        { req with addr := (s.ctrl.mappingFunc req.addr s.next.length).1 } := by
    intro req htype hcame _ c hcb
    have := hcame c hcb
    rw [htype] at this
    rw [mapping, length]
    exact hmap c _ this
  have hheld : ∀ {req : BaseRequest κ}, req.type = .read → Came read write req →
      Came read write { req with addr := (s.ctrl.mappingFunc req.addr s.next.length).1 } := by
    intro req htype hcame c hcb
    rw [htype]
    exact hread c _ (hmapped htype hcame htype c hcb)
  -- a write is no read that was issued
  have hnoread : ∀ {req : BaseRequest κ}, req.type = .write → Rmw.ReadIssued handed req :=
    fun htype hread => by simp [htype] at hread
  cases h with
  | clock => exact ⟨mapping, length, reads, writes, next, hran⟩
  | @holdRead req rest hq hfull =>
      rw [hq] at reads
      obtain ⟨⟨htype, hcame⟩, hreads⟩ := hrest reads
      refine ⟨mapping, length, ?_, writes, next, by simpa [ran_concat, ranInvocation] using hran⟩
      exact List.forall_mem_cons.mpr ⟨⟨htype, hheld htype hcame⟩, hreads⟩
  | @refuseRead req req' rest resp next' hq hfull hissue hno =>
      rw [hq] at reads
      obtain ⟨⟨htype, hcame⟩, hreads⟩ := hrest reads
      obtain ⟨rfl, hlen, hnext⟩ := hC.issueTo next hissue fun _ => hmapped htype hcame
      refine ⟨mapping, hlen.trans length, ?_, writes, hnext, by
        simpa [ran_concat, ranInvocation] using hran⟩
      exact List.forall_mem_cons.mpr ⟨⟨htype, hheld htype hcame⟩, hreads⟩
  | @handRead req req' rest resp next' hq hfirst hissue hyes =>
      rw [hq] at reads
      obtain ⟨⟨htype, hcame⟩, hreads⟩ := hrest reads
      obtain ⟨rfl, hlen, hnext⟩ := hC.issueTo next hissue fun _ => hmapped htype hcame
      exact ⟨mapping, hlen.trans length, hreads, writes, hnext, by
        simpa [ran_concat, ranInvocation] using hran⟩
  | @refuseWrite req req' rest resp next' hq hfull hissue hno =>
      rw [hq] at writes
      obtain ⟨⟨htype, hcame⟩, hwrites⟩ := hrest writes
      obtain ⟨rfl, hlen, hnext⟩ := hC.issueTo next hissue fun _ => hnoread htype
      exact ⟨mapping, hlen.trans length, reads,
        List.forall_mem_cons.mpr ⟨⟨htype, hcame⟩, hwrites⟩, hnext, hran⟩
  | @handWrite req req' rest resp next' hq hfirst hissue hyes =>
      rw [hq] at writes
      obtain ⟨⟨htype, hcame⟩, hwrites⟩ := hrest writes
      obtain ⟨rfl, hlen, hnext⟩ := hC.issueTo next hissue fun _ => hnoread htype
      refine ⟨mapping, hlen.trans length, reads, hwrites, hnext, fun inv hinv => ?_⟩
      rw [ran_append] at hinv
      rcases List.mem_append.mp hinv with hinv | hinv
      · exact hran inv hinv
      · cases hcb : req'.callback with
        | none => simp [hcb, invoke, Imc.ran, ranInvocation] at hinv
        | some c =>
            obtain rfl : inv = ⟨c, req'.addr, s.ctrl.imcCurrClk⟩ := by
              simpa [hcb, invoke, Imc.ran, ranInvocation, eq_comm] using hinv
            have := hcame c hcb
            rwa [htype] at this

theorem tick_addressed (hC : C.AnswersAt (Rmw.ReadIssued handed) answers fit)
    (hmap : ∀ c a, read c a → handed c (localAddr f total a)) (hread : ∀ c a, handed c a → read c a)
    (hs : s.Addressed f total read write fit) (h : tick C rounds clk s = .ok t) :
    t.Addressed f total read write fit :=
  reflTransGen_keeps (fun _ _ hu hm => hm.addressed hC hmap hread hu) (tick_hands h) hs

/-- A request enters its queue, or none does. -/
theorem issueRequest_addressed {req : BaseRequest κ} {resp : BaseResponse}
    (hs : s.Addressed f total read write fit) (h : issueRequest req s = .ok (resp, t))
    (hasks : resp.issued → Came read write req) : t.Addressed f total read write fit := by
  have hmem : ∀ {queue : List (BaseRequest κ)} {type : BaseRequestType}, req.type = type →
      Came read write req → (∀ r ∈ queue, r.type = type ∧ Came read write r) →
      ∀ r ∈ queue ++ [req], r.type = type ∧ Came read write r := by
    intro queue type ht hcame hqueue r hr
    rcases List.mem_append.mp hr with hr | hr
    · exact hqueue r hr
    · obtain rfl := List.mem_singleton.mp hr
      exact ⟨ht, hcame⟩
  have hlog : Imc.ran (s.log ++ [.accepted req]) = Imc.ran s.log := by
    simp [ran_concat, ranInvocation]
  unfold issueRequest at h
  split at h <;> rename_i ht
  all_goals
    simp only [bind_eq_ok, Prod.exists, pure_eq_ok, Prod.mk.injEq] at h
    obtain ⟨success, q, henq, rfl, rfl⟩ := h
    obtain ⟨-, ⟨rfl, -, rfl⟩ | ⟨rfl, hlt, rfl⟩⟩ := RequestQueue.enqueue_eq_ok.mp henq
  · exact hs
  · exact ⟨hs.mapping, hs.length, hmem ht (hasks rfl) hs.reads, hs.writes, hs.next, hlog ▸ hs.ran⟩
  · exact hs
  · exact ⟨hs.mapping, hs.length, hs.reads, hmem ht (hasks rfl) hs.writes, hs.next, hlog ▸ hs.ran⟩

/-- **The iMC answers writes under the address they came with**, and
leaves the reads to the components below, under mapped addresses. -/
theorem answersAt (hC : C.AnswersAt (Rmw.ReadIssued handed) answers fit)
    (hmap : ∀ c a, read c a → handed c (localAddr f total a))
    (hread : ∀ c a, handed c a → read c a) :
    (component rounds C).AnswersAt (Came read write) (fun c a => write c a ∨ answers c a)
      (Sys.Addressed f total read write fit) := by
  refine ⟨?_, ?_, ?_⟩
  · intro req s resp req' s' hs hissue hasks
    simp only [component, bind_eq_ok, Prod.exists, pure_eq_ok, Prod.mk.injEq] at hissue
    obtain ⟨resp, t, hissue, rfl, rfl, rfl⟩ := hissue
    refine ⟨rfl, issueRequest_addressed hs hissue hasks⟩
  · intro visit clk s s' ran hs htick
    simp only [component, bind_eq_ok, Prod.exists, pure_eq_ok, Prod.mk.injEq] at htick
    obtain ⟨t, htick, next, ran', hnext, rfl, rfl⟩ := htick
    have ht := tick_addressed hC hmap hread hs htick
    obtain ⟨hlen, hfit, hran⟩ := hC.tickNext ht.next hnext
    refine ⟨⟨ht.mapping, hlen.trans ht.length, ht.reads, ht.writes, hfit, ht.ran⟩,
      fun inv hinv => ?_⟩
    rcases List.mem_append.mp hinv with hinv | hinv
    · exact .inl (ht.ran inv (((List.drop_sublist _ _).filterMap ranInvocation).subset hinv))
    · exact .inr (hran inv hinv)
  · intro s s' hs hdrain
    obtain ⟨next, hnext, rfl⟩ := drain_eq_ok hdrain
    obtain ⟨hlen, hfit⟩ := hC.drainNext hs.next hnext
    exact ⟨hs.mapping, hlen.trans hs.length, hs.reads, hs.writes, hfit, hs.ran⟩

end Answers

end Imc

/-! ## The whole path -/

section Path

open ComponentMapping (localAddr)

variable {C : Component Rmw.Callback σ} {rounds total : ℕ} {start : Addr}
  {reqs : List (BaseRequest κ)} {a : Addr}

/-- The reads among the requests, under their addresses moved down and
mapped as often as this. -/
def ReadMapped (start : Addr) (total : ℕ) (reqs : List (BaseRequest κ)) (times : ℕ → Prop) (c : κ)
    (a : Addr) : Prop :=
  ∃ req ∈ reqs, req.type = .read ∧ req.callback = some c ∧
    ∃ n, times n ∧ a = (localAddr strideMapping4096 total)^[n] (req.addr - start)

/-- The writes among the requests, under their addresses moved down. -/
def WriteMoved (start : Addr) (reqs : List (BaseRequest κ)) (c : κ) (a : Addr) : Prop :=
  ∃ req ∈ reqs, req.type = .write ∧ req.callback = some c ∧ a = req.addr - start

/-- A line is at most its address. -/
theorem lineAddr_le : (Rmw.lineAddr a).toNat ≤ a.toNat := by
  rw [Rmw.lineAddr_toNat]
  omega

/-- **An address that is moved and mapped comes back only where neither
does anything.** -/
theorem lineAddr_mapped_iff {n : ℕ} (htotal : 0 < total) (hle : start ≤ a)
    (haligned : Rmw.lineAddr a = a) :
    Rmw.lineAddr ((localAddr strideMapping4096 total)^[n + 1] (a - start)) = a ↔
      start = 0 ∧ (total = 1 ∨ a < 4096) := by
  have hsub : (a - start).toNat = a.toNat - start.toNat := UInt64.toNat_sub_of_le _ _ hle
  have hle' : start.toNat ≤ a.toNat := UInt64.le_iff_toNat_le.mp hle
  have hlt : a < 4096 ↔ a.toNat < 4096 := UInt64.lt_iff_toNat_lt
  constructor
  · intro h
    have hline := @lineAddr_le ((localAddr strideMapping4096 total)^[n + 1] (a - start))
    rw [h, ComponentMapping.iterate_stride_toNat, hsub] at hline
    have hdiv := Nat.div_le_self ((a.toNat - start.toNat) / 4096) (total ^ (n + 1))
    have hstart : start.toNat = 0 := by omega
    rw [hstart, Nat.sub_zero] at hline hdiv
    refine ⟨UInt64.toNat_inj.mp hstart, ?_⟩
    have hpage : a.toNat / 4096 / total ^ (n + 1) = a.toNat / 4096 := by omega
    rcases Nat.div_eq_self.mp hpage with hzero | hone
    · exact .inr (hlt.mpr (by omega))
    · exact .inl ((Nat.pow_eq_one.mp hone).resolve_right (Nat.succ_ne_zero n))
  · rintro ⟨rfl, hsettled⟩
    have hsame : (localAddr strideMapping4096 total)^[n + 1] a = a := by
      apply UInt64.toNat_inj.mp
      rw [ComponentMapping.iterate_stride_toNat]
      rcases hsettled with rfl | hpage
      · rw [Nat.one_pow, Nat.div_one]
        omega
      · rw [Nat.div_eq_of_lt (hlt.mp hpage), Nat.zero_div]
        have := hlt.mp hpage
        omega
    rw [UInt64.sub_zero, hsame, haligned]

/-- What holds of a run, whose requests are among these. -/
structure Completes (start : Addr) (total : ℕ) (reqs : List (BaseRequest κ))
    (d : Driven κ (Rmc.Sys (Imc.Sys κ (NvramSystem.Sys (Rmw.Sys κ σ))))) : Prop where
  mapping : ∃ name, getComponentMappingFunc name = .ok d.state.ctrl.mappingFunc
  origin : d.state.ctrl.startAddr = start
  one : d.state.next.length = 1
  next : ∀ st ∈ d.state.next, st.Addressed strideMapping4096 total
    (ReadMapped start total reqs fun _ => True) (WriteMoved start reqs)
    (NvramSystem.Single fun rmw => rmw.Ok ∧
      rmw.Addressed (ReadMapped start total reqs (0 < ·)))
  bound : ∀ req ∈ d.accepted, start ≤ req.addr
  ran : ∀ inv ∈ d.ran, WriteMoved start reqs inv.callback inv.addr ∨
    LineOf (ReadMapped start total reqs (0 < ·)) inv.callback inv.addr

/-- The layers together. -/
abbrev nvramPath (rounds : ℕ) (C : Component Rmw.Callback σ) :
    Component κ (Rmc.Sys (Imc.Sys κ (NvramSystem.Sys (Rmw.Sys κ σ)))) :=
  Rmc.component (Imc.component rounds (NvramSystem.component (Rmw.component C)))

/-- The iMC over its systems. -/
theorem imc_answersAt :
    (Imc.component rounds (NvramSystem.component (Rmw.component C)) : Component κ _).AnswersAt
      (Imc.Came (ReadMapped start total reqs fun _ => True) (WriteMoved start reqs))
      (fun c a => WriteMoved start reqs c a ∨
        LineOf (ReadMapped start total reqs (0 < ·)) c a)
      (Imc.Sys.Addressed strideMapping4096 total (ReadMapped start total reqs fun _ => True)
        (WriteMoved start reqs) (NvramSystem.Single fun rmw => rmw.Ok ∧
          rmw.Addressed (ReadMapped start total reqs (0 < ·)))) := by
  refine Imc.answersAt (NvramSystem.answersAt Rmw.answersAt) ?_ ?_
  · rintro c a ⟨req, hreq, ht, hcb, n, -, rfl⟩
    exact ⟨req, hreq, ht, hcb, n + 1, Nat.succ_pos n, (Function.iterate_succ_apply' _ _ _).symm⟩
  · rintro c a ⟨req, hreq, ht, hcb, n, -, rfl⟩
    exact ⟨req, hreq, ht, hcb, n, trivial, rfl⟩

/-- **A call keeps it**, where the requests it takes are among these. -/
theorem Completes.step {d e : Driven κ (Rmc.Sys (Imc.Sys κ (NvramSystem.Sys (Rmw.Sys κ σ))))}
    {call : Call κ} (h : Completes start total reqs d)
    (hs : (nvramPath rounds C).machine.step d call = .ok e)
    (hreqs : ∀ req ∈ e.accepted, req ∈ reqs) :
    Completes start total reqs e := by
  have hC := @imc_answersAt κ σ C rounds total start reqs
  cases call with
  | issueRequest req =>
      simp only [Component.machine, bind_eq_ok, Prod.exists, pure_eq_ok] at hs
      obtain ⟨resp, req', state, hissue, rfl⟩ := hs
      obtain ⟨hle, next, hchild, rfl⟩ := Rmc.issueRequest_eq_ok hissue
      obtain ⟨name, hf⟩ := h.mapping
      rw [h.one, Imc.mapping_one (getComponentMappingFunc_eq_ok hf), h.origin] at hchild
      rw [h.origin] at hle
      -- what the iMC takes is moved by the start address
      have hasks : resp.issued → Imc.Came (ReadMapped start total reqs fun _ => True)
          (WriteMoved start reqs) { req with addr := req.addr - start } := by
        intro hyes c hcb
        have hmem : req ∈ reqs := hreqs req (by simp [hyes])
        cases ht : req.type with
        | read => exact ⟨req, hmem, ht, hcb, 0, trivial, rfl⟩
        | write => exact ⟨req, hmem, ht, hcb, rfl⟩
      obtain ⟨-, hlen, hnext⟩ := hC.issueTo h.next hchild hasks
      refine ⟨⟨name, hf⟩, h.origin, hlen.trans h.one, hnext, fun r hr => ?_, h.ran⟩
      dsimp only at hr
      split at hr
      · rcases List.mem_append.mp hr with hr | hr
        · exact h.bound r hr
        · obtain rfl := List.mem_singleton.mp hr
          exact hle
      · exact h.bound r hr
  | tick visit clk =>
      simp only [Component.machine, Rmc.component, bind_eq_ok, Prod.exists, pure_eq_ok,
        Prod.mk.injEq] at hs
      obtain ⟨_, _, ⟨next, ran, hnext, rfl, rfl⟩, rfl⟩ := hs
      obtain ⟨hlen, hfit, hran⟩ := hC.tickNext h.next hnext
      refine ⟨h.mapping, h.origin, hlen.trans h.one, hfit, h.bound, fun inv hinv => ?_⟩
      rcases List.mem_append.mp hinv with hinv | hinv
      · exact h.ran inv hinv
      · exact hran inv hinv
  | drain =>
      simp only [Component.machine, bind_eq_ok, pure_eq_ok] at hs
      obtain ⟨state, hdrain, rfl⟩ := hs
      obtain ⟨next, hnext, rfl⟩ := Rmc.drain_eq_ok hdrain
      obtain ⟨hlen, hfit⟩ := hC.drainNext h.next hnext
      exact ⟨h.mapping, h.origin, hlen.trans h.one, hfit, h.bound, h.ran⟩

/-- An NVRAM system as built, of one RMW controller. -/
def NvramSystem.New (s : NvramSystem.Sys (Rmw.Sys κ σ)) : Prop :=
  ∃ name f cfg next, getComponentMappingFunc name = .ok f ∧
    s = NvramSystem.Sys.init f [Rmw.Sys.init cfg next]

theorem Completes.init {rmc : Rmc.Config} {imc : Imc.Config}
    {systems : List (NvramSystem.Sys (Rmw.Sys κ σ))} {name : String}
    (hrmc : getComponentMappingFunc name = .ok rmc.mappingFunc)
    (himc : imc.mappingFunc = strideMapping4096) (hnew : ∀ s ∈ systems, NvramSystem.New s) :
    Completes rmc.startAddr systems.length reqs
      { state := Rmc.Sys.init rmc [Imc.Sys.init imc systems] } where
  mapping := ⟨name, hrmc⟩
  origin := rfl
  one := rfl
  next := by
    intro st hst
    obtain rfl := List.mem_singleton.mp hst
    refine ⟨himc, rfl, fun _ h => absurd h List.not_mem_nil, fun _ h => absurd h List.not_mem_nil,
      fun s hs => ?_, fun _ h => absurd h List.not_mem_nil⟩
    obtain ⟨name, f, cfg, next, hf, rfl⟩ := hnew s hs
    refine ⟨⟨name, hf⟩, rfl, fun rmw hrmw => ?_⟩
    obtain rfl := List.mem_singleton.mp hrmw
    exact ⟨.init, .init⟩
  bound := fun _ h => absurd h List.not_mem_nil
  ran := fun _ h => absurd h List.not_mem_nil

/-- What was accepted stays accepted. -/
theorem accepted_subset {D : Component κ σ} {d e : Driven κ σ} {call : Call κ}
    (h : D.machine.step d call = .ok e) : ∀ req ∈ d.accepted, req ∈ e.accepted := by
  intro req hreq
  cases call with
  | issueRequest req' =>
      simp only [Component.machine, bind_eq_ok, Prod.exists, pure_eq_ok] at h
      obtain ⟨resp, req'', state, -, rfl⟩ := h
      dsimp only
      split
      · exact List.mem_append_left _ hreq
      · exact hreq
  | tick visit clk =>
      simp only [Component.machine, bind_eq_ok, Prod.exists, pure_eq_ok] at h
      obtain ⟨state, ran, -, rfl⟩ := h
      exact hreq
  | drain =>
      simp only [Component.machine, bind_eq_ok, pure_eq_ok] at h
      obtain ⟨state, -, rfl⟩ := h
      exact hreq

/-- Each callback is run with the address its request was issued under. -/
def Driven.Transparent (d : Driven κ σ) : Prop :=
  ∀ inv ∈ d.ran, ∃ req ∈ d.accepted, req.callback = some inv.callback ∧ inv.addr = req.addr

/-- **Which completions carry the address that was issued**, where that
is a line's: those of an RMC that starts at zero, if they are of writes,
or of reads the iMC leaves alone: there is one system to interleave, or
the address is in the first page. A callback that is one request's alone
is that request's. -/
theorem completes_at_iff {rmc : Rmc.Config} {imc : Imc.Config}
    {systems : List (NvramSystem.Sys (Rmw.Sys κ σ))} {name : String} {calls : List (Call κ)}
    {d : Driven κ (Rmc.Sys (Imc.Sys κ (NvramSystem.Sys (Rmw.Sys κ σ))))}
    (hrmc : getComponentMappingFunc name = .ok rmc.mappingFunc)
    (himc : imc.mappingFunc = strideMapping4096) (hsome : 1 ≤ systems.length)
    (hnew : ∀ s ∈ systems, NvramSystem.New s)
    (h : (nvramPath rounds C).machine.run
      { state := Rmc.Sys.init rmc [Imc.Sys.init imc systems] } calls = .ok d) :
    ∀ inv ∈ d.ran, ∃ req ∈ d.accepted, req.callback = some inv.callback ∧
      (Rmw.lineAddr req.addr = req.addr → (inv.addr = req.addr ↔ rmc.startAddr = 0 ∧
        (req.type = .write ∨ systems.length = 1 ∨ req.addr < 4096))) := by
  have hd : Completes rmc.startAddr systems.length d.accepted d :=
    (nvramPath rounds C).machine.invariant
      (P := fun e => (∀ req ∈ e.accepted, req ∈ d.accepted) →
        Completes rmc.startAddr systems.length d.accepted e)
      (fun _ _ _ hu hstep hreqs =>
        (hu fun req hreq => hreqs req (accepted_subset hstep req hreq)).step hstep hreqs)
      (fun _ => .init hrmc himc hnew) h fun _ hreq => hreq
  intro inv hinv
  rcases hd.ran inv hinv with ⟨req, hreq, ht, hcb, haddr⟩ |
    ⟨_, ⟨req, hreq, ht, hcb, n, hpos, rfl⟩, hline⟩
  · refine ⟨req, hreq, hcb, fun _ => ?_⟩
    rw [haddr]
    constructor
    · intro hsame
      have hzero : req.addr - rmc.startAddr + rmc.startAddr = req.addr + rmc.startAddr := by
        rw [hsame]
      rw [UInt64.sub_add_cancel] at hzero
      exact ⟨by simpa using hzero.symm, .inl ht⟩
    · rintro ⟨hzero, -⟩
      rw [hzero, UInt64.sub_zero]
  · obtain ⟨m, rfl⟩ := Nat.exists_eq_add_one.mpr hpos
    refine ⟨req, hreq, hcb, fun haligned => ?_⟩
    rw [← hline, lineAddr_mapped_iff hsome (hd.bound req hreq) haligned]
    simp [ht]

/-! ### Runs of two systems -/

/-- A system over an AIT controller. -/
def oneModule : NvramSystem.Sys (Rmw.Sys ℕ (Ait.Sys Rmw.Callback
    (List (BaseRequest Ait.SubreqCallback)) StaticMemory)) :=
  NvramSystem.Sys.init noneMapping
    [Rmw.Sys.init Rmw.smallConfig [Ait.Sys.init Nvram.smallAit [] [⟨1, 1⟩]]]

/-- What a read comes to that is issued to two systems, interleaved. -/
def interleavedRead (a : Addr) : Result (Driven ℕ (Rmc.Sys (Imc.Sys ℕ (NvramSystem.Sys
    (Rmw.Sys ℕ (Ait.Sys Rmw.Callback (List (BaseRequest Ait.SubreqCallback)) StaticMemory)))))) :=
  (nvramPath 2 (Ait.component Nvram.promptMemory StaticMemory.component)).machine.run
    { state := Rmc.Sys.init { mappingFunc := noneMapping, startAddr := 0 }
        [Imc.Sys.init Imc.interleaved [oneModule, oneModule]] }
    (.issueRequest { addr := a, arrive := 0, type := .read, callback := some 0 } ::
      (List.range 14).map fun i => .tick (fun _ => .asHeld) (UInt64.ofNat i))

theorem completes_at_iff_firstPage :
    ∃ d, interleavedRead 64 = .ok d ∧ d.ran.length = 1 ∧ d.Transparent := by
  obtain ⟨d, hrun, hone, haligned, hpage⟩ : ∃ d, interleavedRead 64 = .ok d ∧ d.ran.length = 1 ∧
      (∀ req ∈ d.accepted, Rmw.lineAddr req.addr = req.addr) ∧
      ∀ req ∈ d.accepted, req.addr < 4096 := ⟨_, rfl, by decide, by decide, by decide⟩
  have hnew : ∀ s ∈ [oneModule, oneModule], NvramSystem.New s := by
    intro s hs
    obtain rfl : s = oneModule := by simpa using hs
    exact ⟨"none_mapping", _, _, _, rfl, rfl⟩
  refine ⟨d, hrun, hone, fun inv hinv => ?_⟩
  obtain ⟨req, hreq, hcb, hiff⟩ := @completes_at_iff _ _ _ _ _ _ _ "none_mapping" _ _ rfl rfl
    (by decide) hnew hrun inv hinv
  exact ⟨req, hreq, hcb, (hiff (haligned req hreq)).mpr ⟨rfl, .inr (.inr (hpage req hreq))⟩⟩

/-- **A read of the third page completes in the second**: the second page
of the first system. -/
theorem interleavedRead_astray :
    ∃ d, interleavedRead 8192 = .ok d ∧ d.accepted.map (·.addr) = [8192] ∧
      d.ran.map (fun inv => (inv.callback, inv.addr)) = [(0, 4096)] ∧ ¬ d.Transparent := by
  refine ⟨_, rfl, by decide, by decide, fun h => ?_⟩
  obtain ⟨req, hreq, -, hsame⟩ := h ⟨0, 4096, 11⟩ (by decide)
  obtain rfl := List.mem_singleton.mp hreq
  exact absurd hsame (by decide)

end Path

end Vans
