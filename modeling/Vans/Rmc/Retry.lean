import Vans.Rmc.Model
import Vans.Imc.Delivery
import Vans.Nvram.System
import Vans.Rmw.Step
import Vans.Ait.Model
import Vans.Dram.System
import Vans.Dram.Moves
/-!
# The request path — what a refusal leaves

A component refuses a request without keeping anything of it. What the
caller holds afterwards need not be what it issued: the RMC and the NVRAM
system write the address they pass on into the request before they know
whether it is taken. Issued again, it is rewritten again.
-/

namespace Vans

variable {κ σ : Type}

/-! ## What the layers make of an address -/

/-- The address the chosen child makes of the one it is given. -/
def atChild (f : σ → Addr → Addr) (next : List σ) (chosen : Addr × ℕ) : Addr :=
  match next[chosen.2]? with
  | some st => f st chosen.1
  | none => chosen.1

namespace NvramSystem

def rewrites (f : σ → Addr → Addr) (s : Sys σ) (a : Addr) : Addr :=
  atChild f s.next (s.ctrl.mappingFunc a s.next.length)

end NvramSystem

namespace Rmc

def rewrites (f : σ → Addr → Addr) (s : Sys σ) (a : Addr) : Addr :=
  atChild f s.next (s.ctrl.mappingFunc (a - s.ctrl.startAddr) s.next.length)

end Rmc

/-- **The components a request passes on its way down**, however they are
nested, and what each makes of an address. The queues end the way. -/
inductive OnPath : ∀ {σ : Type}, Component κ σ → (σ → Addr → Addr) → Prop
  | imc {σ : Type} (rounds : ℕ) (C : Component κ σ) :
      OnPath (Imc.component rounds C) fun _ a => a
  | rmw {σ : Type} (C : Component Rmw.Callback σ) :
      OnPath (Rmw.component C : Component κ _) fun _ a => a
  | ait {τ μ : Type} (L : Component Ait.SubreqCallback τ) (M : Component Ait.Callback μ) :
      OnPath (Ait.component L M : Component κ _) fun _ a => a
  | ddr4System {γ ς : Type} [DecidableEq γ] (spec : Dram.Spec γ ς) (k : ℕ) :
      OnPath (Ddr4System.component spec k : Component κ _) fun _ a => a
  | nvramSystem {σ : Type} {C : Component κ σ} {f : σ → Addr → Addr} (below : OnPath C f) :
      OnPath (NvramSystem.component C) (NvramSystem.rewrites f)
  | rmc {σ : Type} {C : Component κ σ} {f : σ → Addr → Addr} (below : OnPath C f) :
      OnPath (Rmc.component C) (Rmc.rewrites f)

section Refusals

variable {C : Component κ σ} {f : σ → Addr → Addr} {req req' : BaseRequest κ}
  {resp : BaseResponse} {s s' : σ}

/-- A refusal leaves the state as it was, and the request under the
address made of its own. -/
def RefusesAs (C : Component κ σ) (f : σ → Addr → Addr) : Prop :=
  ∀ req s resp req' s', C.issueRequest req s = .ok (resp, req', s') → resp.issued = false →
    s' = s ∧ req' = { req with addr := f s req.addr }

/-- The child that refuses is left as it was. -/
theorem RefusesAs.issueTo (hC : RefusesAs C f) {next next' : List σ} {i : ℕ}
    (h : C.issueTo next i req = .ok (resp, req', next')) (hno : resp.issued = false) :
    next' = next ∧ req' = { req with addr := atChild f next (req.addr, i) } := by
  obtain ⟨st, st', hst, hissue, rfl⟩ := Component.issueTo_eq_ok.mp h
  obtain ⟨rfl, rfl⟩ := hC _ _ _ _ _ hissue hno
  refine ⟨?_, by rw [atChild, hst]⟩
  obtain ⟨hi, rfl⟩ := List.getElem?_eq_some_iff.mp hst
  exact List.set_getElem_self hi

/-- **Every component on the path refuses so.** -/
theorem OnPath.refusesAs {σ : Type} {C : Component κ σ} {f : σ → Addr → Addr} (h : OnPath C f) :
    RefusesAs C f := by
  -- a queue that is full is left as it is; the others pass the answer on
  induction h with
  | imc rounds C =>
      intro req s resp req' s' hissue hno
      simp only [Imc.component, bind_eq_ok, Prod.exists, pure_eq_ok, Prod.mk.injEq] at hissue
      obtain ⟨resp', u, hu, rfl, rfl, rfl⟩ := hissue
      rcases Imc.issueRequest_cases hu with ⟨hyes, -⟩ | ⟨-, rfl⟩
      · rw [hyes] at hno
        cases hno
      · exact ⟨rfl, rfl⟩
  | rmw C =>
      intro req s resp req' s' hissue hno
      simp only [Rmw.component, Rmw.issueRequest, bind_eq_ok, Prod.exists, pure_eq_ok,
        Prod.mk.injEq] at hissue
      obtain ⟨_, _, ⟨success, lsq, henq, rfl, rfl⟩, rfl, rfl, rfl⟩ := hissue
      obtain ⟨-, ⟨rfl, -, rfl⟩ | ⟨rfl, -, -⟩⟩ := RequestQueue.enqueue_eq_ok.mp henq
      · exact ⟨rfl, rfl⟩
      · cases hno
  | ait L M =>
      intro req s resp req' s' hissue hno
      simp only [Ait.component, Ait.issueRequest, bind_eq_ok, Prod.exists, pure_eq_ok,
        Prod.mk.injEq] at hissue
      obtain ⟨_, _, ⟨issued, lsq, henq, rfl, rfl⟩, rfl, rfl, rfl⟩ := hissue
      cases issued with
      | false => exact ⟨rfl, rfl⟩
      | true => cases hno
  | ddr4System spec k =>
      intro req s resp req' s' hissue hno
      obtain ⟨memory, hmemory, rfl⟩ := Ddr4System.issueRequest_eq_ok.mp hissue
      simp only [Dram.component, bind_eq_ok, Prod.exists, pure_eq_ok, Prod.mk.injEq] at hmemory
      obtain ⟨request, -, issued, u, hu, rfl, rfl, rfl⟩ := hmemory
      rcases Dram.issueRequest_cases hu with ⟨-, rfl, -⟩ | ⟨rfl, -⟩
      · exact ⟨rfl, rfl⟩
      · cases hno
  | nvramSystem below ih =>
      intro req s resp req' s' hissue hno
      obtain ⟨next, hchild, rfl⟩ := NvramSystem.issueRequest_eq_ok.mp hissue
      obtain ⟨rfl, rfl⟩ := ih.issueTo hchild hno
      exact ⟨rfl, rfl⟩
  | rmc below ih =>
      intro req s resp req' s' hissue hno
      obtain ⟨-, next, hchild, rfl⟩ := Rmc.issueRequest_eq_ok hissue
      obtain ⟨rfl, rfl⟩ := ih.issueTo hchild hno
      exact ⟨rfl, rfl⟩

/-- A request is itself under another address where that is its own. -/
theorem readdressed_eq_iff {a : Addr} : { req with addr := a } = req ↔ a = req.addr := by
  constructor
  · intro h
    exact congrArg BaseRequest.addr h
  · rintro rfl
    rfl

/-- What the caller holds, who was refused in these states, one after
another. -/
inductive Refused (C : Component κ σ) (req : BaseRequest κ) : List σ → BaseRequest κ → Prop
  | none : Refused C req [] req
  | again {ss : List σ} {r r' : BaseRequest κ} {s s' : σ} {resp : BaseResponse}
      (before : Refused C req ss r) (hissue : C.issueRequest r s = .ok (resp, r', s'))
      (hno : resp.issued = false) : Refused C req (ss ++ [s]) r'

/-- Where the address is left alone, so is the request. -/
theorem OnPath.refused_eq (h : OnPath C f) {ss : List σ} (href : Refused C req ss req')
    (hfix : ∀ s ∈ ss, f s req.addr = req.addr) : req' = req := by
  induction href with
  | none => rfl
  | again before hissue hno ih =>
      obtain rfl := ih fun s hs => hfix s (List.mem_append_left _ hs)
      rw [(h.refusesAs _ _ _ _ _ hissue hno).2]
      exact readdressed_eq_iff.mpr (hfix _ (List.mem_append_right _ (List.mem_singleton.mpr rfl)))

/-- **A refused request can be retried exactly where the way leaves its
address alone.** A refusal leaves the component as it was. It leaves the
request as it was if and only if the layers that rewrite the address make
of it the address it has; and so it is after any number of refusals, in
whatever states. Issued again then, it is issued as at first. -/
theorem retried_iff (h : OnPath C f) :
    (∀ req s resp req' s', C.issueRequest req s = .ok (resp, req', s') → resp.issued = false →
      s' = s ∧ (req' = req ↔ f s req.addr = req.addr)) ∧
    ∀ req ss req', Refused C req ss req' →
      ((∀ ss' r, ss' <+: ss → Refused C req ss' r → r = req) ↔
        ∀ s ∈ ss, f s req.addr = req.addr) ∧
      ((∀ s ∈ ss, f s req.addr = req.addr) → ∀ s, C.issueRequest req' s = C.issueRequest req s) := by
  have hone : ∀ req s resp req' s', C.issueRequest req s = .ok (resp, req', s') →
      resp.issued = false → s' = s ∧ (req' = req ↔ f s req.addr = req.addr) := by
    intro req s resp req' s' hissue hno
    obtain ⟨hs, hreq⟩ := h.refusesAs _ _ _ _ _ hissue hno
    exact ⟨hs, hreq ▸ readdressed_eq_iff⟩
  refine ⟨hone, fun req ss req' href => ⟨⟨fun hall => ?_, fun hfix ss' r hpre hr => ?_⟩,
    fun hfix s => by rw [h.refused_eq href hfix]⟩⟩
  · induction href with
    | none => exact fun s hs => absurd hs List.not_mem_nil
    | @again ss r r' s₁ s₁' resp before hissue hno ih =>
        have hpre : ss <+: ss ++ [s₁] := List.prefix_append ..
        have hbefore := ih fun ss' r hss' hr => hall ss' r (hss'.trans hpre) hr
        obtain rfl := hall ss r hpre before
        have hsame := hall _ r' (List.prefix_refl _) (before.again hissue hno)
        intro s hs
        rcases List.mem_append.mp hs with hs | hs
        · exact hbefore s hs
        · obtain rfl := List.mem_singleton.mp hs
          exact (hone _ _ _ _ _ hissue hno).2.mp hsame
  · exact h.refused_eq hr fun s hs => hfix s (hpre.subset hs)

end Refusals

/-! ### Where the address is left alone -/

@[simp] theorem atChild_id {next : List σ} {chosen : Addr × ℕ} :
    atChild (fun _ a => a) next chosen = chosen.1 := by
  unfold atChild
  split <;> rfl

/-- An NVRAM system over a queue leaves alone the addresses its mapping
does. -/
theorem NvramSystem.rewrites_eq_self_iff {s : NvramSystem.Sys σ} {a : Addr} {name : String}
    (hf : getComponentMappingFunc name = .ok s.ctrl.mappingFunc) :
    NvramSystem.rewrites (fun _ a => a) s a = a ↔
      ComponentMapping.Settled s.ctrl.mappingFunc s.next.length a := by
  rw [NvramSystem.rewrites, atChild_id]
  exact ComponentMapping.localAddr_eq_self_iff (getComponentMappingFunc_eq_ok hf)

/-- An RMC that maps nothing, over a queue, leaves addresses alone where
it starts at zero. -/
theorem Rmc.rewrites_eq_self_iff {s : Rmc.Sys σ} {a : Addr}
    (hf : s.ctrl.mappingFunc = noneMapping) :
    Rmc.rewrites (fun _ a => a) s a = a ↔ s.ctrl.startAddr = 0 := by
  rw [Rmc.rewrites, atChild_id, hf, noneMapping]
  constructor
  · intro h
    have hsum := congrArg (· + s.ctrl.startAddr) h
    simp only [UInt64.sub_add_cancel] at hsum
    simpa using hsum.symm
  · intro h
    rw [h, UInt64.sub_zero]

/-! ### Runs of an RMC over an iMC -/

/-- An RMC over an iMC with one place for a read. -/
def onePlace (startAddr : Addr) : Rmc.Sys (Imc.Sys Unit Bool) :=
  Rmc.Sys.init { mappingFunc := noneMapping, startAddr := startAddr }
    [Imc.Sys.init { mappingFunc := noneMapping, wpqEntries := 1, rpqEntries := 1, adrEpoch := 10 }
      [false]]

/-- A read, and another while the first waits. -/
def readAt (addr : Addr) : BaseRequest Unit := { addr := addr, arrive := 0, type := .read }

abbrev path : Component Unit (Rmc.Sys (Imc.Sys Unit Bool)) :=
  Rmc.component (Imc.component 2 Imc.gate)

theorem retried_iff_fromZero :
    ∃ s, path.machine.run { state := onePlace 0 } [.issueRequest (readAt 0)] = .ok s ∧
      ∃ resp req' s', path.issueRequest (readAt 64) s.state = .ok (resp, req', s') ∧
        resp.issued = false ∧ s' = s.state ∧ req' = readAt 64 := by
  obtain ⟨s, hrun, resp, req', s', hissue, hno, hstart⟩ : ∃ s,
      path.machine.run { state := onePlace 0 } [.issueRequest (readAt 0)] = .ok s ∧
      ∃ resp req' s', path.issueRequest (readAt 64) s.state = .ok (resp, req', s') ∧
        resp.issued = false ∧ Rmc.rewrites (fun _ a => a) s.state 64 = 64 :=
    ⟨_, rfl, _, _, _, rfl, rfl, rfl⟩
  obtain ⟨hs, hreq⟩ := (retried_iff (.rmc (.imc 2 Imc.gate))).1 _ _ _ _ _ hissue hno
  exact ⟨s, hrun, resp, req', s', hissue, hno, hs, hreq.mpr hstart⟩

/-- **A read refused comes back under another address**, and cannot be
issued again: the RMC has moved it down by where its memory starts. -/
theorem refused_moved :
    ∃ s, path.machine.run { state := onePlace 4294967296 }
        [.issueRequest (readAt 4294967296)] = .ok s ∧
      ∃ resp req' s', path.issueRequest (readAt 4294967360) s.state = .ok (resp, req', s') ∧
        resp.issued = false ∧ req' = readAt 64 ∧
        ∃ e, path.issueRequest req' s' = .error e :=
  ⟨_, rfl, _, _, _, rfl, rfl, rfl, _, rfl⟩

end Vans
