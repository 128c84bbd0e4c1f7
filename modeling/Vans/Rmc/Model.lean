import Vans.Model.Component
/-!
# The RMC

The root of the component tree: it moves an incoming address down by
its start address and passes the request on. It holds no request, and
its tick is its children's.
-/

namespace Vans

namespace Rmc

/-- The start address is what the configuration says, or whatever the
uninitialized member held. -/
structure Config where
  mappingFunc : ComponentMapping
  startAddr : Addr

structure Controller where
  mappingFunc : ComponentMapping
  startAddr : Addr
  isDraining : Bool := false

structure Sys (σ : Type) where
  ctrl : Controller
  next : List σ

variable {κ σ : Type}

def Sys.init (cfg : Config) (next : List σ) : Sys σ where
  ctrl := { mappingFunc := cfg.mappingFunc, startAddr := cfg.startAddr }
  next := next

def issueRequest (C : Component κ σ) (request : BaseRequest κ) (s : Sys σ) :
    Result (BaseResponse × BaseRequest κ × Sys σ) := do
  if request.addr < s.ctrl.startAddr then
    throw ("Internal error, incoming address " ++ toString request.addr
      ++ " is lower than rmc's start address " ++ toString s.ctrl.startAddr)
  let (nextAddr, component) := s.ctrl.mappingFunc (request.addr - s.ctrl.startAddr) s.next.length
  let (resp, request, next) ← C.issueTo s.next component { request with addr := nextAddr }
  return (resp, request, { s with next := next })

def drain (C : Component κ σ) (s : Sys σ) : Result (Sys σ) := do
  if s.ctrl.isDraining then
    throw "Internal error, should not call drain() twice."
  let next ← s.next.mapM C.drain
  return { s with ctrl.isDraining := true, next := next }

def component (C : Component κ σ) : Component κ (Sys σ) where
  issueRequest := issueRequest C
  full := fun _ => throw "Internal error, function not supposed to be invoked."
  pending := fun s => s.next.any C.pending
  drain := drain C
  tick := fun visit currClk s => do
    let (next, ran) ← C.tickNext visit currClk s.next
    return ({ s with next := next }, ran)

/-- **What the RMC does with a request**: it passes it on, moved down. -/
theorem issueRequest_eq_ok {C : Component κ σ} {req req' : BaseRequest κ} {s t : Sys σ}
    {resp : BaseResponse} (h : issueRequest C req s = .ok (resp, req', t)) :
    s.ctrl.startAddr ≤ req.addr ∧ ∃ next,
      C.issueTo s.next (s.ctrl.mappingFunc (req.addr - s.ctrl.startAddr) s.next.length).2
        { req with
          addr := (s.ctrl.mappingFunc (req.addr - s.ctrl.startAddr) s.next.length).1 } =
          .ok (resp, req', next) ∧
      t = { s with next := next } := by
  by_cases hlt : req.addr < s.ctrl.startAddr
  · simp only [issueRequest, hlt, if_true, bind_eq_ok, throw_ne_ok, false_and, exists_false] at h
  · simp only [issueRequest, hlt, if_false, bind_eq_ok, Prod.exists, pure_eq_ok,
      Prod.mk.injEq] at h
    obtain ⟨resp', req'', next, hissue, rfl, rfl, rfl⟩ := h
    exact ⟨UInt64.not_lt.mp hlt, next, hissue, rfl⟩

/-- The children are drained, once. -/
theorem drain_eq_ok {C : Component κ σ} {s t : Sys σ} (h : drain C s = .ok t) :
    ∃ next, s.next.mapM C.drain = .ok next ∧ t = ⟨{ s.ctrl with isDraining := true }, next⟩ := by
  unfold drain at h
  split at h
  · simp only [bind_eq_ok, throw_ne_ok, false_and, exists_false] at h
  · simp only [bind_eq_ok, pure_eq_ok] at h
    obtain ⟨next, hnext, rfl⟩ := h
    exact ⟨next, hnext, rfl⟩

end Rmc

end Vans
