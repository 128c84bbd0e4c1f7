import Vans.Model.Component
/-!
# The NVRAM system

A node of the tree with no queue of its own: it maps an address to one
of its children and passes the request on, under the mapped address. It
is full when one of its children is.
-/

namespace Vans

namespace NvramSystem

structure Controller where
  mappingFunc : ComponentMapping
  isDraining : Bool := false

structure Sys (σ : Type) where
  ctrl : Controller
  next : List σ

variable {κ σ : Type}

def Sys.init (mappingFunc : ComponentMapping) (next : List σ) : Sys σ where
  ctrl := { mappingFunc := mappingFunc }
  next := next

def issueRequest (C : Component κ σ) (request : BaseRequest κ) (s : Sys σ) :
    Result (BaseResponse × BaseRequest κ × Sys σ) := do
  let (nextAddr, component) := s.ctrl.mappingFunc request.addr s.next.length
  let (resp, request, next) ← C.issueTo s.next component { request with addr := nextAddr }
  return (resp, request, { s with next := next })

/-- The children are asked in order, up to the first that is full. -/
def full (C : Component κ σ) (s : Sys σ) : Result Bool := s.next.anyM C.full

def drain (C : Component κ σ) (s : Sys σ) : Result (Sys σ) := do
  if s.ctrl.isDraining then
    throw "Internal error, should not call drain() twice."
  let next ← s.next.mapM C.drain
  return { s with ctrl.isDraining := true, next := next }

def component (C : Component κ σ) : Component κ (Sys σ) where
  issueRequest := issueRequest C
  full := full C
  pending := fun s => s.next.any C.pending
  drain := drain C
  tick := fun visit currClk s => do
    let (next, ran) ← C.tickNext visit currClk s.next
    return ({ s with next := next }, ran)

section Functions

variable {C : Component κ σ} {req req' : BaseRequest κ} {resp : BaseResponse} {s t : Sys σ}

/-- The children are drained, once. -/
theorem drain_eq_ok (h : drain C s = .ok t) :
    ∃ next, s.next.mapM C.drain = .ok next ∧ t = ⟨{ s.ctrl with isDraining := true }, next⟩ := by
  unfold drain at h
  split at h
  · simp only [bind_eq_ok, throw_ne_ok, false_and, exists_false] at h
  · simp only [bind_eq_ok, pure_eq_ok] at h
    obtain ⟨next, hnext, rfl⟩ := h
    exact ⟨next, hnext, rfl⟩

/-- **What the system does with a request**: it passes it on, mapped. -/
theorem issueRequest_eq_ok : issueRequest C req s = .ok (resp, req', t) ↔ ∃ next,
    C.issueTo s.next (s.ctrl.mappingFunc req.addr s.next.length).2
      { req with addr := (s.ctrl.mappingFunc req.addr s.next.length).1 } = .ok (resp, req', next) ∧
    t = { s with next := next } := by
  simp only [issueRequest, bind_eq_ok, Prod.exists, pure_eq_ok, Prod.mk.injEq]
  constructor
  · rintro ⟨resp', req'', next, hissue, rfl, rfl, rfl⟩
    exact ⟨next, hissue, rfl⟩
  · rintro ⟨next, hissue, rfl⟩
    exact ⟨resp, req', next, hissue, rfl, rfl, rfl⟩

/-- The system has room where each of its children has. -/
theorem full_eq_false : full C s = .ok false ↔ ∀ st ∈ s.next, C.full st = .ok false := by
  rw [full]
  induction s.next with
  | nil => simp
  | cons st next ih =>
      rw [List.anyM_cons, bind_eq_ok, List.forall_mem_cons, ← ih]
      constructor
      · rintro ⟨b, hb, hrest⟩
        cases b with
        | false => exact ⟨hb, hrest⟩
        | true => exact absurd (pure_eq_ok.mp hrest) (by decide)
      · rintro ⟨hb, hrest⟩
        exact ⟨false, hb, hrest⟩

end Functions

end NvramSystem

end Vans
