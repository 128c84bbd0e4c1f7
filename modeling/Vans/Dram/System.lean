import Vans.Dram.Controller
/-!
# The DDR4 system

A DRAM memory as a node of the tree: the memory answers what the system
is asked. The configurations give it no children.
-/

namespace Vans

namespace Ddr4System

open Dram

/-- The system over its memory, of any standard. -/
structure Sys (κ γ ς : Type) (k : ℕ) where
  isDraining : Bool := false
  localMemoryModel : Dram.Sys κ γ ς k

variable {κ γ ς : Type} {k : ℕ} [DecidableEq γ]

/-- Draining does nothing to the memory, and is done once. -/
def drain (spec : Spec γ ς) (s : Sys κ γ ς k) : Result (Sys κ γ ς k) := do
  if s.isDraining then
    throw "Internal error, should not call drain() twice."
  let memory ← (Dram.component spec k).drain s.localMemoryModel
  return { s with isDraining := true, localMemoryModel := memory }

def component (spec : Spec γ ς) (k : ℕ) : Component κ (Sys κ γ ς k) where
  issueRequest := fun req s => do
    let (resp, req, memory) ← (Dram.component spec k).issueRequest req s.localMemoryModel
    return (resp, req, { s with localMemoryModel := memory })
  full := fun s => (Dram.component spec k).full s.localMemoryModel
  pending := fun s => (Dram.component spec k).pending s.localMemoryModel
  drain := drain spec
  tick := fun visit currClk s => do
    let (memory, ran) ← (Dram.component spec k).tick visit currClk s.localMemoryModel
    return ({ s with localMemoryModel := memory }, ran)

/-- **What the system does with a request**: its memory does it. -/
theorem issueRequest_eq_ok {spec : Spec γ ς} {req req' : BaseRequest κ} {resp : BaseResponse}
    {s t : Sys κ γ ς k} :
    (component spec k).issueRequest req s = .ok (resp, req', t) ↔ ∃ memory,
      (Dram.component spec k).issueRequest req s.localMemoryModel = .ok (resp, req', memory) ∧
      t = { s with localMemoryModel := memory } := by
  simp only [component, bind_eq_ok, Prod.exists, pure_eq_ok, Prod.mk.injEq]
  constructor
  · rintro ⟨resp', req'', memory, hissue, rfl, rfl, rfl⟩
    exact ⟨memory, hissue, rfl⟩
  · rintro ⟨memory, hissue, rfl⟩
    exact ⟨resp, req', memory, hissue, rfl, rfl, rfl⟩

end Ddr4System

end Vans
