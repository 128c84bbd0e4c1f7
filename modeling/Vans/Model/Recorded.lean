import Vans.Model.Component
/-!
# A component and the record of what passes

A component kept together with the record of what passed between it and
its driver: the requests issued, whether each was taken, and the
callbacks run. The record is not read by anyone, so a driver behaves
over the recorded component as it does over the component.
-/

namespace Vans

/-- What passes between a component and its driver. -/
inductive Exchange (κ : Type) where
  | issued (req : BaseRequest κ) (taken : Bool)
  | ran (inv : Invocation κ)
  deriving DecidableEq, Repr

namespace Exchange

variable {κ : Type}

def takenReq : Exchange κ → Option (BaseRequest κ)
  | .issued req true => some req
  | _ => none

/-- The requests taken, in order. -/
def taken (record : List (Exchange κ)) : List (BaseRequest κ) := record.filterMap takenReq

variable {record : List (Exchange κ)} {x : Exchange κ} {ran : List (Invocation κ)}

theorem taken_concat : taken (record ++ [x]) = taken record ++ (takenReq x).toList := by
  rw [taken, List.filterMap_append]
  cases x with
  | issued req yes => cases yes <;> rfl
  | ran inv => rfl

@[simp] theorem taken_append_ran : taken (record ++ ran.map .ran) = taken record := by
  simp [taken, takenReq]

end Exchange

namespace Component

variable {κ σ : Type}

/-- The component, kept with the record. -/
def recorded (C : Component κ σ) : Component κ (σ × List (Exchange κ)) where
  issueRequest := fun req (s, record) => do
    let (resp, req', s) ← C.issueRequest req s
    return (resp, req', s, record ++ [.issued req resp.issued])
  full := fun (s, _) => C.full s
  pending := fun (s, _) => C.pending s
  drain := fun (s, record) => do
    let s ← C.drain s
    return (s, record)
  tick := fun visit currClk (s, record) => do
    let (s, ran) ← C.tick visit currClk s
    return ((s, record ++ ran.map .ran), ran)

/-! ## Components that keep records -/

/-- The requests the component of this index took. -/
def takenAt (next : List (σ × List (Exchange κ))) (i : ℕ) : List (BaseRequest κ) :=
  next[i]?.elim [] fun c => Exchange.taken c.2

/-- A component in the place of another that took the same. -/
theorem takenAt_set {next : List (σ × List (Exchange κ))} {i j : ℕ} {c : σ × List (Exchange κ)}
    (h : ∀ c' ∈ next[i]?, Exchange.taken c.2 = Exchange.taken c'.2) :
    takenAt (next.set i c) j = takenAt next j := by
  by_cases hij : i = j
  · subst hij
    by_cases hlt : i < next.length
    · rw [takenAt, takenAt, List.getElem?_set_self hlt, List.getElem?_eq_getElem hlt]
      exact h _ (List.getElem?_eq_getElem hlt)
    · rw [List.set_eq_of_length_le (Nat.not_lt.mp hlt)]
  · rw [takenAt, takenAt, List.getElem?_set_ne hij]

/-- **What a component takes goes to its own record.** -/
theorem takenAt_issueTo {C : Component κ σ} {next next' : List (σ × List (Exchange κ))} {i j : ℕ}
    {req req' : BaseRequest κ} {resp : BaseResponse}
    (h : C.recorded.issueTo next i req = .ok (resp, req', next')) :
    takenAt next' j = takenAt next j ++ if i = j ∧ resp.issued = true then [req] else [] := by
  obtain ⟨⟨s, record⟩, st', hget, hissue, rfl⟩ := Component.issueTo_eq_ok.mp h
  simp only [recorded, bind_eq_ok, Prod.exists, pure_eq_ok, Prod.mk.injEq] at hissue
  obtain ⟨resp', req'', s', -, rfl, rfl, rfl⟩ := hissue
  obtain ⟨hlt, -⟩ := List.getElem?_eq_some_iff.mp hget
  by_cases hij : i = j
  · subst hij
    rw [takenAt, takenAt, List.getElem?_set_self hlt, hget]
    cases hyes : resp'.issued <;> simp [Exchange.taken_concat, Exchange.takenReq]
  · rw [takenAt, takenAt, List.getElem?_set_ne hij]
    simp [hij]

end Component

end Vans
