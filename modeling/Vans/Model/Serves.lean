import Vans.Model.Component
import Mathlib.Data.Multiset.AddSub
/-!
# Components that serve

What a driver may rely on that ticks a component clock by clock: no call
fails, and the callback of each request that was taken is run once at
most, with the address the request came under. Over one child that does,
a component does that hands every request on.
-/

namespace Vans

variable {κ σ : Type}

/-- The callback a request is owed, with the address it came under. -/
def BaseRequest.due (req : BaseRequest κ) : Multiset (κ × Addr) :=
  req.callback.elim 0 fun c => {(c, req.addr)}

/-- That of a read. -/
def BaseRequest.dueRead (req : BaseRequest κ) : Multiset (κ × Addr) :=
  if req.type = .read then req.due else 0

def dueAll (reqs : List (BaseRequest κ)) : Multiset (κ × Addr) := (reqs.map BaseRequest.due).sum

/-- What the callbacks were run with. -/
def calledWith (ran : List (Invocation κ)) : Multiset (κ × Addr) :=
  (ran.map fun inv => (inv.callback, inv.addr) : List (κ × Addr))

theorem calledWith_append {ran ran' : List (Invocation κ)} :
    calledWith (ran ++ ran') = calledWith ran + calledWith ran' := by
  rw [calledWith, List.map_append, ← Multiset.coe_add]
  rfl

theorem calledWith_cons {inv : Invocation κ} {ran : List (Invocation κ)} :
    calledWith (inv :: ran) = {(inv.callback, inv.addr)} + calledWith ran := rfl

theorem dueAll_cons {req : BaseRequest κ} {reqs : List (BaseRequest κ)} :
    dueAll (req :: reqs) = req.due + dueAll reqs := List.sum_cons

theorem dueAll_append {reqs reqs' : List (BaseRequest κ)} :
    dueAll (reqs ++ reqs') = dueAll reqs + dueAll reqs' := by
  rw [dueAll, List.map_append, List.sum_append]
  rfl

/-- **A component that serves** the requests it takes, up to a clock:
`fit n` are the states it may be in when its next tick is that of clock
`n`, and `owes` the callbacks of a request it runs itself. -/
structure Component.Serves (C : Component κ σ) (owes : BaseRequest κ → Multiset (κ × Addr))
    (limit : ℕ) where
  limit_lt : limit < 2 ^ 64
  fit : ℕ → σ → Prop
  inFlight : σ → Multiset (κ × Addr)
  issue : ∀ {n s} (req), fit n s → Yields (C.issueRequest req s) fun out =>
    out.2.1 = req ∧ fit n out.2.2 ∧
      inFlight out.2.2 = inFlight s + if out.1.issued then owes req else 0
  tick : ∀ {clk s} (visit), fit clk.toNat s → clk.toNat < limit →
    Yields (C.tick visit clk s) fun out =>
      fit (clk.toNat + 1) out.1 ∧ inFlight s = inFlight out.1 + calledWith out.2

namespace Component.Serves

variable {C : Component κ σ} {owes : BaseRequest κ → Multiset (κ × Addr)} {limit n : ℕ} {s : σ}

/-- The only child takes a request, or refuses it. -/
theorem issueTo (S : C.Serves owes limit) (req : BaseRequest κ) (hfit : S.fit n s) :
    Yields (C.issueTo [s] 0 req) fun out => out.2.1 = req ∧ ∃ s', out.2.2 = [s'] ∧ S.fit n s' ∧
      S.inFlight s' = S.inFlight s + if out.1.issued then owes req else 0 := by
  obtain ⟨⟨resp, req', s'⟩, hissue, hreq, hfit', hflight⟩ := S.issue req hfit
  exact ⟨_, issueTo_eq_ok.mpr ⟨s, s', rfl, hissue, rfl⟩, hreq, s', rfl, hfit', hflight⟩

/-- The only child ticks. -/
theorem tickNext (S : C.Serves owes limit) (visit : Visit) {clk : Clk} (hfit : S.fit clk.toNat s)
    (hclk : clk.toNat < limit) : Yields (C.tickNext visit clk [s]) fun out =>
      ∃ s', out.1 = [s'] ∧ S.fit (clk.toNat + 1) s' ∧
        S.inFlight s = S.inFlight s' + calledWith out.2 := by
  obtain ⟨⟨s', ran⟩, htick, hfit', hflight⟩ := S.tick (visit.child 0) hfit hclk
  refine ⟨([s'], ran), ?_, s', rfl, hfit', hflight⟩
  simp only [Component.tickNext, List.zipIdx_cons, List.zipIdx_nil, List.foldlM_cons,
    List.foldlM_nil, htick, ok_bind]
  rfl

end Component.Serves

end Vans
