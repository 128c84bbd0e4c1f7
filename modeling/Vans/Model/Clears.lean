import Vans.Model.Serves
/-!
# Components that clear

What a parent may rely on that gives a component no more: after a while
nothing the component took is in flight. What a state holds is said by
the clock by which all of it was taken and by how many calls it may still
take to answer it; so the parent can go on from what its child holds when
the last request was handed to it.
-/

namespace Vans

variable {κ σ : Type}

/-- A read has a callback to be answered by. -/
def BaseRequest.Answerable (req : BaseRequest κ) : Prop := req.type = .read → req.callback.isSome

namespace Component.Serves

variable {C : Component κ σ} {owes : BaseRequest κ → Multiset (κ × Addr)} {limit : ℕ}

/-- **A component that clears.** `held a l n` are the states it may be in
when its next tick is that of clock `n`, of which all was taken by the
clock `a` and no more than `l` is to be answered. Nothing of it is in
flight `lag + rest` clocks after, and one more for each answer. -/
structure Clears (S : C.Serves owes limit) (lag rest : ℕ) where
  /-- The answers still to be given. -/
  load : σ → ℕ
  held : ℕ → ℕ → ℕ → σ → Prop
  fit : ∀ {a l n s}, held a l n s → S.fit n s
  later : ∀ {a a' l n s}, a ≤ a' → held a l n s → held a' l n s
  renew : ∀ {a l n s}, a ≤ n → held a l n s → held n (load s) n s
  issue : ∀ {a l n s req resp req' s'}, req.Answerable → a ≤ n → held a l n s →
    C.issueRequest req s = .ok (resp, req', s') →
    if resp.issued then held n (l + 1) n s' else held a l n s'
  tick : ∀ {a l clk visit s s' ran}, clk.toNat < limit → held a l clk.toNat s →
    C.tick visit clk s = .ok (s', ran) → held a l (clk.toNat + 1) s'
  clear : ∀ {a l n s}, held a l n s → a + lag + rest + l ≤ n → S.inFlight s = 0

namespace Clears

variable {S : C.Serves owes limit} {lag rest a l n : ℕ} {s : σ} {req req' : BaseRequest κ}
  {resp : BaseResponse} {next : List σ}

/-- Once all it took is done with, the component has room again. -/
def Frees (K : S.Clears lag rest) : Prop :=
  ∀ {a l n : ℕ} {s : σ}, K.held a l n s → a + lag ≤ n → C.full s = .ok false

/-- The only child takes a request, or refuses it. -/
theorem issueTo (K : S.Clears lag rest) (hreq : req.Answerable) (ha : a ≤ n) (h : K.held a l n s)
    (hissue : C.issueTo [s] 0 req = .ok (resp, req', next)) : ∃ s', next = [s'] ∧
      if resp.issued then K.held n (l + 1) n s' else K.held a l n s' := by
  obtain ⟨st, s', hst, hissue, rfl⟩ := issueTo_eq_ok.mp hissue
  obtain rfl := Option.some.inj hst
  exact ⟨s', rfl, K.issue hreq ha h hissue⟩

/-- The only child ticks. -/
theorem tickNext (K : S.Clears lag rest) {visit : Visit} {clk : Clk} {ran : List (Invocation κ)}
    (hclk : clk.toNat < limit) (h : K.held a l clk.toNat s)
    (htick : C.tickNext visit clk [s] = .ok (next, ran)) :
    ∃ s', next = [s'] ∧ K.held a l (clk.toNat + 1) s' := by
  simp only [Component.tickNext, List.zipIdx_cons, List.zipIdx_nil, List.foldlM_cons,
    List.foldlM_nil, bind_eq_ok, Prod.exists, pure_eq_ok, Prod.mk.injEq] at htick
  obtain ⟨_, _, ⟨s', ran', hs', rfl, -⟩, rfl, -⟩ := htick
  exact ⟨s', rfl, K.tick hclk h hs'⟩

end Clears

end Component.Serves

end Vans
