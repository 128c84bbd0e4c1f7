import Vans.Imc.Order
import Vans.Model.Clears
import Vans.Rmc.Model
/-!
# The RMC — no call fails

A root of one component that moves no address: it passes every call on,
so it serves what the component below it serves, and nothing is in flight
in it once nothing is below.
-/

namespace Vans

namespace Rmc

variable {κ σ : Type} {C : Component κ σ} {owes : BaseRequest κ → Multiset (κ × Addr)}
  {limit n : ℕ} {S : C.Serves owes limit} {s : Sys σ}

/-- The root of one component, which starts at zero. -/
structure Sys.Passes (S : C.Serves owes limit) (n : ℕ) (s : Sys σ) : Prop where
  single : ∃ st, s.next = [st] ∧ S.fit n st
  mapping : s.ctrl.mappingFunc = noneMapping ∨ s.ctrl.mappingFunc = strideMapping4096
  start : s.ctrl.startAddr = 0

/-- A request is passed on as it is. -/
theorem issueRequest_passes (h : s.Passes S n) (req : BaseRequest κ) : issueRequest C req s = do
    let (resp, req', next) ← C.issueTo s.next 0 req
    return (resp, req', { s with next := next }) := by
  obtain ⟨⟨st, hone, -⟩, hmapping, hstart⟩ := h
  have hlt : ¬ req.addr < s.ctrl.startAddr := by
    rw [hstart]
    exact UInt64.not_lt_zero
  have haddr : s.ctrl.mappingFunc (req.addr - s.ctrl.startAddr) s.next.length = (req.addr, 0) := by
    rw [hstart, hone, List.length_singleton, UInt64.sub_zero]
    exact Imc.mapping_one hmapping _
  rw [issueRequest, if_neg hlt, haddr]

/-- **A root serves** what the component below it serves. -/
def serves (S : C.Serves owes limit) : (component C).Serves owes limit where
  limit_lt := S.limit_lt
  fit := fun n s => s.Passes S n
  inFlight := fun s => (s.next.map S.inFlight).sum
  issue := by
    intro n s req h
    have ⟨⟨st, hone, hfit⟩, hmapping, hstart⟩ := h
    obtain ⟨⟨resp, req', next⟩, hissue, hreq, st', rfl, hfit', hflight⟩ := S.issueTo req hfit
    refine ⟨(resp, req', { s with next := [st'] }), ?_, hreq, ⟨⟨st', rfl, hfit'⟩, hmapping,
      hstart⟩, ?_⟩
    · change issueRequest C req s = _
      rw [issueRequest_passes h, hone, hissue]
      rfl
    · rw [hone]
      simpa using hflight
  tick := by
    intro clk s visit h hclk
    obtain ⟨⟨st, hone, hfit⟩, hmapping, hstart⟩ := h
    obtain ⟨⟨next, ran⟩, hnext, st', rfl, hfit', hflight⟩ := S.tickNext visit hfit hclk
    refine ⟨({ s with next := [st'] }, ran), ?_, ⟨⟨st', rfl, hfit'⟩, hmapping, hstart⟩, ?_⟩
    · simp only [component, hone, hnext, ok_bind]
      rfl
    · rw [hone]
      simpa using hflight

section Clears

variable {lag rest a l : ℕ} {K : S.Clears lag rest} {t : Sys σ}

/-- What a root holds is held below it. -/
structure Sys.Holds (K : S.Clears lag rest) (a l n : ℕ) (s : Sys σ) : Prop where
  passes : s.Passes S n
  below : ∃ st, s.next = [st] ∧ K.held a l n st

namespace Sys.Holds

theorem later {a' : ℕ} (ha : a ≤ a') (h : s.Holds K a l n) : s.Holds K a' l n := by
  obtain ⟨st, hone, hheld⟩ := h.below
  exact ⟨h.passes, st, hone, K.later ha hheld⟩

theorem renew (ha : a ≤ n) (h : s.Holds K a l n) : s.Holds K n (s.next.map K.load).sum n := by
  obtain ⟨st, hone, hheld⟩ := h.below
  refine ⟨h.passes, st, hone, ?_⟩
  rw [hone, List.map_singleton, List.sum_singleton]
  exact K.renew ha hheld

theorem issue {req req' : BaseRequest κ} {resp : BaseResponse} (hreq : req.Answerable)
    (ha : a ≤ n) (h : s.Holds K a l n)
    (hissue : (component C).issueRequest req s = .ok (resp, req', t)) :
    if resp.issued then t.Holds K n (l + 1) n else t.Holds K a l n := by
  obtain ⟨st, hone, hheld⟩ := h.below
  obtain ⟨out, hout, -, hpasses, -⟩ := (serves S).issue req h.passes
  obtain rfl := Except.ok.inj (hissue.symm.trans hout)
  change issueRequest C req s = _ at hissue
  rw [issueRequest_passes h.passes, hone] at hissue
  simp only [bind_eq_ok, Prod.exists, pure_eq_ok, Prod.mk.injEq] at hissue
  obtain ⟨_, _, next, hnext, rfl, rfl, rfl⟩ := hissue
  obtain ⟨st', rfl, hheld'⟩ := K.issueTo hreq ha hheld hnext
  split
  · rename_i hyes
    rw [if_pos hyes] at hheld'
    exact ⟨hpasses, st', rfl, hheld'⟩
  · rename_i hno
    rw [if_neg hno] at hheld'
    exact ⟨hpasses, st', rfl, hheld'⟩

theorem tick {clk : Clk} {visit : Visit} {ran : List (Invocation κ)} (hclk : clk.toNat < limit)
    (h : s.Holds K a l clk.toNat) (htick : (component C).tick visit clk s = .ok (t, ran)) :
    t.Holds K a l (clk.toNat + 1) := by
  obtain ⟨st, hone, hheld⟩ := h.below
  obtain ⟨out, hout, hpasses, -⟩ := (serves S).tick visit h.passes hclk
  obtain rfl := Except.ok.inj (htick.symm.trans hout)
  simp only [component, hone, bind_eq_ok, Prod.exists, pure_eq_ok, Prod.mk.injEq] at htick
  obtain ⟨next, ran', hnext, rfl, rfl⟩ := htick
  obtain ⟨st', rfl, hheld'⟩ := K.tickNext hclk hheld hnext
  exact ⟨hpasses, st', rfl, hheld'⟩

theorem clear (h : s.Holds K a l n) (hlate : a + lag + rest + l ≤ n) :
    (serves S).inFlight s = 0 := by
  obtain ⟨st, hone, hheld⟩ := h.below
  change (s.next.map S.inFlight).sum = 0
  rw [hone, List.map_singleton, List.sum_singleton]
  exact K.clear hheld hlate

end Sys.Holds

/-- **A root clears** as the component below it does. -/
def clears (K : S.Clears lag rest) : (serves S).Clears lag rest where
  load := fun s => (s.next.map K.load).sum
  held := fun a l n s => s.Holds K a l n
  fit := Sys.Holds.passes
  later := Sys.Holds.later
  renew := Sys.Holds.renew
  issue := Sys.Holds.issue
  tick := Sys.Holds.tick
  clear := Sys.Holds.clear

end Clears

end Rmc

end Vans
