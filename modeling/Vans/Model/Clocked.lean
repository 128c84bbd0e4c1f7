import Vans.Model.Clears
/-!
# Clocked drivers

A driver that ticks its component clock by clock, and gives its requests
the clock of the next tick. What a component that clears holds is known
at every clock of its runs, and where the driver asks nothing only the
clock goes on.
-/

namespace Vans

variable {κ σ : Type}

/-- **The calls of a clocked driver**, and the clock of the tick that is
next after them. `Q` restricts the requests. -/
inductive Clocked (Q : BaseRequest κ → Prop) (limit : ℕ) (clk₀ : Clk) : List (Call κ) → Clk → Prop
  | nil : Clocked Q limit clk₀ [] clk₀
  | issueRequest {calls : List (Call κ)} {clk : Clk} {req : BaseRequest κ}
      (h : Clocked Q limit clk₀ calls clk) (hreq : Q req) (harrive : req.arrive = clk) :
      Clocked Q limit clk₀ (calls ++ [.issueRequest req]) clk
  | tick {calls : List (Call κ)} {clk : Clk} {visit : Visit} (h : Clocked Q limit clk₀ calls clk)
      (hclk : clk.toNat < limit) : Clocked Q limit clk₀ (calls ++ [.tick visit clk]) (clk + 1)

namespace Clocked

variable {C : Component κ σ} {Q : BaseRequest κ → Prop} {limit : ℕ} {clk₀ clk : Clk}
  {calls : List (Call κ)} {d d' : Driven κ σ}

/-- **What requests and ticks keep**, the run of a clocked driver keeps. -/
theorem run_keeps {P : Clk → Driven κ σ → Prop}
    (hissue : ∀ clk req d resp req' s, Q req → req.arrive = clk → P clk d →
      C.issueRequest req d.state = .ok (resp, req', s) → P clk
        { d with state := s, accepted := if resp.issued then d.accepted ++ [req] else d.accepted })
    (htick : ∀ clk visit d s ran, clk.toNat < limit → P clk d →
      C.tick visit clk d.state = .ok (s, ran) →
      P (clk + 1) { d with state := s, ran := d.ran ++ ran })
    (h : Clocked Q limit clk₀ calls clk) (hP : P clk₀ d) (hrun : C.machine.run d calls = .ok d') :
    P clk d' := by
  induction h generalizing d' with
  | nil =>
      obtain rfl := Except.ok.inj hrun
      exact hP
  | issueRequest h hreq harrive ih =>
      obtain ⟨m, hm, hlast⟩ := Machine.run_concat.mp hrun
      simp only [Component.machine, bind_eq_ok, Prod.exists, pure_eq_ok] at hlast
      obtain ⟨resp, req', s, hissued, rfl⟩ := hlast
      exact hissue _ _ _ _ _ _ hreq harrive (ih hm) hissued
  | tick h hclk ih =>
      obtain ⟨m, hm, hlast⟩ := Machine.run_concat.mp hrun
      simp only [Component.machine, bind_eq_ok, Prod.exists, pure_eq_ok] at hlast
      obtain ⟨s, ran, hticked, rfl⟩ := hlast
      exact htick _ _ _ _ _ hclk (ih hm) hticked

variable {owes : BaseRequest κ → Multiset (κ × Addr)} {S : C.Serves owes limit} {lag rest a l : ℕ}

/-- The next clock, where the clocks do not wrap. -/
theorem toNat_succ (hlimit : limit < 2 ^ 64) (hclk : clk.toNat < limit) :
    (clk + 1).toNat = clk.toNat + 1 := by
  rw [UInt64.toNat_add]
  exact Nat.mod_eq_of_lt (by change _ + 1 < _; omega)

/-- **What a component that clears holds**, under a driver whose requests
can be answered. -/
theorem holds (K : S.Clears lag rest) (hQ : ∀ req, Q req → req.Answerable)
    (h : Clocked Q limit clk₀ calls clk) (ha : a ≤ clk₀.toNat)
    (hheld : K.held a l clk₀.toNat d.state) (hrun : C.machine.run d calls = .ok d') :
    ∃ a l, a ≤ clk.toNat ∧ K.held a l clk.toNat d'.state := by
  refine h.run_keeps (P := fun clk d => ∃ a l, a ≤ clk.toNat ∧ K.held a l clk.toNat d.state)
    ?_ ?_ ⟨a, l, ha, hheld⟩ hrun
  · rintro clk req d resp req' s hreq - ⟨a, l, ha, hheld⟩ hissue
    have hheld' := K.issue (hQ req hreq) ha hheld hissue
    split at hheld'
    · exact ⟨_, _, le_rfl, hheld'⟩
    · exact ⟨a, l, ha, hheld'⟩
  · rintro clk visit d s ran hclk ⟨a, l, ha, hheld⟩ htick
    rw [toNat_succ S.limit_lt hclk]
    exact ⟨a, l, ha.trans (Nat.le_succ _), K.tick hclk hheld htick⟩

/-- **A driver that asks nothing** changes nothing of what is held but the
clock. -/
theorem holds_on (K : S.Clears lag rest) (h : Clocked (fun _ => False) limit clk₀ calls clk)
    (hheld : K.held a l clk₀.toNat d.state) (hrun : C.machine.run d calls = .ok d') :
    K.held a l clk.toNat d'.state := by
  refine h.run_keeps (P := fun clk d => K.held a l clk.toNat d.state) ?_ ?_ hheld hrun
  · exact fun _ _ _ _ _ _ hreq => hreq.elim
  · intro clk visit d s ran hclk hheld htick
    rw [toNat_succ S.limit_lt hclk]
    exact K.tick hclk hheld htick

end Clocked

end Vans
