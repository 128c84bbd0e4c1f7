import Vans.Dram.Mapping
/-!
# The DRAM tree — when a command is let through

A node keeps, for each command, the clock from which it may be issued.
No such clock is far away: each is at most the longest delay of the
tables after the last command. When that time has passed, the tree lets
any command through.
-/

namespace Vans

namespace Dram

variable {γ ς : Type} [DecidableEq γ]

/-! ## Nodes that are soon ready -/

/-- No delay of the tables is longer than `longest`. -/
def Spec.Longest (spec : Spec γ ς) (k longest : ℕ) : Prop :=
  ∀ level ≤ k, ∀ x, ∀ t ∈ spec.timingTable level x, t.delay ≤ longest

/-- **The node is ready for any command `longest` clocks after `last`.**
The clocks it remembers are no later than `last`. -/
structure Node.Settled (table : γ → List (TimingEntry γ)) (longest last : ℕ) (node : Node γ ς) :
    Prop where
  size : ∀ x, (node.prev x).length = prevSize (table x)
  prev : ∀ x, ∀ c ∈ node.prev x, c = clkInvalid ∨ c.toNat ≤ last
  next : ∀ x, (node.next x).toNat ≤ last + longest

section Nodes

variable {table : γ → List (TimingEntry γ)} {longest last bound : ℕ} {node node' : Node γ ς}
  {f : TimingEntry γ → Option Clk} {entries : List (TimingEntry γ)} {next : γ → Clk} {cmd x : γ}
  {clk : Clk}

theorem raise_le {given : Option Clk} (hnext : ∀ c, (next c).toNat ≤ bound)
    (hgiven : ∀ clk ∈ given, clk.toNat ≤ bound) (c : γ) :
    (raise next x given c).toNat ≤ bound := by
  cases given with
  | none => exact hnext c
  | some clk =>
      have hclk := hgiven clk rfl
      by_cases hc : c = x
      · subst hc
        have hold := hnext c
        rw [raise, Function.update_self, toNat_max]
        omega
      · rw [raise, Function.update_of_ne hc]
        exact hnext c

/-- Bounds are raised no further than the entries say. -/
theorem raiseAll_le (hnext : ∀ c, (next c).toNat ≤ bound)
    (hf : ∀ t ∈ entries, ∀ clk ∈ f t, clk.toNat ≤ bound) (c : γ) :
    (raiseAll f entries next c).toNat ≤ bound := by
  induction entries generalizing next with
  | nil => exact hnext c
  | cons t entries ih =>
      refine ih (raise_le hnext (hf t List.mem_cons_self)) fun u hu => ?_
      exact hf u (List.mem_cons_of_mem _ hu)

omit [DecidableEq γ] in
/-- A clock and a delay, whether or not their sum wraps. -/
theorem add_delay_le {delay : Int} (hpos : 0 ≤ delay) (hlong : delay ≤ longest) :
    (clk + UInt64.ofInt delay).toNat ≤ clk.toNat + longest := by
  have hdelay : (UInt64.ofInt delay).toNat ≤ longest := by
    rw [UInt64.ofInt, UInt64.toNat_ofNat']
    have hmod := Nat.mod_le (delay % 2 ^ 64).toNat (2 ^ 64)
    omega
  rw [UInt64.toNat_add]
  have hmod := Nat.mod_le (clk.toNat + (UInt64.ofInt delay).toNat) (2 ^ 64)
  omega

omit [DecidableEq γ] in
theorem Node.Settled.new {spec : Spec γ ς} {level id : ℕ} :
    (Node.new spec level id).Settled (spec.timingTable level) longest 0 where
  size _ := List.length_replicate
  prev _ _ hc := .inl (List.eq_of_mem_replicate hc)
  next _ := Nat.zero_le _

omit [DecidableEq γ] in
theorem Node.Settled.congr (h : node.Settled table longest last) (hsame : node'.SameTiming node) :
    node'.Settled table longest last := by
  obtain ⟨-, hnext, hprev⟩ := hsame
  exact ⟨hprev ▸ h.size, hprev ▸ h.prev, hnext ▸ h.next⟩

/-- A command beside the node. -/
theorem Node.Settled.updateSibling (h : node.Settled table longest last)
    (hdelay : ∀ t ∈ table x, 0 ≤ t.delay ∧ t.delay ≤ longest) (hclk : last ≤ clk.toNat) :
    (node.updateSibling (table x) clk).Settled table longest clk.toNat := by
  refine ⟨h.size, fun y c hc => ?_, raiseAll_le (fun c => ?_) fun t ht c hc => ?_⟩
  · exact (h.prev y c hc).imp_right fun hle => hle.trans hclk
  · have hold := h.next c
    omega
  · split at hc
    · obtain rfl := Option.some.inj hc
      exact add_delay_le (hdelay t ht).1 (hdelay t ht).2
    · cases hc

/-- **A command through the node.** An entry that looks back finds a
clock no later than this one, or the filler, and then its delay alone is
left. -/
theorem Node.Settled.updateTarget (h : node.Settled table longest last)
    (hdelay : ∀ t ∈ table x, 0 ≤ t.delay ∧ t.delay ≤ longest)
    (hdist : ∀ t ∈ table x, 1 ≤ t.dist) (hwindow : ∀ t ∈ table x, 1 < t.dist → 0 < t.delay)
    (hlong : longest < 2 ^ 64) (hclk : last ≤ clk.toNat) :
    (node.updateTarget (table x) x clk).Settled table longest clk.toNat := by
  have hprev : ∀ y, ∀ c ∈ (node.updateTarget (table x) x clk).prev y,
      c = clkInvalid ∨ c.toNat ≤ clk.toNat := by
    intro y c hc
    have hold : c ∈ node.prev y → c = clkInvalid ∨ c.toNat ≤ clk.toNat := fun hc =>
      (h.prev y c hc).imp_right fun hle => hle.trans hclk
    simp only [Node.updateTarget] at hc
    split at hc
    · exact hold hc
    · by_cases hy : y = x
      · subst hy
        rw [Function.update_self] at hc
        rcases List.mem_cons.mp hc with rfl | hc
        · exact .inr le_rfl
        · exact hold (List.dropLast_subset _ hc)
      · rw [Function.update_of_ne hy] at hc
        exact hold hc
  refine ⟨fun y => ?_, hprev, raiseAll_le (fun c => ?_) fun t ht c hc => ?_⟩
  · have hsize := h.size y
    simp only [Node.updateTarget]
    split
    · exact hsize
    · rename_i hne
      by_cases hy : y = x
      · subst hy
        rw [Function.update_self, List.length_cons, List.length_dropLast]
        have hpos := List.length_pos_iff.mpr (mt List.isEmpty_iff.mpr hne)
        omega
      · rw [Function.update_of_ne hy]
        exact hsize
  · have hold := h.next c
    omega
  · split at hc
    · cases hc
    obtain rfl := Option.some.inj hc
    obtain ⟨hpos, hle⟩ := hdelay t ht
    -- the node remembers as much as the entry asks for, so it looks at a clock it keeps
    have hfar := dist_le_prevSize ht
    have hnear := hdist t ht
    have hne : (node.prev x).isEmpty = false := by
      rw [List.isEmpty_eq_false_iff, ← List.length_pos_iff, h.size x]
      omega
    simp only [hne, Bool.false_eq_true, if_false, Function.update_self]
    by_cases hone : t.dist = 1
    · rw [hone]
      exact add_delay_le hpos hle
    · have hget : (clk :: (node.prev x).dropLast).getD (t.dist - 1) clkInvalid = clkInvalid ∨
          ((clk :: (node.prev x).dropLast).getD (t.dist - 1) clkInvalid).toNat ≤ clk.toNat := by
        rw [List.getD_eq_getElem?_getD]
        cases hc : (clk :: (node.prev x).dropLast)[t.dist - 1]? with
        | none => exact .inl rfl
        | some c =>
            refine hprev x c ?_
            simp only [Node.updateTarget, hne, Bool.false_eq_true, if_false, Function.update_self]
            exact List.mem_of_getElem? hc
      rcases hget with hfill | hold
      · have hfiller := filler_add_delay (hwindow t ht (by omega)) (by omega)
        rw [hfill]
        omega
      · exact (add_delay_le hpos hle).trans (by omega)

omit [DecidableEq γ] in
/-- **When the delays have passed the node is ready.** -/
theorem Node.Settled.ready (h : node.Settled table longest last)
    (hclk : last + longest ≤ clk.toNat) :
    node.ready cmd clk = true := by
  have hnext := h.next cmd
  have hlt : ¬ clk < node.next cmd := by
    rw [UInt64.lt_iff_toNat_lt]
    omega
  simp [Node.ready, hlt]

end Nodes

/-! ## Trees that are soon ready -/

/-- Every node of the tree is settled. -/
def Settled (spec : Spec γ ς) (longest last : ℕ) : (k : ℕ) → ℕ → Dram γ ς k → Prop
  | 0, level, d => Node.Settled (spec.timingTable level) longest last d
  | k + 1, level, d => d.1.Settled (spec.timingTable level) longest last ∧
    ∀ c ∈ d.2, Settled spec longest last k (level + 1) c

namespace Settled

variable {spec : Spec γ ς} {longest last : ℕ} {cmd : γ} {addr : MappedAddr} {clk : Clk}

omit [DecidableEq γ] in
theorem new : ∀ {k level id : ℕ}, Settled spec longest 0 k level (Dram.new spec k level id)
  | 0, _, _ => Node.Settled.new
  | _ + 1, _, _ => by
    refine ⟨Node.Settled.new, fun c hc => ?_⟩
    obtain ⟨i, -, rfl⟩ := List.mem_map.mp hc
    exact Settled.new

omit [DecidableEq γ] in
theorem congr : ∀ {k level : ℕ} {d' d : Dram γ ς k}, Settled spec longest last k level d →
    SameTiming d' d → Settled spec longest last k level d'
  | 0, _, _, _, h, hsame => Node.Settled.congr h hsame
  | _ + 1, _, (_, _), (_, _), ⟨hnode, hcs⟩, ⟨hsame, hchildren⟩ => by
    refine ⟨hnode.congr hsame, fun c hc => ?_⟩
    have hget := List.forall₂_iff_get.mp hchildren
    obtain ⟨i, hi, rfl⟩ := List.getElem_of_mem hc
    exact (hcs _ (List.getElem_mem (hget.1 ▸ hi))).congr (hget.2 i hi (hget.1 ▸ hi))

omit [DecidableEq γ] in
theorem mono {last' : ℕ} (hle : last ≤ last') : ∀ {k level : ℕ} {d : Dram γ ς k},
    Settled spec longest last k level d → Settled spec longest last' k level d
  | 0, _, _, h => ⟨h.size, fun x c hc => (h.prev x c hc).imp_right (·.trans hle),
      fun x => (h.next x).trans (by omega)⟩
  | _ + 1, _, _, ⟨h, hcs⟩ => ⟨⟨h.size, fun x c hc => (h.prev x c hc).imp_right (·.trans hle),
      fun x => (h.next x).trans (by omega)⟩, fun c hc => (hcs c hc).mono hle⟩

/-- **A command is recorded throughout the tree**, which is settled from
its clock on. -/
theorem updateTiming {K : ℕ} (hproper : spec.Proper K) (hlongest : spec.Longest K longest)
    (hlong : longest < 2 ^ 64) (hclk : last ≤ clk.toNat) : ∀ {k level : ℕ} {d : Dram γ ς k},
    level + k ≤ K → Settled spec longest last k level d →
    Settled spec longest clk.toNat k level (Dram.updateTiming spec cmd addr clk k level d) := by
  intro k
  induction k with
  | zero =>
      intro level d hk h
      have hdelay : ∀ t ∈ spec.timingTable level cmd, 0 ≤ t.delay ∧ t.delay ≤ longest :=
        fun t ht => ⟨hproper.delay level hk cmd t ht, hlongest level hk cmd t ht⟩
      unfold Dram.updateTiming
      split
      · exact Node.Settled.updateSibling h hdelay hclk
      · exact Node.Settled.updateTarget h hdelay (hproper.dist level hk cmd)
          (hproper.window level hk cmd) hlong hclk
  | succ k ih =>
      rintro level ⟨node, children⟩ hk ⟨hnode, hcs⟩
      have hlevel : level ≤ K := by omega
      have hdelay : ∀ t ∈ spec.timingTable level cmd, 0 ≤ t.delay ∧ t.delay ≤ longest :=
        fun t ht => ⟨hproper.delay level hlevel cmd t ht, hlongest level hlevel cmd t ht⟩
      unfold Dram.updateTiming
      split
      · exact ⟨hnode.updateSibling hdelay hclk, fun c hc => (hcs c hc).mono hclk⟩
      · refine ⟨hnode.updateTarget hdelay (hproper.dist level hlevel cmd)
          (hproper.window level hlevel cmd) hlong hclk, fun c hc => ?_⟩
        obtain ⟨c₀, hc₀, rfl⟩ := List.mem_map.mp hc
        exact ih (by omega) (hcs c₀ hc₀)

/-- **Issuing a command settles the tree anew**, from its clock on. -/
theorem update {k : ℕ} {d d' : Dram γ ς k} (hproper : spec.Proper k)
    (hlongest : spec.Longest k longest) (hlong : longest < 2 ^ 64) (hclk : last ≤ clk.toNat)
    (h : Settled spec longest last k 0 d) (hd : Dram.update spec cmd addr clk k d = .ok d') :
    Settled spec longest clk.toNat k 0 d' := by
  simp only [Dram.update, bind_eq_ok, pure_eq_ok] at hd
  obtain ⟨u, hu, rfl⟩ := hd
  exact (h.congr (updateState_sameTiming hu)).updateTiming hproper hlongest hlong hclk (by omega)

omit [DecidableEq γ] in
/-- **When the delays have passed, the tree lets any command through**
that is for a place in it. -/
theorem check (hclk : last + longest ≤ clk.toNat) : ∀ {k level : ℕ} {d : Dram γ ς k},
    Settled spec longest last k level d → Sized spec k level d → InRange spec k level addr →
    Dram.check spec cmd addr clk k level d = .ok true := by
  intro k
  induction k with
  | zero =>
      intro level d h _ _
      exact congrArg _ (Node.Settled.ready h hclk)
  | succ k ih =>
      intro level d h sized hin
      unfold Dram.check
      rw [h.1.ready hclk]
      simp only [Bool.not_true, Bool.false_eq_true, if_false]
      split
      · rfl
      · obtain ⟨c, hmem, hc, hsized⟩ := sized.child hin
        rw [hc, ok_bind]
        exact ih (h.2 c hmem) hsized hin.below

end Settled

end Dram

end Vans
