import Vans.Dram.Mapping
import Mathlib.Order.Bounds.Basic
/-!
# The DRAM tree — how exact its clocks are

What the tables impose on a command at a node is a set of clocks: one for
each entry that some earlier command has begun to count for. The bound a
node keeps is the greatest of them, but for the fillers: a window that is
begun and not yet full imposes the filler of the deque it looks back in,
and that is one clock less than its delay.
-/

namespace Vans

namespace Dram

variable {γ ς : Type} [DecidableEq γ]

/-! ## What the tables impose -/

/-- The command an entry counts from: for an entry about siblings the
last one issued beside the node, for any other the last but `dist - 1` of
those issued through it. Histories start with the newest. -/
def past (own beside : List (Issued γ)) (x : γ) (t : TimingEntry γ) : Option Clk :=
  if t.hasSibling then (clocks x beside).head? else (clocks x own)[t.dist - 1]?

/-- **What the entries for a command impose on it.** -/
def imposed (table : γ → List (TimingEntry γ)) (own beside : List (Issued γ)) (cmd : γ) : Set ℤ :=
  {v | ∃ x, ∃ t ∈ table x, t.cmd = cmd ∧ ∃ c ∈ past own beside x t, v = c.toNat + t.delay}

/-- What a look back imposes that finds the filler. -/
def fillerClk (t : TimingEntry γ) : Clk := clkInvalid + UInt64.ofInt t.delay

/-- What the windows impose that some command has begun. -/
def filled (table : γ → List (TimingEntry γ)) (own : List (Issued γ)) (cmd : γ) : Set ℤ :=
  {v | ∃ x, ∃ t ∈ table x, t.cmd = cmd ∧ t.hasSibling = false ∧ 2 ≤ t.dist ∧ clocks x own ≠ [] ∧
    v = (fillerClk t).toNat}

/-- The node bounds each command by the greatest of what is imposed, or
by zero. -/
def Node.Exact (table : γ → List (TimingEntry γ)) (own beside : List (Issued γ))
    (node : Node γ ς) : Prop :=
  ∀ cmd, IsGreatest (insert 0 (imposed table own beside cmd)) ((node.next cmd).toNat : ℤ)

/-- No sum of a clock and a delay wraps. -/
def Nowrap (table : γ → List (TimingEntry γ)) (own beside : List (Issued γ)) : Prop :=
  ∀ cmd, ∀ v ∈ imposed table own beside cmd, v < 2 ^ 64

/-- **What keeps a node exact**: the sums do not wrap, and a window that
some command has begun does not impose more with its filler than the
commands do. -/
structure Harmless (table : γ → List (TimingEntry γ)) (own beside : List (Issued γ)) : Prop where
  nowrap : Nowrap table own beside
  fillers : ∀ cmd, ∀ v ∈ filled table own cmd, ∃ v' ∈ insert 0 (imposed table own beside cmd), v ≤ v'

/-- The newest commands have the latest clocks. -/
def Descends (hist : List (Issued γ)) : Prop := hist.Pairwise fun new old => old.clk ≤ new.clk

/-! ### Deciding it

The clock a look back finds is tested as a Boolean: clocks are finitely
many, but not to be gone through. -/

section Decide

variable {table : γ → List (TimingEntry γ)} {own beside : List (Issued γ)} {cmd : γ} {P : ℤ → Prop}
  [DecidablePred P]

theorem forall_imposed : (∀ v ∈ imposed table own beside cmd, P v) ↔
    ∀ x, ∀ t ∈ table x, t.cmd = cmd →
      (past own beside x t).all (fun c => P (c.toNat + t.delay)) = true := by
  constructor
  · intro h x t ht hcmd
    rw [Option.all_eq_true]
    exact fun c hc => decide_eq_true (h _ ⟨x, t, ht, hcmd, c, hc, rfl⟩)
  · rintro h v ⟨x, t, ht, hcmd, c, hc, rfl⟩
    have hall := h x t ht hcmd
    rw [Option.all_eq_true] at hall
    exact of_decide_eq_true (hall c hc)

theorem exists_imposed : (∃ v ∈ insert 0 (imposed table own beside cmd), P v) ↔
    P 0 ∨ ∃ x, ∃ t ∈ table x, t.cmd = cmd ∧
      (past own beside x t).any (fun c => P (c.toNat + t.delay)) = true := by
  constructor
  · rintro ⟨v, rfl | ⟨x, t, ht, hcmd, c, hc, rfl⟩, hv⟩
    · exact .inl hv
    · refine .inr ⟨x, t, ht, hcmd, ?_⟩
      rw [Option.any_eq_true]
      exact ⟨c, hc, decide_eq_true hv⟩
  · rintro (hv | ⟨x, t, ht, hcmd, hany⟩)
    · exact ⟨0, .inl rfl, hv⟩
    · rw [Option.any_eq_true] at hany
      obtain ⟨c, hc, hv⟩ := hany
      exact ⟨_, .inr ⟨x, t, ht, hcmd, c, hc, rfl⟩, of_decide_eq_true hv⟩

omit [DecidablePred P] in
theorem harmless_iff : Harmless table own beside ↔
    (∀ x, ∀ t ∈ table x,
      (past own beside x t).all (fun c => (c.toNat + t.delay : ℤ) < 2 ^ 64) = true) ∧
    ∀ x, ∀ t ∈ table x, t.hasSibling = false → 2 ≤ t.dist → clocks x own ≠ [] →
      ((fillerClk t).toNat : ℤ) ≤ 0 ∨ ∃ y, ∃ u ∈ table y, u.cmd = t.cmd ∧
        (past own beside y u).any (fun c => ((fillerClk t).toNat : ℤ) ≤ c.toNat + u.delay) = true := by
  constructor
  · intro h
    refine ⟨fun x t ht => forall_imposed.mp (h.nowrap t.cmd) x t ht rfl, ?_⟩
    intro x t ht hs hdist hne
    exact exists_imposed.mp (h.fillers t.cmd _ ⟨x, t, ht, rfl, hs, hdist, hne, rfl⟩)
  · rintro ⟨hno, hfill⟩
    refine ⟨fun cmd => forall_imposed.mpr fun x t ht _ => hno x t ht, ?_⟩
    rintro cmd v ⟨x, t, ht, rfl, hs, hdist, hne, rfl⟩
    exact exists_imposed.mpr (hfill x t ht hs hdist hne)

omit [DecidablePred P] in
instance [Fintype γ] : Decidable (Harmless table own beside) :=
  decidable_of_iff' _ harmless_iff

end Decide

/-! ## Raising bounds to what is imposed -/

section Raise

variable {f : TimingEntry γ → Option Clk} {entries : List (TimingEntry γ)} {next : γ → Clk}
  {cmd : γ}

/-- A bound that was raised is the old one, or one that an entry gives. -/
theorem raiseAll_cases : raiseAll f entries next cmd = next cmd ∨
    ∃ t ∈ entries, t.cmd = cmd ∧ f t = some (raiseAll f entries next cmd) := by
  induction entries generalizing next with
  | nil => exact .inl rfl
  | cons u entries ih =>
      rw [raiseAll, List.foldl_cons]
      rcases @ih (raise next u.cmd (f u)) with hold | ⟨t, ht, hcmd, hf⟩
      · rw [raiseAll] at hold
        rw [hold]
        cases hu : f u with
        | none => exact .inl rfl
        | some clk =>
            by_cases hc : cmd = u.cmd
            · subst hc
              rw [raise, Function.update_self]
              by_cases hle : next u.cmd ≤ clk
              · have hmax : max (next u.cmd) clk = clk := if_pos hle
                exact .inr ⟨u, List.mem_cons_self, rfl, by rw [hu, hmax]⟩
              · exact .inl (if_neg hle)
            · exact .inl (by rw [raise, Function.update_of_ne hc])
      · exact .inr ⟨t, List.mem_cons_of_mem _ ht, hcmd, hf⟩

/-- **Raised bounds are exact** where the old ones were: what was imposed
is imposed still or superseded, what is new comes from an entry, and no
entry gives more than is imposed. -/
theorem raiseAll_exact {S S' : Set ℤ} (hexact : IsGreatest (insert 0 S) ((next cmd).toNat : ℤ))
    (hold : ∀ v ∈ S, ∃ v' ∈ S', v ≤ v')
    (hnew : ∀ v ∈ S', v ∈ S ∨ ∃ t ∈ entries, t.cmd = cmd ∧ ∃ clk, f t = some clk ∧ v = clk.toNat)
    (hmore : ∀ t ∈ entries, t.cmd = cmd → ∀ clk, f t = some clk →
      ∃ v ∈ insert 0 S', (clk.toNat : ℤ) ≤ v) :
    IsGreatest (insert 0 S') ((raiseAll f entries next cmd).toNat : ℤ) := by
  have hupper : ∀ v ∈ insert 0 S', v ≤ ((raiseAll f entries next cmd).toNat : ℤ) := by
    rintro v (rfl | hv)
    · exact Int.natCast_nonneg _
    · rcases hnew v hv with hv | ⟨t, ht, rfl, clk, hf, rfl⟩
      · exact (hexact.2 (.inr hv)).trans (Int.ofNat_le.mpr le_raiseAll)
      · exact Int.ofNat_le.mpr (raiseAll_ge ht hf)
  -- the bound is no more than something imposed, which is no more than it
  obtain ⟨v, hv, hle⟩ : ∃ v ∈ insert 0 S', ((raiseAll f entries next cmd).toNat : ℤ) ≤ v := by
    rcases @raiseAll_cases γ _ f entries next cmd with
      hsame | ⟨t, ht, hcmd, hf⟩
    · rw [hsame]
      rcases hexact.1 with hzero | hmem
      · exact ⟨0, .inl rfl, hzero.le⟩
      · obtain ⟨v', hv', hle⟩ := hold _ hmem
        exact ⟨v', .inr hv', hle⟩
    · exact hmore t ht hcmd _ hf
  exact ⟨le_antisymm hle (hupper v hv) ▸ hv, hupper⟩

end Raise

/-! ## One command, at one node -/

section Steps

variable {table : γ → List (TimingEntry γ)} {own beside : List (Issued γ)} {node : Node γ ς}
  {i : Issued γ} {t : TimingEntry γ} {x cmd : γ}

omit [DecidableEq γ] in
theorem Descends.of_cons {hist : List (Issued γ)} (h : Descends (i :: hist)) : Descends hist :=
  (List.pairwise_cons.mp h).2

/-- The clocks of a command descend, as its history does. -/
theorem Descends.clocks {hist : List (Issued γ)} (h : Descends hist) (x : γ) :
    (clocks x hist).Pairwise fun new old => old ≤ new := by
  refine List.Pairwise.filterMap _ (fun i j hle c hc d hd => ?_) h
  split at hc <;> split at hd <;> simp_all

/-- A look back finds a later clock than it found before the command. -/
theorem past_own_le (h : Descends (i :: own)) {n : ℕ} {c : Clk}
    (hc : (Dram.clocks i.cmd own)[n]? = some c) :
    ∃ c', (Dram.clocks i.cmd (i :: own))[n]? = some c' ∧ c ≤ c' := by
  have hdesc := h.clocks i.cmd
  rw [clocks_cons_self] at hdesc ⊢
  obtain ⟨hn, rfl⟩ := List.getElem?_eq_some_iff.mp hc
  have hlen : n < (i.clk :: Dram.clocks i.cmd own).length := by
    rw [List.length_cons]
    omega
  refine ⟨_, List.getElem?_eq_getElem hlen, ?_⟩
  have hlater := List.pairwise_iff_getElem.mp hdesc n (n + 1) hlen (by rw [List.length_cons]; omega)
    (Nat.lt_succ_self n)
  simpa using hlater

/-- A command beside the node is what the entries about siblings count
from. -/
theorem past_beside_self (hs : t.hasSibling = true) :
    past own (i :: beside) i.cmd t = some i.clk := by
  simp [past, hs, clocks_cons_self]

theorem past_beside_other (h : t.hasSibling = false ∨ i.cmd ≠ x) :
    past own (i :: beside) x t = past own beside x t := by
  rcases h with hs | hne
  · simp [past, hs]
  · simp [past, clocks_cons_of_ne hne]

theorem past_own_other (h : t.hasSibling = true ∨ i.cmd ≠ x) :
    past (i :: own) beside x t = past own beside x t := by
  rcases h with hs | hne
  · simp [past, hs]
  · simp [past, clocks_cons_of_ne hne]

/-- What is imposed is superseded, not lost, by a command beside the node. -/
theorem imposed_beside_le (h : Descends (i :: beside)) :
    ∀ v ∈ imposed table own beside cmd, ∃ v' ∈ imposed table own (i :: beside) cmd, v ≤ v' := by
  rintro v ⟨x, t, ht, hcmd, c, hc, rfl⟩
  by_cases hnew : t.hasSibling = true ∧ i.cmd = x
  · obtain ⟨hs, rfl⟩ := hnew
    refine ⟨_, ⟨i.cmd, t, ht, hcmd, i.clk, past_beside_self hs, rfl⟩, ?_⟩
    have hle : c ≤ i.clk := by
      have hcs := h.clocks i.cmd
      rw [clocks_cons_self] at hcs
      simp only [past, hs, if_true] at hc
      exact (List.pairwise_cons.mp hcs).1 c (List.mem_of_mem_head? hc)
    rw [UInt64.le_iff_toNat_le] at hle
    omega
  · refine ⟨_, ⟨x, t, ht, hcmd, c, ?_, rfl⟩, le_rfl⟩
    rw [past_beside_other (by simpa only [not_and_or, Bool.not_eq_true] using hnew)]
    exact hc

/-- Nor by a command through it. -/
theorem imposed_own_le (h : Descends (i :: own)) :
    ∀ v ∈ imposed table own beside cmd, ∃ v' ∈ imposed table (i :: own) beside cmd, v ≤ v' := by
  rintro v ⟨x, t, ht, hcmd, c, hc, rfl⟩
  by_cases hnew : t.hasSibling = false ∧ i.cmd = x
  · obtain ⟨hs, rfl⟩ := hnew
    have hown : (Dram.clocks i.cmd own)[t.dist - 1]? = some c := by simpa [past, hs] using hc
    obtain ⟨c', hc', hle⟩ := past_own_le h hown
    refine ⟨_, ⟨i.cmd, t, ht, hcmd, c', by simpa [past, hs] using hc', rfl⟩, ?_⟩
    rw [UInt64.le_iff_toNat_le] at hle
    omega
  · refine ⟨_, ⟨x, t, ht, hcmd, c, ?_, rfl⟩, le_rfl⟩
    rw [past_own_other (by simpa only [not_and_or, Bool.not_eq_false] using hnew)]
    exact hc

theorem Nowrap.of_cons_beside (h : Nowrap table own (i :: beside)) (hdesc : Descends (i :: beside)) :
    Nowrap table own beside := by
  intro cmd v hv
  obtain ⟨v', hv', hle⟩ := imposed_beside_le hdesc v hv
  exact hle.trans_lt (h cmd v' hv')

theorem Nowrap.of_cons_own (h : Nowrap table (i :: own) beside) (hdesc : Descends (i :: own)) :
    Nowrap table own beside := by
  intro cmd v hv
  obtain ⟨v', hv', hle⟩ := imposed_own_le hdesc v hv
  exact hle.trans_lt (h cmd v' hv')

/-- A window that is begun stays so. -/
theorem filled_subset : filled table own cmd ⊆ filled table (i :: own) cmd := by
  rintro v ⟨x, t, ht, hcmd, hs, hdist, hne, rfl⟩
  refine ⟨x, t, ht, hcmd, hs, hdist, fun hnil => hne ?_, rfl⟩
  rw [Dram.clocks, List.filterMap_cons] at hnil
  split at hnil
  · exact hnil
  · cases hnil

/-- **What a node keeps while no sum wraps**: the clocks of the commands
through it, and the greatest of what was imposed, fillers included. -/
structure Node.Bounded (table : γ → List (TimingEntry γ)) (own beside : List (Issued γ))
    (node : Node γ ς) : Prop where
  prev : ∀ x, node.prev x = window clkInvalid (prevSize (table x)) (Dram.clocks x own)
  next : ∀ cmd, IsGreatest (insert 0 (imposed table own beside cmd ∪ filled table own cmd))
    ((node.next cmd).toNat : ℤ)

theorem Node.Bounded.new {spec : Spec γ ς} {level id : ℕ} :
    (Node.new spec level id).Bounded (spec.timingTable level) [] [] where
  prev x := window_nil.symm
  next cmd := by
    refine ⟨.inl rfl, ?_⟩
    rintro v (rfl | ⟨x, t, -, -, c, hc, -⟩ | ⟨x, t, -, -, -, -, hne, -⟩)
    · exact le_rfl
    · simp [past, Dram.clocks] at hc
    · exact absurd rfl hne

theorem Node.Bounded.congr {node' : Node γ ς} (bd : node.Bounded table own beside)
    (h : node'.SameTiming node) : node'.Bounded table own beside := by
  obtain ⟨-, hnext, hprev⟩ := h
  exact ⟨fun x => hprev ▸ bd.prev x, fun cmd => hnext ▸ bd.next cmd⟩

/-- A command beside the node. -/
theorem Node.Bounded.updateSibling (bd : node.Bounded table own beside)
    (hdelay : ∀ t ∈ table i.cmd, 0 ≤ t.delay) (hdesc : Descends (i :: beside))
    (hno : Nowrap table own (i :: beside)) :
    (node.updateSibling (table i.cmd) i.clk).Bounded table own (i :: beside) := by
  have hsum : ∀ t ∈ table i.cmd, t.hasSibling = true →
      (i.clk.toNat + t.delay : ℤ) ∈ imposed table own (i :: beside) t.cmd ∧
      ((i.clk + UInt64.ofInt t.delay).toNat : ℤ) = i.clk.toNat + t.delay := by
    intro t ht hs
    have hmem : (i.clk.toNat + t.delay : ℤ) ∈ imposed table own (i :: beside) t.cmd :=
      ⟨i.cmd, t, ht, rfl, i.clk, past_beside_self hs, rfl⟩
    exact ⟨hmem, toNat_add_delay _ (hdelay t ht) (hno _ _ hmem)⟩
  refine ⟨bd.prev, fun cmd => raiseAll_exact (bd.next cmd) ?_ ?_ ?_⟩
  · rintro v (hv | hv)
    · obtain ⟨v', hv', hle⟩ := imposed_beside_le hdesc v hv
      exact ⟨v', .inl hv', hle⟩
    · exact ⟨v, .inr hv, le_rfl⟩
  · rintro v (⟨x, t, ht, rfl, c, hc, rfl⟩ | hv)
    · by_cases hnew : t.hasSibling = true ∧ i.cmd = x
      · obtain ⟨hs, rfl⟩ := hnew
        rw [past_beside_self hs] at hc
        obtain rfl := Option.some.inj hc
        exact .inr ⟨t, ht, rfl, _, if_pos hs, (hsum t ht hs).2.symm⟩
      · rw [past_beside_other (by simpa only [not_and_or, Bool.not_eq_true] using hnew)] at hc
        exact .inl (.inl ⟨x, t, ht, rfl, c, hc, rfl⟩)
    · exact .inl (.inr hv)
  · intro t ht hcmd clk hf
    subst hcmd
    split at hf
    · rename_i hs
      obtain rfl := Option.some.inj hf
      exact ⟨_, .inr (.inl (hsum t ht hs).1), (hsum t ht hs).2.le⟩
    · cases hf

/-- The bound an entry of the command's own gives. -/
def given (own : List (Issued γ)) (i : Issued γ) (t : TimingEntry γ) : Clk :=
  (Dram.clocks i.cmd (i :: own)).getD (t.dist - 1) clkInvalid + UInt64.ofInt t.delay

/-- An entry finds a clock, or a window that is not full. -/
theorem given_cases : (∃ c, (Dram.clocks i.cmd (i :: own))[t.dist - 1]? = some c ∧
      given own i t = c + UInt64.ofInt t.delay) ∨
    ((Dram.clocks i.cmd (i :: own)).length < t.dist ∧ given own i t = fillerClk t) := by
  unfold given
  cases hc : (Dram.clocks i.cmd (i :: own))[t.dist - 1]? with
  | some c => exact .inl ⟨c, rfl, by rw [List.getD_eq_getElem?_getD, hc, Option.getD_some]⟩
  | none =>
      refine .inr ⟨?_, by rw [List.getD_eq_getElem?_getD, hc]; rfl⟩
      rw [clocks_cons_self, List.getElem?_eq_none_iff] at hc
      rw [clocks_cons_self]
      rw [List.length_cons] at hc ⊢
      omega

/-- The bounds after a command through the node. -/
theorem Node.Bounded.next_updateTarget (bd : node.Bounded table own beside)
    (hdist : ∀ t ∈ table i.cmd, 1 ≤ t.dist) :
    (node.updateTarget (table i.cmd) i.cmd i.clk).next =
      raiseAll (fun t => if t.hasSibling then none else some (given own i t)) (table i.cmd)
        node.next := by
  have hcongr : ∀ (entries : List (TimingEntry γ)) (f g : TimingEntry γ → Option Clk)
      (next : γ → Clk), (∀ t ∈ entries, f t = g t) → raiseAll f entries next =
        raiseAll g entries next := by
    intro entries f g
    induction entries with
    | nil => exact fun _ _ => rfl
    | cons t entries ih =>
        intro next h
        rw [raiseAll, raiseAll, List.foldl_cons, List.foldl_cons, h t List.mem_cons_self]
        exact ih _ fun u hu => h u (List.mem_cons_of_mem _ hu)
  refine hcongr _ _ _ _ fun t ht => ?_
  split
  · rfl
  · exact congrArg (fun c => some (c + UInt64.ofInt t.delay))
      (Node.Tracks.past_updateTarget bd.prev ht (hdist t ht))

/-- A command through the node. -/
theorem Node.Bounded.updateTarget (bd : node.Bounded table own beside)
    (hdist : ∀ t ∈ table i.cmd, 1 ≤ t.dist) (hdelay : ∀ t ∈ table i.cmd, 0 ≤ t.delay)
    (hdesc : Descends (i :: own)) (hno : Nowrap table (i :: own) beside) :
    (node.updateTarget (table i.cmd) i.cmd i.clk).Bounded table (i :: own) beside := by
  -- no sum the command imposes wraps
  have hsum : ∀ t ∈ table i.cmd, t.hasSibling = false → ∀ c,
      (Dram.clocks i.cmd (i :: own))[t.dist - 1]? = some c →
      (c.toNat + t.delay : ℤ) ∈ imposed table (i :: own) beside t.cmd ∧
      ((c + UInt64.ofInt t.delay).toNat : ℤ) = c.toNat + t.delay := by
    intro t ht hs c hc
    have hmem : (c.toNat + t.delay : ℤ) ∈ imposed table (i :: own) beside t.cmd :=
      ⟨i.cmd, t, ht, rfl, c, by simpa [past, hs] using hc, rfl⟩
    exact ⟨hmem, toNat_add_delay _ (hdelay t ht) (hno _ _ hmem)⟩
  refine ⟨Node.Tracks.prev_updateTarget bd.prev, fun cmd => ?_⟩
  rw [bd.next_updateTarget hdist]
  refine raiseAll_exact (bd.next cmd) ?_ ?_ ?_
  · rintro v (hv | hv)
    · obtain ⟨v', hv', hle⟩ := imposed_own_le hdesc v hv
      exact ⟨v', .inl hv', hle⟩
    · exact ⟨v, .inr (filled_subset hv), le_rfl⟩
  · rintro v (⟨x, t, ht, rfl, c, hc, rfl⟩ | ⟨x, t, ht, rfl, hs, hwide, hne, rfl⟩)
    · -- a bound comes of the new command, or was there before
      by_cases hnew : t.hasSibling = false ∧ i.cmd = x
      · obtain ⟨hs, rfl⟩ := hnew
        have hown : (Dram.clocks i.cmd (i :: own))[t.dist - 1]? = some c := by
          simpa [past, hs] using hc
        refine .inr ⟨t, ht, rfl, _, if_neg (by simp [hs]), ?_⟩
        rw [given, List.getD_eq_getElem?_getD, hown, Option.getD_some]
        exact (hsum t ht hs c hown).2.symm
      · rw [past_own_other (by simpa only [not_and_or, Bool.not_eq_false] using hnew)] at hc
        exact .inl (.inl ⟨x, t, ht, rfl, c, hc, rfl⟩)
    · by_cases hold : Dram.clocks x own = []
      · -- the first of its kind finds the filler
        obtain rfl : i.cmd = x := by
          by_contra hother
          exact hne (by rw [clocks_cons_of_ne hother, hold])
        refine .inr ⟨t, ht, rfl, given own i t, if_neg (by simp [hs]), ?_⟩
        rcases @given_cases γ _ own i t with ⟨c, hc, -⟩ | ⟨-, hfiller⟩
        · have hlt := (List.getElem?_eq_some_iff.mp hc).1
          rw [clocks_cons_self, hold, List.length_singleton] at hlt
          omega
        · rw [hfiller]
      · exact .inl (.inr ⟨x, t, ht, rfl, hs, hwide, hold, rfl⟩)
  · intro t ht hcmd clk hf
    subst hcmd
    split at hf
    · cases hf
    · rename_i hs
      rw [Bool.not_eq_true] at hs
      obtain rfl := Option.some.inj hf
      rcases @given_cases γ _ own i t with ⟨c, hc, hgiven⟩ | ⟨hlen, hgiven⟩
      · rw [hgiven]
        exact ⟨_, .inr (.inl (hsum t ht hs c hc).1), (hsum t ht hs c hc).2.le⟩
      · rw [clocks_cons_self, List.length_cons] at hlen
        refine ⟨_, .inr (.inr ⟨i.cmd, t, ht, rfl, hs, by omega, ?_, rfl⟩), by rw [hgiven]⟩
        rw [clocks_cons_self]
        exact List.cons_ne_nil _ _

/-- Exact bounds do not wrap. -/
theorem Node.Exact.nowrap (ex : node.Exact table own beside) : Nowrap table own beside := by
  intro cmd v hv
  have hle := (ex cmd).2 (.inr hv)
  have hlt : (node.next cmd).toNat < 2 ^ 64 := (node.next cmd).toNat_lt
  omega

/-- **A node is exact exactly where the fillers are harmless.** -/
theorem Node.Bounded.exact_iff (bd : node.Bounded table own beside) (hno : Nowrap table own beside) :
    node.Exact table own beside ↔ Harmless table own beside := by
  constructor
  · exact fun ex => ⟨hno, fun cmd v hv => ⟨_, (ex cmd).1, (bd.next cmd).2 (.inr (.inr hv))⟩⟩
  · intro harm cmd
    have hupper : ∀ v ∈ insert 0 (imposed table own beside cmd), v ≤ ((node.next cmd).toNat : ℤ) :=
      fun v hv => (bd.next cmd).2 (hv.imp (fun h => h) .inl)
    refine ⟨?_, hupper⟩
    rcases (bd.next cmd).1 with hzero | hmem | hfill
    · exact .inl hzero
    · exact .inr hmem
    · obtain ⟨v, hv, hle⟩ := harm.fillers cmd _ hfill
      exact le_antisymm hle (hupper v hv) ▸ hv

end Steps

/-! ## Throughout a tree -/

/-- The commands of a history that go to the child `j`. -/
def through (level j : ℕ) (hist : List (Issued γ)) : List (Issued γ) :=
  hist.filter fun i => (coord i.addr level).toNat = j

/-- The commands that go to a sibling of it. -/
def elsewhere (level j : ℕ) (hist : List (Issued γ)) : List (Issued γ) :=
  hist.filter fun i => (coord i.addr level).toNat ≠ j

/-- `P` holds of each node, of the commands issued through it and of
those issued beside it; and the children are where their ids say. -/
def Throughout (P : ℕ → List (Issued γ) → List (Issued γ) → Node γ ς → Prop) :
    (k : ℕ) → ℕ → List (Issued γ) → List (Issued γ) → Dram γ ς k → Prop
  | 0, level, own, beside, d => P level own beside d
  | k + 1, level, own, beside, d =>
    P level own beside d.1 ∧ ∀ j c, d.2[j]? = some c → c.node.id = j ∧
      Throughout P k (level + 1) (through (level + 1) j own) (elsewhere (level + 1) j own) c

/-- `Q` holds of the commands issued through and beside each place of a
tree that has as many children at each level as the standard says. -/
def Everywhere (spec : Spec γ ς) (Q : ℕ → List (Issued γ) → List (Issued γ) → Prop) :
    ℕ → ℕ → List (Issued γ) → List (Issued γ) → Prop
  | 0, level, own, beside => Q level own beside
  | k + 1, level, own, beside =>
    Q level own beside ∧ ∀ j < spec.count (level + 1),
      Everywhere spec Q k (level + 1) (through (level + 1) j own) (elsewhere (level + 1) j own)

instance Everywhere.decidable {spec : Spec γ ς} {Q : ℕ → List (Issued γ) → List (Issued γ) → Prop}
    [∀ level own beside, Decidable (Q level own beside)] : ∀ (k level : ℕ)
    (own beside : List (Issued γ)), Decidable (Everywhere spec Q k level own beside)
  | 0, level, own, beside => inferInstanceAs (Decidable (Q level own beside))
  | k + 1, level, own, beside =>
    have : ∀ j, Decidable (Everywhere spec Q k (level + 1) (through (level + 1) j own)
      (elsewhere (level + 1) j own)) := fun _ => Everywhere.decidable k (level + 1) _ _
    inferInstanceAs (Decidable (Q level own beside ∧ ∀ j < spec.count (level + 1), _))

section Trees

variable {spec : Spec γ ς} {i : Issued γ} {own beside : List (Issued γ)}
  {P P' R : ℕ → List (Issued γ) → List (Issued γ) → Node γ ς → Prop}
  {Q Q' : ℕ → List (Issued γ) → List (Issued γ) → Prop}

omit [DecidableEq γ] in
theorem through_cons {level j : ℕ} : through level j (i :: own) =
    if (coord i.addr level).toNat = j then i :: through level j own else through level j own := by
  simp [through, List.filter_cons]

omit [DecidableEq γ] in
theorem elsewhere_cons {level j : ℕ} : elsewhere level j (i :: own) =
    if (coord i.addr level).toNat = j then elsewhere level j own
    else i :: elsewhere level j own := by
  by_cases h : (coord i.addr level).toNat = j <;> simp [elsewhere, h]

omit [DecidableEq γ] in
theorem Throughout.imp₂ (h : ∀ level own beside node, P level own beside node →
    P' level own beside node → R level own beside node) : ∀ {k level : ℕ}
    {own beside : List (Issued γ)} {d : Dram γ ς k}, Throughout P k level own beside d →
    Throughout P' k level own beside d → Throughout R k level own beside d
  | 0, _, _, _, _, hP, hP' => h _ _ _ _ hP hP'
  | _ + 1, _, _, _, _, ⟨hP, hchildren⟩, ⟨hP', hchildren'⟩ =>
    ⟨h _ _ _ _ hP hP', fun j c hc => ⟨(hchildren j c hc).1,
      (hchildren j c hc).2.imp₂ h (hchildren' j c hc).2⟩⟩

omit [DecidableEq γ] in
theorem Throughout.imp (h : ∀ level own beside node, P level own beside node →
    P' level own beside node) {k level : ℕ} {own beside : List (Issued γ)} {d : Dram γ ς k}
    (hP : Throughout P k level own beside d) : Throughout P' k level own beside d :=
  hP.imp₂ (fun _ _ _ _ hP _ => h _ _ _ _ hP) hP

omit [DecidableEq γ] in
theorem Everywhere.imp₂ {Q'' : ℕ → List (Issued γ) → List (Issued γ) → Prop}
    (h : ∀ level own beside, Q level own beside → Q' level own beside → Q'' level own beside) :
    ∀ {k level : ℕ} {own beside : List (Issued γ)}, Everywhere spec Q k level own beside →
    Everywhere spec Q' k level own beside → Everywhere spec Q'' k level own beside
  | 0, _, _, _, hQ, hQ' => h _ _ _ hQ hQ'
  | _ + 1, _, _, _, ⟨hQ, hchildren⟩, ⟨hQ', hchildren'⟩ =>
    ⟨h _ _ _ hQ hQ', fun j hj => (hchildren j hj).imp₂ h (hchildren' j hj)⟩

omit [DecidableEq γ] in
/-- What is said of each node, and of its place. -/
theorem Throughout.imp_everywhere (h : ∀ level own beside node, P level own beside node →
    Q level own beside → P' level own beside node) : ∀ {k level : ℕ}
    {own beside : List (Issued γ)} {d : Dram γ ς k}, Sized spec k level d →
    Throughout P k level own beside d → Everywhere spec Q k level own beside →
    Throughout P' k level own beside d
  | 0, _, _, _, _, _, hP, hQ => h _ _ _ _ hP hQ
  | _ + 1, _, _, _, _, ⟨hlen, hsized⟩, ⟨hP, hchildren⟩, ⟨hQ, hplaces⟩ => by
    refine ⟨h _ _ _ _ hP hQ, fun j c hc => ⟨(hchildren j c hc).1, ?_⟩⟩
    have hlt := (List.getElem?_eq_some_iff.mp hc).1
    exact (hchildren j c hc).2.imp_everywhere h (hsized c (List.mem_of_getElem? hc))
      (hplaces j (hlen ▸ hlt))

omit [DecidableEq γ] in
/-- What holds at each node holds at each place. -/
theorem Throughout.everywhere : ∀ {k level : ℕ} {own beside : List (Issued γ)} {d : Dram γ ς k},
    Sized spec k level d → Throughout (fun level own beside _ => Q level own beside) k level own
      beside d → Everywhere spec Q k level own beside
  | 0, _, _, _, _, _, h => h
  | _ + 1, _, _, _, d, ⟨hlen, hsized⟩, ⟨hQ, hchildren⟩ => by
    refine ⟨hQ, fun j hj => ?_⟩
    have hlt : j < d.2.length := hlen ▸ hj
    exact (hchildren j _ (List.getElem?_eq_getElem hlt)).2.everywhere
      (hsized _ (List.getElem_mem hlt))

omit [DecidableEq γ] in
/-- Descending histories descend everywhere. -/
theorem Descends.everywhere : ∀ {k level : ℕ} {own beside : List (Issued γ)}, Descends own →
    Descends beside → Everywhere spec (fun _ own beside => Descends own ∧ Descends beside) k level
      own beside
  | 0, _, _, _, hown, hbeside => ⟨hown, hbeside⟩
  | _ + 1, _, _, _, hown, hbeside =>
    ⟨⟨hown, hbeside⟩, fun _ _ => Descends.everywhere (hown.sublist List.filter_sublist)
      (hown.sublist List.filter_sublist)⟩

omit [DecidableEq γ] in
/-- **One command less.** -/
theorem Everywhere.of_cons
    (hown : ∀ level own beside, Q level (i :: own) beside → Q level own beside)
    (hbeside : ∀ level own beside, Q level own (i :: beside) → Q level own beside) :
    ∀ {k level : ℕ} {own beside : List (Issued γ)}, Everywhere spec Q k level (i :: own) beside →
      Everywhere spec Q k level own beside
  | 0, _, _, _, hQ => hown _ _ _ hQ
  | k + 1, level, own, beside, ⟨hQ, hchildren⟩ => by
    refine ⟨hown _ _ _ hQ, fun j hj => ?_⟩
    have hj := hchildren j hj
    rw [through_cons, elsewhere_cons] at hj
    split at hj
    · exact hj.of_cons hown hbeside
    · -- beside the child, which changes nothing below it
      cases k with
      | zero => exact hbeside _ _ _ hj
      | succ k => exact ⟨hbeside _ _ _ hj.1, hj.2⟩

omit [DecidableEq γ] in
theorem Throughout.congr (hcongr : ∀ level own beside (n n' : Node γ ς), P level own beside n →
    n'.SameTiming n → P level own beside n') : ∀ {k level : ℕ} {own beside : List (Issued γ)}
    {d' d : Dram γ ς k}, Throughout P k level own beside d → SameTiming d' d →
    Throughout P k level own beside d'
  | 0, _, _, _, _, _, hP, h => hcongr _ _ _ _ _ hP h
  | k + 1, level, own, beside, (n', cs'), (n, cs), ⟨hP, hchildren⟩, ⟨hsame, hcs⟩ => by
    have hget := List.forall₂_iff_get.mp hcs
    refine ⟨hcongr _ _ _ _ _ hP hsame, fun j c hc => ?_⟩
    obtain ⟨hj, rfl⟩ := List.getElem?_eq_some_iff.mp hc
    have hj' : j < cs.length := hget.1 ▸ hj
    obtain ⟨hid, hrec⟩ := hchildren j cs[j] (List.getElem?_eq_getElem hj')
    have hs : SameTiming cs'[j] cs[j] := hget.2 j hj hj'
    exact ⟨hs.id_eq.trans hid, hrec.congr hcongr hs⟩

omit [DecidableEq γ] in
/-- A new tree. -/
theorem Throughout.new (hnew : ∀ level id, P level [] [] (Node.new spec level id)) :
    ∀ {k level id : ℕ}, Throughout P k level [] [] (Dram.new spec k level id)
  | 0, _, _ => hnew _ _
  | k + 1, level, id => by
    refine ⟨hnew _ _, fun j c hc => ?_⟩
    simp only [Dram.new, List.getElem?_map, Option.map_eq_some_iff] at hc
    obtain ⟨j', hj', rfl⟩ := hc
    obtain ⟨-, rfl⟩ := List.getElem?_eq_some_iff.mp hj'
    refine ⟨?_, Throughout.new hnew⟩
    cases k <;> simp [Dram.new, Dram.node, Node.new]

/-- **A command adds to what was issued through the nodes it goes
through, and beside the siblings of those.** -/
theorem Throughout.updateTiming {top : ℕ}
    (hbeside : ∀ level ≤ top, ∀ own beside (n : Node γ ς), P level own beside n →
      Q level own (i :: beside) →
      P level own (i :: beside) (n.updateSibling (spec.timingTable level i.cmd) i.clk))
    (hthrough : ∀ level ≤ top, ∀ own beside (n : Node γ ς), P level own beside n →
      Q level (i :: own) beside →
      P level (i :: own) beside (n.updateTarget (spec.timingTable level i.cmd) i.cmd i.clk)) :
    ∀ {k level : ℕ} {own beside : List (Issued γ)} {d : Dram γ ς k}, level + k ≤ top →
    Sized spec k level d → Throughout P k level own beside d →
    Everywhere spec Q k level
      (if d.node.id = (coord i.addr level).toNat then i :: own else own)
      (if d.node.id = (coord i.addr level).toNat then beside else i :: beside) →
    Throughout P k level
      (if d.node.id = (coord i.addr level).toNat then i :: own else own)
      (if d.node.id = (coord i.addr level).toNat then beside else i :: beside)
      (Dram.updateTiming spec i.cmd i.addr i.clk k level d) := by
  -- down the tree, as the command goes
  intro k
  induction k with
  | zero =>
      intro level own beside d hl _ hP hQ
      unfold Dram.updateTiming
      by_cases hid : Node.id d = (coord i.addr level).toNat
      · have hnode : d.node.id = (coord i.addr level).toNat := hid
        rw [if_pos hnode, if_pos hnode, if_neg (not_not.mpr hid)]
        rw [if_pos hnode, if_pos hnode] at hQ
        exact hthrough level hl _ _ _ hP hQ
      · have hnode : ¬ d.node.id = (coord i.addr level).toNat := hid
        rw [if_neg hnode, if_neg hnode, if_pos hid]
        rw [if_neg hnode, if_neg hnode] at hQ
        exact hbeside level hl _ _ _ hP hQ
  | succ k ih =>
      intro level own beside d hl hsized hP hQ
      unfold Dram.updateTiming
      by_cases hid : d.1.id = (coord i.addr level).toNat
      · have hnode : d.node.id = (coord i.addr level).toNat := hid
        rw [if_pos hnode, if_pos hnode, if_neg (not_not.mpr hid)]
        rw [if_pos hnode, if_pos hnode] at hQ
        refine ⟨hthrough level (by omega) _ _ _ hP.1 hQ.1, fun j c hc => ?_⟩
        simp only [List.getElem?_map, Option.map_eq_some_iff] at hc
        obtain ⟨c₀, hc₀, rfl⟩ := hc
        obtain ⟨hcid, hcP⟩ := hP.2 j c₀ hc₀
        refine ⟨updateTiming_id.trans hcid, ?_⟩
        have hj : j < d.2.length := (List.getElem?_eq_some_iff.mp hc₀).1
        -- below, the child with the id of the next coordinate is the one on the way
        have hcQ := hQ.2 j (hsized.1 ▸ hj)
        have hrec := ih (show level + 1 + k ≤ top by omega)
          (hsized.2 c₀ (List.mem_of_getElem? hc₀)) hcP
        rw [through_cons, elsewhere_cons] at hcQ ⊢
        rw [hcid] at hrec
        simp only [eq_comm (a := j)] at hrec
        exact hrec hcQ
      · have hnode : ¬ d.node.id = (coord i.addr level).toNat := hid
        rw [if_neg hnode, if_neg hnode, if_pos hid]
        rw [if_neg hnode, if_neg hnode] at hQ
        exact ⟨hbeside level (by omega) _ _ _ hP.1 hQ.1, hP.2⟩

end Trees

/-! ## Every run -/

section Runs

variable {spec : Spec γ ς} {k id : ℕ} {is : List (Issued γ)} {d : Dram γ ς k}

/-- Nothing imposed on the command, on the way to its scope, is later
than the clock. -/
def Allows (spec : Spec γ ς) (cmd : γ) (addr : MappedAddr) (clk : Clk) :
    ℕ → ℕ → List (Issued γ) → List (Issued γ) → Prop
  | 0, level, own, beside => ∀ v ∈ imposed (spec.timingTable level) own beside cmd, v ≤ clk.toNat
  | k + 1, level, own, beside =>
    (∀ v ∈ imposed (spec.timingTable level) own beside cmd, v ≤ clk.toNat) ∧
      (level ≠ spec.scope cmd → Allows spec cmd addr clk k (level + 1)
        (through (level + 1) (coord addr (level + 1)).toNat own)
        (elsewhere (level + 1) (coord addr (level + 1)).toNat own))

instance Allows.decidable [Fintype γ] {cmd : γ} {addr : MappedAddr} {clk : Clk} : ∀ (k level : ℕ)
    (own beside : List (Issued γ)), Decidable (Allows spec cmd addr clk k level own beside)
  | 0, _, _, _ => decidable_of_iff' _ forall_imposed
  | k + 1, level, own, beside =>
    have : Decidable (∀ v ∈ imposed (spec.timingTable level) own beside cmd, v ≤ clk.toNat) :=
      decidable_of_iff' _ forall_imposed
    have : Decidable (Allows spec cmd addr clk k (level + 1)
        (through (level + 1) (coord addr (level + 1)).toNat own)
        (elsewhere (level + 1) (coord addr (level + 1)).toNat own)) :=
      Allows.decidable k (level + 1) _ _
    inferInstanceAs (Decidable (_ ∧ (_ → _)))

/-- Each node of the tree is exact. -/
def Exact (spec : Spec γ ς) (k : ℕ) (hist : List (Issued γ)) (d : Dram γ ς k) : Prop :=
  Throughout (fun level own beside node => node.Exact (spec.timingTable level) own beside) k 0 hist
    [] d

/-- Each place of the tree keeps its node exact. -/
def AllHarmless (spec : Spec γ ς) (k : ℕ) (hist : List (Issued γ)) : Prop :=
  Everywhere spec (fun level own beside => Harmless (spec.timingTable level) own beside) k 0 hist []

instance [Fintype γ] : Decidable (AllHarmless spec k is) :=
  inferInstanceAs (Decidable (Everywhere spec _ k 0 is []))

/-- An exact node is ready for what nothing later is imposed on. -/
theorem Node.Exact.ready {table : γ → List (TimingEntry γ)} {own beside : List (Issued γ)}
    {node : Node γ ς} {cmd : γ} {clk : Clk} (ex : node.Exact table own beside)
    (h : ∀ v ∈ imposed table own beside cmd, v ≤ clk.toNat) : node.ready cmd clk = true := by
  have hle : (node.next cmd).toNat ≤ clk.toNat := by
    rcases (ex cmd).1 with hzero | hmem
    · omega
    · exact Int.ofNat_le.mp (h _ hmem)
  have hlt : ¬ clk < node.next cmd := by
    rw [UInt64.lt_iff_toNat_lt]
    omega
  simp [Node.ready, hlt]

/-- **A check refuses no command that no earlier one constrains.** -/
theorem check_of_allows {cmd : γ} {addr : MappedAddr} {clk : Clk} : ∀ {k level : ℕ}
    {own beside : List (Issued γ)} {d : Dram γ ς k} {b : Bool},
    Throughout (fun level own beside node => node.Exact (spec.timingTable level) own beside) k level
      own beside d → Allows spec cmd addr clk k level own beside →
    Dram.check spec cmd addr clk k level d = .ok b → b = true := by
  intro k
  induction k with
  | zero =>
      intro level own beside d b ex hall h
      rw [Dram.check, pure_eq_ok] at h
      exact h ▸ Node.Exact.ready ex hall
  | succ k ih =>
      intro level own beside d b ex hall h
      unfold Dram.check at h
      rw [ex.1.ready hall.1] at h
      simp only [Bool.not_true, Bool.false_eq_true, if_false] at h
      split at h
      · exact (pure_eq_ok.mp h).symm
      · rename_i hscope
        simp only [bind_eq_ok, child_eq_ok] at h
        obtain ⟨c, hc, hrec⟩ := h
        exact ih (ex.2 _ c hc).2 (hall.2 (not_or.mp hscope).1) hrec

omit [DecidableEq γ] in
theorem Descends.reverse (h : is.Pairwise fun i j => i.clk ≤ j.clk) : Descends is.reverse :=
  List.pairwise_reverse.mpr h

/-- A run keeps the number of children. -/
theorem run_sized (hrun : (updates spec k).run (new spec k 0 id) is = .ok d) : Sized spec k 0 d := by
  refine (updates spec k).invariant (fun d i d' sized h => ?_) Sized.new hrun
  simp only [updates, update, bind_eq_ok, pure_eq_ok] at h
  obtain ⟨d₁, h₁, rfl⟩ := h
  exact (sized.congr (updateState_sameTiming h₁)).updateTiming

/-- **While no sum wraps, every node keeps the greatest of what was
imposed**, fillers included. -/
theorem run_bounded (hdist : ∀ level ≤ k, ∀ x, ∀ t ∈ spec.timingTable level x, 1 ≤ t.dist)
    (hdelay : ∀ level ≤ k, ∀ x, ∀ t ∈ spec.timingTable level x, 0 ≤ t.delay)
    (hin : ∀ i ∈ is, (coord i.addr 0).toNat = id) (horder : Descends is.reverse)
    (hno : Everywhere spec (fun level own beside => Nowrap (spec.timingTable level) own beside) k 0
      is.reverse [])
    (hrun : (updates spec k).run (new spec k 0 id) is = .ok d) :
    d.node.id = id ∧ Throughout (fun level own beside node =>
      node.Bounded (spec.timingTable level) own beside) k 0 is.reverse [] d := by
  -- what is asked of each place, with one command less
  let Q := fun (level : ℕ) (own beside : List (Issued γ)) =>
    Nowrap (spec.timingTable level) own beside ∧ Descends own ∧ Descends beside
  have hQ : Everywhere spec Q k 0 is.reverse [] :=
    hno.imp₂ (fun _ _ _ h₁ h₂ => ⟨h₁, h₂⟩) (horder.everywhere .nil)
  clear hno horder
  induction is using List.reverseRecOn generalizing d with
  | nil =>
      obtain rfl := Except.ok.inj hrun
      exact ⟨by cases k <;> simp [Dram.new, Dram.node, Node.new], Throughout.new fun _ _ => .new⟩
  | append_singleton is i ih =>
      obtain ⟨d₀, hrun₀, hstep⟩ := Machine.run_concat.mp hrun
      rw [List.reverse_concat] at hQ ⊢
      have hQ₀ : Everywhere spec Q k 0 is.reverse [] := hQ.of_cons
        (fun _ _ _ h => ⟨h.1.of_cons_own h.2.1, h.2.1.of_cons, h.2.2⟩)
        (fun _ _ _ h => ⟨h.1.of_cons_beside h.2.2, h.2.1, h.2.2.of_cons⟩)
      obtain ⟨hid, hbd⟩ := ih (fun j hj => hin j (List.mem_append_left _ hj)) hrun₀ hQ₀
      simp only [updates, update, bind_eq_ok, pure_eq_ok] at hstep
      obtain ⟨d₁, h₁, rfl⟩ := hstep
      have hsame := updateState_sameTiming h₁
      have hnode : d₁.node.id = (coord i.addr 0).toNat :=
        hsame.id_eq.trans (hid.trans (hin i (by simp)).symm)
      have hbd₁ := hbd.congr (fun _ _ _ _ _ bd h => bd.congr h) hsame
      have hupdate := @Throughout.updateTiming γ ς _ spec i _ Q k
        (fun level hl _ _ n bd q => bd.updateSibling (hdelay level hl _) q.2.2 q.1)
        (fun level hl _ _ n bd q => bd.updateTarget (hdist level hl _) (hdelay level hl _) q.2.1 q.1)
        k 0 _ _ d₁ (by omega) ((run_sized hrun₀).congr hsame) hbd₁
      rw [if_pos hnode, if_pos hnode] at hupdate
      exact ⟨updateTiming_id.trans (hsame.id_eq.trans hid), hupdate hQ⟩

/-- **A tree is exact exactly where the fillers are harmless**, whatever
the commands issued. -/
theorem exact_iff (hdist : ∀ level ≤ k, ∀ x, ∀ t ∈ spec.timingTable level x, 1 ≤ t.dist)
    (hdelay : ∀ level ≤ k, ∀ x, ∀ t ∈ spec.timingTable level x, 0 ≤ t.delay)
    (hin : ∀ i ∈ is, (coord i.addr 0).toNat = id) (horder : is.Pairwise fun i j => i.clk ≤ j.clk)
    (hrun : (updates spec k).run (new spec k 0 id) is = .ok d) :
    Exact spec k is.reverse d ↔ AllHarmless spec k is.reverse := by
  have sized := run_sized hrun
  have bounded := fun hno =>
    (run_bounded hdist hdelay hin (Descends.reverse horder) hno hrun).2
  constructor
  · intro ex
    have hno := (ex.imp fun _ _ _ _ ex => ex.nowrap).everywhere sized
    exact ((ex.imp_everywhere (fun _ _ _ _ h₁ h₂ => And.intro h₁ h₂) sized hno).imp₂
      (fun _ _ _ _ h bd => (bd.exact_iff h.2).mp h.1) (bounded hno)).everywhere sized
  · intro harm
    have hno := harm.imp₂ (fun _ _ _ h _ => h.nowrap) harm
    exact (bounded hno).imp_everywhere (fun _ _ _ _ bd h => (bd.exact_iff h.nowrap).mpr h) sized harm

end Runs

/-! ## DDR4 -/

namespace Ddr4

/-- **When the timing state is exact.** Whatever commands a tree was
given, with clocks that do not decrease: each node's bounds are the
greatest of what is imposed, and no check refuses what nothing
constrains, exactly where every filler is harmless. -/
theorem tree_exact_iff {o : Organization} {t : Timing}
    (hdelay : ∀ level x, ∀ e ∈ timingTable t level x, 0 ≤ e.delay) {id : ℕ}
    {is : List (Issued Command)} {d : Dram Command State 3}
    (hin : ∀ i ∈ is, (coord i.addr 0).toNat = id) (horder : is.Pairwise fun i j => i.clk ≤ j.clk)
    (hrun : (updates (spec o t) 3).run (new (spec o t) 3 0 id) is = .ok d) :
    (Exact (spec o t) 3 is.reverse d ∧ ∀ cmd x clk b, Allows (spec o t) cmd x clk 3 0 is.reverse [] →
        check (spec o t) cmd x clk 3 0 d = .ok b → b = true) ↔
      AllHarmless (spec o t) 3 is.reverse := by
  have hdist : ∀ level ≤ 3, ∀ x, ∀ e ∈ (spec o t).timingTable level x, 1 ≤ e.dist := by
    intro level _ x e he
    rcases dist_of_mem_timingTable he with h | ⟨h, -⟩ <;> omega
  have hiff := exact_iff hdist (fun level _ => hdelay level) hin horder hrun
  constructor
  · exact fun h => hiff.mp h.1
  · intro harm
    have ex := hiff.mpr harm
    exact ⟨ex, fun cmd x clk b hall h => check_of_allows ex hall h⟩

/-- The first activate of a rank. -/
def firstActivate (clk : Clk) : List (Issued Command) := [⟨.ACT, [0, 0, 0, 0, 0, 0], clk⟩]

theorem tree_exact_iff_late : ∃ d,
    (updates (spec (vansOrganization 1) vansTiming) 3).run
      (new (spec (vansOrganization 1) vansTiming) 3 0 0) (firstActivate 16) = .ok d ∧
    Exact (spec (vansOrganization 1) vansTiming) 3 (firstActivate 16).reverse d := by
  have harm : AllHarmless (spec (vansOrganization 1) vansTiming) 3 (firstActivate 16).reverse := by
    decide +kernel
  exact ⟨_, rfl, ((tree_exact_iff vansTiming_delay (by decide) (by decide) rfl).mpr harm).1⟩

/-- **An activate at clock 0 leaves the rank closed until 15**, though
the delays ask for 4. -/
theorem firstActivate_refused : ∃ d,
    (updates (spec (vansOrganization 1) vansTiming) 3).run
      (new (spec (vansOrganization 1) vansTiming) 3 0 0) (firstActivate 0) = .ok d ∧
    ¬ (Exact (spec (vansOrganization 1) vansTiming) 3 (firstActivate 0).reverse d ∧
      ∀ cmd x clk b,
        Allows (spec (vansOrganization 1) vansTiming) cmd x clk 3 0 (firstActivate 0).reverse [] →
        check (spec (vansOrganization 1) vansTiming) cmd x clk 3 0 d = .ok b → b = true) := by
  refine ⟨_, rfl, fun h => ?_⟩
  have hrefused := h.2 .ACT [0, 0, 1, 0, 0, 0] 10 false ?_ rfl
  · cases hrefused
  · decide +kernel

end Ddr4

end Dram

end Vans
