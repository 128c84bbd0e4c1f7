import Vans.Dram.Model
import Vans.Common.Window
import Mathlib.Order.Lattice
import Mathlib.Data.Fintype.Defs
/-!
# The DRAM tree — what the clocks in it stand for

A tree tracks a history of issued commands when each of its nodes has
kept, of the commands issued through it, as many clocks as its table
looks back on, and has raised its bounds accordingly. Issuing a command
extends the history a tree tracks; and a check that passes keeps every
delay of the tables, along the whole path of the command.

Two things can make a node lose its bounds: a sum that is the invalid
clock or wraps, and a look back without a delay, which finds the filler.
Both are conditions here.
-/

namespace Vans

namespace Dram

variable {γ ς : Type} [DecidableEq γ] {spec : Spec γ ς}

/-! ## Histories of commands -/

/-- A command issued: to where, and when. -/
structure Issued (γ : Type) where
  cmd : γ
  addr : MappedAddr
  clk : Clk
  deriving DecidableEq, Repr

/-- The calls a tree receives: its commands, one after another. -/
def updates (spec : Spec γ ς) (k : ℕ) : Machine (Dram γ ς k) (Issued γ) String where
  step := fun d i => update spec i.cmd i.addr i.clk k d

/-- The clocks a command was issued at, given a history that starts with
the newest. -/
def clocks (cmd : γ) (hist : List (Issued γ)) : List Clk :=
  hist.filterMap fun i => if i.cmd = cmd then some i.clk else none

/-- The two addresses agree on the levels above `level`, up to `L`. -/
def Agree (level L : ℕ) (a b : MappedAddr) : Prop :=
  ∀ l ≤ L, level < l → coord a l = coord b l

instance (level L : ℕ) (a b : MappedAddr) : Decidable (Agree level L a b) :=
  inferInstanceAs (Decidable (∀ l ≤ L, _))

/-- The commands issued to addresses that agree with `addr`. -/
def along (level L : ℕ) (addr : MappedAddr) (hist : List (Issued γ)) : List (Issued γ) :=
  hist.filter fun i => Agree level L i.addr addr

section Histories

variable {cmd x : γ} {hist : List (Issued γ)} {i : Issued γ} {addr : MappedAddr} {level L : ℕ}

theorem clocks_cons_self : clocks i.cmd (i :: hist) = i.clk :: clocks i.cmd hist := by
  simp [clocks]

theorem clocks_cons_of_ne (h : i.cmd ≠ x) : clocks x (i :: hist) = clocks x hist := by
  simp [clocks, h]

omit [DecidableEq γ] in
@[simp] theorem along_self : along level level addr hist = hist := by
  refine List.filter_eq_self.mpr fun i _ => decide_eq_true fun l hl hlt => ?_
  omega

omit [DecidableEq γ] in
/-- **One level at a time**: what agrees from a level on is what has its
next coordinate and agrees from there. -/
theorem along_succ (h : level < L) :
    along (level + 1) L addr
        (hist.filter fun i => (coord i.addr (level + 1)).toNat = (coord addr (level + 1)).toNat) =
      along level L addr hist := by
  simp only [along, List.filter_filter]
  refine List.filter_congr fun i _ => ?_
  rw [← Bool.decide_and, decide_eq_decide, UInt64.toNat_inj]
  constructor
  · rintro ⟨hagree, hnext⟩ l hl hlt
    rcases eq_or_lt_of_le (Nat.succ_le_of_lt hlt) with rfl | hlt'
    · exact hnext
    · exact hagree l hl hlt'
  · intro hagree
    exact ⟨fun l hl hlt => hagree l hl (by omega), hagree _ h (by omega)⟩

end Histories

/-! ## Raising bounds -/

section Raise

variable {f : TimingEntry γ → Option Clk} {entries : List (TimingEntry γ)} {next : γ → Clk}
  {t : TimingEntry γ} {cmd : γ} {clk : Clk}

theorem toNat_max (a b : Clk) : (max a b).toNat = max a.toNat b.toNat := by
  change (if a ≤ b then b else a).toNat = _
  split <;> rename_i h <;> rw [UInt64.le_iff_toNat_le] at h <;> omega

omit [DecidableEq γ] in
/-- Adding a delay that leads to no wrap. -/
theorem toNat_add_delay (clk : Clk) {d : Int} (hd : 0 ≤ d) (h : clk.toNat + d < 2 ^ 64) :
    ((clk + UInt64.ofInt d).toNat : Int) = clk.toNat + d := by
  have hof : ((UInt64.ofInt d).toNat : Int) = d := by
    rw [UInt64.ofInt, UInt64.toNat_ofNat_of_lt' (by change _ < 2 ^ 64; omega)]
    omega
  rw [UInt64.toNat_add, Nat.mod_eq_of_lt (by omega)]
  omega

/-- The filler and a delay that is not zero make a small clock. -/
theorem filler_add_delay {d : Int} (hd : 0 < d) (h : d < 2 ^ 64) :
    ((clkInvalid + UInt64.ofInt d).toNat : Int) = d - 1 := by
  have hof : ((UInt64.ofInt d).toNat : Int) = d := by
    rw [UInt64.ofInt, UInt64.toNat_ofNat_of_lt' (by change _ < 2 ^ 64; omega)]
    omega
  have hinv : clkInvalid.toNat = 2 ^ 64 - 1 := rfl
  rw [UInt64.toNat_add, hinv]
  omega

theorem le_raise {x : γ} {nextClk : Option Clk} :
    (next cmd).toNat ≤ (raise next x nextClk cmd).toNat := by
  cases nextClk with
  | none => exact le_rfl
  | some clk =>
      by_cases hc : cmd = x
      · subst hc
        rw [raise, Function.update_self, toNat_max]
        omega
      · rw [raise, Function.update_of_ne hc]

theorem raise_ge : clk.toNat ≤ (raise next cmd (some clk) cmd).toNat := by
  rw [raise, Function.update_self, toNat_max]
  omega

theorem raise_ne {x : γ} {nextClk : Option Clk} (hnext : ∀ c, next c ≠ clkInvalid)
    (hclk : ∀ clk, nextClk = some clk → clk ≠ clkInvalid) (c : γ) :
    raise next x nextClk c ≠ clkInvalid := by
  cases nextClk with
  | none => exact hnext c
  | some clk =>
      by_cases hc : c = x
      · subst hc
        rw [raise, Function.update_self]
        change (if _ ≤ _ then _ else _) ≠ _
        split
        · exact hclk clk rfl
        · exact hnext c
      · rw [raise, Function.update_of_ne hc]
        exact hnext c

/-- Raising bounds lowers none. -/
theorem le_raiseAll : (next cmd).toNat ≤ (raiseAll f entries next cmd).toNat :=
  foldl_keeps (P := fun g : γ → Clk => (next cmd).toNat ≤ (g cmd).toNat)
    (fun _ _ hg => le_trans hg le_raise) le_rfl

/-- Each entry that gives a clock raises its bound to it. -/
theorem raiseAll_ge (ht : t ∈ entries) (hf : f t = some clk) :
    clk.toNat ≤ (raiseAll f entries next t.cmd).toNat := by
  induction entries generalizing next with
  | nil => simp at ht
  | cons u entries ih =>
      rcases List.mem_cons.mp ht with rfl | ht
      · rw [raiseAll, List.foldl_cons, hf]
        exact le_trans raise_ge le_raiseAll
      · exact ih ht

/-- Bounds stay valid where valid clocks are given. -/
theorem raiseAll_ne (hnext : ∀ c, next c ≠ clkInvalid)
    (hf : ∀ t ∈ entries, ∀ clk, f t = some clk → clk ≠ clkInvalid) (c : γ) :
    raiseAll f entries next c ≠ clkInvalid := by
  induction entries generalizing next with
  | nil => exact hnext c
  | cons u entries ih =>
      exact ih (raise_ne hnext (hf u (by simp))) fun t ht => hf t (List.mem_cons_of_mem _ ht)

omit [DecidableEq γ] in
/-- A node looks back as far as each of its entries. -/
theorem dist_le_prevSize (ht : t ∈ entries) : t.dist ≤ prevSize entries := by
  have hmono : ∀ (l : List (TimingEntry γ)) (n : ℕ),
      n ≤ l.foldl (fun dist t => max dist t.dist) n := fun l => by
    induction l with
    | nil => exact fun n => le_rfl
    | cons u l ih => exact fun n => le_trans (le_max_left _ _) (ih _)
  unfold prevSize
  generalize 0 = n
  induction entries generalizing n with
  | nil => simp at ht
  | cons u entries ih =>
      rcases List.mem_cons.mp ht with rfl | ht
      · exact le_trans (le_max_right _ _) (hmono _ _)
      · exact ih ht _

end Raise

/-! ## Tables, and clocks that fit them -/

/-- What is asked of the tables of a tree with `k` levels below its
root: the entries look back at least one command, no delay is negative,
and a delay that looks further back is not zero. -/
structure Spec.Proper (spec : Spec γ ς) (k : ℕ) : Prop where
  dist : ∀ level ≤ k, ∀ x, ∀ t ∈ spec.timingTable level x, 1 ≤ t.dist
  delay : ∀ level ≤ k, ∀ x, ∀ t ∈ spec.timingTable level x, 0 ≤ t.delay
  window : ∀ level ≤ k, ∀ x, ∀ t ∈ spec.timingTable level x, 1 < t.dist → 0 < t.delay

/-- The clock has room for the delays of the tables. -/
def Spec.Fits (spec : Spec γ ς) (k : ℕ) (clk : Clk) : Prop :=
  ∀ level ≤ k, ∀ x, ∀ t ∈ spec.timingTable level x,
    if t.hasSibling then clk + UInt64.ofInt t.delay ≠ clkInvalid
    else clk.toNat + t.delay < 2 ^ 64 - 1

instance [Fintype γ] {k : ℕ} {clk : Clk} : Decidable (spec.Fits k clk) :=
  inferInstanceAs (Decidable (∀ level ≤ k, ∀ x, ∀ t ∈ spec.timingTable level x, ite _ _ _))

/-! ## Nodes that track a history -/

/-- **What a node knows of the commands issued through it.** -/
structure Node.Tracks (table : γ → List (TimingEntry γ)) (hist : List (Issued γ))
    (node : Node γ ς) : Prop where
  prev : ∀ x, node.prev x = window clkInvalid (prevSize (table x)) (clocks x hist)
  valid : ∀ x, node.next x ≠ clkInvalid
  bounds : ∀ x, ∀ t ∈ table x, t.hasSibling = false →
    ∀ c, (clocks x hist)[t.dist - 1]? = some c → c.toNat + t.delay ≤ (node.next t.cmd).toNat
  fits : ∀ x, ∀ t ∈ table x, t.hasSibling = false →
    ∀ c ∈ clocks x hist, c.toNat + t.delay < 2 ^ 64 - 1

namespace Node.Tracks

variable {table : γ → List (TimingEntry γ)} {hist : List (Issued γ)} {node node' : Node γ ς}
  {i : Issued γ}

theorem new {level id : ℕ} :
    Node.Tracks (spec.timingTable level) [] (Node.new spec level id) where
  prev x := window_nil.symm
  valid x := by simp [Node.new, clkInvalid]
  bounds x t ht hs c hc := by simp [clocks] at hc
  fits x t ht hs c hc := by simp [clocks] at hc

theorem congr (tr : Node.Tracks table hist node) (h : node'.SameTiming node) :
    Node.Tracks table hist node' := by
  obtain ⟨-, hnext, hprev⟩ := h
  exact ⟨fun x => hprev ▸ tr.prev x, fun x => hnext ▸ tr.valid x,
    fun x t ht hs c hc => hnext ▸ tr.bounds x t ht hs c hc, tr.fits⟩

/-- A command issued beside the node only raises bounds. -/
theorem updateSibling {clk : Clk} {x : γ} (tr : Node.Tracks table hist node)
    (hfits : ∀ t ∈ table x, t.hasSibling = true → clk + UInt64.ofInt t.delay ≠ clkInvalid) :
    Node.Tracks table hist (node.updateSibling (table x) clk) where
  prev := tr.prev
  valid := by
    refine raiseAll_ne tr.valid fun t ht c hc => ?_
    split at hc
    · rename_i hs
      cases hc
      exact hfits t ht hs
    · cases hc
  bounds y t ht hs c hc := by
    have hold := tr.bounds y t ht hs c hc
    refine le_trans hold (Int.ofNat_le.mpr ?_)
    exact le_raiseAll
  fits := tr.fits

/-- **The clocks kept are those of the longer history.** -/
theorem prev_updateTarget
    (hprev : ∀ x, node.prev x = window clkInvalid (prevSize (table x)) (clocks x hist)) (x : γ) :
    (node.updateTarget (table i.cmd) i.cmd i.clk).prev x =
      window clkInvalid (prevSize (table x)) (clocks x (i :: hist)) := by
  by_cases hx : x = i.cmd
  · subst hx
    rw [clocks_cons_self]
    by_cases hzero : prevSize (table i.cmd) = 0
    · simp [Node.updateTarget, hprev, hzero, window]
    · have hne : (node.prev i.cmd).isEmpty = false := by
        rw [List.isEmpty_eq_false_iff, ← List.length_pos_iff, hprev, window_length]
        omega
      simp only [Node.updateTarget, hne, Bool.false_eq_true, if_false, Function.update_self]
      rw [window_cons (by omega), hprev]
  · rw [clocks_cons_of_ne (Ne.symm hx), ← hprev x]
    simp only [Node.updateTarget]
    split
    · rfl
    · rw [Function.update_of_ne hx]

/-- A look back finds a clock of the history, or the filler. -/
theorem past_updateTarget
    (hprev : ∀ x, node.prev x = window clkInvalid (prevSize (table x)) (clocks x hist))
    {t : TimingEntry γ} (ht : t ∈ table i.cmd) (hdist : 1 ≤ t.dist) :
    ((node.updateTarget (table i.cmd) i.cmd i.clk).prev i.cmd).getD (t.dist - 1) clkInvalid =
      (clocks i.cmd (i :: hist)).getD (t.dist - 1) clkInvalid := by
  have hlt : t.dist - 1 < prevSize (table i.cmd) := by
    have := dist_le_prevSize ht
    omega
  rw [prev_updateTarget hprev, List.getD_eq_getElem?_getD, window_getElem? hlt]
  rfl

/-- **A command issued through the node extends its history.** -/
theorem updateTarget (tr : Node.Tracks table hist node)
    (hdist : ∀ t ∈ table i.cmd, 1 ≤ t.dist) (hdelay : ∀ t ∈ table i.cmd, 0 ≤ t.delay)
    (hwindow : ∀ t ∈ table i.cmd, 1 < t.dist → 0 < t.delay)
    (hfits : ∀ t ∈ table i.cmd, t.hasSibling = false → i.clk.toNat + t.delay < 2 ^ 64 - 1) :
    Node.Tracks table (i :: hist) (node.updateTarget (table i.cmd) i.cmd i.clk) := by
  have hprev := prev_updateTarget (i := i) tr.prev
  -- what the node remembers of the command is the end of its history
  have hpast : ∀ t ∈ table i.cmd,
      ((node.updateTarget (table i.cmd) i.cmd i.clk).prev i.cmd).getD (t.dist - 1) clkInvalid =
        (clocks i.cmd (i :: hist)).getD (t.dist - 1) clkInvalid :=
    fun t ht => past_updateTarget tr.prev ht (hdist t ht)
  have hfits' : ∀ t ∈ table i.cmd, t.hasSibling = false → ∀ c ∈ clocks i.cmd (i :: hist),
      c.toNat + t.delay < 2 ^ 64 - 1 := by
    intro t ht hs c hc
    rw [clocks_cons_self] at hc
    rcases List.mem_cons.mp hc with rfl | hc
    · exact hfits t ht hs
    · exact tr.fits _ t ht hs c hc
  refine ⟨hprev, ?_, fun x t ht hs c hc => ?_, fun x t ht hs c hc => ?_⟩
  · -- no clock that is allowed next is the invalid one
    refine raiseAll_ne tr.valid fun t ht clk hclk => ?_
    split at hclk
    · cases hclk
    · rename_i hs
      rw [Bool.not_eq_true] at hs
      cases hclk
      have hd := hdelay t ht
      change (((node.updateTarget (table i.cmd) i.cmd i.clk).prev i.cmd).getD _ _ + _) ≠ _
      rw [hpast t ht]
      intro heq
      have hnat := congrArg UInt64.toNat heq
      have hinv : clkInvalid.toNat = 2 ^ 64 - 1 := rfl
      by_cases hlen : t.dist - 1 < (clocks i.cmd (i :: hist)).length
      · have hget := List.getElem?_eq_getElem hlen
        have hfit := hfits' t ht hs _ (List.getElem_mem hlen)
        rw [List.getD_eq_getElem?_getD, hget, Option.getD_some] at hnat
        have := toNat_add_delay (clocks i.cmd (i :: hist))[t.dist - 1] hd (by omega)
        omega
      · -- only an entry that looks further back finds the filler
        have hone : 1 < t.dist := by
          rw [clocks_cons_self, List.length_cons] at hlen
          omega
        have hfit := hfits t ht hs
        rw [List.getD_eq_getElem?_getD, List.getElem?_eq_none (Nat.not_lt.mp hlen),
          Option.getD_none] at hnat
        have := filler_add_delay (hwindow t ht hone) (by omega)
        omega
  · by_cases hx : i.cmd = x
    · subst hx
      have hmem : c ∈ clocks i.cmd (i :: hist) := List.mem_of_getElem? hc
      have hadd := toNat_add_delay c (hdelay t ht)
        (by have := hfits' t ht hs c hmem; omega)
      -- the entry that looks back to c has raised the clock
      have hge : (c + UInt64.ofInt t.delay).toNat ≤
          ((node.updateTarget (table i.cmd) i.cmd i.clk).next t.cmd).toNat := by
        refine raiseAll_ge ht ?_
        simp only [hs, Bool.false_eq_true, if_false]
        change some (((node.updateTarget (table i.cmd) i.cmd i.clk).prev i.cmd).getD _ _ + _) = _
        rw [hpast t ht, List.getD_eq_getElem?_getD, hc, Option.getD_some]
      rw [← hadd]
      exact Int.ofNat_le.mpr hge
    · rw [clocks_cons_of_ne hx] at hc
      have hold := tr.bounds x t ht hs c hc
      refine le_trans hold (Int.ofNat_le.mpr ?_)
      exact le_raiseAll
  · by_cases hx : i.cmd = x
    · subst hx
      exact hfits' t ht hs c hc
    · rw [clocks_cons_of_ne hx] at hc
      exact tr.fits x t ht hs c hc

/-- **A node that lets a command through keeps its delays.** -/
theorem ready {cmd x : γ} {clk c : Clk} {t : TimingEntry γ} (tr : Node.Tracks table hist node)
    (h : node.ready cmd clk = true) (ht : t ∈ table x) (hs : t.hasSibling = false)
    (hcmd : t.cmd = cmd) (hc : (clocks x hist)[t.dist - 1]? = some c) :
    c.toNat + t.delay ≤ clk.toNat := by
  have hbound := tr.bounds x t ht hs c hc
  rw [hcmd] at hbound
  simp only [Node.ready, ne_eq, tr.valid cmd, not_false_eq_true, decide_true, Bool.true_and,
    Bool.not_eq_true', decide_eq_false_iff_not, UInt64.lt_iff_toNat_lt] at h
  omega

end Node.Tracks

/-! ## Trees that track a history -/

omit [DecidableEq γ] in
theorem SameTiming.refl : ∀ {k : ℕ} (d : Dram γ ς k), SameTiming d d
  | 0, _ => ⟨rfl, rfl, rfl⟩
  | _ + 1, (_, _) =>
    ⟨⟨rfl, rfl, rfl⟩, List.forall₂_same.mpr fun c _ => SameTiming.refl c⟩

omit [DecidableEq γ] in
theorem SameTiming.id_eq {k : ℕ} {d' d : Dram γ ς k} (h : SameTiming d' d) :
    d'.node.id = d.node.id := by
  cases k with
  | zero => exact h.1
  | succ k => exact h.1.1

omit [DecidableEq γ] in
theorem SameTiming.trans : ∀ {k : ℕ} {a b c : Dram γ ς k}, SameTiming a b → SameTiming b c →
    SameTiming a c
  | 0, _, _, _, ⟨hid, hnext, hprev⟩, ⟨hid', hnext', hprev'⟩ =>
    ⟨hid.trans hid', hnext.trans hnext', hprev.trans hprev'⟩
  | k + 1, (_, as), (_, bs), (_, cs), ⟨⟨hid, hnext, hprev⟩, hs⟩, ⟨⟨hid', hnext', hprev'⟩, hs'⟩ => by
    refine ⟨⟨hid.trans hid', hnext.trans hnext', hprev.trans hprev'⟩, ?_⟩
    have h := List.forall₂_iff_get.mp hs
    have h' := List.forall₂_iff_get.mp hs'
    exact List.forall₂_iff_get.mpr ⟨h.1.trans h'.1, fun i hi hi'' =>
      SameTiming.trans (h.2 i hi (h.1 ▸ hi)) (h'.2 i (h.1 ▸ hi) hi'')⟩

omit [DecidableEq γ] in
theorem runStateTrans_sameTiming (spec : Spec γ ς) {k : ℕ} (d : Dram γ ς k) (cmd : γ)
    (childId : UInt64) : SameTiming (runStateTrans spec k cmd d childId) d := by
  unfold runStateTrans
  split
  · exact .refl d
  · exact StateTrans.timing ..

omit [DecidableEq γ] in
theorem child_eq_ok {k : ℕ} {children : List (Dram γ ς k)} {id : UInt64} {c : Dram γ ς k} :
    child children id = .ok c ↔ children[id.toNat]? = some c := by
  unfold child
  split <;> simp_all

omit [DecidableEq γ] in
/-- **Changing states leaves the timing alone**, all along the path. -/
theorem updateState_sameTiming {cmd : γ} {addr : MappedAddr} : ∀ {k level : ℕ} {d d' : Dram γ ς k},
    updateState spec cmd addr k level d = .ok d' → SameTiming d' d := by
  intro k
  induction k with
  | zero =>
      intro level d d' h
      obtain rfl := pure_eq_ok.mp h
      exact runStateTrans_sameTiming spec d cmd _
  | succ k ih =>
      intro level d d' h
      have hs := runStateTrans_sameTiming spec d cmd (coord addr (level + 1))
      unfold updateState at h
      dsimp only at h
      split at h
      · obtain rfl := pure_eq_ok.mp h
        exact hs
      · simp only [bind_eq_ok, pure_eq_ok, child_eq_ok] at h
        obtain ⟨c, hc, c', hc', rfl⟩ := h
        refine SameTiming.trans ⟨⟨rfl, rfl, rfl⟩, ?_⟩ hs
        -- one child is replaced, by one of the same timing
        refine List.forall₂_iff_get.mpr ⟨List.length_set, fun i hi hi' => ?_⟩
        simp only [List.get_eq_getElem, List.getElem_set]
        split
        · rename_i hid
          subst hid
          rw [(List.getElem?_eq_some_iff.mp hc).2]
          exact ih hc'
        · exact .refl _

/-- **The tree tracks the history**: its node does, and each child, which
is where its coordinate says, tracks the part of the history that goes
to it. -/
def Tracks (spec : Spec γ ς) : (k : ℕ) → ℕ → List (Issued γ) → Dram γ ς k → Prop
  | 0, level, hist, d => Node.Tracks (spec.timingTable level) hist d
  | k + 1, level, hist, d =>
    Node.Tracks (spec.timingTable level) hist d.1 ∧ d.2 ≠ [] ∧
      ∀ i c, d.2[i]? = some c → c.node.id = i ∧
        Tracks spec k (level + 1)
          (hist.filter fun x => (coord x.addr (level + 1)).toNat = i) c

theorem updateTiming_id {cmd : γ} {addr : MappedAddr} {clk : Clk} :
    ∀ {k level : ℕ} {d : Dram γ ς k},
      (updateTiming spec cmd addr clk k level d).node.id = d.node.id := by
  intro k level d
  cases k <;> · unfold updateTiming; split <;> rfl

namespace Tracks

variable {hist : List (Issued γ)}

/-- A new tree has tracked nothing. -/
theorem new : ∀ {k level id : ℕ}, (∀ l, level < l → l ≤ level + k → 0 < spec.count l) →
    Tracks spec k level [] (Dram.new spec k level id)
  | 0, _, _, _ => Node.Tracks.new
  | k + 1, level, id, hcount => by
    refine ⟨Node.Tracks.new, ?_, fun i c hc => ?_⟩
    · have := hcount (level + 1) (by omega) (by omega)
      simp only [Dram.new, ne_eq, List.map_eq_nil_iff, List.range_eq_nil]
      omega
    · simp only [Dram.new, List.getElem?_map, Option.map_eq_some_iff] at hc
      obtain ⟨j, hj, rfl⟩ := hc
      obtain ⟨-, rfl⟩ := List.getElem?_eq_some_iff.mp hj
      refine ⟨?_, ?_⟩
      · cases k <;> simp [Dram.new, Dram.node, Node.new]
      · exact Tracks.new fun l hl hl' => hcount l (by omega) (by omega)

/-- What only changes states keeps what is tracked. -/
theorem congr : ∀ {k level : ℕ} {hist : List (Issued γ)} {d' d : Dram γ ς k},
    Tracks spec k level hist d → SameTiming d' d → Tracks spec k level hist d'
  | 0, _, _, _, _, tr, h => Node.Tracks.congr tr h
  | k + 1, level, hist, (n', cs'), (n, cs), ⟨hn, hne, hcs⟩, ⟨hsame, hchildren⟩ => by
    have hget := List.forall₂_iff_get.mp hchildren
    refine ⟨hn.congr hsame, ?_, fun i c hc => ?_⟩
    · rw [← List.length_pos_iff] at hne ⊢
      exact hget.1 ▸ hne
    · obtain ⟨hi, rfl⟩ := List.getElem?_eq_some_iff.mp hc
      have hi' : i < cs.length := hget.1 ▸ hi
      obtain ⟨hid, htr⟩ := hcs i cs[i] (List.getElem?_eq_getElem hi')
      have hs : SameTiming cs'[i] cs[i] := hget.2 i hi hi'
      exact ⟨hs.id_eq.trans hid, htr.congr hs⟩

/-- Changing states keeps what is tracked. -/
theorem updateState {cmd : γ} {addr : MappedAddr} {k level : ℕ} {hist : List (Issued γ)}
    {d d' : Dram γ ς k} (tr : Tracks spec k level hist d)
    (h : Dram.updateState spec cmd addr k level d = .ok d') :
    d'.node.id = d.node.id ∧ Tracks spec k level hist d' :=
  have hs := updateState_sameTiming h
  ⟨hs.id_eq, tr.congr hs⟩

/-- **A command issued extends the history of the nodes it goes through,
and of no others.** -/
theorem updateTiming {top : ℕ} (hproper : spec.Proper top) {i : Issued γ}
    (hfits : spec.Fits top i.clk) : ∀ {k level : ℕ} {hist : List (Issued γ)} {d : Dram γ ς k},
    level + k ≤ top → Tracks spec k level hist d →
    Tracks spec k level
      (if d.node.id = (coord i.addr level).toNat then i :: hist else hist)
      (Dram.updateTiming spec i.cmd i.addr i.clk k level d) := by
  have hsib : ∀ level ≤ top, ∀ t ∈ spec.timingTable level i.cmd, t.hasSibling = true →
      i.clk + UInt64.ofInt t.delay ≠ clkInvalid := fun level hl t ht hs => by
    simpa [hs] using hfits level hl i.cmd t ht
  have htarget : ∀ {level : ℕ} {hist : List (Issued γ)} {node : Node γ ς}, level ≤ top →
      Node.Tracks (spec.timingTable level) hist node →
      Node.Tracks (spec.timingTable level) (i :: hist)
        (node.updateTarget (spec.timingTable level i.cmd) i.cmd i.clk) := fun hl tr =>
    tr.updateTarget (hproper.dist _ hl _) (hproper.delay _ hl _) (hproper.window _ hl _)
      fun t ht hs => by simpa [hs] using hfits _ hl i.cmd t ht
  -- down the tree: a node on the way of the command, or a sibling of one
  intro k
  induction k with
  | zero =>
      intro level hist d hl tr
      unfold Dram.updateTiming
      change Tracks spec 0 level (if Node.id d = _ then _ else _) _
      by_cases hid : Node.id d = (coord i.addr level).toNat
      · rw [if_pos hid, if_neg (not_not.mpr hid)]
        exact htarget (by omega) tr
      · rw [if_neg hid, if_pos hid]
        exact Node.Tracks.updateSibling tr (hsib level (by omega))
  | succ k ih =>
      intro level hist d hl tr
      obtain ⟨hn, hne, hcs⟩ := tr
      unfold Dram.updateTiming
      change Tracks spec (k + 1) level (if d.1.id = _ then _ else _) _
      by_cases hid : d.1.id = (coord i.addr level).toNat
      · rw [if_pos hid, if_neg (not_not.mpr hid)]
        refine ⟨htarget (by omega) hn, by simpa using hne, fun j c hc => ?_⟩
        simp only [List.getElem?_map, Option.map_eq_some_iff] at hc
        obtain ⟨c₀, hc₀, rfl⟩ := hc
        obtain ⟨hcid, hctr⟩ := hcs j c₀ hc₀
        refine ⟨updateTiming_id.trans hcid, ?_⟩
        have hrec := ih (show level + 1 + k ≤ top by omega) hctr
        rw [hcid] at hrec
        rw [List.filter_cons]
        simpa only [decide_eq_true_eq, eq_comm (b := j)] using hrec
      · rw [if_neg hid, if_pos hid]
        exact ⟨hn.updateSibling (hsib level (by omega)), hne, hcs⟩

/-- **A check that passes keeps every delay along the path.** -/
theorem check {cmd : γ} {addr : MappedAddr} {clk : Clk} : ∀ {k level : ℕ}
    {hist : List (Issued γ)} {d : Dram γ ς k}, Tracks spec k level hist d →
    Dram.check spec cmd addr clk k level d = .ok true →
    ∀ L, level ≤ L → L ≤ level + k → L ≤ spec.scope cmd →
      ∀ x, ∀ t ∈ spec.timingTable L x, t.cmd = cmd → t.hasSibling = false →
        ∀ c, (clocks x (along level L addr hist))[t.dist - 1]? = some c →
          c.toNat + t.delay ≤ clk.toNat := by
  intro k
  induction k with
  | zero =>
      intro level hist d tr h L hL hL' hscope x t ht hcmd hs c hc
      obtain rfl : L = level := by omega
      rw [along_self] at hc
      exact Node.Tracks.ready tr (pure_eq_ok.mp h) ht hs hcmd hc
  | succ k ih =>
      intro level hist d tr h L hL hL' hscope x t ht hcmd hs c hc
      obtain ⟨hn, hne, hcs⟩ := tr
      unfold Dram.check at h
      split at h
      · simp at h
      · rename_i hready
        simp only [Bool.not_eq_true', Bool.not_eq_false] at hready
        rcases eq_or_lt_of_le hL with rfl | hlt
        · rw [along_self] at hc
          exact hn.ready hready ht hs hcmd hc
        · rw [if_neg (by simp only [List.isEmpty_iff, hne, or_false]; omega)] at h
          simp only [bind_eq_ok, child_eq_ok] at h
          obtain ⟨c₀, hc₀, hrec⟩ := h
          rw [← along_succ hlt] at hc
          exact ih (hcs _ c₀ hc₀).2 hrec L hlt (by omega) hscope x t ht hcmd hs c hc

end Tracks

end Dram

end Vans
