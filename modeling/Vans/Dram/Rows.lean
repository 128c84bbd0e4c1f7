import Vans.Dram.Timing
/-!
# The DRAM tree — the states of its banks

The banks are the leaves of the tree, and are reached by the coordinates
of an address or by any path of indices. Recording a command leaves
every state as it is; changing the states of a command that acts on
banks alone changes the bank the address is of, and no other.
-/

namespace Vans

namespace Dram

variable {γ ς : Type} {spec : Spec γ ς}

/-! ## States -/

/-- The nodes are in the same state. -/
def Node.SameState (a b : Node γ ς) : Prop :=
  a.id = b.id ∧ a.currState = b.currState ∧ a.rowState = b.rowState

/-- The trees are in the same states throughout. -/
def SameState : ∀ {k : ℕ}, Dram γ ς k → Dram γ ς k → Prop
  | 0, a, b => Node.SameState a b
  | _ + 1, (a, as), (b, bs) => a.SameState b ∧ List.Forall₂ SameState as bs

theorem SameState.refl : ∀ {k : ℕ} (d : Dram γ ς k), SameState d d
  | 0, _ => ⟨rfl, rfl, rfl⟩
  | _ + 1, (_, _) => ⟨⟨rfl, rfl, rfl⟩, List.forall₂_same.mpr fun c _ => SameState.refl c⟩

/-- **Recording a command leaves every state as it is.** -/
theorem updateTiming_sameState [DecidableEq γ] {cmd : γ} {addr : MappedAddr} {clk : Clk} :
    ∀ {k level : ℕ} (d : Dram γ ς k), SameState (updateTiming spec cmd addr clk k level d) d := by
  intro k
  induction k with
  | zero =>
      intro level d
      unfold updateTiming
      split <;> exact ⟨rfl, rfl, rfl⟩
  | succ k ih =>
      rintro level ⟨node, children⟩
      unfold updateTiming
      split
      · exact ⟨⟨rfl, rfl, rfl⟩, List.forall₂_same.mpr fun c _ => .refl c⟩
      · exact ⟨⟨rfl, rfl, rfl⟩, List.forall₂_map_left_iff.mpr (List.forall₂_same.mpr fun c _ => ih c)⟩

/-! ## Banks -/

/-- A path of child indices, one a level. -/
abbrev Path := ℕ → ℕ

/-- The path an address takes. -/
def path (addr : MappedAddr) : Path := fun level => (coord addr level).toNat

/-- The path is that of the address on the levels above `level`, up to
`L`. -/
def OnPath (level L : ℕ) (p : Path) (addr : MappedAddr) : Prop :=
  ∀ l ≤ L, level < l → p l = path addr l

instance (level L : ℕ) (p : Path) (addr : MappedAddr) : Decidable (OnPath level L p addr) :=
  inferInstanceAs (Decidable (∀ l ≤ L, _))

theorem onPath_succ {level L : ℕ} {p : Path} {addr : MappedAddr} (h : level < L) :
    OnPath level L p addr ↔ p (level + 1) = path addr (level + 1) ∧ OnPath (level + 1) L p addr := by
  constructor
  · exact fun hp => ⟨hp _ h (Nat.lt_succ_self _), fun l hl hlt => hp l hl (Nat.lt_of_succ_lt hlt)⟩
  · rintro ⟨hhere, hp⟩ l hl hlt
    rcases Nat.eq_or_lt_of_le (Nat.succ_le_of_lt hlt) with heq | hgt
    · exact heq ▸ hhere
    · exact hp l hl hgt

/-- The leaf a path leads to, where there is one. -/
def bankAt (p : Path) : (k : ℕ) → ℕ → Dram γ ς k → Option (Node γ ς)
  | 0, _, d => some d
  | k + 1, level, d => d.2[p (level + 1)]? >>= bankAt p k (level + 1)

/-- What is read of a bank. -/
def Node.state (b : Node γ ς) : ς × List UInt64 := (b.currState, b.rowState)

/-- The state of the bank a path leads to. -/
def bankState (p : Path) (k level : ℕ) (d : Dram γ ς k) : Option (ς × List UInt64) :=
  (bankAt p k level d).map Node.state

section States

variable {p : Path} {addr : MappedAddr} {cmd : γ}

theorem bankState_succ {k level : ℕ} {d : Dram γ ς (k + 1)} :
    bankState p (k + 1) level d = d.2[p (level + 1)]? >>= bankState p k (level + 1) := by
  simp only [bankState, bankAt]
  cases d.2[p (level + 1)]? <;> rfl

/-- The banks of a new tree are in the state they start in. -/
theorem bankState_new : ∀ {k level id : ℕ}, bankState p k level (new spec k level id) = none ∨
    bankState p k level (new spec k level id) = some (spec.initState (level + k), []) := by
  intro k
  induction k with
  | zero => exact fun {level id} => .inr rfl
  | succ k ih =>
      intro level id
      rw [bankState_succ]
      simp only [new, List.getElem?_map]
      cases hi : (List.range (spec.count (level + 1)))[p (level + 1)]? with
      | none => exact .inl rfl
      | some i =>
          have hrec := @ih (level + 1) i
          rwa [show level + 1 + k = level + (k + 1) by omega] at hrec

/-- Trees in the same states have their banks in the same states. -/
theorem SameState.bankState_eq : ∀ {k level : ℕ} {d' d : Dram γ ς k}, SameState d' d →
    bankState p k level d' = bankState p k level d := by
  intro k
  induction k with
  | zero =>
      intro level d' d h
      exact congrArg some (Prod.ext h.2.1 h.2.2)
  | succ k ih =>
      rintro level ⟨node', cs'⟩ ⟨node, cs⟩ ⟨-, hcs⟩
      rw [bankState_succ, bankState_succ]
      dsimp only
      obtain ⟨hlen, hget⟩ := List.forall₂_iff_get.mp hcs
      by_cases hi : p (level + 1) < cs.length
      · have hi' : p (level + 1) < cs'.length := hlen ▸ hi
        rw [List.getElem?_eq_getElem hi, List.getElem?_eq_getElem hi']
        exact ih (hget _ hi' hi)
      · rw [List.getElem?_eq_none (by omega), List.getElem?_eq_none (by omega)]

/-- The command acts on banks alone. -/
def Spec.OnBanks (spec : Spec γ ς) (cmd : γ) : Prop := ∀ k, spec.stateTrans (k + 1) cmd = none

/-- **A command on banks changes the bank of its address**, and no
other. -/
theorem updateState_onBanks (hbanks : spec.OnBanks cmd) : ∀ {k level : ℕ} {d d' : Dram γ ς k},
    level + k ≤ spec.scope cmd → updateState spec cmd addr k level d = .ok d' →
    bankState p k level d' =
      if OnPath level (level + k) p addr then
        (bankAt p k level d).map fun b =>
          Node.state (runStateTrans spec 0 cmd b (coord addr (level + k + 1)) : Dram γ ς 0)
      else bankState p k level d := by
  intro k
  induction k with
  | zero =>
      intro level d d' _ h
      obtain rfl := pure_eq_ok.mp h
      have hon : OnPath level (level + 0) p addr := fun l hl hlt => absurd hl (Nat.not_le.mpr hlt)
      rw [if_pos hon]
      rfl
  | succ k ih =>
      rintro level ⟨node, cs⟩ d' hscope h
      unfold updateState at h
      -- above the banks the command changes no node
      have hself : ∀ id, runStateTrans spec (k + 1) cmd (node, cs) id = (node, cs) := by
        intro id
        rw [runStateTrans, hbanks k]
      simp only [hself] at h
      split at h
      · -- there is nothing below the node
        rename_i hnone
        obtain rfl := pure_eq_ok.mp h
        have hcs : cs = [] := by
          rcases hnone with hlevel | hempty
          · omega
          · simpa using hempty
        subst hcs
        simp [bankState_succ, bankAt]
      · simp only [bind_eq_ok, pure_eq_ok, child_eq_ok] at h
        obtain ⟨c, hc, c', hc', rfl⟩ := h
        have hrec := ih (by omega) hc'
        rw [show level + 1 + k = level + (k + 1) by omega] at hrec
        rw [bankState_succ, bankState_succ, bankAt]
        simp only [onPath_succ (show level < level + (k + 1) by omega), List.getElem?_set]
        have hlt : (coord addr (level + 1)).toNat < cs.length := (List.getElem?_eq_some_iff.mp hc).1
        by_cases hp : p (level + 1) = path addr (level + 1)
        · have hp' : (coord addr (level + 1)).toNat = p (level + 1) := hp.symm
          have hhere : (coord addr (level + 1)).toNat = path addr (level + 1) := rfl
          rw [if_pos hp', if_pos (hp' ▸ hlt), ← hp', hc]
          simpa [hhere] using hrec
        · have hp' : (coord addr (level + 1)).toNat ≠ p (level + 1) := fun h => hp h.symm
          rw [if_neg hp', if_neg fun h => hp h.1]

/-- A command on banks leaves the node, and at most one child changes. -/
theorem updateState_node {k level : ℕ} {d d' : Dram γ ς (k + 1)} (hbanks : spec.OnBanks cmd)
    (h : updateState spec cmd addr (k + 1) level d = .ok d') :
    d' = d ∨ ∃ c c', d.2[path addr (level + 1)]? = some c ∧
      updateState spec cmd addr k (level + 1) c = .ok c' ∧
      d' = (d.1, d.2.set (path addr (level + 1)) c') := by
  unfold updateState at h
  have hself : ∀ id, runStateTrans spec (k + 1) cmd d id = d := by
    intro id
    rw [runStateTrans, hbanks k]
  simp only [hself] at h
  split at h
  · exact .inl (pure_eq_ok.mp h).symm
  · simp only [bind_eq_ok, pure_eq_ok, child_eq_ok] at h
    obtain ⟨c, hc, c', hc', rfl⟩ := h
    exact .inr ⟨c, c', hc, hc', rfl⟩

/-- Recording the command after it changed the states leaves them. -/
theorem update_onBanks [DecidableEq γ] {clk : Clk} {k : ℕ} {d d' : Dram γ ς k}
    (hbanks : spec.OnBanks cmd) (hscope : k ≤ spec.scope cmd)
    (h : update spec cmd addr clk k d = .ok d') :
    bankState p k 0 d' =
      if OnPath 0 k p addr then
        (bankAt p k 0 d).map fun b =>
          Node.state (runStateTrans spec 0 cmd b (coord addr (k + 1)) : Dram γ ς 0)
      else bankState p k 0 d := by
  simp only [update, bind_eq_ok, pure_eq_ok] at h
  obtain ⟨u, hu, rfl⟩ := h
  rw [(updateTiming_sameState u).bankState_eq]
  have hstate := updateState_onBanks (p := p) hbanks (by omega) hu
  rwa [Nat.zero_add] at hstate

/-- The same path leads to the same bank. -/
theorem bankAt_congr : ∀ {k level : ℕ} {d : Dram γ ς k}, OnPath level (level + k) p addr →
    bankAt p k level d = bankAt (path addr) k level d := by
  intro k
  induction k with
  | zero => exact fun _ => rfl
  | succ k ih =>
      intro level d hp
      obtain ⟨hhere, hbelow⟩ := (onPath_succ (by omega)).mp hp
      rw [bankAt, bankAt, hhere]
      refine congrArg _ (funext fun c => ih ?_)
      rwa [show level + 1 + k = level + (k + 1) by omega]

end States

/-! ## What a command needs -/

section Decode

variable {cmd : γ} {addr : MappedAddr} {k level : ℕ}

/-- Nothing is needed at the node, and the command is passed on. -/
theorem decode_child {d : Dram γ ς (k + 1)} {c : Dram γ ς k}
    (hask : askPrereq spec (k + 1) cmd d (coord addr (level + 1)) = .ok none)
    (hc : d.2[path addr (level + 1)]? = some c) :
    decode spec cmd addr (k + 1) level d = decode spec cmd addr k (level + 1) c := by
  have hne : d.2.isEmpty = false := by
    cases hd : d.2 with
    | nil => simp [hd] at hc
    | cons => rfl
  have hc' : child d.2 (coord addr (level + 1)) = .ok c := child_eq_ok.mpr hc
  rw [decode, hask]
  simp [hne, hc']

/-- Something is needed at the node. -/
theorem decode_prereq {d : Dram γ ς (k + 1)} {pcmd : γ}
    (hask : askPrereq spec (k + 1) cmd d (coord addr (level + 1)) = .ok (some pcmd)) :
    decode spec cmd addr (k + 1) level d = .ok pcmd := by
  rw [decode, hask]
  rfl

/-- Nothing is needed at the node, and nothing is below it on the way. -/
theorem decode_none {d : Dram γ ς (k + 1)}
    (hask : askPrereq spec (k + 1) cmd d (coord addr (level + 1)) = .ok none)
    (hc : d.2[path addr (level + 1)]? = none) :
    decode spec cmd addr (k + 1) level d = .ok cmd ∨
      decode spec cmd addr (k + 1) level d =
        .error "undefined behaviour: children index out of range" := by
  rw [decode, hask]
  simp only [ok_bind]
  split
  · exact .inl rfl
  · right
    have hmissing : child d.2 (coord addr (level + 1)) =
        .error "undefined behaviour: children index out of range" := by
      unfold child
      split
      · rfl
      · rename_i h
        exact absurd (hc.symm.trans h) (by simp)
    rw [hmissing]
    rfl

end Decode

end Dram

end Vans
