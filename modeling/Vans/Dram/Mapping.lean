import Vans.Common.Digits
import Vans.Common.Words
import Vans.Dram.Ddr4
/-!
# DDR4 — addresses and coordinates

Past the offset within a transaction, the coordinates of an address are
its digits: the levels are the positions, in the order of the mapping
function, and their counts are the radices. So the addresses of the
memory and the coordinates within the counts are in bijection, and no
coordinate leads out of a tree that has the counts.
-/

namespace Vans

namespace Dram

/-! ## The digits of an address -/

/-- The radix of a level. -/
def Mapping.radix (m : Mapping) (level : ℕ) : ℕ := 2 ^ (m.addrBitWidth level).toNat

/-- Setting one coordinate leaves the others. -/
theorem coord_set {x : MappedAddr} {level l : ℕ} {digit : UInt64} :
    coord (x.set level digit) l = coord x l ∨
      (level = l ∧ coord (x.set level digit) l = digit) := by
  by_cases h : level = l ∧ l < x.length
  · obtain ⟨rfl, hlt⟩ := h
    exact .inr ⟨rfl, by simp [coord, hlt]⟩
  · refine .inl ?_
    rw [coord, coord, List.getD_eq_getElem?_getD, List.getD_eq_getElem?_getD, List.getElem?_set]
    grind

/-- One round of the loop that maps. -/
def Mapping.takeOff (m : Mapping) (p : MappedAddr × Addr) (level : ℕ) :
    Result (MappedAddr × Addr) := do
  let width := m.addrBitWidth level
  if 32 ≤ width then throw "undefined behaviour: shift by the width of the type"
  return (p.1.set level (p.2 &&& UInt64.ofNat (2 ^ width.toNat - 1)), p.2 >>> width)

section Map

variable {m : Mapping} {level : ℕ} {levels : List ℕ} {x : MappedAddr} {rest a : Addr}

theorem Mapping.map_eq : m.map a = do
    let p ← m.code.reverse.foldlM m.takeOff
      (List.replicate m.totalLevels 0, a >>> UInt64.ofNat m.txBitWidth)
    return p.1 := rfl

/-- A round takes off the lowest digit. -/
theorem Mapping.takeOff_eq (hwidth : (m.addrBitWidth level).toNat < 32) :
    ∃ digit rest' : UInt64, m.takeOff (x, rest) level = .ok (x.set level digit, rest') ∧
      digit.toNat = rest.toNat % m.radix level ∧ rest'.toNat = rest.toNat / m.radix level := by
  have hlt : ¬ 32 ≤ m.addrBitWidth level := by
    rw [UInt64.le_iff_toNat_le]
    exact Nat.not_le.mpr hwidth
  have hmask : (UInt64.ofNat (2 ^ (m.addrBitWidth level).toNat - 1)).toNat =
      2 ^ (m.addrBitWidth level).toNat - 1 := by
    have hpow : (2 : ℕ) ^ (m.addrBitWidth level).toNat < 2 ^ 32 :=
      Nat.pow_lt_pow_right (by decide) hwidth
    exact UInt64.toNat_ofNat_of_lt' (by change _ < 2 ^ 64; omega)
  refine ⟨_, _, by rw [takeOff, if_neg hlt]; rfl, Word.toNat_and_mask hmask, ?_⟩
  exact Word.toNat_shr (by omega)

/-- **The loop takes off the digits**, and leaves the other coordinates. -/
theorem Mapping.takeOff_fold (hwidth : ∀ l ∈ levels, (m.addrBitWidth l).toNat < 32)
    (hlt : ∀ l ∈ levels, l < x.length) (hnodup : levels.Nodup) :
    ∃ x' rest', levels.foldlM m.takeOff (x, rest) = .ok (x', rest') ∧ x'.length = x.length ∧
      (∀ l ∈ levels, (coord x' l).toNat = Digits.digit m.radix levels rest.toNat l) ∧
      ∀ l ∉ levels, coord x' l = coord x l := by
  induction levels generalizing x rest with
  | nil => exact ⟨x, rest, rfl, rfl, by simp, by simp⟩
  | cons level levels ih =>
      obtain ⟨hnot, hnodup⟩ := List.nodup_cons.mp hnodup
      obtain ⟨d, rest₁, hstep, hd, hrest₁⟩ :=
        Mapping.takeOff_eq (m := m) (x := x) (hwidth level List.mem_cons_self)
      obtain ⟨x', rest', hfold, hlen, hdigit, hother⟩ :=
        @ih (x.set level d) rest₁ (fun l hl => hwidth l (List.mem_cons_of_mem _ hl))
          (fun l hl => by simpa using hlt l (List.mem_cons_of_mem _ hl)) hnodup
      refine ⟨x', rest', by rw [List.foldlM_cons, hstep, ok_bind, hfold], by simpa using hlen, ?_, ?_⟩
      · intro l hl
        rw [Digits.digit]
        split
        · rename_i heq
          rw [heq, hother level hnot, coord, List.getD_eq_getElem?_getD,
            List.getElem?_set_self (hlt level List.mem_cons_self)]
          exact hd
        · rename_i hne
          rw [hdigit l ((List.mem_cons.mp hl).resolve_left hne), hrest₁]
      · intro l hl
        obtain ⟨hne, hl⟩ := not_or.mp (mt List.mem_cons.mpr hl)
        rw [hother l hl, coord, coord, List.getD_eq_getElem?_getD, List.getD_eq_getElem?_getD,
          List.getElem?_set_ne (Ne.symm hne)]

/-- A mapping in which each level has its position, and the widths fit
a word. -/
structure Mapping.Proper (m : Mapping) : Prop where
  levels : m.code.Perm (List.range m.totalLevels)
  width : ∀ l < m.totalLevels, (m.addrBitWidth l).toNat < 32
  tx : m.txBitWidth < 64

/-- How many addresses the mapping tells apart, or that share what it
tells apart. -/
def Mapping.space (m : Mapping) : ℕ :=
  2 ^ m.txBitWidth * Digits.size m.radix (List.range m.totalLevels)

namespace Mapping.Proper

theorem mem_reverse (proper : m.Proper) {l : ℕ} : l ∈ m.code.reverse ↔ l < m.totalLevels := by
  rw [List.mem_reverse, proper.levels.mem_iff, List.mem_range]

theorem nodup (proper : m.Proper) : m.code.reverse.Nodup :=
  List.nodup_reverse.mpr (proper.levels.nodup_iff.mpr List.nodup_range)

theorem space_eq (proper : m.Proper) :
    m.space = 2 ^ m.txBitWidth * Digits.size m.radix m.code.reverse := by
  rw [Mapping.space, Digits.size_perm (m.code.reverse_perm.trans proper.levels)]

/-- **The coordinates are the digits** of the number of the transaction. -/
theorem map_digits (proper : m.Proper) (a : Addr) : ∃ x, m.map a = .ok x ∧ x.length = m.totalLevels ∧
    ∀ l < m.totalLevels, (coord x l).toNat =
      Digits.digit m.radix m.code.reverse (a.toNat / 2 ^ m.txBitWidth) l := by
  have htx : (UInt64.ofNat m.txBitWidth).toNat = m.txBitWidth :=
    UInt64.toNat_ofNat_of_lt' (by have := proper.tx; change _ < 2 ^ 64; omega)
  obtain ⟨x, rest, hfold, hlen, hdigit, -⟩ := Mapping.takeOff_fold (m := m)
    (x := List.replicate m.totalLevels 0)
    (fun l hl => proper.width l (proper.mem_reverse.mp hl))
    (fun l hl => by simpa using proper.mem_reverse.mp hl) proper.nodup
  refine ⟨x, by rw [Mapping.map_eq, hfold]; rfl, by simpa using hlen, fun l hl => ?_⟩
  rw [hdigit l (proper.mem_reverse.mpr hl), Word.toNat_shr (by rw [htx]; exact proper.tx), htx]

/-- **Coordinates are below their radices.** -/
theorem coord_lt (proper : m.Proper) (hmap : m.map a = .ok x) :
    x.length = m.totalLevels ∧ ∀ l < m.totalLevels, (coord x l).toNat < m.radix l := by
  obtain ⟨x', hx', hlen, hdigit⟩ := proper.map_digits a
  obtain rfl := Except.ok.inj (hmap.symm.trans hx')
  refine ⟨hlen, fun l hl => ?_⟩
  rw [hdigit l hl]
  exact Digits.digit_lt (fun k _ => Nat.two_pow_pos _) (proper.mem_reverse.mpr hl)

/-- **Two addresses have the same coordinates exactly where they lie in
the same transaction.** -/
theorem map_eq_iff (proper : m.Proper) {b : Addr} (ha : a.toNat < m.space) (hb : b.toNat < m.space) :
    m.map a = m.map b ↔ a.toNat / 2 ^ m.txBitWidth = b.toNat / 2 ^ m.txBitWidth := by
  rw [proper.space_eq] at ha hb
  obtain ⟨x, hx, hlenx, hdigitx⟩ := proper.map_digits a
  obtain ⟨y, hy, hleny, hdigity⟩ := proper.map_digits b
  rw [hx, hy]
  constructor
  · intro h
    obtain rfl := Except.ok.inj h
    refine Digits.eq_of_digits proper.nodup (Nat.div_lt_of_lt_mul ha) (Nat.div_lt_of_lt_mul hb)
      fun l hl => ?_
    rw [← hdigitx l (proper.mem_reverse.mp hl), hdigity l (proper.mem_reverse.mp hl)]
  · intro h
    refine congrArg Except.ok (List.ext_getElem (hlenx.trans hleny.symm) fun l hlx hly => ?_)
    have hxl := hdigitx l (hlenx ▸ hlx)
    have hyl := hdigity l (hleny ▸ hly)
    rw [h, ← hyl] at hxl
    simpa [coord, hlx, hly] using UInt64.toNat_inj.mp hxl

/-- **Every choice of coordinates is an address's.** -/
theorem exists_map_eq (proper : m.Proper) (hspace : m.space ≤ 2 ^ 64)
    (hlen : x.length = m.totalLevels) (hx : ∀ l < m.totalLevels, (coord x l).toNat < m.radix l) :
    ∃ a : Addr, a.toNat < m.space ∧ m.map a = .ok x := by
  have hradix : ∀ l ∈ m.code.reverse, (coord x l).toNat < m.radix l :=
    fun l hl => hx l (proper.mem_reverse.mp hl)
  set n := Digits.number m.radix m.code.reverse fun l => (coord x l).toNat with hn
  have hlt : 2 ^ m.txBitWidth * n < m.space := by
    rw [proper.space_eq]
    exact Nat.mul_lt_mul_of_pos_left (Digits.number_lt hradix) (Nat.two_pow_pos _)
  have hof : (UInt64.ofNat (2 ^ m.txBitWidth * n)).toNat = 2 ^ m.txBitWidth * n :=
    UInt64.toNat_ofNat_of_lt' (Nat.lt_of_lt_of_le hlt hspace)
  obtain ⟨y, hy, hleny, hdigity⟩ := proper.map_digits (UInt64.ofNat (2 ^ m.txBitWidth * n))
  refine ⟨UInt64.ofNat (2 ^ m.txBitWidth * n), by rw [hof]; exact hlt, hy.trans (congrArg _ ?_)⟩
  refine List.ext_getElem (hleny.trans hlen.symm) fun l hly hlx => ?_
  have hl : l < m.totalLevels := hleny ▸ hly
  have hyl := hdigity l hl
  rw [hof, Nat.mul_div_cancel_left _ (Nat.two_pow_pos _), hn,
    Digits.digit_number proper.nodup hradix (proper.mem_reverse.mpr hl)] at hyl
  simpa [coord, hlx, hly] using UInt64.toNat_inj.mp hyl

end Mapping.Proper

end Map

/-! ## The memory's constructor -/

/-- The memory's `max_addr`, which the constructor sets and nothing
reads. -/
def maxAddr {γ ς : Type} (spec : Spec γ ς) : Addr :=
  (List.range spec.totalLevels).foldl (fun addr i => addr * UInt64.ofNat (spec.count i))
    (UInt64.ofNat (spec.channelWidth / 8))

/-- The bytes of the memory, as a number. -/
def bytes {γ ς : Type} (spec : Spec γ ς) : ℕ :=
  spec.channelWidth / 8 * ((List.range spec.totalLevels).map spec.count).prod

/-- Multiplied as words, numbers wrap. -/
theorem foldl_mul_toNat {count : ℕ → ℕ} : ∀ {levels : List ℕ} {addr : Addr},
    (levels.foldl (fun addr i => addr * UInt64.ofNat (count i)) addr).toNat =
      addr.toNat * (levels.map count).prod % 2 ^ 64
  | [], addr => by simp [Nat.mod_eq_of_lt addr.toNat_lt]
  | i :: levels, addr => by
    rw [List.foldl_cons, foldl_mul_toNat, UInt64.toNat_mul, UInt64.toNat_ofNat', List.map_cons,
      List.prod_cons, ← Nat.mul_assoc]
    simp only [Nat.mul_mod, Nat.mod_mod]

theorem maxAddr_toNat {γ ς : Type} {spec : Spec γ ς} (h : spec.channelWidth < 2 ^ 64) :
    (maxAddr spec).toNat = bytes spec % 2 ^ 64 := by
  rw [maxAddr, foldl_mul_toNat, UInt64.toNat_ofNat_of_lt' (by change _ < 2 ^ 64; omega), bytes]

theorem isPwrOf2_eq_true {n : ℕ} : isPwrOf2 n = true ↔ ∃ w, n = 2 ^ w := by
  have h := @Nat.ne_zero_and_sub_one_eq_zero_iff_isPowerOfTwo n
  simpa [isPwrOf2, Nat.isPowerOfTwo] using h

/-! ## Trees that have the counts -/

section Sized

variable {γ ς : Type} {spec : Spec γ ς} {cmd : γ} {addr : MappedAddr} {clk : Clk}

/-- Below every node of the tree there are as many as the count says. -/
def Sized (spec : Spec γ ς) : (k : ℕ) → ℕ → Dram γ ς k → Prop
  | 0, _, _ => True
  | k + 1, level, d => d.2.length = spec.count (level + 1) ∧ ∀ c ∈ d.2, Sized spec k (level + 1) c

/-- The coordinates of the levels below are within the counts. -/
def InRange (spec : Spec γ ς) (k level : ℕ) (addr : MappedAddr) : Prop :=
  ∀ l, level < l → l ≤ level + k → (coord addr l).toNat < spec.count l

theorem InRange.below {k level : ℕ} (h : InRange spec (k + 1) level addr) :
    InRange spec k (level + 1) addr :=
  fun l hl hl' => h l (by omega) (by omega)

namespace Sized

theorem new : ∀ {k level id : ℕ}, Sized spec k level (Dram.new spec k level id)
  | 0, _, _ => trivial
  | _ + 1, _, _ => by
    refine ⟨by simp [Dram.new], fun c hc => ?_⟩
    obtain ⟨i, -, rfl⟩ := List.mem_map.mp hc
    exact Sized.new

/-- What only changes states changes no count. -/
theorem congr : ∀ {k level : ℕ} {d' d : Dram γ ς k}, Sized spec k level d → SameTiming d' d →
    Sized spec k level d'
  | 0, _, _, _, _, _ => trivial
  | _ + 1, _, (_, _), (_, _), ⟨hlen, hcs⟩, ⟨_, hchildren⟩ => by
    have hget := List.forall₂_iff_get.mp hchildren
    refine ⟨hget.1.trans hlen, fun c hc => ?_⟩
    obtain ⟨i, hi, rfl⟩ := List.getElem_of_mem hc
    exact Sized.congr (hcs _ (List.getElem_mem (hget.1 ▸ hi))) (hget.2 i hi (hget.1 ▸ hi))

/-- **The child is there**, where the coordinate is within the count. -/
theorem child {k level : ℕ} {d : Dram γ ς (k + 1)} (sized : Sized spec (k + 1) level d)
    (h : InRange spec (k + 1) level addr) :
    ∃ c ∈ d.2, Dram.child d.2 (coord addr (level + 1)) = .ok c ∧ Sized spec k (level + 1) c := by
  have hlt : (coord addr (level + 1)).toNat < d.2.length :=
    sized.1 ▸ h (level + 1) (by omega) (by omega)
  have hmem := List.getElem_mem hlt
  exact ⟨_, hmem, child_eq_ok.mpr (List.getElem?_eq_getElem hlt), sized.2 _ hmem⟩

theorem updateState : ∀ {k level : ℕ} {d : Dram γ ς k}, Sized spec k level d →
    InRange spec k level addr →
    ∃ d', Dram.updateState spec cmd addr k level d = .ok d' ∧ Sized spec k level d'
  | 0, _, _, _, _ => ⟨_, rfl, trivial⟩
  | k + 1, level, d, sized, h => by
    have sized' := sized.congr (runStateTrans_sameTiming spec d cmd (coord addr (level + 1)))
    unfold Dram.updateState
    dsimp only
    split
    · exact ⟨_, rfl, sized'⟩
    · obtain ⟨c, -, hc, hsized⟩ := sized'.child h
      obtain ⟨c', hc', hsized'⟩ := updateState hsized h.below
      refine ⟨_, by rw [hc, ok_bind, hc', ok_bind]; rfl, by simpa using sized'.1, fun x hx => ?_⟩
      rcases List.mem_or_eq_of_mem_set hx with hx | rfl
      · exact sized'.2 x hx
      · exact hsized'

theorem updateTiming [DecidableEq γ] : ∀ {k level : ℕ} {d : Dram γ ς k}, Sized spec k level d →
    Sized spec k level (Dram.updateTiming spec cmd addr clk k level d)
  | 0, _, _, _ => trivial
  | k + 1, level, d, ⟨hlen, hcs⟩ => by
    unfold Dram.updateTiming
    split
    · exact ⟨hlen, hcs⟩
    · refine ⟨by simpa using hlen, fun c hc => ?_⟩
      obtain ⟨c₀, hc₀, rfl⟩ := List.mem_map.mp hc
      exact updateTiming (hcs c₀ hc₀)

theorem check : ∀ {k level : ℕ} {d : Dram γ ς k}, Sized spec k level d →
    InRange spec k level addr → ∃ b, Dram.check spec cmd addr clk k level d = .ok b
  | 0, _, _, _, _ => ⟨_, rfl⟩
  | k + 1, level, d, sized, h => by
    unfold Dram.check
    split
    · exact ⟨_, rfl⟩
    · split
      · exact ⟨_, rfl⟩
      · obtain ⟨c, -, hc, hsized⟩ := sized.child h
        rw [hc, ok_bind]
        exact check hsized h.below

/-- A decode that fails, fails at a prerequisite. -/
theorem decode {e : String} (hprereq : ∀ k cmd f, spec.prereq k cmd = some f →
      ∀ d cmd' id, f d cmd' id ≠ .error e) : ∀ {k level : ℕ} {d : Dram γ ς k},
    Sized spec k level d → InRange spec k level addr → Dram.decode spec cmd addr k level d ≠ .error e := by
  have hask : ∀ (k : ℕ) (d : Dram γ ς k) id, askPrereq spec k cmd d id ≠ .error e := by
    intro k d id
    unfold askPrereq
    split
    · exact pure_ne_error
    · rename_i f hf
      exact hprereq k cmd f hf d cmd id
  intro k
  induction k with
  | zero =>
      intro level d _ _
      unfold Dram.decode
      refine bind_ne_error (hask 0 d _) fun p _ => ?_
      cases p <;> exact pure_ne_error
  | succ k ih =>
      intro level d sized h
      unfold Dram.decode
      refine bind_ne_error (hask (k + 1) d _) fun p _ => ?_
      cases p with
      | some pcmd => exact pure_ne_error
      | none =>
          dsimp only
          split
          · exact pure_ne_error
          · obtain ⟨c, -, hc, hsized⟩ := sized.child h
            rw [hc, ok_bind]
            exact ih hsized h.below

end Sized

end Sized

namespace Ddr4

variable {o : Organization} {t : Timing} {names : List LevelName} {x : MappedAddr}

/-- How many values the coordinate of a level has: of a column, one for
each transaction. -/
def Organization.bound (o : Organization) (level : ℕ) : ℕ :=
  if level = 5 then o.count level / 8 else o.count level

/-- The coordinates are within their bounds. -/
def Within (o : Organization) (x : MappedAddr) : Prop :=
  x.length = 6 ∧ ∀ l < 6, (coord x l).toNat < o.bound l

/-- The mapping function names every level once, and the counts are
powers of two that the widths can express. -/
structure Mappable (o : Organization) (names : List LevelName) : Prop where
  names : names.Perm [.Ch, .Ra, .Bg, .Ba, .Ro, .Co]
  counts : ∀ l < 6, isPwrOf2 (o.count l) = true ∧ o.count l < 2 ^ 32
  col : 8 ≤ o.col

/-- The bits of an address that the mapping looks at. -/
def Organization.width (o : Organization) : ℕ :=
  6 + ((List.range 6).map fun l => Nat.log2 (o.bound l)).sum

/-- The widths of the levels. -/
theorem Mappable.bound_eq (ok : Mappable o names) {l : ℕ} (hl : l < 6) :
    ∃ w < 32, o.bound l = 2 ^ w ∧ (if l = 5 then UInt64.ofNat (Nat.log2 (o.count l)) -
      UInt64.ofNat (Nat.log2 8) else UInt64.ofNat (Nat.log2 (o.count l))).toNat = w := by
  obtain ⟨hpow, hlt⟩ := ok.counts l hl
  obtain ⟨w, hw⟩ := isPwrOf2_eq_true.mp hpow
  have hw32 : w < 32 := (Nat.pow_lt_pow_iff_right (by decide)).mp (hw ▸ hlt)
  have hof : (UInt64.ofNat w).toNat = w := UInt64.toNat_ofNat_of_lt' (by change _ < 2 ^ 64; omega)
  rw [Organization.bound, hw, Nat.log2_two_pow]
  split
  · rename_i hl5
    subst hl5
    have hw3 : 3 ≤ w := by
      have hcol : 2 ^ 3 ≤ 2 ^ w := hw ▸ ok.col
      exact (Nat.pow_le_pow_iff_right (by decide)).mp hcol
    refine ⟨w - 3, by omega, Nat.pow_div hw3 (by decide), ?_⟩
    have hlog : UInt64.ofNat (Nat.log2 8) = 3 := rfl
    rw [hlog, UInt64.toNat_sub_of_le _ _ (by rw [UInt64.le_iff_toNat_le, hof]; exact hw3), hof]
    rfl
  · exact ⟨w, hw32, rfl, hof⟩

/-- **The mapping is made, and is proper.** -/
theorem Mappable.new_eq (ok : Mappable o names) : ∃ m, Mapping.new (spec o t) names = .ok m ∧
    m.Proper ∧ m.totalLevels = 6 ∧ m.txBitWidth = 6 ∧ ∀ l < 6, m.radix l = o.bound l := by
  have hlen : names.length = 6 := ok.names.length_eq
  have hnew : Mapping.new (spec o t) names = .ok
      { totalLevels := 6
        txBitWidth := 6
        addrBitWidth := fun l => if l = 5 then UInt64.ofNat (Nat.log2 (o.count l)) -
          UInt64.ofNat (Nat.log2 8) else UInt64.ofNat (Nat.log2 (o.count l))
        code := ((names ++ [LevelName.unknown]).take 6).map LevelName.num } := by
    have hsize : (spec o t).channelWidth * (spec o t).prefetchSize / 8 = 2 ^ 6 := by simp [spec]
    have htx : isPwrOf2 (2 ^ 6) = true := isPwrOf2_eq_true.mpr ⟨6, rfl⟩
    have hcounts : ((List.range (spec o t).totalLevels).any ((spec o t).count · = 0)) = false := by
      refine List.any_eq_false.mpr fun l hl => ?_
      obtain ⟨w, hw⟩ := isPwrOf2_eq_true.mp (ok.counts l (List.mem_range.mp hl)).1
      have hcount : (spec o t).count l = 2 ^ w := hw
      simp [hcount]
    have hnames : ¬ names.length + 1 < (spec o t).totalLevels := by
      rw [hlen]
      exact Nat.not_lt.mpr (Nat.le_succ 6)
    rw [Mapping.new]
    simp only [hsize, htx, hcounts, hnames, Nat.log2_two_pow]
    rfl
  refine ⟨_, hnew, ⟨?_, fun l hl => ?_, Nat.lt_of_le_of_lt (Nat.le_refl 6) (by decide)⟩, rfl, rfl,
    fun l hl => ?_⟩
  · rw [List.take_left' hlen]
    exact ok.names.map LevelName.num
  · obtain ⟨w, hw, -, hwidth⟩ := ok.bound_eq hl
    exact hwidth ▸ hw
  · obtain ⟨w, -, hbound, hwidth⟩ := ok.bound_eq hl
    rw [Mapping.radix, hbound, hwidth]

/-- Of five names the last level has none, and counts as the first. -/
example : (Mapping.new (spec (vansOrganization 1) vansTiming) [.Ch, .Ra, .Bg, .Ba, .Ro]).map
    Mapping.code = .ok [0, 1, 2, 3, 4, 0] := by decide

theorem Mappable.space_eq (ok : Mappable o names) {m : Mapping} (hlevels : m.totalLevels = 6)
    (htx : m.txBitWidth = 6) (hradix : ∀ l < 6, m.radix l = o.bound l) :
    m.space = bytes (spec o t) := by
  have hcol : o.col = 8 * o.bound 5 := by
    obtain ⟨w, hw⟩ := isPwrOf2_eq_true.mp (ok.counts 5 (by decide)).1
    have hw3 : 2 ^ 3 ≤ 2 ^ w := hw ▸ ok.col
    change o.count 5 = 8 * (o.count 5 / 8)
    rw [hw, show 8 = 2 ^ 3 from rfl,
      Nat.mul_div_cancel' (Nat.pow_dvd_pow 2 ((Nat.pow_le_pow_iff_right (by decide)).mp hw3))]
  rw [Mapping.space, hlevels, htx, Digits.size_congr fun l hl => hradix l (List.mem_range.mp hl)]
  change 2 ^ 6 * (o.channel * (o.rank * (o.bankGroup * (o.bank * (o.row * (o.bound 5 * 1)))))) =
    64 / 8 * (o.channel * (o.rank * (o.bankGroup * (o.bank * (o.row * (o.col * 1))))))
  rw [hcol]
  ring

theorem Mappable.bytes_eq (ok : Mappable o names) : bytes (spec o t) = 2 ^ o.width := by
  obtain ⟨m, -, -, hlevels, htx, hradix⟩ := ok.new_eq (t := t)
  have hpow : ∀ l ∈ List.range 6, o.bound l = 2 ^ Nat.log2 (o.bound l) := fun l hl => by
    obtain ⟨w, -, hw, -⟩ := ok.bound_eq (List.mem_range.mp hl)
    rw [hw, Nat.log2_two_pow]
  rw [← ok.space_eq hlevels htx hradix, Mapping.space, hlevels, htx,
    Digits.size_congr fun l hl => hradix l (List.mem_range.mp hl), Digits.size_pow hpow,
    Organization.width, Nat.pow_add]

/-- What the prerequisites fail with. -/
theorem prereq_ne_error {e : String} (he : e ≠ "Wrong prereq triggered.") (k : ℕ) (cmd : Command)
    (f : Prereq k) (hf : prereq k cmd = some f) (d : Dram Command State k) (cmd' : Command)
    (id : UInt64) : f d cmd' id ≠ .error e := by
  have hwrong : (wrongPrereq : Result (Option Command)) ≠ .error e :=
    fun h => he (Except.error.inj h).symm
  have hpure : ∀ c : Option Command, (pure c : Result (Option Command)) ≠ .error e :=
    fun _ => pure_ne_error
  unfold prereq at hf
  split at hf <;> cases hf
  · unfold accessRank
    split <;> first | exact hpure _ | exact hwrong
  · unfold accessRank
    split <;> first | exact hpure _ | exact hwrong
  · unfold accessBank
    split <;> first | exact hpure _ | exact hwrong | (split <;> exact hpure _)
  · unfold accessBank
    split <;> first | exact hpure _ | exact hwrong | (split <;> exact hpure _)
  · exact hpure _
  · unfold powerDownRank
    split <;> first | exact hpure _ | exact hwrong
  · unfold selfRefreshRank
    split <;> first | exact hpure _ | exact hwrong

theorem Within.inRange (h : Within o x) : InRange (spec o t) 3 0 x := by
  intro l _ hl
  have hlt := h.2 l (by omega)
  rwa [Organization.bound, if_neg (by omega)] at hlt

/-- A refresh of one of the ranks is for a place in the tree. -/
theorem refreshRequest_inRange {κ : Type} {channelId rankId : ℕ} (hrank : rankId < o.rank)
    (hgroup : 0 < o.bankGroup) (hbank : 0 < o.bank) :
    InRange (spec o t) 3 0 (refreshRequest (κ := κ) (spec o t) channelId rankId).mappedAddr := by
  intro l hl hl'
  obtain rfl | rfl | rfl : l = 1 ∨ l = 2 ∨ l = 3 := by omega
  · change (UInt64.ofNat rankId).toNat < o.rank
    rw [UInt64.toNat_ofNat']
    exact (Nat.mod_le _ _).trans_lt hrank
  · exact hgroup
  · exact hbank

/-- A mapping is made where no count is zero. -/
theorem Mapping.new_count {m : Mapping} (hnew : Mapping.new (spec o t) names = .ok m) :
    (∀ l < 6, 0 < o.count l) ∧ ∀ l < 5, m.addrBitWidth l = UInt64.ofNat (Nat.log2 (o.count l)) := by
  unfold Mapping.new at hnew
  dsimp only at hnew
  split at hnew
  · simp only [throw_ne_ok] at hnew
  split at hnew
  · simp only [throw_ne_ok] at hnew
  rename_i hcounts
  split at hnew
  · simp only [throw_ne_ok] at hnew
  obtain rfl := pure_eq_ok.mp hnew
  refine ⟨fun l hl => Nat.pos_of_ne_zero fun hzero => hcounts ?_, fun l hl => ?_⟩
  · exact List.any_eq_true.mpr ⟨l, List.mem_range.mpr hl, decide_eq_true hzero⟩
  · have hlast : ¬ l = (spec o t).totalLevels - 1 := by
      change ¬ l = 5
      omega
    exact if_neg hlast

/-- **What an address is mapped to is in the tree**, whatever the levels
are called and however many there are below a node: a coordinate has no
more bits than its count. -/
theorem Mapping.map_inRange {m : Mapping} {a : Addr} (hnew : Mapping.new (spec o t) names = .ok m)
    (hmap : m.map a = .ok x) : InRange (spec o t) 3 0 x := by
  obtain ⟨hpos, hwidth⟩ := Mapping.new_count hnew
  rw [Mapping.map_eq, bind_eq_ok] at hmap
  obtain ⟨p, hfold, hp⟩ := hmap
  obtain rfl := pure_eq_ok.mp hp
  refine foldlM_keeps (P := fun p => InRange (spec o t) 3 0 p.1) ?_ ?_ hfold
  · rintro ⟨y, rest⟩ level q hin hstep l hl hl'
    by_cases hlt : (m.addrBitWidth level).toNat < 32
    · obtain ⟨digit, rest', heq, hdigit, -⟩ := @Mapping.takeOff_eq m level y rest hlt
      obtain rfl := Except.ok.inj (heq.symm.trans hstep)
      rcases @coord_set y level l digit with hsame | ⟨rfl, hset⟩
      · exact hsame ▸ hin l hl hl'
      · -- the digit has as many bits as the logarithm of the count
        have hbits : (m.addrBitWidth level).toNat ≤ Nat.log2 (o.count level) := by
          rw [hwidth level (by omega), UInt64.toNat_ofNat']
          exact Nat.mod_le _ _
        have hcount : 2 ^ Nat.log2 (o.count level) ≤ o.count level :=
          Nat.log2_self_le (hpos level (by omega)).ne'
        change (coord (y.set level digit) level).toNat < o.count level
        rw [hset, hdigit, Mapping.radix]
        calc rest.toNat % 2 ^ (m.addrBitWidth level).toNat
            < 2 ^ (m.addrBitWidth level).toNat := Nat.mod_lt _ (Nat.two_pow_pos _)
          _ ≤ 2 ^ Nat.log2 (o.count level) := Nat.pow_le_pow_right (by decide) hbits
          _ ≤ o.count level := hcount
    · unfold Mapping.takeOff at hstep
      rw [if_pos (by rw [UInt64.le_iff_toNat_le]; exact Nat.not_lt.mp hlt)] at hstep
      simp only [bind_eq_ok, throw_ne_ok, false_and, exists_false] at hstep
  · intro l hl hl'
    have hzero : coord (List.replicate m.totalLevels 0) l = 0 := by
      rw [coord, List.getD_eq_getElem?_getD, List.getElem?_replicate]
      split <;> rfl
    change (coord (List.replicate m.totalLevels 0) l).toNat < o.count l
    rw [hzero]
    exact hpos l (by omega)

/-- **The tree the counts build is never left**: whatever commands were
issued within it, a command is decoded, checked and recorded without
looking for a child that is not there. -/
theorem updates_inRange {is : List (Issued Command)}
    (hin : ∀ i ∈ is, InRange (spec o t) 3 0 i.addr) :
    ∃ d, (updates (spec o t) 3).run (Dram.new (spec o t) 3 0 0) is = .ok d ∧
      ∀ cmd x clk, InRange (spec o t) 3 0 x →
        decode (spec o t) cmd x 3 0 d ≠ .error "undefined behaviour: children index out of range" ∧
        (∃ b, check (spec o t) cmd x clk 3 0 d = .ok b) ∧
        ∃ d', updateState (spec o t) cmd x 3 0 d = .ok d' := by
  obtain ⟨d, hd, sized⟩ := (updates (spec o t) 3).run_yields
    (C := fun _ i => InRange (spec o t) 3 0 i.addr) (P := Sized (spec o t) 3 0)
    (fun d i sized hi => by
      obtain ⟨d', hd', sized'⟩ : ∃ d', updateState (spec o t) i.cmd i.addr 3 0 d = .ok d' ∧ _ :=
        sized.updateState hi
      exact ⟨_, by simp only [updates, update, hd', ok_bind]; rfl, sized'.updateTiming⟩)
    Sized.new (Machine.meets_of_forall_mem hin)
  refine ⟨d, hd, fun cmd x clk hx => ⟨?_, sized.check hx, ?_⟩⟩
  · exact sized.decode (prereq_ne_error (by decide)) hx
  · obtain ⟨d', hd', -⟩ : ∃ d', updateState (spec o t) cmd x 3 0 d = .ok d' ∧ _ :=
      sized.updateState hx
    exact ⟨d', hd'⟩

/-- **The mapping is a bijection on transactions.** For every order of
the levels and all counts that are powers of two, where an address has
room for the widths: the addresses of the memory have coordinates within
their bounds, the same ones exactly where they lie in one transaction,
and every choice of coordinates is some address's; no coordinate leads
out of the tree, whatever was issued in it. The number of addresses is
the constructor's maximum, unless the widths take up all of a word. -/
theorem map_bijective (ok : Mappable o names) (hwidth : o.width ≤ 64) :
    ∃ m, Mapping.new (spec o t) names = .ok m ∧
      (∀ a, ∃ x, m.map a = .ok x ∧ Within o x ∧ InRange (spec o t) 3 0 x) ∧
      (∀ a b : Addr, a.toNat < bytes (spec o t) → b.toNat < bytes (spec o t) →
        (m.map a = m.map b ↔ a / 64 = b / 64)) ∧
      (∀ x, Within o x → ∃ a : Addr, a.toNat < bytes (spec o t) ∧ m.map a = .ok x) ∧
      (o.width < 64 → (maxAddr (spec o t)).toNat = bytes (spec o t)) ∧
      ∀ is : List (Issued Command), (∀ i ∈ is, InRange (spec o t) 3 0 i.addr) →
        ∃ d, (updates (spec o t) 3).run (Dram.new (spec o t) 3 0 0) is = .ok d ∧
          ∀ cmd x clk, InRange (spec o t) 3 0 x →
            decode (spec o t) cmd x 3 0 d ≠
              .error "undefined behaviour: children index out of range" ∧
            (∃ b, check (spec o t) cmd x clk 3 0 d = .ok b) ∧
            ∃ d', updateState (spec o t) cmd x 3 0 d = .ok d' := by
  obtain ⟨m, hnew, proper, hlevels, htx, hradix⟩ := ok.new_eq (t := t)
  have hspace : m.space = bytes (spec o t) := ok.space_eq hlevels htx hradix
  have hbytes : bytes (spec o t) = 2 ^ o.width := ok.bytes_eq
  refine ⟨m, hnew, fun a => ?_, fun a b ha hb => ?_, fun x hx => ?_, fun hlt => ?_,
    fun is hin => updates_inRange hin⟩
  · obtain ⟨x, hx, -⟩ := proper.map_digits a
    obtain ⟨hlen, hbound⟩ := proper.coord_lt hx
    have hwithin : Within o x :=
      ⟨hlen.trans hlevels, fun l hl => hradix l hl ▸ hbound l (hlevels ▸ hl)⟩
    exact ⟨x, hx, hwithin, hwithin.inRange⟩
  · rw [proper.map_eq_iff (hspace ▸ ha) (hspace ▸ hb), htx, ← UInt64.toNat_inj, UInt64.toNat_div,
      UInt64.toNat_div]
    rfl
  · rw [← hspace]
    refine proper.exists_map_eq (hspace ▸ hbytes ▸ Nat.pow_le_pow_right (by decide) hwidth)
      (hx.1.trans hlevels.symm) fun l hl => ?_
    have hl6 : l < 6 := hlevels ▸ hl
    exact hradix l hl6 ▸ hx.2 l hl6
  · rw [maxAddr_toNat (by simp [spec]), hbytes,
      Nat.mod_eq_of_lt (Nat.pow_lt_pow_right (by decide) hlt)]

/-- The configuration that comes with the simulator, of eight channels. -/
theorem map_bijective_vans :
    ∃ m, Mapping.new (spec (vansOrganization 8) vansTiming) vansConfig.mediaMappingFunc = .ok m ∧
      ∀ a b : Addr, a.toNat < bytes (spec (vansOrganization 8) vansTiming) →
        b.toNat < bytes (spec (vansOrganization 8) vansTiming) →
        (m.map a = m.map b ↔ a / 64 = b / 64) := by
  have ok : Mappable (vansOrganization 8) vansConfig.mediaMappingFunc :=
    ⟨by decide, by decide +kernel, by decide⟩
  obtain ⟨m, hnew, -, hinj, -⟩ := map_bijective (t := vansTiming) ok (by decide +kernel)
  exact ⟨m, hnew, hinj⟩

/-- Counts whose widths take up all of a word. -/
def wideOrganization : Organization where
  channel := 1
  rank := 1
  bankGroup := 4
  bank := 4
  row := 2 ^ 31
  col := 2 ^ 26

/-- **There the constructor's maximum is zero**: no address is below it,
and none of those has the first coordinates. -/
theorem wide_maxAddr_zero : Mappable wideOrganization vansConfig.mediaMappingFunc ∧
    wideOrganization.width = 64 ∧ Within wideOrganization (List.replicate 6 0) ∧
    maxAddr (spec wideOrganization vansTiming) = 0 ∧
    ∃ m, Mapping.new (spec wideOrganization vansTiming) vansConfig.mediaMappingFunc = .ok m ∧
      ¬ ∃ a, a < maxAddr (spec wideOrganization vansTiming) ∧ m.map a = .ok (List.replicate 6 0) := by
  have ok : Mappable wideOrganization vansConfig.mediaMappingFunc :=
    ⟨by decide, by decide +kernel, by decide +kernel⟩
  have hmax : maxAddr (spec wideOrganization vansTiming) = 0 := by decide +kernel
  obtain ⟨m, hnew, -⟩ := ok.new_eq (t := vansTiming)
  refine ⟨ok, by decide +kernel, ⟨rfl, by decide +kernel⟩, hmax, m, hnew, ?_⟩
  rintro ⟨a, ha, -⟩
  rw [hmax, UInt64.lt_iff_toNat_lt] at ha
  exact Nat.not_lt_zero _ ha

end Ddr4

end Dram

end Vans
