import Vans.Model.Component
/-!
# The mappings a controller picks a child with

What the two mappings do to an address, read as a number: its page is
divided among the components, its offset in the page is kept. Applying
a mapping to an address it has already mapped divides the page again.
-/

namespace Vans

namespace ComponentMapping

/-- The address inside the component. -/
def localAddr (f : ComponentMapping) (total : ℕ) (a : Addr) : Addr := (f a total).1

/-- The component. -/
def target (f : ComponentMapping) (total : ℕ) (a : Addr) : ℕ := (f a total).2

/-- The addresses a mapping leaves alone: all of them, where it does not
split pages or there is one component to split them over, and those of
the first page. -/
def Settled (f : ComponentMapping) (total : ℕ) (a : Addr) : Prop :=
  f = noneMapping ∨ total = 1 ∨ a < 4096

variable {f : ComponentMapping} {total : ℕ} {a : Addr}

@[simp] theorem localAddr_none : localAddr noneMapping total a = a := rfl

@[simp] theorem target_none : target noneMapping total a = 0 := rfl

private theorem page_toNat : (a >>> 12).toNat = a.toNat / 4096 :=
  Word.toNat_shr (s := 12) (by decide)

/-- **The page is divided, and the offset kept.** -/
theorem localAddr_stride_toNat :
    (localAddr strideMapping4096 total a).toNat = a.toNat / 4096 / total * 4096 + a.toNat % 4096 := by
  have hlt : a.toNat < 2 ^ 64 := a.toNat_lt
  have hpage : a.toNat / 4096 / total ≤ a.toNat / 4096 := Nat.div_le_self _ _
  have hoff : (a &&& 0xfff).toNat = a.toNat % 2 ^ 12 := Word.toNat_and_mask (n := 12) rfl
  have hof : (UInt64.ofNat (a.toNat / 4096 / total)).toNat = a.toNat / 4096 / total :=
    UInt64.toNat_ofNat_of_lt' (by change _ < 2 ^ 64; omega)
  have hshl : (UInt64.ofNat (a.toNat / 4096 / total) <<< 12).toNat =
      a.toNat / 4096 / total * 2 ^ 12 := by
    rw [Word.toNat_shl (s := 12) (by decide) (by rw [hof]; change _ * 2 ^ 12 < _; omega), hof]
    rfl
  simp only [localAddr, strideMapping4096, page_toNat]
  rw [Word.toNat_or_of_lt (n := 12) hshl (by rw [hoff]; omega), hshl, hoff]
  rfl

theorem target_stride : target strideMapping4096 total a = a.toNat / 4096 % total := by
  simp only [target, strideMapping4096, page_toNat]

/-- Mapping an address over and over divides the page over and over. -/
theorem iterate_stride_toNat {n : ℕ} : ((localAddr strideMapping4096 total)^[n] a).toNat =
    a.toNat / 4096 / total ^ n * 4096 + a.toNat % 4096 := by
  induction n with
  | zero => simp only [Function.iterate_zero, id_eq, pow_zero, Nat.div_one]; omega
  | succ n ih =>
      rw [Function.iterate_succ_apply', localAddr_stride_toNat, ih, Nat.pow_succ, ← Nat.div_div_eq_div_mul]
      have hpage : (a.toNat / 4096 / total ^ n * 4096 + a.toNat % 4096) / 4096 =
          a.toNat / 4096 / total ^ n := by omega
      have hoff : (a.toNat / 4096 / total ^ n * 4096 + a.toNat % 4096) % 4096 = a.toNat % 4096 := by
        omega
      rw [hpage, hoff]

/-- **A mapping leaves alone exactly the settled addresses.** -/
theorem localAddr_eq_self_iff (hf : f = noneMapping ∨ f = strideMapping4096) :
    localAddr f total a = a ↔ Settled f total a := by
  constructor
  · intro h
    rcases hf with rfl | rfl
    · exact .inl rfl
    · have hnat := congrArg UInt64.toNat h
      rw [localAddr_stride_toNat] at hnat
      have hpage : a.toNat / 4096 / total = a.toNat / 4096 := by omega
      rcases Nat.div_eq_self.mp hpage with hzero | hone
      · exact .inr (.inr (UInt64.lt_iff_toNat_lt.mpr (by change a.toNat < 4096; omega)))
      · exact .inr (.inl hone)
  · intro hset
    rcases hf with rfl | rfl
    · rfl
    · have hnat : a.toNat / 4096 / total = a.toNat / 4096 := by
        rcases hset with hnone | rfl | hlt
        · have hloc : localAddr strideMapping4096 total a = a := by rw [hnone]; rfl
          have := congrArg UInt64.toNat hloc
          rw [localAddr_stride_toNat] at this
          omega
        · exact Nat.div_one _
        · have hlt' : a.toNat < 4096 := UInt64.lt_iff_toNat_lt.mp hlt
          rw [Nat.div_eq_of_lt hlt', Nat.zero_div]
      apply UInt64.toNat_inj.mp
      rw [localAddr_stride_toNat, hnat]
      omega

/-- **Mapping again goes astray**: after `n` rounds an unsettled address
is mapped as it should have been only if `n` is zero. -/
theorem iterate_eq_iff (hf : f = noneMapping ∨ f = strideMapping4096) (hpos : 0 < total) {n : ℕ} :
    f ((localAddr f total)^[n] a) total = f a total ↔ n = 0 ∨ Settled f total a := by
  constructor
  · intro h
    by_contra hno
    simp only [Settled, not_or] at hno
    obtain ⟨hn, hnone, hone, hpage⟩ := hno
    obtain rfl : f = strideMapping4096 := hf.resolve_left hnone
    have hpage' : 4096 ≤ a.toNat :=
      Nat.le_of_not_lt fun hlt => hpage (UInt64.lt_iff_toNat_lt.mpr hlt)
    have hpow : total ≤ total ^ n := Nat.le_self_pow hn total
    have hlocal : a.toNat / 4096 / total ^ (n + 1) = a.toNat / 4096 / total := by
      have hnat : (localAddr strideMapping4096 total
          ((localAddr strideMapping4096 total)^[n] a)).toNat =
            (localAddr strideMapping4096 total a).toNat := congrArg (fun p => p.1.toNat) h
      rw [← Function.iterate_succ_apply' (localAddr strideMapping4096 total),
        iterate_stride_toNat (n := n + 1), localAddr_stride_toNat] at hnat
      omega
    have htarget : a.toNat / 4096 / total ^ n % total = a.toNat / 4096 % total := by
      have hsnd : target strideMapping4096 total ((localAddr strideMapping4096 total)^[n] a) =
          target strideMapping4096 total a := congrArg Prod.snd h
      rw [target_stride, target_stride, iterate_stride_toNat] at hsnd
      have hdiv : (a.toNat / 4096 / total ^ n * 4096 + a.toNat % 4096) / 4096 =
          a.toNat / 4096 / total ^ n := by omega
      rwa [hdiv] at hsnd
    rcases Nat.lt_or_ge (a.toNat / 4096) total with hlt | hge
    · -- the page is below the number of components, and is not zero
      rw [Nat.div_eq_of_lt (by omega), Nat.zero_mod, Nat.mod_eq_of_lt hlt] at htarget
      omega
    · rw [Nat.pow_succ', ← Nat.div_div_eq_div_mul] at hlocal
      rcases Nat.div_eq_self.mp hlocal with hzero | hpowone
      · have := Nat.div_pos hge hpos
        omega
      · omega
  · rintro (rfl | hset)
    · rfl
    · rw [Function.iterate_fixed ((localAddr_eq_self_iff hf).mpr hset)]

/-! ## Pages and components -/

section Pages

theorem low_toNat : (a &&& 0xfff).toNat = a.toNat % 4096 :=
  Word.toNat_and_mask (n := 12) rfl

/-- An address is its page and its offset. -/
theorem page_or_offset : ((a >>> 12) <<< 12) ||| (a &&& 0xfff) = a := by
  have hpage : ((a >>> 12) <<< 12).toNat = a.toNat / 4096 * 2 ^ 12 :=
    Word.toNat_shr_shl (s := 12) (by decide)
  apply UInt64.toNat_inj.mp
  rw [Word.toNat_or_of_lt (n := 12) hpage (by rw [low_toNat]; omega), hpage, low_toNat]
  omega

theorem localAddr_stride_page :
    (localAddr strideMapping4096 total a).toNat / 4096 = a.toNat / 4096 / total := by
  rw [localAddr_stride_toNat]
  omega

theorem localAddr_stride_offset : localAddr strideMapping4096 total a &&& 0xfff = a &&& 0xfff := by
  apply UInt64.toNat_inj.mp
  rw [low_toNat, low_toNat, localAddr_stride_toNat]
  omega

/-- **The address is put together again** from the component and the
address inside it. -/
theorem stride_inverse : a.toNat = ((localAddr strideMapping4096 total a >>> 12).toNat * total +
    target strideMapping4096 total a) * 4096 +
      (localAddr strideMapping4096 total a &&& 0xfff).toNat := by
  rw [page_toNat, localAddr_stride_page, target_stride, localAddr_stride_offset, low_toNat,
    Nat.div_add_mod']
  omega

/-- The same, as the words compute it. -/
theorem stride_inverse_word : a =
    (((localAddr strideMapping4096 total a >>> 12) * UInt64.ofNat total +
      UInt64.ofNat (target strideMapping4096 total a)) <<< 12) |||
        (localAddr strideMapping4096 total a &&& 0xfff) := by
  have hpage : localAddr strideMapping4096 total a >>> 12 = UInt64.ofNat (a.toNat / 4096 / total) := by
    rw [← localAddr_stride_page, ← page_toNat, UInt64.ofNat_toNat]
  have hwhole : (localAddr strideMapping4096 total a >>> 12) * UInt64.ofNat total +
      UInt64.ofNat (target strideMapping4096 total a) = a >>> 12 := by
    rw [hpage, target_stride, ← UInt64.ofNat_mul, ← UInt64.ofNat_add, Nat.div_add_mod', ← page_toNat,
      UInt64.ofNat_toNat]
  rw [hwhole, localAddr_stride_offset, page_or_offset]

/-- **Each page of a component is one page of the addresses.** -/
theorem page_eq_iff (hpos : 0 < total) {id p : ℕ} (hid : id < total) :
    (target strideMapping4096 total a = id ∧
      (localAddr strideMapping4096 total a).toNat / 4096 = p) ↔
        a.toNat / 4096 = p * total + id := by
  rw [target_stride, localAddr_stride_page]
  constructor
  · rintro ⟨rfl, rfl⟩
    exact (Nat.div_add_mod' _ _).symm
  · intro h
    rw [h, Nat.mul_add_mod_of_lt hid, Nat.add_comm, Nat.add_mul_div_right _ _ hpos,
      Nat.div_eq_of_lt hid, Nat.zero_add]
    exact ⟨rfl, rfl⟩

/-- **Interleaving in pages is a bijection.** For every number of
components and every address: the component is one of them, the offset
in the page is kept, and the address is put together from the two
without overflow; so different addresses go to different places, and
each page a component may be given is given to it by one page of the
addresses. -/
theorem stride_bijective (hpos : 0 < total) :
    (∀ a : Addr, target strideMapping4096 total a < total ∧
      localAddr strideMapping4096 total a &&& 0xfff = a &&& 0xfff ∧
      a.toNat = ((localAddr strideMapping4096 total a >>> 12).toNat * total +
        target strideMapping4096 total a) * 4096 +
          (localAddr strideMapping4096 total a &&& 0xfff).toNat ∧
      a = (((localAddr strideMapping4096 total a >>> 12) * UInt64.ofNat total +
        UInt64.ofNat (target strideMapping4096 total a)) <<< 12) |||
          (localAddr strideMapping4096 total a &&& 0xfff)) ∧
    (∀ a b : Addr, strideMapping4096 a total = strideMapping4096 b total → a = b) ∧
    ∀ id < total, ∀ p, p * total + id < 2 ^ 52 →
      ∃! page, page < 2 ^ 52 ∧ ∀ a : Addr, a.toNat / 4096 = page ↔
        target strideMapping4096 total a = id ∧
          (localAddr strideMapping4096 total a).toNat / 4096 = p := by
  refine ⟨fun a => ⟨?_, localAddr_stride_offset, stride_inverse, stride_inverse_word⟩,
    fun a b h => ?_, fun id hid p hp => ?_⟩
  · rw [target_stride]
    exact Nat.mod_lt _ hpos
  · have hlocal : localAddr strideMapping4096 total a = localAddr strideMapping4096 total b :=
      congrArg Prod.fst h
    have htarget : target strideMapping4096 total a = target strideMapping4096 total b :=
      congrArg Prod.snd h
    rw [@stride_inverse_word total a, @stride_inverse_word total b, hlocal, htarget]
  · refine ⟨p * total + id, ⟨hp, fun a => (page_eq_iff hpos hid).symm⟩, ?_⟩
    rintro page ⟨hpage, hall⟩
    have hof : (UInt64.ofNat (page * 4096)).toNat = page * 4096 :=
      UInt64.toNat_ofNat_of_lt' (by change _ < 2 ^ 64; omega)
    have hfirst : (UInt64.ofNat (page * 4096)).toNat / 4096 = page := by omega
    rw [← hfirst]
    exact (page_eq_iff hpos hid).mp ((hall _).mp hfirst)

/-- Six components, as the configuration with six modules has them. -/
theorem stride_bijective_six :
    target strideMapping4096 6 0xffffffffffffffff < 6 ∧
      ∀ a b : Addr, strideMapping4096 a 6 = strideMapping4096 b 6 → a = b :=
  ⟨(@stride_bijective 6 (by decide)).1 _ |>.1, (stride_bijective (by decide)).2.1⟩

end Pages

end ComponentMapping

end Vans
