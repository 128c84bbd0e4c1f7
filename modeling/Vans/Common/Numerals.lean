import Mathlib.Data.List.Induction
import Mathlib.Tactic.Ring
/-!
# Numerals in a text

What a numeral of a base is worth, and how one is found at the start of
a text: white space is passed over, a sign is taken, in base sixteen a
leading `0x` is dropped, and the digits are taken for as long as they
last. A number written out in digits reads back as itself, padded or
not.
-/

namespace Vans

namespace Numerals

/-- What the character is worth as a digit, of whatever base. -/
def digitOf (c : Char) : Option ℕ :=
  if '0' ≤ c ∧ c ≤ '9' then some (c.toNat - '0'.toNat)
  else if 'a' ≤ c ∧ c ≤ 'z' then some (c.toNat - 'a'.toNat + 10)
  else if 'A' ≤ c ∧ c ≤ 'Z' then some (c.toNat - 'A'.toNat + 10)
  else none

/-- The character is a digit of the base. -/
def isDigit (b : ℕ) (c : Char) : Bool := (digitOf c).any (· < b)

/-- What the digits are worth, the highest first. -/
def value (b : ℕ) (ds : List Char) : ℕ := ds.foldl (fun n c => b * n + (digitOf c).getD 0) 0

def isSpace (c : Char) : Bool := c = ' ' || (9 ≤ c.toNat && c.toNat ≤ 13)

/-- A numeral found: its sign, what its digits are worth, and how far
into the text it reaches. -/
structure Numeral where
  negative : Bool
  magnitude : ℕ
  length : ℕ
  deriving DecidableEq, Repr

/-- The sign, where there is one. -/
def takeSign : List Char → Bool × List Char
  | '-' :: cs => (true, cs)
  | '+' :: cs => (false, cs)
  | cs => (false, cs)

/-- In base sixteen a `0x` before a digit is dropped. -/
def dropPrefix (b : ℕ) : List Char → List Char
  | '0' :: x :: d :: cs =>
    if b = 16 ∧ (x = 'x' ∨ x = 'X') ∧ isDigit 16 d then d :: cs else '0' :: x :: d :: cs
  | cs => cs

/-- The numeral at the start of the text, if there is one. -/
def scan (b : ℕ) (s : List Char) : Option Numeral :=
  let (negative, unsigned) := takeSign (s.dropWhile isSpace)
  let body := dropPrefix b unsigned
  let ds := body.takeWhile (isDigit b)
  if ds = [] then none
  else some ⟨negative, value b ds, s.length - body.length + ds.length⟩

/-! ## Worth -/

section Worth

variable {b n k : ℕ} {c : Char} {ds es : List Char}

theorem foldl_value {n : ℕ} : ds.foldl (fun n c => b * n + (digitOf c).getD 0) n =
    b ^ ds.length * n + value b ds := by
  induction ds generalizing n with
  | nil => simp [value]
  | cons c ds ih =>
      have hvalue : value b (c :: ds) = b ^ ds.length * (b * 0 + (digitOf c).getD 0) + value b ds := by
        rw [value, List.foldl_cons, ih]
      rw [List.foldl_cons, ih, hvalue, List.length_cons, pow_succ]
      ring

theorem value_append : value b (ds ++ es) = b ^ es.length * value b ds + value b es := by
  rw [value, List.foldl_append, foldl_value, ← value]

theorem value_concat : value b (ds ++ [c]) = b * value b ds + (digitOf c).getD 0 := by
  rw [value, List.foldl_append]
  rfl

/-- Zeros in front add nothing. -/
@[simp] theorem value_padded : value b (List.replicate k '0' ++ ds) = value b ds := by
  have hzeros : value b (List.replicate k '0') = 0 := by
    induction k with
    | zero => rfl
    | succ k ih =>
        rw [List.replicate_succ', value_concat, ih]
        rfl
  rw [value_append, hzeros, Nat.mul_zero, Nat.zero_add]

theorem digitOf_digitChar (hn : n < 16) : digitOf (Nat.digitChar n) = some n := by
  revert n
  decide

/-- **What a number is written as is worth the number.** -/
theorem value_toDigits (hb : 1 < b) (hb' : b ≤ 16) : value b (Nat.toDigits b n) = n := by
  induction n using Nat.strong_induction_on with
  | h n ih =>
      by_cases hn : n < b
      · rw [Nat.toDigits_of_lt_base hn]
        simp [value, digitOf_digitChar (Nat.lt_of_lt_of_le hn hb')]
      · have hle : b ≤ n := Nat.le_of_not_lt hn
        have hmod : n % b < 16 := Nat.lt_of_lt_of_le (Nat.mod_lt n (by omega)) hb'
        rw [Nat.toDigits_of_base_le hb hle, value_concat,
          ih _ (Nat.div_lt_self (by omega) hb), digitOf_digitChar hmod]
        exact Nat.div_add_mod n b

theorem isDigit_digitChar (hn : n < b) (hb : b ≤ 16) : isDigit b (Nat.digitChar n) = true := by
  rw [isDigit, digitOf_digitChar (Nat.lt_of_lt_of_le hn hb)]
  exact decide_eq_true hn

/-- A number is written in digits of the base. -/
theorem isDigit_of_mem_toDigits (hb : 1 < b) (hb' : b ≤ 16) :
    ∀ c ∈ Nat.toDigits b n, isDigit b c = true := by
  induction n using Nat.strong_induction_on with
  | h n ih =>
      by_cases hn : n < b
      · rw [Nat.toDigits_of_lt_base hn]
        simpa using isDigit_digitChar hn hb'
      · have hmod : n % b < b := Nat.mod_lt n (by omega)
        rw [Nat.toDigits_of_base_le hb (Nat.le_of_not_lt hn)]
        intro c hc
        rcases List.mem_append.mp hc with hc | hc
        · exact ih _ (Nat.div_lt_self (by omega) hb) c hc
        · rw [List.mem_singleton.mp hc]
          exact isDigit_digitChar hmod hb'

theorem toDigits_ne_nil (hb : 1 < b) : Nat.toDigits b n ≠ [] := by
  by_cases hn : n < b
  · simp [Nat.toDigits_of_lt_base hn]
  · simp [Nat.toDigits_of_base_le hb (Nat.le_of_not_lt hn)]

/-- **A numeral is worth no less in a larger base**, and from the smaller
base on it is worth more. -/
theorem value_mono {b' : ℕ} (hpos : 0 < b) (hb : b < b') (hds : ∀ c ∈ ds, isDigit b c = true) :
    value b ds ≤ value b' ds ∧ (b ≤ value b ds → value b ds < value b' ds) := by
  induction ds using List.reverseRecOn with
  | nil => simp [value, hpos.ne']
  | append_singleton ds c ih =>
      obtain ⟨hle, hlt⟩ := ih fun c' hc' => hds c' (List.mem_append_left _ hc')
      rw [value_concat, value_concat]
      have hmul : b * value b ds ≤ b' * value b' ds := Nat.mul_le_mul hb.le hle
      refine ⟨by omega, fun hge => ?_⟩
      by_cases hzero : value b ds = 0
      · -- one digit is worth less than the base
        have hc : isDigit b c = true := hds c (List.mem_append_right _ (List.mem_singleton_self c))
        cases hd : digitOf c with
        | none => simp [isDigit, hd] at hc
        | some d =>
            simp only [isDigit, hd, Option.any_some, decide_eq_true_eq] at hc
            simp only [hzero, hd, Option.getD_some] at hge
            omega
      · have hstrict : b * value b ds < b' * value b' ds :=
          Nat.mul_lt_mul_of_lt_of_le hb hle (by omega)
        omega

/-- A part of the digits is worth no more than all of them. -/
theorem value_le_append (hb : 0 < b) : value b ds ≤ value b (ds ++ es) := by
  have hpow : 0 < b ^ es.length := Nat.pow_pos hb
  rw [value_append]
  exact Nat.le_trans (Nat.le_mul_of_pos_left _ hpow) (Nat.le_add_right _ _)

end Worth

/-! ## Finding a numeral -/

section Scan

variable {b : ℕ} {c x : Char} {s ds rest : List Char}

theorem digitOf_of_isDigit (h : isDigit b c = true) : ∃ d, digitOf c = some d ∧ d < b := by
  cases hd : digitOf c with
  | none => simp [isDigit, hd] at h
  | some d => exact ⟨d, rfl, by simpa [isDigit, hd] using h⟩

theorem isDigit_ne (h : isDigit b c = true) (hx : digitOf x = none) : c ≠ x := by
  rintro rfl
  obtain ⟨d, hd, -⟩ := digitOf_of_isDigit h
  rw [hx] at hd
  cases hd

/-- No digit is white space. -/
theorem isSpace_of_isDigit (h : isDigit b c = true) : isSpace c = false := by
  obtain ⟨d, hd, -⟩ := digitOf_of_isDigit h
  have hlow : 48 ≤ c.toNat := by
    unfold digitOf at hd
    split at hd
    · next hc => exact hc.1
    · split at hd
      · next hc => exact Nat.le_trans (by decide) hc.1
      · split at hd
        · next hc => exact Nat.le_trans (by decide) hc.1
        · cases hd
  have hspace : c ≠ ' ' := by
    rintro rfl
    exact absurd hlow (by decide)
  simp only [isSpace, hspace, decide_false, Bool.false_or, Bool.and_eq_false_iff,
    decide_eq_false_iff_not]
  omega

/-- No hexadecimal digit is the letter of a prefix. -/
theorem ne_prefix_of_isDigit (h : isDigit 16 c = true) : ¬ (c = 'x' ∨ c = 'X') := by
  rintro (rfl | rfl) <;> exact absurd h (by decide)

theorem takeSign_of_isDigit (h : isDigit b c = true) : takeSign (c :: s) = (false, c :: s) := by
  have hminus : c ≠ '-' := isDigit_ne h (by decide)
  have hplus : c ≠ '+' := isDigit_ne h (by decide)
  unfold takeSign
  split
  · next heq => exact absurd (List.cons.inj heq).1 hminus
  · next heq => exact absurd (List.cons.inj heq).1 hplus
  · rfl

/-- The digits of a text that starts with them. -/
theorem takeWhile_digits (hds : ∀ c ∈ ds, isDigit b c = true)
    (hrest : ∀ c ∈ rest.head?, isDigit b c = false) :
    (ds ++ rest).takeWhile (isDigit b) = ds := by
  rw [List.takeWhile_append_of_pos hds]
  cases rest with
  | nil => simp
  | cons c rest => simp [hrest c rfl]

theorem dropPrefix_digits (hds : ∀ c ∈ ds, isDigit b c = true) (hne : ds ≠ [])
    (hrest : b = 16 → ∀ c ∈ rest.head?, ¬ (c = 'x' ∨ c = 'X')) :
    dropPrefix b (ds ++ rest) = ds ++ rest := by
  unfold dropPrefix
  split
  · next x d cs heq =>
      rw [heq]
      refine if_neg ?_
      rintro ⟨rfl, hx, -⟩
      cases ds with
      | nil => exact hne rfl
      | cons c ds =>
          cases ds with
          | nil =>
              obtain rfl : rest = x :: d :: cs := (List.cons.inj heq).2
              exact hrest rfl x rfl hx
          | cons c' ds =>
              obtain ⟨rfl, -⟩ := List.cons.inj (List.cons.inj heq).2
              exact ne_prefix_of_isDigit (hds _ (by simp)) hx
  · rfl

/-- **The digits in front are the numeral**, where what follows does not
go on with it. -/
theorem scan_digits (hds : ∀ c ∈ ds, isDigit b c = true) (hne : ds ≠ [])
    (hrest : ∀ c ∈ rest.head?, isDigit b c = false)
    (hnox : b = 16 → ∀ c ∈ rest.head?, ¬ (c = 'x' ∨ c = 'X')) :
    scan b (ds ++ rest) = some ⟨false, value b ds, ds.length⟩ := by
  obtain ⟨c, cs, rfl⟩ := List.exists_cons_of_ne_nil hne
  have hc := hds c List.mem_cons_self
  have hspace : (c :: (cs ++ rest)).dropWhile isSpace = c :: (cs ++ rest) := by
    simp [isSpace_of_isDigit hc]
  have hbody := dropPrefix_digits hds hne hnox
  have htake := takeWhile_digits hds hrest
  rw [List.cons_append] at hbody htake
  simp only [List.cons_append, scan, hspace, takeSign_of_isDigit hc, hbody, htake,
    List.cons_ne_nil, if_false, Nat.sub_self, Nat.zero_add]

/-- **A prefixed numeral** of base sixteen. -/
theorem scan_prefixed (hx : x = 'x' ∨ x = 'X') (hds : ∀ c ∈ ds, isDigit 16 c = true) (hne : ds ≠ [])
    (hrest : ∀ c ∈ rest.head?, isDigit 16 c = false) :
    scan 16 ('0' :: x :: (ds ++ rest)) = some ⟨false, value 16 ds, ds.length + 2⟩ := by
  obtain ⟨c, cs, rfl⟩ := List.exists_cons_of_ne_nil hne
  have hspace : ('0' :: x :: ((c :: cs) ++ rest)).dropWhile isSpace =
      '0' :: x :: c :: (cs ++ rest) := by
    simp [show isSpace '0' = false by decide]
  have hsign : takeSign ('0' :: x :: c :: (cs ++ rest)) = (false, '0' :: x :: c :: (cs ++ rest)) :=
    rfl
  have hbody : dropPrefix 16 ('0' :: x :: c :: (cs ++ rest)) = c :: (cs ++ rest) := by
    rw [dropPrefix, if_pos ⟨rfl, hx, hds c List.mem_cons_self⟩]
  have htake := takeWhile_digits hds hrest
  rw [List.cons_append] at htake
  simp only [scan, hspace, hsign, hbody, htake, List.cons_ne_nil, if_false, List.length_cons,
    List.length_append, Option.some.injEq, Numeral.mk.injEq, true_and]
  omega

/-- No numeral starts with what is not a digit, a sign or white space. -/
theorem scan_none (hspace : isSpace c = false) (hsign : c ≠ '-' ∧ c ≠ '+')
    (hzero : c ≠ '0') (hc : isDigit b c = false) : scan b (c :: s) = none := by
  have htake : takeSign (c :: s) = (false, c :: s) := by
    unfold takeSign
    split
    · next heq => exact absurd (List.cons.inj heq).1 hsign.1
    · next heq => exact absurd (List.cons.inj heq).1 hsign.2
    · rfl
  have hbody : dropPrefix b (c :: s) = c :: s := by
    unfold dropPrefix
    split
    · next heq => exact absurd (List.cons.inj heq).1 hzero
    · rfl
  simp [scan, hspace, htake, hbody, hc]

end Scan

/-! ## The conversions of the standard library

They throw where there is no numeral, and where its number does not fit
the type. -/

/-- `std::stoul`: a 64-bit word, and how far into the text it reaches. A
negative numeral wraps around. -/
def stoul (b : ℕ) (s : List Char) : Except String (UInt64 × ℕ) :=
  match scan b s with
  | none => .error "std::invalid_argument: stoul"
  | some num =>
    if 2 ^ 64 ≤ num.magnitude then .error "std::out_of_range: stoul"
    else
      let n := UInt64.ofNat num.magnitude
      .ok (if num.negative then -n else n, num.length)

/-- `std::stoi`: a 32-bit signed number. -/
def stoi (s : List Char) : Except String ℤ :=
  match scan 10 s with
  | none => .error "std::invalid_argument: stoi"
  | some num =>
    let n : ℤ := if num.negative then -(num.magnitude : ℤ) else num.magnitude
    if n < -2 ^ 31 ∨ 2 ^ 31 ≤ n then .error "std::out_of_range: stoi" else .ok n

section Conversions

variable {b n k m : ℕ} {s : List Char} {w : UInt64}

theorem stoul_eq_ok (h : scan b s = some ⟨false, n, k⟩) (hn : n < 2 ^ 64) :
    stoul b s = .ok (UInt64.ofNat n, k) := by
  simp only [stoul, h, if_neg (Nat.not_le.mpr hn)]
  rfl

/-- A word that was read is the numeral's number. -/
theorem toNat_of_stoul (h : scan b s = some ⟨false, n, k⟩) (hw : stoul b s = .ok (w, m)) :
    w.toNat = n := by
  simp only [stoul, h] at hw
  split at hw
  · cases hw
  · next hn =>
      obtain ⟨rfl, -⟩ := Prod.mk.inj (Except.ok.inj hw)
      exact UInt64.toNat_ofNat_of_lt' (Nat.lt_of_not_le hn)

end Conversions

end Numerals

end Vans
