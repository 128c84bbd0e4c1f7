import Vans.Trace.Reader
/-!
# What a trace says, and what is read

A line gives an address, and may give a type, and with the type an idle
count. A line with a type is read as what it says. On a line without
one the search for the colon starts over, and finds the address again.
A file of requests and comments is read back whole if its last line
ends in a newline; if not, the last line is lost.
-/

namespace Vans

namespace Trace

open Lines Numerals

/-! ## Lines -/

/-- A 64-bit address in hexadecimal, with or without a prefix. -/
structure Address where
  pre : List Char
  digits : List Char
  pre_eq : pre = [] ∨ pre = ['0', 'x'] ∨ pre = ['0', 'X']
  ne_nil : digits ≠ []
  isHex : ∀ c ∈ digits, isDigit 16 c = true
  lt : value 16 digits < 2 ^ 64

def Address.text (a : Address) : List Char := a.pre ++ a.digits

def Address.addr (a : Address) : Addr := UInt64.ofNat (value 16 a.digits)

/-- A decimal count below `clk_invalid`. -/
structure Count where
  digits : List Char
  ne_nil : digits ≠ []
  isDecimal : ∀ c ∈ digits, isDigit 10 c = true
  lt : value 10 digits < clkInvalid.toNat

def Count.clk (n : Count) : Clk := UInt64.ofNat (value 10 n.digits)

/-- The letters a line may give. -/
inductive Letter where
  | read
  | write
  | critical
  deriving DecidableEq, Repr

namespace Letter

def char : Letter → Char
  | read => 'R'
  | write => 'W'
  | critical => 'C'

def type : Letter → BaseRequestType
  | read | critical => .read
  | write => .write

def isCritical : Letter → Bool
  | critical => true
  | read | write => false

end Letter

/-- A type, the spaces before it beyond the first, and its count. -/
structure Kind where
  spaces : ℕ := 0
  letter : Letter
  count : Option Count := none

def Kind.text (k : Kind) : List Char :=
  List.replicate (k.spaces + 1) ' ' ++ k.letter.char :: k.count.elim [] fun n => ':' :: n.digits

/-- A line of the trace. -/
structure Line where
  address : Address
  kind : Option Kind

namespace Line

def text (l : Line) : List Char := l.address.text ++ l.kind.elim [] Kind.text

/-- **What the line says.** -/
def request (l : Line) : TraceRequest where
  addr := l.address.addr
  type := (l.kind.elim .read Kind.letter).type
  critical := (l.kind.elim .read Kind.letter).isCritical
  idleClkInjection := (l.kind.bind Kind.count).elim clkInvalid Count.clk

end Line

/-! ## Reading a line -/

section Search

variable {c d : Char} {s pre rest : List Char} {k pos : ℕ} {l : Line}

/-- A search from past the end finds nothing. -/
theorem findFirstNotOf_past (h : s.length ≤ pos) : findFirstNotOf c s pos = none := by
  rw [findFirstNotOf, List.drop_eq_nil_of_le h]
  rfl

/-- **A search finds what follows the run.** -/
theorem findFirstNotOf_run (hd : d ≠ c) (hpos : pos = pre.length) :
    findFirstNotOf c (pre ++ (List.replicate k c ++ d :: rest)) pos = some (pos + k) := by
  have hfind : (List.replicate k c ++ d :: rest).findIdx? (· ≠ c) = some k := by
    induction k with
    | zero => simp [List.findIdx?_cons, hd]
    | succ k ih =>
        rw [List.replicate_succ, List.cons_append, List.findIdx?_cons, ih]
        simp
  subst hpos
  rw [findFirstNotOf, List.drop_left, hfind]
  rfl

theorem getElem?_run : (pre ++ (List.replicate k c ++ d :: rest))[pre.length + k]? = some d := by
  rw [List.getElem?_append_right (Nat.le_add_right _ _), Nat.add_sub_cancel_left,
    List.getElem?_append_right (by simp)]
  simp

end Search

section Numbers

variable {a : Address} {n : Count} {k : Kind} {rest : List Char}

/-- Whatever may follow the address is no part of it. -/
theorem Kind.head_text : ∀ c ∈ k.text.head?, c = ' ' := by
  intro c hc
  simpa [Kind.text, List.replicate_succ, eq_comm] using hc

/-- **The address is read**, up to its end. -/
theorem Address.stoul_text (hrest : ∀ c ∈ rest.head?, c = ' ') :
    stoul 16 (a.text ++ rest) = .ok (a.addr, a.text.length) := by
  have hdigit : ∀ c ∈ rest.head?, isDigit 16 c = false := by
    intro c hc
    rw [hrest c hc]
    decide
  have hnox : ∀ c ∈ rest.head?, ¬ (c = 'x' ∨ c = 'X') := by
    intro c hc
    rw [hrest c hc]
    decide
  refine stoul_eq_ok ?_ a.lt
  rcases a.pre_eq with hpre | hpre | hpre
  · simpa [Address.text, hpre] using scan_digits a.isHex a.ne_nil hdigit fun _ => hnox
  · simpa [Address.text, hpre] using scan_prefixed (.inl rfl) a.isHex a.ne_nil hdigit
  · simpa [Address.text, hpre] using scan_prefixed (.inr rfl) a.isHex a.ne_nil hdigit

/-- The count is read. -/
theorem Count.stoul_digits : stoul 10 n.digits = .ok (n.clk, n.digits.length) := by
  have hscan := @scan_digits 10 n.digits [] n.isDecimal n.ne_nil (by simp) (by simp)
  rw [List.append_nil] at hscan
  have hmax : clkInvalid.toNat < 2 ^ 64 := by decide
  exact stoul_eq_ok hscan (Nat.lt_trans n.lt hmax)

end Numbers

section Parse

variable {a : Address} {k : Kind}

/-- **A line with a type is read as what it says.** -/
theorem parseLine_kind : parseLine (Line.text ⟨a, some k⟩) = .ok (Line.request ⟨a, some k⟩) := by
  have haddr : stoul 16 (a.text ++ k.text) = .ok (a.addr, a.text.length) :=
    Address.stoul_text Kind.head_text
  -- the line, cut where the first search starts and where it ends
  have hline : a.text ++ k.text = (a.text ++ [' ']) ++ (List.replicate k.spaces ' ' ++
      k.letter.char :: k.count.elim [] fun n => ':' :: n.digits) := by
    simp [Kind.text, List.replicate_succ]
  have hletter : k.letter.char ≠ ' ' := by cases k.letter <;> decide
  have hfirst : findFirstNotOf ' ' (a.text ++ k.text) (a.text.length + 1) =
      some (a.text.length + 1 + k.spaces) := by
    rw [hline]
    exact findFirstNotOf_run hletter (by simp)
  have hat : (a.text ++ k.text)[a.text.length + 1 + k.spaces]? = some k.letter.char := by
    have hlen : a.text.length + 1 = (a.text ++ [' ']).length := by simp
    rw [hline, hlen]
    exact getElem?_run
  have hkind : typeOf (some k.letter.char) = .ok (k.letter.type, k.letter.isCritical) := by
    cases k.letter <;> rfl
  have hpast : a.text.length + 1 + k.spaces + 1 =
      ((a.text ++ [' ']) ++ (List.replicate k.spaces ' ' ++ [k.letter.char])).length := by
    simp
    omega
  cases hcount : k.count with
  | none =>
      -- the second search starts past the letter
      have hsecond : findFirstNotOf ':' (a.text ++ k.text) (a.text.length + 1 + k.spaces + 1) = none := by
        refine findFirstNotOf_past (Nat.le_of_eq ?_)
        rw [hline, hcount, hpast]
        rfl
      simp only [parseLine, Line.text, Option.elim_some, haddr, ok_bind, hfirst, Option.bind_some,
        List.head?_drop, hat, hkind, after, hsecond]
      simp [Line.request, hcount, pure, Except.pure]
  | some n =>
      obtain ⟨d, ds, hds⟩ := List.exists_cons_of_ne_nil n.ne_nil
      have hd : d ≠ ':' := isDigit_ne (n.isDecimal d (hds ▸ List.mem_cons_self)) (by decide)
      have htail : a.text ++ k.text = ((a.text ++ [' ']) ++
          (List.replicate k.spaces ' ' ++ [k.letter.char])) ++ (List.replicate 1 ':' ++ d :: ds) := by
        rw [hline, hcount, Option.elim_some, hds]
        simp
      have hsecond : findFirstNotOf ':' (a.text ++ k.text) (a.text.length + 1 + k.spaces + 1) =
          some (a.text.length + 1 + k.spaces + 1 + 1) := by
        rw [htail]
        exact findFirstNotOf_run hd hpast
      have hdrop : (a.text ++ k.text).drop (a.text.length + 1 + k.spaces + 1 + 1) = n.digits := by
        rw [htail, hpast, ← List.drop_drop, List.drop_left, hds]
        rfl
      simp only [parseLine, Line.text, Option.elim_some, haddr, ok_bind, hfirst, Option.bind_some,
        List.head?_drop, hat, hkind, after, hsecond, hdrop, Count.stoul_digits]
      simp [Line.request, hcount, pure, Except.pure]

/-- **No address is the decimal numeral of `clk_invalid`**: a numeral is
worth more in base sixteen than in base ten. -/
theorem Address.stoul_ten {m : ℕ} : stoul 10 a.text ≠ .ok (clkInvalid, m) := by
  intro h
  have hmax : clkInvalid.toNat = 2 ^ 64 - 1 := by decide
  -- after a prefix the decimal numeral is 0
  have hprefixed : ∀ x, isDigit 10 x = false → a.text = ['0'] ++ x :: a.digits → False := by
    intro x hx htext
    have hzero : isDigit 10 '0' = true := by decide
    have hscan := @scan_digits 10 ['0'] (x :: a.digits) (by simpa using hzero) (by simp)
      (by simpa using hx) (by simp)
    rw [← htext] at hscan
    have hvalue := toNat_of_stoul hscan h
    rw [hmax] at hvalue
    exact absurd hvalue (by decide)
  rcases a.pre_eq with hpre | hpre | hpre
  · have htext : a.text = a.digits := by rw [Address.text, hpre, List.nil_append]
    have hsplit : a.digits.takeWhile (isDigit 10) ++ a.digits.dropWhile (isDigit 10) = a.digits :=
      List.takeWhile_append_dropWhile
    have hds : ∀ c ∈ a.digits.takeWhile (isDigit 10), isDigit 10 c = true :=
      List.all_eq_true.mp List.all_takeWhile
    by_cases hne : a.digits.takeWhile (isDigit 10) = []
    · -- the first digit is a letter, and there is no decimal numeral
      obtain ⟨c, cs, hcs⟩ := List.exists_cons_of_ne_nil a.ne_nil
      have hhex := a.isHex c (hcs ▸ List.mem_cons_self)
      have hc : isDigit 10 c = false := by
        cases hc : isDigit 10 c with
        | false => rfl
        | true => simp [hcs, hc] at hne
      have hzero : c ≠ '0' := by
        rintro rfl
        exact absurd hc (by decide)
      have hscan := @scan_none 10 c cs (isSpace_of_isDigit hhex)
        ⟨isDigit_ne hhex (by decide), isDigit_ne hhex (by decide)⟩ hzero hc
      rw [htext, hcs, stoul, hscan] at h
      cases h
    · have hrest : ∀ c ∈ (a.digits.dropWhile (isDigit 10)).head?, isDigit 10 c = false := by
        intro c hc
        have hnot := List.head?_dropWhile_not (isDigit 10) a.digits
        rw [Option.mem_def.mp hc] at hnot
        simpa using hnot
      have hscan := scan_digits hds hne hrest (by simp)
      rw [hsplit] at hscan
      rw [htext] at h
      have hvalue := toNat_of_stoul hscan h
      rw [hmax] at hvalue
      -- the decimal digits come first, and are worth more in base sixteen
      have hmore := (value_mono (by omega) (by omega : 10 < 16) hds).2 (by omega)
      have hpart := @value_le_append 16 (a.digits.takeWhile (isDigit 10))
        (a.digits.dropWhile (isDigit 10)) (by omega)
      rw [hsplit] at hpart
      have hlt := a.lt
      omega
  · exact hprefixed 'x' (by decide) (by rw [Address.text, hpre]; rfl)
  · exact hprefixed 'X' (by decide) (by rw [Address.text, hpre]; rfl)

/-- **A line without a type is not read as what it says**: its address
is read again, as an idle count. -/
theorem parseLine_bare : parseLine (Line.text ⟨a, none⟩) ≠ .ok (Line.request ⟨a, none⟩) := by
  have htext : Line.text ⟨a, none⟩ = a.text := List.append_nil _
  have haddr := @Address.stoul_text a [] (by simp)
  rw [List.append_nil] at haddr
  have hfirst : findFirstNotOf ' ' a.text (a.text.length + 1) = none :=
    findFirstNotOf_past (Nat.le_succ _)
  have hsecond : findFirstNotOf ':' a.text 0 = some 0 := by
    have hhead : ∃ c cs, a.text = c :: cs ∧ c ≠ ':' := by
      rcases a.pre_eq with hpre | hpre | hpre
      · obtain ⟨c, cs, hcs⟩ := List.exists_cons_of_ne_nil a.ne_nil
        exact ⟨c, cs, by rw [Address.text, hpre, List.nil_append, hcs],
          isDigit_ne (a.isHex c (hcs ▸ List.mem_cons_self)) (by decide)⟩
      · exact ⟨'0', 'x' :: a.digits, by rw [Address.text, hpre]; rfl, by decide⟩
      · exact ⟨'0', 'X' :: a.digits, by rw [Address.text, hpre]; rfl, by decide⟩
    obtain ⟨c, cs, hcs, hc⟩ := hhead
    rw [hcs]
    exact @findFirstNotOf_run ':' c [] cs 0 0 hc rfl
  intro h
  rw [htext] at h
  simp only [parseLine, haddr, ok_bind, hfirst, Option.bind_none, typeOf, pure, Except.pure, after,
    hsecond, List.drop_zero, bind_eq_ok, Line.request, Option.elim_none] at h
  obtain ⟨⟨w, m⟩, hw, heq⟩ := h
  obtain rfl : w = clkInvalid := congrArg TraceRequest.idleClkInjection (Except.ok.inj heq)
  exact Address.stoul_ten hw

end Parse

section Calls

variable {l : Line} {n : ℕ} {text rest : List Char}

/-- No line has a newline in it. -/
theorem Line.newline_notMem : '\n' ∉ l.text := by
  have hdigits : ∀ {b : ℕ} {ds : List Char}, (∀ c ∈ ds, isDigit b c = true) → '\n' ∉ ds := by
    intro b ds hds hmem
    exact isDigit_ne (hds _ hmem) (by decide) rfl
  have hpre : '\n' ∉ l.address.pre := by
    rcases l.address.pre_eq with h | h | h <;> simp [h]
  have hkind : '\n' ∉ l.kind.elim [] Kind.text := by
    cases l.kind with
    | none => simp
    | some k =>
        have hletter : '\n' ≠ k.letter.char := by cases k.letter <;> decide
        have hcount : '\n' ∉ k.count.elim [] fun n => ':' :: n.digits := by
          cases k.count with
          | none => simp
          | some n => simpa using hdigits n.isDecimal
        simp [Kind.text, hletter, hcount]
  simp [Line.text, Address.text, hpre, hdigits l.address.isHex, hkind]

/-- No line is a comment. -/
theorem Line.isComment_text : isComment l.text = false := by
  have hhead : ∃ c cs, l.text = c :: cs ∧ c ≠ '#' := by
    rcases l.address.pre_eq with hpre | hpre | hpre
    · obtain ⟨c, cs, hcs⟩ := List.exists_cons_of_ne_nil l.address.ne_nil
      exact ⟨c, cs ++ l.kind.elim [] Kind.text, by simp [Line.text, Address.text, hpre, hcs],
        isDigit_ne (l.address.isHex c (hcs ▸ List.mem_cons_self)) (by decide)⟩
    all_goals exact ⟨'0', _, by rw [Line.text, Address.text, hpre]; rfl, by decide⟩
  obtain ⟨c, cs, hcs, hc⟩ := hhead
  simp [isComment, hcs, hc]

/-- A call that finds a comment goes on to what follows it. -/
theorem getDramTraceRequest_comment (hcomment : isComment text = true) (htext : '\n' ∉ text) :
    getDramTraceRequest (n + 1) { rest := text ++ '\n' :: rest } =
      getDramTraceRequest n { rest := rest } := by
  rw [getDramTraceRequest, getDramTraceRequest, skipComments_comment hcomment htext,
    @skipComments_fresh n text [] { rest := rest } rfl rfl]

/-- A call that finds another line takes its request. -/
theorem getDramTraceRequest_line : getDramTraceRequest (n + 1) { rest := l.text ++ '\n' :: rest } =
    some ((parseLine l.text).map fun r => (some r, { rest := rest })) := by
  simp only [getDramTraceRequest, skipComments_line Line.isComment_text Line.newline_notMem,
    Bool.false_eq_true, if_false]
  cases parseLine l.text <;> rfl

/-- **Lines are read as what they say**, exactly where they give a type.
The line is any of the grammar, and any text may follow its newline. -/
theorem line_read_iff : getDramTraceRequest (n + 1) { rest := l.text ++ '\n' :: rest } =
    some (.ok (some l.request, { rest := rest })) ↔ l.kind ≠ none := by
  obtain ⟨a, kind⟩ := l
  rw [getDramTraceRequest_line, Option.some.injEq]
  cases kind with
  | some k => simp [parseLine_kind, Except.map]
  | none =>
      refine iff_of_false (fun h => ?_) (by simp)
      obtain ⟨r, hr, heq⟩ := map_eq_ok.mp h
      obtain rfl : r = Line.request ⟨a, none⟩ := Option.some.inj (Prod.mk.inj heq).1
      exact parseLine_bare hr

/-- **An address alone is read twice**: `0x1000` comes with an idle count
of 0, `100` with one of 100, and `ff` raises an error. -/
theorem bare_address_read_twice :
    getDramTraceRequest 1 { rest := "0x1000\n".toList } =
        some (.ok (some { addr := 0x1000, type := .read, idleClkInjection := 0 }, { rest := [] })) ∧
      getDramTraceRequest 1 { rest := "100\n".toList } =
        some (.ok (some { addr := 0x100, type := .read, idleClkInjection := 100 }, { rest := [] })) ∧
      getDramTraceRequest 1 { rest := "ff\n".toList } =
        some (.error "std::invalid_argument: stoul") := by
  decide +kernel

end Calls

/-! ## Files -/

/-- A request to be printed. -/
structure Entry where
  addr : Addr
  letter : Letter
  idle : Option Clk := none
  lt : ∀ n ∈ idle, n < clkInvalid

/-- `f'{addr:#010x}'` -/
def hexText (addr : ℕ) : List Char :=
  let ds := Nat.toDigits 16 addr
  '0' :: 'x' :: (List.replicate (8 - ds.length) '0' ++ ds)

/-- `trace` of the trace generator: the line it prints. -/
def trace (addr : ℕ) (accessType : Char) (criticalLoad : Bool) (idleClk : ℕ) : Result (List Char) :=
  if accessType ∉ ['r', 'R', 'w', 'W'] then throw ("Wrong access_type: " ++ accessType.toString)
  else
    let acc := accessType.toUpper
    let acc := if criticalLoad && acc = 'R' then 'C' else acc
    if idleClk ≠ 0 then pure (hexText addr ++ [' ', acc, ':'] ++ Nat.toDigits 10 idleClk ++ ['\n'])
    else pure (hexText addr ++ [' ', acc] ++ ['\n'])

namespace Entry

def text (e : Entry) : List Char :=
  hexText e.addr.toNat ++ [' ', e.letter.char] ++
    e.idle.elim [] fun n => ':' :: Nat.toDigits 10 n.toNat

/-- What is to be read. -/
def request (e : Entry) : TraceRequest where
  addr := e.addr
  type := e.letter.type
  critical := e.letter.isCritical
  idleClkInjection := e.idle.getD clkInvalid

end Entry

/-- A line of a file: a comment, or a request. -/
inductive Item where
  | comment (text : List Char) (h : '\n' ∉ text)
  | request (e : Entry)

namespace Item

def text : Item → List Char
  | comment text _ => '#' :: text
  | request e => e.text

def requests : Item → List TraceRequest
  | comment _ _ => []
  | request e => [e.request]

end Item

/-- A file: the lines that end in a newline, and a last line without
one, where there is one. -/
structure TraceFile where
  lines : List Item
  last : Option Item := none

def TraceFile.text (file : TraceFile) : List Char :=
  unlines (file.lines.map Item.text) ++ file.last.elim [] Item.text

def TraceFile.requests (file : TraceFile) : List TraceRequest :=
  (file.lines ++ file.last.toList).flatMap Item.requests

/-- **The successive calls return the requests**, one after the other,
and then `false`. -/
def Returns : IStream → List TraceRequest → Prop
  | f, [] => ∃ n f', getDramTraceRequest n f = some (.ok (none, f'))
  | f, r :: rs => ∃ n f', getDramTraceRequest n f = some (.ok (some r, f')) ∧ Returns f' rs

section Printed

variable {e : Entry} {addr idle : ℕ} {c : Char} {critical : Bool} {s : List Char}

/-- What an entry is printed as is a line of the grammar. -/
theorem Entry.exists_line (e : Entry) :
    ∃ l : Line, l.text = e.text ∧ l.request = e.request ∧ l.kind ≠ none := by
  let ds := List.replicate (8 - (Nat.toDigits 16 e.addr.toNat).length) '0' ++ Nat.toDigits 16 e.addr.toNat
  have hvalue : value 16 ds = e.addr.toNat := by
    rw [value_padded]
    exact value_toDigits (by omega) (by omega)
  have hhex : ∀ c ∈ ds, isDigit 16 c = true := by
    intro c hc
    rcases List.mem_append.mp hc with hc | hc
    · rw [List.eq_of_mem_replicate hc]
      decide
    · exact isDigit_of_mem_toDigits (by omega) (by omega) c hc
  have hlt : value 16 ds < 2 ^ 64 := hvalue ▸ e.addr.toNat_lt
  let a : Address := ⟨['0', 'x'], ds, .inr (.inl rfl),
    List.append_ne_nil_of_right_ne_nil _ (toDigits_ne_nil (by omega)), hhex, hlt⟩
  have haddr : a.addr = e.addr := by
    rw [Address.addr, hvalue]
    exact UInt64.ofNat_toNat
  rcases hidle : e.idle with _ | n
  · refine ⟨⟨a, some { letter := e.letter }⟩, ?_, ?_, by simp⟩
    · simp [Line.text, Address.text, Kind.text, Entry.text, hexText, hidle, a, ds]
    · simp [Line.request, Entry.request, hidle, haddr]
  · have hn : value 10 (Nat.toDigits 10 n.toNat) = n.toNat := value_toDigits (by omega) (by omega)
    have hlt : value 10 (Nat.toDigits 10 n.toNat) < clkInvalid.toNat := by
      rw [hn]
      exact UInt64.lt_iff_toNat_lt.mp (e.lt n hidle)
    let count : Count := ⟨Nat.toDigits 10 n.toNat, toDigits_ne_nil (by omega),
      isDigit_of_mem_toDigits (by omega) (by omega), hlt⟩
    have hclk : count.clk = n := by
      rw [Count.clk, hn]
      exact UInt64.ofNat_toNat
    refine ⟨⟨a, some { letter := e.letter, count := some count }⟩, ?_, ?_, by simp⟩
    · simp [Line.text, Address.text, Kind.text, Entry.text, hexText, hidle, a, ds, count]
    · simp [Line.request, Entry.request, hidle, haddr, hclk]

/-- **What the generator prints is an entry.** -/
theorem trace_prints (haddr : addr < 2 ^ 64) (hidle : idle < clkInvalid.toNat)
    (h : trace addr c critical idle = .ok s) :
    ∃ e : Entry, s = e.text ++ ['\n'] ∧ e.addr.toNat = addr ∧
      e.idle = if idle = 0 then none else some (UInt64.ofNat idle) := by
  have hsize : idle < UInt64.size := Nat.lt_trans hidle (by decide)
  have hletter : c ∈ ['r', 'R', 'w', 'W'] →
      ∃ letter : Letter, (if critical && c.toUpper = 'R' then 'C' else c.toUpper) = letter.char := by
    intro hc
    simp only [List.mem_cons, List.not_mem_nil, or_false] at hc
    rcases hc with rfl | rfl | rfl | rfl <;> cases critical <;>
      first
        | exact ⟨.read, by decide⟩
        | exact ⟨.write, by decide⟩
        | exact ⟨.critical, by decide⟩
  unfold trace at h
  split at h
  · exact absurd h throw_ne_ok
  · next hc =>
      obtain ⟨letter, hchar⟩ := hletter (not_not.mp hc)
      dsimp only at h
      rw [hchar] at h
      by_cases hzero : idle = 0
      · rw [if_neg (not_not.mpr hzero)] at h
        refine ⟨⟨UInt64.ofNat addr, letter, none, by simp⟩, ?_, UInt64.toNat_ofNat_of_lt' haddr,
          by simp [hzero]⟩
        simpa [Entry.text, UInt64.toNat_ofNat_of_lt' haddr, eq_comm] using pure_eq_ok.mp h
      · rw [if_pos hzero] at h
        refine ⟨⟨UInt64.ofNat addr, letter, some (UInt64.ofNat idle), ?_⟩, ?_,
          UInt64.toNat_ofNat_of_lt' haddr, by simp [hzero]⟩
        · intro n hn
          obtain rfl := Option.mem_some.mp hn
          rw [UInt64.lt_iff_toNat_lt, UInt64.toNat_ofNat_of_lt' hsize]
          exact hidle
        · simpa [Entry.text, UInt64.toNat_ofNat_of_lt' haddr, UInt64.toNat_ofNat_of_lt' hsize,
            eq_comm] using pure_eq_ok.mp h

end Printed

section Files

variable {e : Entry} {text rest : List Char} {rs : List TraceRequest} {items : List Item}
  {last : Option Item} {n : ℕ}

/-- Comments are passed over. -/
theorem returns_comment (htext : '\n' ∉ text) :
    Returns { rest := ('#' :: text) ++ '\n' :: rest } rs ↔ Returns { rest := rest } rs := by
  have hcall : ∀ n, getDramTraceRequest (n + 1) { rest := ('#' :: text) ++ '\n' :: rest } =
      getDramTraceRequest n { rest := rest } := fun n =>
    getDramTraceRequest_comment rfl (by simpa using htext)
  have hexists : ∀ P : Option (Result (Option TraceRequest × IStream)) → Prop, ¬ P none →
      ((∃ n, P (getDramTraceRequest n { rest := ('#' :: text) ++ '\n' :: rest })) ↔
        ∃ n, P (getDramTraceRequest n { rest := rest })) := by
    intro P hnone
    constructor
    · rintro ⟨n, hn⟩
      cases n with
      | zero => exact absurd hn hnone
      | succ n => exact ⟨n, hcall n ▸ hn⟩
    · rintro ⟨n, hn⟩
      exact ⟨n + 1, (hcall n).symm ▸ hn⟩
  cases rs with
  | nil => exact hexists (fun out => ∃ f', out = some (.ok (none, f'))) (by simp)
  | cons r rs =>
      exact hexists (fun out => ∃ f', out = some (.ok (some r, f')) ∧ Returns f' rs) (by simp)

/-- A request is returned, and the rest after it. -/
theorem returns_entry :
    Returns { rest := e.text ++ '\n' :: rest } (e.request :: rs) ↔ Returns { rest := rest } rs := by
  obtain ⟨l, htext, hrequest, hkind⟩ := e.exists_line
  have hcall : ∀ n, getDramTraceRequest (n + 1) { rest := e.text ++ '\n' :: rest } =
      some (.ok (some e.request, { rest := rest })) := by
    intro n
    rw [← htext, ← hrequest]
    exact line_read_iff.mpr hkind
  constructor
  · rintro ⟨n, f', hget, hrest⟩
    cases n with
    | zero => cases hget
    | succ n =>
        rw [hcall] at hget
        obtain ⟨-, rfl⟩ := Prod.mk.inj (Except.ok.inj (Option.some.inj hget))
        exact hrest
  · exact fun hrest => ⟨1, _, hcall 0, hrest⟩

/-- At the end of a file `false` is returned. -/
theorem returns_end : Returns { rest := [] } [] := ⟨1, _, rfl⟩

/-- **A last request without a newline is lost.** -/
theorem not_returns_last : ¬ Returns { rest := e.text } [e.request] := by
  obtain ⟨l, htext, -, -⟩ := e.exists_line
  rintro ⟨n, f', hget, -⟩
  cases n with
  | zero => cases hget
  | succ n =>
      rw [← htext, getDramTraceRequest,
        skipComments_last Line.isComment_text Line.newline_notMem] at hget
      cases hget

/-- From a last comment without a newline no call returns. -/
theorem not_returns_comment (htext : '\n' ∉ text) : ¬ Returns { rest := '#' :: text } [] := by
  rintro ⟨n, f', hget⟩
  have hnever := @skipComments_never n [] ('#' :: text) [] (by simp) (by simpa using htext)
    (by simp) rfl
  rw [unlines_nil, List.nil_append] at hnever
  rw [getDramTraceRequest, hnever] at hget
  cases hget

/-- **A file is read back** exactly where its last line ends in a
newline: for every list of requests, with comments anywhere among them,
the calls return the requests in order and then `false`. -/
theorem file_read_iff (file : TraceFile) :
    Returns { rest := file.text } file.requests ↔ file.last = none := by
  obtain ⟨items, last⟩ := file
  simp only [TraceFile.text, TraceFile.requests]
  induction items with
  | nil =>
      cases last with
      | none => exact iff_of_true returns_end rfl
      | some item =>
          refine iff_of_false ?_ (by simp)
          cases item with
          | comment text htext => exact not_returns_comment htext
          | request e => exact not_returns_last
  | cons item items ih =>
      rw [List.map_cons, unlines_cons, List.append_assoc, List.cons_append, List.cons_append,
        List.flatMap_cons, ← ih]
      cases item with
      | comment text htext => exact returns_comment htext
      | request e => exact returns_entry

/-- **The last request is lost** where no newline follows it. -/
theorem last_request_lost :
    getDramTraceRequest 1 { rest := "0x00001000 W".toList } =
        some (.ok (none, { rest := [], eof := true })) ∧
      ¬ Returns { rest := "0x00001000 W".toList } [{ addr := 0x1000, type := .write }] := by
  refine ⟨by decide +kernel, ?_⟩
  exact @not_returns_last ⟨0x1000, .write, none, by simp⟩

end Files

end Trace

end Vans
