import Vans.Common.Machine
/-!
# Reading a text line by line

An input stream over a text, and `getline` on it. The end-of-file flag
is set by the read that runs into the end, so a last line without a
newline comes with it and a text that ends in a newline is at its end
before the flag says so. A loop that reads until a read fails is a fold
over the lines of the text.
-/

namespace Vans

namespace Lines

/-- A stream: what is left of the text, and the two flags of its state. -/
structure IStream where
  rest : List Char
  eof : Bool := false
  fail : Bool := false
  deriving DecidableEq, Repr

/-- The text up to its first newline, and what follows the newline. -/
def splitLine : List Char → List Char × Option (List Char)
  | [] => ([], none)
  | c :: cs =>
    if c = '\n' then ([], some cs)
    else
      let (line, rest) := splitLine cs
      (c :: line, rest)

/-- `std::getline`. On a stream with a flag set it fails and leaves the
string alone; it also fails where the text has ended. -/
def getline (line : List Char) (f : IStream) : List Char × IStream :=
  if f.eof || f.fail then (line, { f with fail := true })
  else
    match splitLine f.rest with
    | (line, some rest) => (line, { f with rest := rest })
    | (line, none) => (line, { rest := [], eof := true, fail := line.isEmpty })

/-- The lines that end in a newline, and what follows the last newline. -/
def toLines : List Char → List (List Char) × List Char
  | [] => ([], [])
  | c :: cs =>
    let (lines, last) := toLines cs
    if c = '\n' then ([] :: lines, last)
    else
      match lines with
      | [] => ([], c :: last)
      | l :: lines => ((c :: l) :: lines, last)

/-- Each line, and a newline. -/
def unlines (lines : List (List Char)) : List Char := lines.flatMap (· ++ ['\n'])

/-- The lines of a text: a last line needs no newline. -/
def linesOf (text : List Char) : List (List Char) :=
  (toLines text).1 ++ if (toLines text).2 = [] then [] else [(toLines text).2]

/-- `while (getline(file, line)) body`, for at most so many reads. -/
def whileGetline {S X : Type} (body : S → List Char → Except X S) :
    ℕ → List Char → IStream → S → Option (Except X S)
  | 0, _, _, _ => none
  | n + 1, line, f, s =>
    let (line, f) := getline line f
    if f.fail then some (.ok s)
    else
      match body s line with
      | .error e => some (.error e)
      | .ok s => whileGetline body n line f s

section Facts

variable {l line rest text last : List Char} {ls : List (List Char)} {f : IStream}

@[simp] theorem unlines_nil : unlines [] = [] := rfl

@[simp] theorem unlines_cons : unlines (l :: ls) = l ++ '\n' :: unlines ls := by
  simp [unlines]

theorem splitLine_newline (h : '\n' ∉ l) : splitLine (l ++ '\n' :: rest) = (l, some rest) := by
  induction l with
  | nil => simp [splitLine]
  | cons c l ih =>
      obtain ⟨hc, hl⟩ := List.ne_and_not_mem_of_not_mem_cons h
      simp [splitLine, Ne.symm hc, ih hl]

theorem splitLine_last (h : '\n' ∉ l) : splitLine l = (l, none) := by
  induction l with
  | nil => rfl
  | cons c l ih =>
      obtain ⟨hc, hl⟩ := List.ne_and_not_mem_of_not_mem_cons h
      simp [splitLine, Ne.symm hc, ih hl]

/-- **A line that ends in a newline is read off.** -/
theorem getline_newline (h : '\n' ∉ l) :
    getline line { rest := l ++ '\n' :: rest } = (l, { rest := rest }) := by
  simp [getline, splitLine_newline h]

/-- **A last line without a newline comes with the end of the file.** -/
theorem getline_last (h : '\n' ∉ l) :
    getline line { rest := l } = (l, { rest := [], eof := true, fail := l.isEmpty }) := by
  simp [getline, splitLine_last h]

theorem getline_fails (h : f.eof = true ∨ f.fail = true) :
    getline line f = (line, { f with fail := true }) := by
  rcases h with h | h <;> simp [getline, h]

/-- **A text is its lines.** -/
theorem unlines_toLines : unlines (toLines text).1 ++ (toLines text).2 = text := by
  induction text with
  | nil => rfl
  | cons c cs ih =>
      unfold toLines
      rcases htext : toLines cs with ⟨lines, last⟩
      rw [htext] at ih
      by_cases hc : c = '\n'
      · simpa [hc] using ih
      · cases lines with
        | nil => simpa [hc] using ih
        | cons l lines => simpa [hc] using ih

/-- No line has a newline in it. -/
theorem newline_notMem_toLines :
    (∀ l ∈ (toLines text).1, '\n' ∉ l) ∧ '\n' ∉ (toLines text).2 := by
  induction text with
  | nil => simp [toLines]
  | cons c cs ih =>
      unfold toLines
      rcases htext : toLines cs with ⟨lines, last⟩
      rw [htext] at ih
      obtain ⟨hlines, hlast⟩ := ih
      by_cases hc : c = '\n'
      · simpa [hc] using ⟨hlines, hlast⟩
      · cases lines with
        | nil => simpa [hc, Ne.symm hc] using hlast
        | cons l lines =>
            obtain ⟨hl, hlines⟩ := List.forall_mem_cons.mp hlines
            simpa [hc, Ne.symm hc] using ⟨⟨hl, hlines⟩, hlast⟩

/-- **The lines of what was printed** are the lines printed. -/
theorem toLines_unlines (hls : ∀ l ∈ ls, '\n' ∉ l) (hlast : '\n' ∉ last) :
    toLines (unlines ls ++ last) = (ls, last) := by
  have hline : ∀ l : List Char, '\n' ∉ l → ∀ rest, toLines (l ++ '\n' :: rest) =
      (l :: (toLines rest).1, (toLines rest).2) := by
    intro l hl rest
    induction l with
    | nil => simp [toLines]
    | cons c l ih =>
        obtain ⟨hc, hl⟩ := List.ne_and_not_mem_of_not_mem_cons hl
        simp [toLines, ih hl, Ne.symm hc]
  have htail : ∀ l : List Char, '\n' ∉ l → toLines l = ([], l) := by
    intro l hl
    induction l with
    | nil => rfl
    | cons c l ih =>
        obtain ⟨hc, hl⟩ := List.ne_and_not_mem_of_not_mem_cons hl
        simp [toLines, ih hl, Ne.symm hc]
  induction ls with
  | nil => exact htail last hlast
  | cons l ls ih =>
      obtain ⟨hl, hls⟩ := List.forall_mem_cons.mp hls
      rw [unlines_cons, List.append_assoc, List.cons_append, hline l hl, ih hls]

theorem linesOf_unlines (hls : ∀ l ∈ ls, '\n' ∉ l) : linesOf (unlines ls) = ls := by
  have hlines := @toLines_unlines [] ls hls (by simp)
  rw [List.append_nil] at hlines
  simp [linesOf, hlines]

end Facts

/-! ## The loop over a file -/

section Loop

variable {S X : Type} {body : S → List Char → Except X S} {text line : List Char}

/-- **A loop that reads until a read fails** comes to an end, and is the
fold over the lines of the text. -/
theorem whileGetline_eq {n : ℕ} {s : S} (hn : (linesOf text).length < n) :
    whileGetline body n line { rest := text } s = some ((linesOf text).foldlM body s) := by
  obtain ⟨hls, hlast⟩ := @newline_notMem_toLines text
  have htext := @unlines_toLines text
  rw [linesOf] at hn ⊢
  generalize (toLines text).1 = ls at hls htext hn ⊢
  generalize (toLines text).2 = last at hlast htext hn ⊢
  subst htext
  induction ls generalizing n line s with
  | nil =>
      obtain ⟨n, rfl⟩ := Nat.exists_eq_succ_of_ne_zero (Nat.ne_of_gt (Nat.zero_lt_of_lt hn))
      by_cases hempty : last = []
      · simp [hempty, whileGetline, getline, splitLine, pure, Except.pure]
      · obtain ⟨n, rfl⟩ := Nat.exists_eq_succ_of_ne_zero (show n ≠ 0 by simp [hempty] at hn; omega)
        simp only [unlines_nil, List.nil_append, whileGetline, getline_last hlast, hempty,
          List.isEmpty_iff, if_false, List.foldlM_cons]
        cases body s last with
        | error e => rfl
        | ok s' => simp [getline, pure, Except.pure, bind, Except.bind]
  | cons l ls ih =>
      obtain ⟨hl, hls⟩ := List.forall_mem_cons.mp hls
      obtain ⟨n, rfl⟩ := Nat.exists_eq_succ_of_ne_zero (Nat.ne_of_gt (Nat.zero_lt_of_lt hn))
      simp only [unlines_cons, List.append_assoc, List.cons_append, whileGetline, getline_newline hl,
        Bool.false_eq_true, if_false, List.foldlM_cons]
      cases body s l with
      | error e => rfl
      | ok s' => exact ih hls (by simp at hn ⊢; omega)

end Loop

end Lines

end Vans
