import Vans.Trace.Model
import Vans.Common.Lines
import Vans.Common.Numerals
/-!
# Reading the trace

`get_dram_trace_request` reads lines until one is no comment, and takes
a request from it. Its loop asks the line it read, not the stream, and
`getline` leaves the line alone once the file has ended: from a last
line that is a comment and has no newline it does not come back. This
file has the function and says when its loop ends.
-/

namespace Vans

namespace Trace

open Lines Numerals

/-! ## The function -/

/-- `find_first_not_of(c, pos)`; `npos` is no position. -/
def findFirstNotOf (c : Char) (s : List Char) (pos : ℕ) : Option ℕ :=
  ((s.drop pos).findIdx? (· ≠ c)).map (pos + ·)

/-- `pos + 1`, as a word: one after `npos` is the start of the line. -/
def after : Option ℕ → ℕ
  | none => 0
  | some pos => pos + 1

/-- The type a letter stands for, and whether the read is critical. -/
def typeOf : Option Char → Result (BaseRequestType × Bool)
  | none | some 'R' => pure (.read, false)
  | some 'W' => pure (.write, false)
  | some 'C' => pure (.read, true)
  | some _ => throw "Trace file format error."

/-- What is read from a line that is no comment. -/
def parseLine (line : List Char) : Result TraceRequest := do
  let (addr, pos) ← stoul 16 line
  let pos := findFirstNotOf ' ' line (pos + 1)
  let (type, critical) ← typeOf (pos.bind fun pos => (line.drop pos).head?)
  match findFirstNotOf ':' line (after pos) with
  | none => return { addr := addr, type := type, critical := critical }
  | some pos => do
    let (idleClkInjection, _) ← stoul 10 (line.drop pos)
    return { addr := addr, type := type, critical := critical, idleClkInjection := idleClkInjection }

/-- `line.rfind('#', 0) == 0` -/
def isComment (line : List Char) : Bool := line.head? = some '#'

/-- The loop over the comments, for at most so many iterations: the line
it ends with. -/
def skipComments : ℕ → List Char → IStream → Option (List Char × IStream)
  | 0, _, _ => none
  | n + 1, line, f =>
    let (line, f) := getline line f
    if isComment line then skipComments n line f else some (line, f)

/-- A call, whose loop makes at most so many iterations: a request, or
`none` for the `false` returned at the end of the file. -/
def getDramTraceRequest (n : ℕ) (f : IStream) :
    Option (Result (Option TraceRequest × IStream)) :=
  match skipComments n [] f with
  | none => none
  | some (line, f) =>
    if f.eof then some (pure (none, f))
    else some do
      let r ← parseLine line
      return (some r, f)

/-! ## When the loop ends -/

/-- Lines left to read. -/
def remaining (f : IStream) : ℕ := (linesOf f.rest).length

/-- **Only comments are left, and the last has no newline.** -/
def EndsInComment (f : IStream) : Prop :=
  f.eof = false ∧ f.fail = false ∧ (∀ l ∈ (toLines f.rest).1, isComment l = true) ∧
    isComment (toLines f.rest).2 = true

/-- The loop ends, within one iteration more than there are lines. -/
def LoopEnds (line : List Char) (f : IStream) : Prop :=
  ∃ out, skipComments (remaining f + 1) line f = some out

section Loop

variable {n m : ℕ} {line line' l last rest : List Char} {ls : List (List Char)} {f f' : IStream}
  {out out' : List Char × IStream}

/-- A loop that ended needs no more iterations. -/
theorem skipComments_mono (h : skipComments n line f = some out) (hle : n ≤ m) :
    skipComments m line f = some out := by
  induction n generalizing m line f with
  | zero => cases h
  | succ n ih =>
      obtain ⟨m, rfl⟩ := Nat.exists_eq_succ_of_ne_zero (show m ≠ 0 by omega)
      simp only [skipComments] at h ⊢
      split at h
      · next hcomment =>
          rw [if_pos hcomment]
          exact ih h (by omega)
      · next hcomment => rwa [if_neg hcomment]

/-- An iteration that reads a comment. -/
theorem skipComments_comment (hcomment : isComment l = true) (hl : '\n' ∉ l) :
    skipComments (n + 1) line { rest := l ++ '\n' :: rest } = skipComments n l { rest := rest } := by
  simp only [skipComments, getline_newline hl, hcomment, if_true]

/-- An iteration that reads another line. -/
theorem skipComments_line (hcomment : isComment l = false) (hl : '\n' ∉ l) :
    skipComments (n + 1) line { rest := l ++ '\n' :: rest } = some (l, { rest := rest }) := by
  simp [skipComments, getline_newline hl, hcomment]

/-- An iteration that reads a last line without a newline. -/
theorem skipComments_last (hcomment : isComment l = false) (hl : '\n' ∉ l) :
    skipComments (n + 1) line { rest := l } =
      some (l, { rest := [], eof := true, fail := l.isEmpty }) := by
  simp [skipComments, getline_last hl, hcomment]

/-- While the stream is good the line read before does not matter. -/
theorem skipComments_fresh (heof : f.eof = false) (hfail : f.fail = false) :
    skipComments n line f = skipComments n line' f := by
  cases n with
  | zero => rfl
  | succ n => simp only [skipComments, getline, heof, hfail, Bool.or_false, Bool.false_eq_true, if_false]

/-- **At the end of the file a comment is read for ever.** -/
theorem skipComments_stuck (hcomment : isComment line = true) (heof : f.eof = true) :
    skipComments n line f = none := by
  induction n generalizing f with
  | zero => rfl
  | succ n ih =>
      simp only [skipComments, getline_fails (.inl heof), hcomment, if_true]
      exact ih heof

/-- The loop over lines of which not all are comments. -/
theorem skipComments_ends (hls : ∀ l ∈ ls, '\n' ∉ l) (hlast : '\n' ∉ last)
    (h : ¬ ((∀ l ∈ ls, isComment l = true) ∧ isComment last = true)) :
    ∃ out, skipComments (ls.length + 1) line { rest := unlines ls ++ last } = some out := by
  induction ls generalizing line with
  | nil =>
      have hcomment : isComment last = false := by simpa using h
      exact ⟨_, skipComments_last hcomment hlast⟩
  | cons l ls ih =>
      obtain ⟨hl, hls⟩ := List.forall_mem_cons.mp hls
      rw [unlines_cons, List.append_assoc, List.cons_append]
      cases hcomment : isComment l with
      | false => exact ⟨_, skipComments_line hcomment hl⟩
      | true =>
          rw [List.length_cons, skipComments_comment hcomment hl]
          refine ih hls fun hall => h ⟨?_, hall.2⟩
          exact List.forall_mem_cons.mpr ⟨hcomment, hall.1⟩

/-- The loop over comments, the last without a newline. -/
theorem skipComments_never (hls : ∀ l ∈ ls, '\n' ∉ l) (hlast : '\n' ∉ last)
    (hcomments : ∀ l ∈ ls, isComment l = true) (hcomment : isComment last = true) :
    skipComments n line { rest := unlines ls ++ last } = none := by
  induction ls generalizing n line with
  | nil =>
      cases n with
      | zero => rfl
      | succ n =>
          simp only [unlines_nil, List.nil_append, skipComments, getline_last hlast, hcomment, if_true]
          exact skipComments_stuck hcomment rfl
  | cons l ls ih =>
      obtain ⟨hl, hls⟩ := List.forall_mem_cons.mp hls
      obtain ⟨hc, hcomments⟩ := List.forall_mem_cons.mp hcomments
      rw [unlines_cons, List.append_assoc, List.cons_append]
      cases n with
      | zero => rfl
      | succ n =>
          rw [skipComments_comment hc hl]
          exact ih hls hcomments

/-- **When the reader's loop ends.** At every position of every file it
ends within one iteration more than there are lines left, unless these
are all comments and the last has no newline; and then it never ends. -/
theorem comment_loop_ends_iff (f : IStream) :
    (LoopEnds [] f ↔ ¬ EndsInComment f) ∧
      (EndsInComment f → ∀ n, skipComments n [] f = none) := by
  obtain ⟨rest, eof, fail⟩ := f
  obtain ⟨hls, hlast⟩ := @newline_notMem_toLines rest
  have hrest := @unlines_toLines rest
  have hlen : (toLines rest).1.length ≤ (linesOf rest).length := by
    rw [linesOf, List.length_append]
    omega
  have hnever : EndsInComment ⟨rest, eof, fail⟩ →
      ∀ n, skipComments n [] ⟨rest, eof, fail⟩ = none := by
    rintro ⟨rfl, rfl, hcomments, hcomment⟩ n
    rw [← hrest]
    exact skipComments_never hls hlast hcomments hcomment
  refine ⟨⟨?_, fun hends => ?_⟩, hnever⟩
  · rintro ⟨out, hout⟩ hends
    rw [hnever hends] at hout
    cases hout
  · by_cases hgood : eof = false ∧ fail = false
    · obtain ⟨rfl, rfl⟩ := hgood
      obtain ⟨out, hout⟩ := @skipComments_ends [] _ _ hls hlast fun hall =>
        hends ⟨rfl, rfl, hall.1, hall.2⟩
      rw [hrest] at hout
      exact ⟨out, skipComments_mono hout (by simp only [remaining]; omega)⟩
    · -- a flag is set: the read fails and leaves the empty line
      have hflag : eof = true ∨ fail = true := by
        cases eof <;> cases fail <;> simp_all
      refine ⟨([], ⟨rest, eof, true⟩), ?_⟩
      simp only [skipComments, getline_fails (f := ⟨rest, eof, fail⟩) hflag]
      rfl

/-- **A comment that ends the file keeps the reader.** -/
theorem comment_at_end_never_read :
    ¬ LoopEnds [] { rest := ['#', 'x'] } ∧ ∀ n, skipComments n [] { rest := ['#', 'x'] } = none := by
  have hcomment : isComment ['#', 'x'] = true := by decide
  have hnever : ∀ n, skipComments n [] { rest := ['#', 'x'] } = none := fun n =>
    @skipComments_never n [] ['#', 'x'] [] (by simp) (by decide) (by simp) hcomment
  refine ⟨?_, hnever⟩
  rintro ⟨out, hout⟩
  rw [hnever] at hout
  cases hout

end Loop

end Trace

end Vans
