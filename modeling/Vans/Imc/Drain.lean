import Vans.Imc.Fcfs
import Mathlib.Data.List.TakeWhile
/-!
# The iMC — whether it drains

Over components that are never full, what a tick does to the two queues
depends on the queues alone, and on whether an epoch ends. With an epoch
the queues empty: each end of one lets the first write go, where no read
goes before it. Without, writes leave only while their queue is full, so
what is left of them behind a read stays for good.
-/

namespace Vans

namespace Imc

variable {κ σ : Type}

/-! ## What a tick does to the queues -/

/-- The reads and the writes that wait. -/
abbrev Queues (κ : Type) := List (BaseRequest κ) × List (BaseRequest κ)

/-- The read goes before the write. -/
def older (r w : BaseRequest κ) : Bool := r.arrive < w.arrive

/-- The first read, if there is one, goes before the write. -/
def blocked (reads : List (BaseRequest κ)) (w : BaseRequest κ) : Bool := reads.head?.any (older · w)

/-- Writes leave up to the first one that a read goes before. -/
def flushed (q : Queues κ) : Queues κ := (q.1, q.2.dropWhile (!blocked q.1 ·))

/-- The queue chosen is served. -/
def served (wpqEntries : ℕ) (q : Queues κ) : Queues κ :=
  match q with
  | ([], []) => ([], [])
  | ([], w :: ws) => if (w :: ws).length = wpqEntries then flushed ([], w :: ws) else ([], w :: ws)
  | (_ :: rs, []) => (rs, [])
  | (r :: rs, w :: ws) =>
    if older r w then (rs, w :: ws)
    else if (w :: ws).length = wpqEntries then flushed (r :: rs, w :: ws)
    else (r :: rs, w :: ws)

/-- A tick, at which an epoch may end. -/
def ticked (wpqEntries : ℕ) (ends : Bool) (q : Queues κ) : Queues κ :=
  if ends then flushed (served wpqEntries q) else served wpqEntries q

/-- The queues after so many ticks. -/
def after (wpqEntries : ℕ) (ends : ℕ → Bool) (q : Queues κ) : ℕ → Queues κ
  | 0 => q
  | n + 1 => ticked wpqEntries (ends n) (after wpqEntries ends q n)

/-- Nothing keeps a write for good: there is none, or their queue is
full and no read stops it from emptying at once, when its turn comes. -/
def Drainable (wpqEntries : ℕ) (q : Queues κ) : Prop :=
  match q.2 with
  | [] => True
  | w :: ws => (w :: ws).length = wpqEntries ∧
    ∀ w' ∈ w :: ws, blocked (q.1.dropWhile (older · w)) w' = false

/-- How many requests wait. -/
def waiting (q : Queues κ) : ℕ := q.1.length + q.2.length

section Queues

variable {wpqEntries : ℕ} {q : Queues κ} {reads : List (BaseRequest κ)} {w : BaseRequest κ}
  {ws : List (BaseRequest κ)} {ends : ℕ → Bool}

theorem waiting_eq_zero : waiting q = 0 ↔ q = ([], []) := by
  obtain ⟨rs, ws⟩ := q
  simp [waiting]

theorem flushed_le : waiting (flushed q) ≤ waiting q :=
  Nat.add_le_add_left (List.dropWhile_sublist _).length_le _

/-- A flush lets the first write go, where no read goes before it. -/
theorem flushed_lt (h : blocked reads w = false) :
    waiting (flushed (reads, w :: ws)) < waiting (reads, w :: ws) := by
  have hle := (List.dropWhile_sublist (l := ws) (!blocked reads ·)).length_le
  simp only [waiting, flushed]
  rw [List.dropWhile_cons_of_pos (by simpa using h), List.length_cons]
  omega

/-- **A tick serves a request, or leaves the queues, with the first write
free to go.** -/
theorem served_cases (hq : q ≠ ([], [])) :
    waiting (served wpqEntries q) < waiting q ∨
      (served wpqEntries q = q ∧ waiting (flushed q) < waiting q) := by
  obtain ⟨_ | ⟨r, rs⟩, _ | ⟨w, ws⟩⟩ := q
  · exact absurd rfl hq
  · rw [served]
    split
    · exact .inl (flushed_lt rfl)
    · exact .inr ⟨rfl, flushed_lt rfl⟩
  · exact .inl (by simp [served, waiting])
  · rw [served]
    split
    · exact .inl (by simp [waiting])
    · rename_i hold
      have hfree : blocked (r :: rs) w = false := by simpa [blocked] using hold
      split
      · exact .inl (flushed_lt hfree)
      · exact .inr ⟨rfl, flushed_lt hfree⟩

theorem served_le : waiting (served wpqEntries q) ≤ waiting q := by
  by_cases hq : q = ([], [])
  · subst hq
    exact Nat.le_refl _
  · rcases @served_cases _ wpqEntries _ hq with hlt | ⟨hsame, -⟩
    · exact hlt.le
    · rw [hsame]

theorem ticked_le {b : Bool} : waiting (ticked wpqEntries b q) ≤ waiting q := by
  unfold ticked
  split
  · exact flushed_le.trans served_le
  · exact served_le

theorem after_le {n m : ℕ} (h : n ≤ m) :
    waiting (after wpqEntries ends q m) ≤ waiting (after wpqEntries ends q n) := by
  induction m, h using Nat.le_induction with
  | base => exact Nat.le_refl _
  | succ m _ ih => exact ticked_le.trans ih

/-- Queues that shrink again and again until they are empty, empty. -/
theorem after_reaches (hshrink : ∀ n, after wpqEntries ends q n ≠ ([], []) →
    ∃ m, waiting (after wpqEntries ends q m) < waiting (after wpqEntries ends q n)) :
    ∃ n, after wpqEntries ends q n = ([], []) := by
  by_contra hno
  rw [not_exists] at hno
  have hbound : ∀ k, ∃ n, waiting (after wpqEntries ends q n) + k ≤ waiting q := by
    intro k
    induction k with
    | zero => exact ⟨0, Nat.le_refl _⟩
    | succ k ih =>
        obtain ⟨n, hn⟩ := ih
        obtain ⟨m, hm⟩ := hshrink n (hno n)
        exact ⟨m, by omega⟩
  obtain ⟨n, hn⟩ := hbound (waiting q + 1)
  omega

/-- **With epochs that end again and again, the queues empty.** -/
theorem after_empty (hends : ∀ n, ∃ m, n ≤ m ∧ ends m = true) :
    ∃ n, after wpqEntries ends q n = ([], []) := by
  refine after_reaches fun n hn => ?_
  obtain ⟨m, hm, hend⟩ := hends n
  by_cases hempty : after wpqEntries ends q m = ([], [])
  · refine ⟨m, ?_⟩
    rw [waiting_eq_zero.mpr hempty]
    exact Nat.pos_of_ne_zero fun hzero => hn (waiting_eq_zero.mp hzero)
  · refine ⟨m + 1, Nat.lt_of_lt_of_le ?_ (after_le hm)⟩
    rw [after, ticked, hend, if_pos rfl]
    rcases @served_cases _ wpqEntries _ hempty with hlt | ⟨hsame, hlt⟩
    · exact Nat.lt_of_le_of_lt flushed_le hlt
    · rwa [hsame]

/-- Where nothing keeps a write, a request that waits is served. -/
theorem Drainable.served_lt (h : Drainable wpqEntries q) (hq : q ≠ ([], [])) :
    waiting (served wpqEntries q) < waiting q := by
  obtain ⟨_ | ⟨r, rs⟩, _ | ⟨w, ws⟩⟩ := q
  · exact absurd rfl hq
  · rw [served, if_pos h.1]
    exact flushed_lt rfl
  · simp [served, waiting]
  · rw [served]
    split
    · simp [waiting]
    · rename_i hold
      rw [if_pos h.1]
      exact flushed_lt (by simpa [blocked] using hold)

/-- A flush that leaves a write leaves fewer than there were. -/
theorem not_drainable_flushed (h : blocked reads w = false)
    (hsome : (flushed (reads, w :: ws)).2 ≠ []) (hle : (w :: ws).length ≤ wpqEntries) :
    ¬ Drainable wpqEntries (flushed (reads, w :: ws)) := by
  have hlt : waiting (flushed (reads, w :: ws)) < waiting (reads, w :: ws) := flushed_lt h
  simp only [waiting, flushed] at hlt hsome ⊢
  cases hleft : (w :: ws).dropWhile (!blocked reads ·) with
  | nil => exact absurd hleft hsome
  | cons w' ws' =>
      rw [hleft] at hlt
      rintro ⟨hfull, -⟩
      omega

/-- Every write goes in one flush, where no read stops any. -/
theorem flushed_eq_nil : (flushed q).2 = [] ↔ ∀ w ∈ q.2, blocked q.1 w = false := by
  simp only [flushed, List.dropWhile_eq_nil_iff, Bool.not_eq_true']

/-- **Without an epoch, what keeps a write keeps it.** -/
theorem drainable_served (hle : q.2.length ≤ wpqEntries) :
    Drainable wpqEntries (served wpqEntries q) ↔ Drainable wpqEntries q := by
  obtain ⟨_ | ⟨r, rs⟩, _ | ⟨w, ws⟩⟩ := q
  · exact Iff.rfl
  · rw [served]
    split
    · rename_i hfull
      have hnil : (flushed ([], w :: ws)).2 = [] := flushed_eq_nil.mpr fun _ _ => rfl
      exact iff_of_true (by simp only [Drainable, hnil]) ⟨hfull, fun _ _ => rfl⟩
    · exact Iff.rfl
  · exact Iff.rfl
  · by_cases hold : older r w = true
    · simp only [served, hold, if_true, Drainable, List.dropWhile_cons_of_pos]
    · have hfree : blocked (r :: rs) w = false := by simpa [blocked] using hold
      rw [served, if_neg hold]
      split
      · rename_i hfull
        have hstays : (r :: rs).dropWhile (older · w) = r :: rs :=
          List.dropWhile_cons_of_neg hold
        by_cases hnil : (flushed (r :: rs, w :: ws)).2 = []
        · refine iff_of_true (by simp only [Drainable, hnil]) ⟨hfull, ?_⟩
          rw [hstays]
          exact flushed_eq_nil.mp hnil
        · refine iff_of_false (not_drainable_flushed hfree hnil hle) fun hdrain => hnil ?_
          have hall := hdrain.2
          rw [hstays] at hall
          exact flushed_eq_nil.mpr hall
      · exact Iff.rfl

theorem served_writes_le : (served wpqEntries q).2.length ≤ q.2.length := by
  have hle := (List.dropWhile_sublist (l := q.2) (!blocked q.1 ·)).length_le
  obtain ⟨_ | ⟨r, rs⟩, _ | ⟨w, ws⟩⟩ := q
  · exact Nat.le_refl _
  · rw [served]
    split
    · exact hle
    · exact Nat.le_refl _
  · exact Nat.le_refl _
  · rw [served]
    split
    · exact Nat.le_refl _
    · split
      · exact hle
      · exact Nat.le_refl _

/-- **Without an epoch, the queues empty exactly where nothing keeps a
write.** -/
theorem after_empty_iff (hle : q.2.length ≤ wpqEntries) :
    (∃ n, after wpqEntries (fun _ => false) q n = ([], [])) ↔ Drainable wpqEntries q := by
  have hkeeps : ∀ n, (Drainable wpqEntries (after wpqEntries (fun _ => false) q n) ↔
      Drainable wpqEntries q) ∧ (after wpqEntries (fun _ => false) q n).2.length ≤ wpqEntries := by
    intro n
    induction n with
    | zero => exact ⟨Iff.rfl, hle⟩
    | succ n ih => exact ⟨(drainable_served ih.2).trans ih.1, served_writes_le.trans ih.2⟩
  constructor
  · rintro ⟨n, hn⟩
    refine (hkeeps n).1.mp ?_
    rw [hn]
    trivial
  · intro hdrain
    refine after_reaches fun n hn => ⟨n + 1, ?_⟩
    exact ((hkeeps n).1.mpr hdrain).served_lt hn

end Queues

/-! ## The controller over components that are never full -/

/-- A component that has room, takes what it is given and has room
again. -/
structure NeverFull (C : Component κ σ) (roomy : σ → Prop) : Prop where
  full : ∀ s, roomy s → C.full s = .ok false
  issue : ∀ req s, roomy s →
    Yields (C.issueRequest req s) fun out => out.1.issued = true ∧ roomy out.2.2
  tick : ∀ visit clk s, roomy s → Yields (C.tick visit clk s) fun out => roomy out.1

def queues (s : Sys κ σ) : Queues κ := (s.ctrl.rpq.queue, s.ctrl.wpq.queue)

/-- What the controller can be ticked in: the mapping picks a child
there is, the children have room, and a flush has rounds enough. -/
structure Able (roomy : σ → Prop) (rounds : ℕ) (s : Sys κ σ) : Prop where
  mapping : s.ctrl.mappingFunc = noneMapping ∨ s.ctrl.mappingFunc = strideMapping4096
  next : 0 < s.next.length
  roomy : ∀ st ∈ s.next, roomy st
  writes : s.ctrl.wpq.queue.length ≤ s.ctrl.wpq.maxEntries
  rounds : s.ctrl.wpq.maxEntries < rounds

/-- The controller comes to these queues, and can be ticked still. -/
structure Comes (roomy : σ → Prop) (rounds : ℕ) (s : Sys κ σ) (q : Queues κ) (t : Sys κ σ) :
    Prop where
  waiting : queues t = q
  able : Able roomy rounds t
  wpqEntries : t.ctrl.wpq.maxEntries = s.ctrl.wpq.maxEntries
  adrEpoch : t.ctrl.adrEpoch = s.ctrl.adrEpoch
  imcCurrClk : t.ctrl.imcCurrClk = s.ctrl.imcCurrClk

section Controller

variable {C : Component κ σ} {roomy : σ → Prop} {rounds : ℕ} {s t u : Sys κ σ} {q q' : Queues κ}
  {clk : Clk} {visit : Visit}

theorem Comes.refl (able : Able roomy rounds s) : Comes roomy rounds s (queues s) s :=
  ⟨rfl, able, rfl, rfl, rfl⟩

/-- The component an address maps to takes the request. -/
theorem Able.issueTo (able : Able roomy rounds s) (hC : NeverFull C roomy) (addr : Addr)
    (req : BaseRequest κ) :
    C.fullAt s.next (s.ctrl.mappingFunc addr s.next.length).2 = .ok false ∧
      Yields (C.issueTo s.next (s.ctrl.mappingFunc addr s.next.length).2 req)
        fun out => out.1.issued = true ∧ out.2.2.length = s.next.length ∧
          ∀ st ∈ out.2.2, roomy st := by
  have hlt := mapping_lt able.mapping able.next addr
  have hst : s.next[(s.ctrl.mappingFunc addr s.next.length).2]? =
      some s.next[(s.ctrl.mappingFunc addr s.next.length).2] := List.getElem?_eq_getElem hlt
  have hroomy := able.roomy _ (List.getElem_mem hlt)
  constructor
  · simp only [Component.fullAt, hst]
    exact hC.full _ hroomy
  · simp only [Component.issueTo, hst]
    refine (hC.issue req _ hroomy).bind fun out _ hyes => .pure ⟨hyes.1, ?_, ?_⟩
    · exact List.length_set
    · intro st hmem
      rcases List.mem_or_eq_of_mem_set hmem with hold | rfl
      · exact able.roomy st hold
      · exact hyes.2

/-- **A flush lets the writes go up to the first that a read goes
before.** -/
theorem flushWpq_yields (hC : NeverFull C roomy) : ∀ {fuel : ℕ} {s : Sys κ σ},
    Able roomy rounds s → s.ctrl.wpq.queue.length < fuel →
    Yields (flushWpq C fuel s) (Comes roomy rounds s (flushed (queues s))) := by
  intro fuel
  induction fuel with
  | zero => exact fun _ h => absurd h (Nat.not_lt_zero _)
  | succ fuel ih =>
      intro s able hfuel
      rw [flushWpq]
      split
      · rename_i hq
        have hsame : flushed (queues s) = queues s := by simp [flushed, queues, hq]
        rw [hsame]
        exact .pure (.refl able)
      · rename_i req rest hq
        have hqueues : queues s = (s.ctrl.rpq.queue, req :: rest) := by rw [queues, hq]
        split
        · rename_i hblocked
          have hsame : flushed (queues s) = queues s := by
            rw [hqueues, flushed, List.dropWhile_cons_of_neg (by simpa [blocked, older] using hblocked)]
          rw [hsame]
          exact .pure (.refl able)
        · rename_i hfree
          have hgone : flushed (queues s) = flushed (s.ctrl.rpq.queue, rest) := by
            rw [hqueues, flushed, List.dropWhile_cons_of_pos (by simpa [blocked, older] using hfree)]
            rfl
          obtain ⟨hfull, hissue⟩ := able.issueTo hC req.addr req
          simp only [hfull, ok_bind, Bool.false_eq_true, if_false]
          refine hissue.bind fun out _ hout => ?_
          obtain ⟨hyes, hlen, hroomy⟩ := hout
          simp only [hyes, if_true]
          rw [hq, List.length_cons] at hfuel
          have hwrites := able.writes
          rw [hq, List.length_cons] at hwrites
          refine Yields.mono (ih ?_ ?_) fun t _ ht => ?_
          · exact ⟨able.mapping, Nat.lt_of_lt_of_eq able.next hlen.symm, hroomy,
              Nat.le_of_succ_le hwrites, able.rounds⟩
          · exact Nat.lt_of_succ_lt_succ hfuel
          · rw [hgone]
            exact ⟨ht.waiting, ht.able, ht.wpqEntries, ht.adrEpoch, ht.imcCurrClk⟩

/-- The read at the front goes. -/
theorem tickRead_yields (hC : NeverFull C roomy) (able : Able roomy rounds s)
    {req : BaseRequest κ} {rest : List (BaseRequest κ)} (hq : s.ctrl.rpq.queue = req :: rest) :
    Yields (tickRead C s) (Comes roomy rounds s (rest, s.ctrl.wpq.queue)) := by
  simp only [tickRead, hq]
  obtain ⟨hfull, hissue⟩ := able.issueTo hC req.addr
    { req with addr := (s.ctrl.mappingFunc req.addr s.next.length).1 }
  simp only [hfull, ok_bind, Bool.false_eq_true, if_false]
  refine hissue.bind fun out _ hout => ?_
  obtain ⟨hyes, hlen, hroomy⟩ := hout
  simp only [hyes, if_true]
  refine .pure ?_
  refine ⟨rfl, ?_, rfl, rfl, rfl⟩
  exact
    { mapping := able.mapping
      next := Nat.lt_of_lt_of_eq able.next hlen.symm
      roomy := hroomy
      writes := able.writes
      rounds := able.rounds }

/-- **The queue chosen is served.** -/
theorem tickQueue_yields (hC : NeverFull C roomy) (able : Able roomy rounds s) :
    Yields (tickQueue C rounds s)
      (Comes roomy rounds s (served s.ctrl.wpq.maxEntries (queues s))) := by
  have hfuel : s.ctrl.wpq.queue.length < rounds := Nat.lt_of_le_of_lt able.writes able.rounds
  -- the writes, where it is their turn
  have hwrites : Yields (do if ← s.ctrl.wpq.full then flushWpq C rounds s else pure s)
      (Comes roomy rounds s (if s.ctrl.wpq.queue.length = s.ctrl.wpq.maxEntries
        then flushed (queues s) else queues s)) := by
    simp only [RequestQueue.full_of_le able.writes, ok_bind, beq_iff_eq]
    split
    · exact flushWpq_yields hC able hfuel
    · exact .pure (.refl able)
  rw [tickQueue]
  cases hr : s.ctrl.rpq.queue with
  | nil =>
      cases hw : s.ctrl.wpq.queue with
      | nil =>
          have hq : served s.ctrl.wpq.maxEntries (queues s) = queues s := by
            rw [queues, hr, hw]
            rfl
          simp only [queueToTick, hr, hw, hq]
          exact .pure (.refl able)
      | cons w ws =>
          have hq : served s.ctrl.wpq.maxEntries (queues s) =
              if s.ctrl.wpq.queue.length = s.ctrl.wpq.maxEntries then flushed (queues s)
              else queues s := by rw [queues, hr, hw]; rfl
          simp only [queueToTick, hr, hw, hq]
          rw [hw] at hwrites
          exact hwrites
  | cons r rs =>
      cases hw : s.ctrl.wpq.queue with
      | nil =>
          have hq : served s.ctrl.wpq.maxEntries (queues s) = (rs, s.ctrl.wpq.queue) := by
            rw [queues, hr, hw]
            rfl
          simp only [queueToTick, hr, hw, hq]
          rw [← hw]
          exact tickRead_yields hC able hr
      | cons w ws =>
          -- the older of the two fronts goes first
          by_cases hold : r.arrive < w.arrive
          · have hq : served s.ctrl.wpq.maxEntries (queues s) = (rs, s.ctrl.wpq.queue) := by
              rw [queues, hr, hw, served, if_pos (by simpa [older] using hold)]
            simp only [queueToTick, hr, hw, hold, if_true, hq]
            rw [← hw]
            exact tickRead_yields hC able hr
          · have hq : served s.ctrl.wpq.maxEntries (queues s) =
                if s.ctrl.wpq.queue.length = s.ctrl.wpq.maxEntries then flushed (queues s)
                else queues s := by
              rw [queues, hr, hw, served, if_neg (by simpa [older] using hold)]
            simp only [queueToTick, hr, hw, hold, if_false, hq]
            rw [hw] at hwrites
            exact hwrites

/-- An epoch ends with this tick. -/
def epochEnds (adrEpoch clk : Clk) : Bool := adrEpoch ≠ 0 ∧ (clk + 1) % adrEpoch = 0

theorem adr_yields (hC : NeverFull C roomy) (able : Able roomy rounds s) :
    Yields (adr C rounds s) (Comes roomy rounds s
      (if epochEnds s.ctrl.adrEpoch s.ctrl.imcCurrClk then flushed (queues s) else queues s)) := by
  have hfuel : s.ctrl.wpq.queue.length < rounds := Nat.lt_of_le_of_lt able.writes able.rounds
  unfold adr
  by_cases hon : s.ctrl.adrEpoch ≠ 0
  · by_cases hend : (s.ctrl.imcCurrClk + 1) % s.ctrl.adrEpoch = 0
    · rw [if_pos hon, if_pos hend, if_pos (by simp [epochEnds, hon, hend])]
      exact flushWpq_yields hC able hfuel
    · rw [if_pos hon, if_neg hend, if_neg (by simp [epochEnds, hend])]
      exact .pure (.refl able)
  · rw [if_neg hon, if_neg (by simp [epochEnds, of_not_not hon])]
    exact .pure (.refl able)

/-- **What a tick does to the queues depends on them alone, and on
whether an epoch ends.** -/
theorem tick_yields (hC : NeverFull C roomy) (able : Able roomy rounds s) :
    Yields (tick C rounds clk s) fun t => queues t =
        ticked s.ctrl.wpq.maxEntries (epochEnds s.ctrl.adrEpoch clk) (queues s) ∧
      Able roomy rounds t ∧ t.ctrl.wpq.maxEntries = s.ctrl.wpq.maxEntries ∧
      t.ctrl.adrEpoch = s.ctrl.adrEpoch := by
  have habler : Able roomy rounds { s with ctrl.imcCurrClk := clk } :=
    ⟨able.mapping, able.next, able.roomy, able.writes, able.rounds⟩
  rw [tick]
  refine (tickQueue_yields hC habler).bind fun t _ ht => ?_
  obtain ⟨hq, hable, hmax, hepoch, hclk⟩ := ht
  change t.ctrl.wpq.maxEntries = s.ctrl.wpq.maxEntries at hmax
  change t.ctrl.adrEpoch = s.ctrl.adrEpoch at hepoch
  change t.ctrl.imcCurrClk = clk at hclk
  change queues t = served s.ctrl.wpq.maxEntries (queues s) at hq
  rw [ticked, ← hq]
  split
  · refine (adr_yields hC hable).mono fun u _ hu => ?_
    rw [← hepoch, ← hclk]
    exact ⟨hu.waiting, hu.able, hu.wpqEntries.trans hmax, hu.adrEpoch⟩
  · rename_i hempty
    have hnil : t.ctrl.wpq.queue = [] := by simpa [RequestQueue.empty] using hempty
    refine .pure ⟨?_, hable, hmax, hepoch⟩
    have hsame : flushed (queues t) = queues t := by simp [flushed, queues, hnil]
    rw [hsame, ite_self]

/-- **The children tick where each of them does.** -/
theorem tickNext_yields (hC : NeverFull C roomy) {next : List σ} (hnext : ∀ st ∈ next, roomy st) :
    Yields (C.tickNext visit clk next) fun out => ∀ st ∈ out.1, roomy st := by
  have hnone : ∀ st ∈ ([] : List σ), roomy st := by simp
  rw [Component.tickNext]
  refine foldlM_yields_of_mem (P := fun acc : List σ × List (Invocation κ) =>
    ∀ st ∈ acc.1, roomy st) (fun acc si hsi hacc => ?_) hnone
  have hst : roomy si.1 := hnext _ (List.fst_mem_of_mem_zipIdx hsi)
  refine (hC.tick (visit.child si.2) clk si.1 hst).bind fun out _ hout => .pure fun st hmem => ?_
  rcases List.mem_append.mp hmem with hold | hnew
  · exact hacc st hold
  · exact List.mem_singleton.mp hnew ▸ hout

/-- **A tick of the component.** -/
theorem component_tick_yields (hC : NeverFull C roomy) (able : Able roomy rounds s) :
    Yields ((component rounds C).tick visit clk s) fun out => queues out.1 =
        ticked s.ctrl.wpq.maxEntries (epochEnds s.ctrl.adrEpoch clk) (queues s) ∧
      Able roomy rounds out.1 ∧ out.1.ctrl.wpq.maxEntries = s.ctrl.wpq.maxEntries ∧
      out.1.ctrl.adrEpoch = s.ctrl.adrEpoch := by
  refine (tick_yields hC able).bind fun t _ ht => ?_
  obtain ⟨hq, hable, hmax, hepoch⟩ := ht
  refine .bind (P := fun out => (∀ st ∈ out.1, roomy st) ∧ out.1.length = t.next.length) ?_
    fun out _ hout => .pure ?_
  · exact (tickNext_yields hC hable.roomy).mono fun out hout hroomy =>
      ⟨hroomy, Component.tickNext_length hout⟩
  · exact ⟨hq, ⟨hable.mapping, Nat.lt_of_lt_of_eq hable.next hout.2.symm, hout.1, hable.writes,
      hable.rounds⟩, hmax, hepoch⟩

/-- Ticks with consecutive clocks. -/
def ticksFrom (visit : ℕ → Visit) (clk : Clk) (n : ℕ) : List (Call κ) :=
  (List.range n).map fun i => .tick (visit i) (clk + UInt64.ofNat i)

/-- **The queues after so many ticks.** -/
theorem run_ticks_yields (hC : NeverFull C roomy) {d : Driven κ (Sys κ σ)}
    (able : Able roomy rounds d.state) (visit : ℕ → Visit) (clk : Clk) (n : ℕ) :
    Yields ((component rounds C).machine.run d (ticksFrom visit clk n)) fun t =>
      queues t.state = after d.state.ctrl.wpq.maxEntries
        (fun i => epochEnds d.state.ctrl.adrEpoch (clk + UInt64.ofNat i)) (queues d.state) n ∧
      Able roomy rounds t.state ∧ t.state.ctrl.wpq.maxEntries = d.state.ctrl.wpq.maxEntries ∧
      t.state.ctrl.adrEpoch = d.state.ctrl.adrEpoch := by
  induction n with
  | zero => exact ⟨d, rfl, rfl, able, rfl, rfl⟩
  | succ n ih =>
      obtain ⟨u, hu, hq, hable, hmax, hepoch⟩ := ih
      obtain ⟨⟨s', ran⟩, htick, hq', hable', hmax', hepoch'⟩ :=
        @component_tick_yields _ _ _ _ _ _ (clk + UInt64.ofNat n) (visit n) hC hable
      refine ⟨{ u with state := s', ran := u.ran ++ ran }, ?_, ?_, hable', hmax'.trans hmax,
        hepoch'.trans hepoch⟩
      · rw [ticksFrom, List.range_succ, List.map_append, List.map_singleton]
        refine Machine.run_concat.mpr ⟨u, hu, ?_⟩
        simp only [Component.machine, htick, ok_bind]
        rfl
      · rw [hq', hmax, hepoch, hq]
        rfl

theorem pendingCurrent_eq_false : pendingCurrent s = false ↔ queues s = ([], []) := by
  simp [pendingCurrent, queues, and_comm]

/-- An epoch there is ends again and again. -/
theorem epochEnds_recurs {adrEpoch : Clk} (h : adrEpoch ≠ 0) (clk : Clk) (n : ℕ) :
    ∃ m, n ≤ m ∧ epochEnds adrEpoch (clk + UInt64.ofNat m) = true := by
  have hlt : clk.toNat < 2 ^ 64 := clk.toNat_lt
  -- at the latest when the clock wraps
  refine ⟨n * 2 ^ 64 + (2 ^ 64 - 1 - clk.toNat), by omega, ?_⟩
  have hwraps : clk + UInt64.ofNat (n * 2 ^ 64 + (2 ^ 64 - 1 - clk.toNat)) + 1 = 0 := by
    apply UInt64.toNat_inj.mp
    rw [UInt64.toNat_add, UInt64.toNat_add, UInt64.toNat_ofNat']
    change ((clk.toNat + _) % 2 ^ 64 + 1) % 2 ^ 64 = 0
    omega
  simp only [epochEnds, hwraps, decide_eq_true_eq]
  exact ⟨h, UInt64.zero_mod⟩

/-- **Whether the ticks that follow empty the queues.** -/
theorem Able.empties_iff {d : Driven κ (Sys κ σ)} (hC : NeverFull C roomy)
    (able : Able roomy rounds d.state) (visit : ℕ → Visit) (clk : Clk) :
    (∃ n t, (component rounds C).machine.run d (ticksFrom visit clk n) = .ok t ∧
        pendingCurrent t.state = false) ↔
      d.state.ctrl.adrEpoch ≠ 0 ∨ Drainable d.state.ctrl.wpq.maxEntries (queues d.state) := by
  have hafter : (∃ n t, (component rounds C).machine.run d (ticksFrom visit clk n) = .ok t ∧
      pendingCurrent t.state = false) ↔
      ∃ n, after d.state.ctrl.wpq.maxEntries
        (fun i => epochEnds d.state.ctrl.adrEpoch (clk + UInt64.ofNat i)) (queues d.state) n =
          ([], []) := by
    refine exists_congr fun n => ?_
    obtain ⟨u, hu, hq, -⟩ := run_ticks_yields hC able visit clk n
    constructor
    · rintro ⟨t, ht, hno⟩
      obtain rfl := Except.ok.inj (hu.symm.trans ht)
      exact hq.symm.trans (pendingCurrent_eq_false.mp hno)
    · intro hnil
      exact ⟨u, hu, pendingCurrent_eq_false.mpr (hq.trans hnil)⟩
  rw [hafter]
  by_cases hepoch : d.state.ctrl.adrEpoch = 0
  · have hends : (fun i => epochEnds d.state.ctrl.adrEpoch (clk + UInt64.ofNat i)) =
        fun _ => false := by
      funext i
      simp [epochEnds, hepoch]
    rw [hends, after_empty_iff able.writes]
    simp [hepoch]
  · exact iff_of_true (after_empty (epochEnds_recurs hepoch clk)) (.inl hepoch)

end Controller

/-! ## What every state keeps -/

/-- What the controller was built with, and the bound of its writes. -/
structure Sys.Built (cfg : Config) (total : ℕ) (s : Sys κ σ) : Prop where
  mapping : s.ctrl.mappingFunc = cfg.mappingFunc
  adrEpoch : s.ctrl.adrEpoch = cfg.adrEpoch
  wpqEntries : s.ctrl.wpq.maxEntries = cfg.wpqEntries
  writes : s.ctrl.wpq.queue.length ≤ cfg.wpqEntries
  count : s.next.length = total

namespace Sys.Built

variable {cfg : Config} {total : ℕ} {C : Component κ σ} {rounds : ℕ} {s t : Sys κ σ}

theorem move {Q : Sys κ σ → BaseRequest κ → Prop} (b : s.Built cfg total) (h : Move C Q s t) :
    t.Built cfg total := by
  obtain ⟨hmap, hepoch, hmax, hwrites, hcount⟩ := b
  cases h with
  | acceptRead | draining => exact ⟨hmap, hepoch, hmax, hwrites, hcount⟩
  | acceptWrite _ room =>
      refine ⟨hmap, hepoch, hmax, ?_, hcount⟩
      simp only [List.length_append, List.length_singleton]
      omega
  | hands hm =>
      cases hm with
      | clock | holdRead => exact ⟨hmap, hepoch, hmax, hwrites, hcount⟩
      | refuseRead _ _ hissue | handRead _ _ hissue =>
          exact ⟨hmap, hepoch, hmax, hwrites, (Component.issueTo_length hissue).trans hcount⟩
      | refuseWrite hq _ hissue =>
          rw [hq] at hwrites
          exact ⟨hmap, hepoch, hmax, hwrites, (Component.issueTo_length hissue).trans hcount⟩
      | handWrite hq _ hissue =>
          rw [hq, List.length_cons] at hwrites
          exact ⟨hmap, hepoch, hmax, Nat.le_of_succ_le hwrites,
            (Component.issueTo_length hissue).trans hcount⟩
  | child hlen => exact ⟨hmap, hepoch, hmax, hwrites, hlen.trans hcount⟩

theorem moves {Q : Sys κ σ → BaseRequest κ → Prop} (b : s.Built cfg total) (h : Moves C Q s t) :
    t.Built cfg total :=
  reflTransGen_keeps (fun _ _ hu hm => hu.move hm) h b

theorem init {next : List σ} : (Sys.init cfg next : Sys κ σ).Built cfg next.length :=
  ⟨rfl, rfl, rfl, Nat.zero_le _, rfl⟩

theorem run {calls : List (Call κ)} {d e : Driven κ (Sys κ σ)} (b : d.state.Built cfg total)
    (h : (component rounds C).machine.run d calls = .ok e) : e.state.Built cfg total := by
  refine Component.run_keeps (fun req s resp req' s' hs hok => ?_)
    (fun visit clk s s' ran hs hok => ?_) (fun s s' hs hok => ?_) b h
  · simp only [component, bind_eq_ok, Prod.exists, pure_eq_ok, Prod.mk.injEq] at hok
    obtain ⟨resp', u, hu, -, -, rfl⟩ := hok
    exact hs.moves (issueRequest_moves (C := C) (Q := Any) trivial hu)
  · exact hs.moves (component_tick_moves (Q := Any) hok)
  · exact hs.moves (drain_moves (Q := Any) hok)

end Sys.Built

/-! ## Draining -/

section Runs

variable {C : Component κ σ} {roomy : σ → Prop} {rounds : ℕ} {cfg : Config} {next : List σ}
  {name : String} {calls : List (Call κ)} {s : Driven κ (Sys κ σ)}

/-- **The controller drains exactly with an epoch, or where nothing keeps
a write.** In every state it comes to, with components below that are
never full from then on, ticks with consecutive clocks leave it with
nothing pending if and only if an epoch is configured, or no write waits,
or the writes fill their queue and, once the reads before the first of
them have gone, the read then in front goes before none of them. -/
theorem drains_iff (hf : getComponentMappingFunc name = .ok cfg.mappingFunc)
    (hnext : 0 < next.length) (hrounds : cfg.wpqEntries < rounds) (hC : NeverFull C roomy)
    (h : (component rounds C).machine.run { state := Sys.init cfg next } calls = .ok s)
    (hroomy : ∀ st ∈ s.state.next, roomy st) (visit : ℕ → Visit) (clk : Clk) :
    (∃ n t, (component rounds C).machine.run s (ticksFrom visit clk n) = .ok t ∧
        pendingCurrent t.state = false) ↔
      cfg.adrEpoch ≠ 0 ∨ Drainable cfg.wpqEntries (queues s.state) := by
  obtain ⟨hmap, hepoch, hmax, hwrites, hcount⟩ := Sys.Built.init.run h
  have able : Able roomy rounds s.state :=
    { mapping := hmap ▸ getComponentMappingFunc_eq_ok hf
      next := hcount ▸ hnext
      roomy := hroomy
      writes := hmax ▸ hwrites
      rounds := hmax ▸ hrounds }
  rw [able.empties_iff hC visit clk, hepoch, hmax]

theorem gate_neverFull : NeverFull (gate : Component κ Bool) (· = false) where
  full := by
    rintro s rfl
    rfl
  issue := by
    rintro req s rfl
    exact .pure ⟨rfl, rfl⟩
  tick := fun _ _ _ h => .pure h

/-- Four writes fill the queue. -/
def fourWrites (adrEpoch : Clk) : Config where
  mappingFunc := noneMapping
  wpqEntries := 4
  rpqEntries := 4
  adrEpoch := adrEpoch

/-- One write, and nothing else. -/
def oneWrite : List (Call ℕ) :=
  [.issueRequest { addr := 64, arrive := 0, type := .write, callback := some 7 }]

theorem drains_iff_epoch :
    ∃ s, (component 5 gate).machine.run { state := Sys.init (fourWrites 8) [false] } oneWrite =
        .ok s ∧
      ∃ n t, (component 5 gate).machine.run s (ticksFrom (fun _ _ => .asHeld) 0 n) = .ok t ∧
        pendingCurrent t.state = false := by
  obtain ⟨s, hrun, hnext⟩ : ∃ s,
      (component 5 gate).machine.run { state := Sys.init (fourWrites 8) [false] } oneWrite =
        .ok s ∧ ∀ st ∈ s.state.next, st = false := ⟨_, rfl, by decide⟩
  exact ⟨s, hrun, (drains_iff (rfl : getComponentMappingFunc "none_mapping" = _) (by decide)
    (by decide) gate_neverFull hrun hnext _ _).mpr (.inl (by decide))⟩

/-- **Without an epoch, a write alone waits for ever**: after every
number of ticks it is pending still. -/
theorem oneWrite_waits :
    ∃ s, (component 5 gate).machine.run { state := Sys.init (fourWrites 0) [false] } oneWrite =
        .ok s ∧ (∀ st ∈ s.state.next, st = false) ∧
      ∀ visit clk n, ∃ t, (component 5 gate).machine.run s (ticksFrom visit clk n) = .ok t ∧
        pendingCurrent t.state = true := by
  obtain ⟨s, hrun, hnext, able, hkept⟩ : ∃ s,
      (component 5 gate).machine.run { state := Sys.init (fourWrites 0) [false] } oneWrite =
        .ok s ∧ s.state.next = [false] ∧ Able (· = false) 5 s.state ∧
      ¬ (s.state.ctrl.adrEpoch ≠ 0 ∨ Drainable s.state.ctrl.wpq.maxEntries (queues s.state)) := by
    refine ⟨_, rfl, rfl, ⟨.inl rfl, by decide, by decide, by decide, by decide⟩, ?_⟩
    rintro (hepoch | ⟨hfull, -⟩)
    · exact hepoch rfl
    · exact absurd hfull (by decide)
  refine ⟨s, hrun, by rw [hnext]; decide, fun visit clk n => ?_⟩
  obtain ⟨t, ht, -⟩ := run_ticks_yields gate_neverFull able visit clk n
  refine ⟨t, ht, Bool.eq_true_of_not_eq_false fun hno => hkept ?_⟩
  exact (able.empties_iff gate_neverFull visit clk).mp ⟨n, t, ht, hno⟩

end Runs

end Imc

end Vans
