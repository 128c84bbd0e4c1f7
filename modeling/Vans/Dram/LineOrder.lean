import Vans.Dram.Conserved
/-!
# The DRAM media controller — the order of a line

The reads and writes of one line are served in the order they were
queued in. They wait in three queues; what keeps them in order is that
the reads of a line are queued before its writes, since a read that
finds a write of its line is forwarded, and that a write is turned to
only where it is older than every read that is queued. Whether it is
older is read off the stamps, which are signed: the order is kept as
long as the clock, read as a signed number, is not taken back.
-/

namespace Vans

namespace Dram

variable {κ γ ς : Type} {k : ℕ}

/-- Reads and writes of the line. -/
def ofLine (x : Addr) (req : Request κ) : Bool :=
  (req.type = .read || req.type = .write) && req.logicAddr = x

/-- A tick does not take the clock back, read as a signed number. -/
def Onward (s : Sys κ γ ς k) : Event κ → Prop
  | .tick newClk => s.ctrl.currClk.toInt64 ≤ newClk.toInt64
  | .issueRequest _ _ _ => True

instance {s : Sys κ γ ς k} : ∀ ev : Event κ, Decidable (Onward s ev)
  | .tick newClk => inferInstanceAs (Decidable (s.ctrl.currClk.toInt64 ≤ newClk.toInt64))
  | .issueRequest _ _ _ => isTrue trivial

/-- The reads and writes that wait for their command, the activated one
first. -/
def Sys.waiting (s : Sys κ γ ς k) : List (Request κ) :=
  s.reqs .act ++ s.reqs .read ++ s.reqs .write

/-- A queue, without the marks. -/
def Sys.marks (s : Sys κ γ ς k) (name : QueueName) : List (Request κ) :=
  (s.reqs name).map unmarked

/-- **The reads of a line are older than its writes**, and the order of
the line is that of the queues. -/
structure Lined (s : Sys κ γ ς k) (l : Ledger κ) : Prop where
  order : ∀ x, (l.queued.map unmarked).filter (ofLine x) =
    ((servedReqs s.log ++ s.waiting).map unmarked).filter (ofLine x)
  accepted : l.queued.Sublist (acceptedReqs s.log)
  past : ∀ req ∈ s.marks .read, req.arrive ≤ s.ctrl.currClk.toInt64
  sorted : (s.marks .read).Pairwise (·.arrive ≤ ·.arrive)
  older : ∀ rd ∈ s.marks .read, ∀ wr ∈ s.marks .write, rd.logicAddr = wr.logicAddr →
    rd.arrive ≤ wr.arrive

namespace Lined

variable {s t : Sys κ γ ς k} {l l' : Ledger κ} {req : Request κ} {x : Addr}

/-- What changes neither the requests of a line nor the stamps. -/
theorem steady (h : Lined s l) (hqueued : l'.queued = l.queued)
    (haccepted : (acceptedReqs s.log).Sublist (acceptedReqs t.log))
    (hclk : s.ctrl.currClk.toInt64 ≤ t.ctrl.currClk.toInt64)
    (hread : (t.marks .read).Sublist (s.marks .read))
    (hwrite : (t.marks .write).Sublist (s.marks .write))
    (horder : ∀ x, ((servedReqs t.log ++ t.waiting).map unmarked).filter (ofLine x) =
      ((servedReqs s.log ++ s.waiting).map unmarked).filter (ofLine x)) : Lined t l' where
  order := fun x => by rw [hqueued, h.order, horder]
  accepted := hqueued ▸ h.accepted.trans haccepted
  past := fun req hreq => Int64.le_trans (h.past req (hread.subset hreq)) hclk
  sorted := h.sorted.sublist hread
  older := fun rd hrd wr hwr => h.older rd (hread.subset hrd) wr (hwrite.subset hwr)

/-- A request of a line is a read or a write, in its queue. -/
theorem type_of_ofLine (h : ofLine x req = true) :
    (req.type = .read ∨ req.type = .write) ∧ req.logicAddr = x := by
  simpa [ofLine] using h

theorem accept (h : Lined s l) (accept : Accept s t req) :
    Lined t { l with queued := l.queued ++ [req] } := by
  have b := accept.became
  obtain ⟨hacc, hserved, -⟩ := b.accepts
  have hact : t.reqs .act = s.reqs .act := by
    rw [b.queue, if_neg (by cases req.type <;> simp [getQueue]), List.append_nil]
  -- a read that finds a write of its line is answered from it, and does not enter
  have hdirect : req.type = .read → ∀ wr ∈ s.marks .write, req.logicAddr ≠ wr.logicAddr := by
    intro htype wr hwr
    obtain ⟨w, hw, rfl⟩ := List.mem_map.mp hwr
    have hdirect := accept.direct
    simp only [Sys.forwards, htype, decide_true, Bool.true_and, List.any_eq_false, beq_iff_eq]
      at hdirect
    exact hdirect w hw
  have hmem : ∀ {name : QueueName} {r : Request κ}, r ∈ t.marks name → r ∈ s.marks name ∨
      (name = getQueue req.type ∧ r = unmarked req) := by
    intro name r hr
    rw [Sys.marks, b.queue, List.map_append, List.mem_append] at hr
    refine hr.imp id fun hr => ?_
    split at hr
    · rename_i hn
      exact ⟨hn, List.mem_singleton.mp hr⟩
    · simp at hr
  refine ⟨fun x => ?_, ?_, fun r hr => ?_, ?_, fun rd hrd wr hwr hline => ?_⟩
  · rw [List.map_append, List.filter_append, h.order]
    simp only [Sys.waiting, hserved, hact, b.queue, List.map_append, List.filter_append,
      List.append_assoc, List.append_cancel_left_eq]
    cases htype : req.type with
    | read =>
        -- no write of the line is queued behind the read
        by_cases hx : req.logicAddr = x
        · have hnil : ((s.reqs .write).map unmarked).filter (ofLine x) = [] := by
            refine List.filter_eq_nil_iff.mpr fun wr hwr hof => ?_
            exact hdirect htype wr hwr (hx.trans (type_of_ofLine hof).2.symm)
          simp [hnil, getQueue]
        · simp [ofLine, unmarked, hx, getQueue]
    | write => simp [getQueue]
    | refresh | powerDown | selfRefresh => simp [ofLine, unmarked, htype, getQueue]
  · rw [hacc]
    exact h.accepted.append_right _
  · rw [b.clock]
    rcases hmem hr with hr | ⟨-, rfl⟩
    · exact h.past r hr
    · exact Int64.le_of_eq accept.arrive
  · rw [Sys.marks, b.queue, List.map_append, List.pairwise_append]
    refine ⟨h.sorted, ?_, fun r hr r' hr' => ?_⟩
    · split <;> simp
    · split at hr'
      · obtain rfl := List.mem_singleton.mp hr'
        exact Int64.le_trans (h.past r hr) (Int64.le_of_eq accept.arrive.symm)
      · simp at hr'
  · rcases hmem hrd with hrd | ⟨htype, rfl⟩
    · rcases hmem hwr with hwr | ⟨-, rfl⟩
      · exact h.older rd hrd wr hwr hline
      · exact Int64.le_trans (h.past rd hrd) (Int64.le_of_eq accept.arrive.symm)
    · have hread : req.type = .read := by
        cases hty : req.type <;> simp [hty, getQueue] at htype ⊢
      rcases hmem hwr with hwr | ⟨hname, -⟩
      · exact absurd hline (hdirect hread wr hwr)
      · rw [hread] at hname
        cases hname

/-- What is left of a queue, the front of another taken. -/
abbrev left (s : Sys κ γ ς k) (name : QueueName) (rest : List (Request κ)) (n : QueueName) :
    List (Request κ) :=
  if n = name then rest else s.reqs n

/-- **The front that is turned to is the first of its line.** -/
theorem take_front {name : QueueName} {rest : List (Request κ)} (h : Lined s l) (kept : Kept s l)
    (turn : Turn s name req rest) :
    left s name rest .act = [] ∧
    ∀ x, ((servedReqs s.log ++ ([{ req with isFirstCmd := false }] ++ left s name rest .read ++
        left s name rest .write)).map unmarked).filter (ofLine x) =
      ((servedReqs s.log ++ s.waiting).map unmarked).filter (ofLine x) := by
  have hmark : unmarked { req with isFirstCmd := false } = unmarked req := rfl
  by_cases hname : name = .act
  · subst hname
    have hrest := kept.rest_eq_nil turn
    subst hrest
    refine ⟨if_pos rfl, fun x => ?_⟩
    simp [left, Sys.waiting, turn.front, hmark]
  have hact := turn.act hname
  refine ⟨(if_neg (Ne.symm hname)).trans hact, fun x => ?_⟩
  have hof : getQueue req.type = name := by
    simpa [isOf] using kept.sorted name hname req (turn.front ▸ List.mem_cons_self)
  simp only [Sys.waiting, hact, List.nil_append, List.map_append, List.filter_append,
    List.append_cancel_left_eq]
  cases name with
  | act => exact absurd rfl hname
  | misc =>
      -- a refresh is of no line
      have hnot : ofLine x (unmarked req) = false := by
        cases hty : req.type <;> simp [hty, getQueue] at hof <;> simp [ofLine, unmarked, hty]
      simp [left, hmark, hnot]
  | read =>
      simp only [left, turn.front, List.map_cons, List.map_nil, hmark, if_true, reduceCtorEq, if_false]
      rw [← List.filter_append]
      rfl
  | write =>
      by_cases hx : ofLine x (unmarked req) = true
      · -- a read of the line would be older than the write
        have hnil : ((s.reqs .read).map unmarked).filter (ofLine x) = [] := by
          refine List.filter_eq_nil_iff.mpr fun rd hrd hof' => ?_
          have hwr : unmarked req ∈ s.marks .write := by
            simp [Sys.marks, turn.front]
          have holder := h.older rd hrd _ hwr
            ((type_of_ofLine hof').2.trans (type_of_ofLine hx).2.symm)
          obtain ⟨r, rs, hreads⟩ := List.exists_cons_of_ne_nil (List.ne_nil_of_mem hrd)
          obtain ⟨first, reads, hqueue, rfl, -⟩ := List.map_eq_cons_iff.mp hreads
          have hfirst := turn.older rfl first (by rw [hqueue]; rfl)
          have hsorted := h.sorted
          rw [Sys.marks, hqueue, List.map_cons, List.pairwise_cons] at hsorted
          have hle : first.arrive ≤ rd.arrive := by
            rw [hqueue, List.map_cons] at hrd
            rcases List.mem_cons.mp hrd with rfl | hrd
            · exact Int64.le_refl _
            · exact hsorted.1 rd hrd
          exact absurd (Int64.le_trans hle holder) (Int64.not_le.mpr hfirst)
        simp [left, hmark, hx, hnil, turn.front]
      · simp [left, hmark, hx, turn.front]

/-- A move that takes the front of a queue, to the activation queue or
out of the queues. -/
theorem taken {name : QueueName} {rest : List (Request κ)} (h : Lined s l) (kept : Kept s l)
    (turn : Turn s name req rest) (hqueued : l'.queued = l.queued)
    (hacc : acceptedReqs t.log = acceptedReqs s.log) (hclk : t.ctrl.currClk = s.ctrl.currClk)
    (hplace : servedReqs t.log ++ t.reqs .act =
      servedReqs s.log ++ [{ req with isFirstCmd := false }])
    (hleft : ∀ n, n ≠ .act → t.reqs n = left s name rest n) : Lined t l' := by
  obtain ⟨-, horder⟩ := h.take_front kept turn
  have hsub : ∀ n, n ≠ .act → (t.marks n).Sublist (s.marks n) := by
    intro n hn
    rw [Sys.marks, hleft n hn, left]
    refine List.Sublist.map _ ?_
    split
    · rename_i hname
      rw [hname, turn.front]
      exact List.sublist_cons_self req rest
    · exact List.Sublist.refl _
  refine h.steady hqueued (hacc ▸ List.Sublist.refl _) (hclk ▸ Int64.le_refl _) (hsub .read (by simp))
    (hsub .write (by simp)) fun x => ?_
  rw [← horder x, Sys.waiting, hleft .read (by simp), hleft .write (by simp)]
  simp only [← List.append_assoc, hplace]

/-- The front of a queue stays there. -/
theorem stays {name : QueueName} {rest : List (Request κ)} (h : Lined s l)
    (turn : Turn s name req rest) (hserved : servedReqs t.log = servedReqs s.log)
    (hacc : acceptedReqs t.log = acceptedReqs s.log) (hclk : t.ctrl.currClk = s.ctrl.currClk)
    (hreqs : ∀ n, t.reqs n =
      if n = name then { req with isFirstCmd := false } :: rest else s.reqs n) : Lined t l := by
  have hmarks : ∀ n, t.marks n = s.marks n := by
    intro n
    rw [Sys.marks, Sys.marks, hreqs]
    split
    · rename_i hn
      rw [hn, turn.front]
      rfl
    · rfl
  refine h.steady rfl (hacc ▸ List.Sublist.refl _) (hclk ▸ Int64.le_refl _)
    (hmarks .read ▸ List.Sublist.refl _) (hmarks .write ▸ List.Sublist.refl _) fun x => ?_
  have hmap : ∀ n, (t.reqs n).map unmarked = (s.reqs n).map unmarked := hmarks
  simp only [Sys.waiting, List.map_append, hserved, hmap]

/-- What leaves the queues as they are, and serves nothing. -/
theorem aside (h : Lined s l) (hqueued : l'.queued = l.queued) (hreqs : t.reqs = s.reqs)
    (hserved : servedReqs t.log = servedReqs s.log)
    (haccepted : (acceptedReqs s.log).Sublist (acceptedReqs t.log))
    (hclk : s.ctrl.currClk.toInt64 ≤ t.ctrl.currClk.toInt64) : Lined t l' := by
  have hmarks : t.marks = s.marks := by
    funext name
    rw [Sys.marks, Sys.marks, hreqs]
  have hwaiting : t.waiting = s.waiting := by
    rw [Sys.waiting, Sys.waiting, hreqs]
  refine h.steady hqueued haccepted hclk (hmarks ▸ List.Sublist.refl _)
    (hmarks ▸ List.Sublist.refl _) fun x => ?_
  rw [hserved, hwaiting]

end Lined

/-! ## What every run keeps -/

section Runs

variable [DecidableEq γ] {spec : Spec γ ς} {s t u : Sys κ γ ς k} {l : Ledger κ}

/-- **A move keeps the order of each line.** -/
theorem Lined.move {new : List (Obs κ γ)} (h : Lined s l) (kept : Kept s l)
    (hmove : Move spec s t) (hlog : t.log = s.log ++ new) :
    Lined t (new.foldl (Ledger.note spec u.forwards t.ctrl.currClk) l) := by
  have hnew : ∀ {obs}, t.log = s.log ++ obs → new = obs := fun h =>
    List.append_cancel_left (hlog.symm.trans h)
  have hacc : ∀ {obs : List (Obs κ γ)}, t.log = s.log ++ obs → acceptedReqs obs = [] →
      acceptedReqs t.log = acceptedReqs s.log := fun hlog hnone => by
    rw [hlog, acceptedReqs_append, hnone, List.append_nil]
  have hserved : ∀ {obs served}, t.log = s.log ++ obs → servedReqs obs = served →
      servedReqs t.log = servedReqs s.log ++ served := fun hlog hserved => by
    rw [hlog, servedReqs_append, hserved]
  cases hmove with
  | refresh req htype accept =>
      obtain rfl := hnew accept.became.log
      have hfwd : u.forwards req = false := by simp [Sys.forwards, htype]
      simpa [Ledger.note, hfwd] using h.accept accept
  | answer req rest callback hfront hdepart hcallback b =>
      obtain rfl := hnew b.log
      exact h.aside rfl (funext b.queue) ((hserved b.log rfl).trans (List.append_nil _))
        (hacc b.log rfl ▸ List.Sublist.refl _) (b.clock ▸ Int64.le_refl _)
  | adjust b =>
      obtain rfl := hnew b.log
      exact h.aside rfl (funext b.queue) ((hserved b.log rfl).trans (List.append_nil _))
        (hacc b.log rfl ▸ List.Sublist.refl _) (b.clock ▸ Int64.le_refl _)
  | prepare name req rest cmd channel turn _ _ _ _ b =>
      obtain rfl := hnew b.log
      exact h.stays turn ((hserved b.log rfl).trans (List.append_nil _)) (hacc b.log rfl) b.clock
        b.queue
  | activate name req rest cmd channel turn _ _ _ _ _ b =>
      obtain rfl := hnew b.log
      refine h.taken kept turn rfl (hacc b.log rfl) b.clock ?_ fun n hn => ?_
      · have hact : left s name rest .act = [] := (h.take_front kept turn).1
        simp only [left] at hact
        rw [hserved b.log rfl, b.queue, if_pos rfl, hact]
        simp [servedReqs, Obs.servedReq]
      · rw [b.queue, if_neg hn, List.append_nil]
  | serve name req rest cmd channel turn _ _ _ _ b =>
      obtain rfl := hnew b.log
      refine h.taken kept turn ?_ (hacc b.log rfl) b.clock ?_ fun n _ => b.queue n
      · simp only [List.foldl_cons, List.foldl_nil, Ledger.note]
        split <;> rfl
      · have hact : left s name rest .act = [] := (h.take_front kept turn).1
        simp only [left] at hact
        rw [hserved b.log rfl, b.queue, hact, List.append_nil]
        rfl

/-- **Every call keeps the order of each line**, if it does not take the
clock back. -/
theorem Lined.step {a b : Audited κ γ ς k} {ev : Event κ} (h : Lined a.sys a.ledger)
    (kept : Kept a.sys a.ledger) (honward : Onward a.sys ev)
    (hstep : (audited spec k).step a ev = .ok b) : Lined b.sys b.ledger := by
  simp only [audited, bind_eq_ok, pure_eq_ok] at hstep
  obtain ⟨t, ht, rfl⟩ := hstep
  change Lined t (a.ledger.extend spec a.sys t)
  cases ev with
  | issueRequest logicAddr type callback =>
      simp only [machine, bind_eq_ok, Prod.exists, pure_eq_ok] at ht
      obtain ⟨request, -, issued, t', hissue, rfl⟩ := ht
      obtain ⟨-, rfl, -⟩ | ⟨-, req, -, haccept | hforward⟩ := issueRequest_cases hissue
      · simpa [Ledger.extend] using h
      · have hlined := h.accept haccept
        rw [Ledger.extend, drop_log haccept.became.log]
        simpa [Ledger.note, haccept.direct] using hlined
      · have b := hforward.became
        rw [Ledger.extend, drop_log b.log]
        refine h.aside ?_ (funext b.queue) ?_ ?_ (b.clock ▸ Int64.le_refl _)
        · simp [Ledger.note, hforward.forwards]
        · rw [b.log, servedReqs_append]
          exact List.append_nil _
        · rw [b.log, acceptedReqs_append]
          exact List.sublist_append_left _ _
  | tick clk =>
      have hkept : Kept { a.sys with ctrl.currClk := clk } a.ledger :=
        kept.steady rfl (fun _ => rfl) rfl rfl rfl
      have hlined : Lined { a.sys with ctrl.currClk := clk } a.ledger :=
        h.aside rfl rfl rfl (List.Sublist.refl _) honward
      obtain ⟨new, hlog, -, -, hlined⟩ := Moves.keeps (u := a.sys)
        (P := fun s l => Kept s l ∧ Lined s l)
        (fun _ _ _ _ hmove hlog hP => ⟨hP.1.move hmove hlog, hP.2.move hP.1 hmove hlog⟩)
        (tick_moves ht) ⟨hkept, hlined⟩
      rw [Ledger.extend, drop_log hlog]
      exact hlined

omit [DecidableEq γ] in
theorem Lined.new {cfg : Config} (h : Sys.new spec k cfg = .ok s) : Lined s {} := by
  simp only [Sys.new, bind_eq_ok] at h
  obtain ⟨mapper, -, h⟩ := h
  split at h
  · simp only [bind_eq_ok, throw_ne_ok, false_and, exists_false] at h
  · obtain rfl := pure_eq_ok.mp h
    exact ⟨fun x => rfl, List.Sublist.refl _, fun r hr => absurd hr List.not_mem_nil, .nil,
      fun r hr => absurd hr List.not_mem_nil⟩

end Runs

namespace Ddr4

variable {κ : Type} {o : Organization} {t : Timing} {cfg : Config} {s₀ : Memory κ}
  {a : Audited κ Command State 2} {es : List (Event κ)}

end Ddr4

end Dram

end Vans
