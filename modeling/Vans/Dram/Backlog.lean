import Vans.Dram.Conserved
import Vans.Dram.Progress
/-!
# DDR4 — the commands that are still to be issued

Which command a request needs next follows from the rows that are open,
and so does how many it needs: a column of a closed row up to three, a
refresh up to two. Each command the scheduler issues leaves fewer to be
issued; for the refreshes and the activated row among themselves, and
for them together with the requests that came before a given clock.
-/

namespace Vans

namespace Dram

/-! ## A command is issued -/

variable {κ γ ς : Type} {k : ℕ}

/-- What is left of a request for which a command was issued. -/
def marked (req : Request κ) : Request κ := { req with isFirstCmd := false }

/-- **A command was issued** for the front of a queue: the request stays,
goes to the activation queue, or is done. -/
structure Issues [DecidableEq γ] (spec : Spec γ ς) (s t : Sys κ γ ς k) (name : QueueName)
    (req : Request κ) (rest : List (Request κ)) (cmd : γ) : Prop where
  front : s.reqs name = req :: rest
  first : getFirstCmd spec req s = .ok cmd
  updated : update spec cmd req.mappedAddr s.ctrl.currClk (k + 1) s.ctrl.channel =
    .ok t.ctrl.channel
  queue : ∀ n, t.reqs n =
    (if n = name then (if spec.ends cmd || spec.isOpening cmd then rest else marked req :: rest)
      else s.reqs n) ++
    if n = .act ∧ spec.ends cmd = false ∧ spec.isOpening cmd = true then [marked req] else []
  bound : ∀ n, (t.ctrl.queue n).maxEntries = (s.ctrl.queue n).maxEntries
  pending : t.ctrl.pendingQueue = s.ctrl.pendingQueue ++
    if spec.ends cmd = true ∧ req.type = .read then
      [{ marked req with depart := (s.ctrl.currClk + UInt64.ofInt spec.readLatency).toInt64 }]
    else []
  commands : issued t.log = issued s.log ++ [⟨cmd, req.mappedAddr, s.ctrl.currClk⟩]
  clock : t.ctrl.currClk = s.ctrl.currClk
  refreshed : t.ctrl.lastRefreshedClk = s.ctrl.lastRefreshedClk
  mapper : t.mapper = s.mapper

section Schedule

variable [DecidableEq γ] {spec : Spec γ ς} {s t : Sys κ γ ς k} {name : QueueName}
  {req : Request κ} {rest : List (Request κ)} {cmd : γ}

omit [DecidableEq γ] in
@[simp] theorem lastRefreshedClk_setQueue {c : Controller κ γ ς k} {reqs : List (Request κ)} :
    (c.setQueue name reqs).lastRefreshedClk = c.lastRefreshedClk := by
  cases name <;> rfl

omit [DecidableEq γ] in
/-- What follows a command moves its request, and leaves everything else. -/
theorem afterCmd_eq : (∀ n, (afterCmd spec name cmd (marked req) rest s).reqs n =
      (if n = name then (if spec.ends cmd || spec.isOpening cmd then rest else marked req :: rest)
        else s.reqs n) ++
      if n = .act ∧ spec.ends cmd = false ∧ spec.isOpening cmd = true then [marked req] else []) ∧
    (∀ n, ((afterCmd spec name cmd (marked req) rest s).ctrl.queue n).maxEntries =
      (s.ctrl.queue n).maxEntries) ∧
    (afterCmd spec name cmd (marked req) rest s).ctrl.pendingQueue = s.ctrl.pendingQueue ++
      (if spec.ends cmd = true ∧ req.type = .read then
        [{ marked req with depart := (s.ctrl.currClk + UInt64.ofInt spec.readLatency).toInt64 }]
      else []) ∧
    issued (afterCmd spec name cmd (marked req) rest s).log = issued s.log := by
  have hends : (spec.isAccessing cmd || spec.isRefreshing cmd) = spec.ends cmd := rfl
  unfold afterCmd
  dsimp only
  rw [hends]
  cases he : spec.ends cmd with
  | false =>
      cases ho : spec.isOpening cmd with
      | false =>
          -- the request stays
          refine ⟨fun n => ?_, fun n => ?_, ?_, ?_⟩
          · cases name <;> cases n <;> simp [Sys.reqs, Controller.queue, Controller.setQueue]
          all_goals simp
      | true =>
          -- its row was opened
          refine ⟨fun n => ?_, fun n => ?_, ?_, ?_⟩
          · cases name <;> cases n <;> simp [Sys.reqs, Controller.queue, Controller.setQueue]
          all_goals simp
  | true =>
      -- it is done
      have hread : (marked req).type = req.type := rfl
      simp only [Bool.not_true, Bool.false_eq_true, if_false, hread]
      split
      all_goals
        rename_i htype
        refine ⟨fun n => ?_, fun n => ?_, ?_, ?_⟩
        · cases name <;> cases n <;>
            simp [Sys.reqs, Sys.emit, Controller.queue, Controller.setQueue]
        · cases name <;> cases n <;> rfl
        · simp [Sys.emit, htype]
        · simp [Sys.emit, issued, Obs.issuedCmd]

omit [DecidableEq γ] in
theorem afterCmd_fields : (afterCmd spec name cmd req rest s).ctrl.channel = s.ctrl.channel ∧
    (afterCmd spec name cmd req rest s).ctrl.currClk = s.ctrl.currClk ∧
    (afterCmd spec name cmd req rest s).ctrl.lastRefreshedClk = s.ctrl.lastRefreshedClk ∧
    (afterCmd spec name cmd req rest s).mapper = s.mapper := by
  unfold afterCmd
  dsimp only
  split
  · split <;> simp
  · split <;> simp [Sys.emit]

/-- **At most one command is issued**: where the front is ready, and the
command it was found ready for. -/
theorem schedule_cases (h : schedule spec name s = .ok t) :
    (t = s ∧ (s.reqs name = [] ∨ ∃ req rest, s.reqs name = req :: rest ∧
      isReady spec req s = .ok false)) ∨
    ∃ req rest cmd, Issues spec s t name req rest cmd := by
  unfold schedule at h
  split at h
  · rename_i hnil
    exact .inl ⟨(pure_eq_ok.mp h).symm, .inl hnil⟩
  · rename_i req rest hq
    simp only [bind_eq_ok] at h
    obtain ⟨ready, hready, h⟩ := h
    cases ready with
    | false =>
        simp only [Bool.not_false, if_true, pure_eq_ok] at h
        exact .inl ⟨h.symm, .inr ⟨req, rest, hq, hready⟩⟩
    | true =>
        simp only [Bool.not_true, Bool.false_eq_true, if_false, bind_eq_ok, pure_eq_ok] at h
        obtain ⟨cmd, hcmd, u, hu, rfl⟩ := h
        simp only [issueCmd, bind_eq_ok, pure_eq_ok] at hu
        obtain ⟨channel, hupdate, rfl⟩ := hu
        obtain ⟨hqueue, hbound, hpending, hissued⟩ := @afterCmd_eq κ γ ς k spec
          (({ s with ctrl.channel := channel } : Sys κ γ ς k).emit
            (.issued cmd req.mappedAddr s.ctrl.currClk)) name req rest cmd
        obtain ⟨hchannel, hclock, hrefreshed, hmapper⟩ := @afterCmd_fields κ γ ς k spec
          (({ s with ctrl.channel := channel } : Sys κ γ ς k).emit
            (.issued cmd req.mappedAddr s.ctrl.currClk)) name (marked req) rest cmd
        refine .inr ⟨req, rest, cmd, hq, hcmd, hchannel ▸ hupdate, hqueue, hbound, hpending, ?_,
          hclock, hrefreshed, hmapper⟩
        exact hissued.trans issued_append

/-- **A front that is found ready is issued its command.** -/
theorem schedule_issues (hfront : s.reqs name = req :: rest)
    (hfirst : getFirstCmd spec req s = .ok cmd)
    (hready : check spec cmd req.mappedAddr s.ctrl.currClk (k + 1) 0 s.ctrl.channel = .ok true)
    (hstate : ∃ d, updateState spec cmd req.mappedAddr (k + 1) 0 s.ctrl.channel = .ok d) :
    ∃ t, schedule spec name s = .ok t ∧ Issues spec s t name req rest cmd := by
  obtain ⟨d, hd⟩ := hstate
  have hisReady : isReady spec req s = .ok true := by
    rw [isReady, hfirst, ok_bind]
    exact hready
  have hfront' : (s.ctrl.queue name).queue = req :: rest := hfront
  obtain ⟨t, ht⟩ : ∃ t, schedule spec name s = .ok t := by
    unfold schedule
    rw [hfront']
    simp only [hisReady, hfirst, issueCmd, update, hd, ok_bind]
    exact ⟨_, rfl⟩
  refine ⟨t, ht, ?_⟩
  rcases schedule_cases ht with ⟨-, hnil | ⟨req', rest', hq, hno⟩⟩ | ⟨req', rest', cmd', hissues⟩
  · rw [hfront] at hnil
    cases hnil
  · obtain ⟨rfl, rfl⟩ := List.cons.inj (hfront.symm.trans hq)
    rw [hisReady] at hno
    cases hno
  · obtain ⟨rfl, rfl⟩ := List.cons.inj (hfront.symm.trans hissues.front)
    obtain rfl := Except.ok.inj (hfirst.symm.trans hissues.first)
    exact hissues

end Schedule

/-- **A place in the tree has its bank.** -/
theorem Sized.bankAt {spec : Spec γ ς} {addr : MappedAddr} : ∀ {k level : ℕ} {d : Dram γ ς k},
    Sized spec k level d → InRange spec k level addr →
    ∃ b, Dram.bankAt (path addr) k level d = some b
  | 0, _, d, _, _ => ⟨d, rfl⟩
  | _ + 1, _, _, sized, hin => by
    obtain ⟨c, -, hc, hsized⟩ := sized.child hin
    obtain ⟨b, hb⟩ := hsized.bankAt hin.below
    refine ⟨b, ?_⟩
    rw [Dram.bankAt, path, child_eq_ok.mp hc]
    exact hb

namespace Ddr4

/-! ## The command a request needs next -/

/-- The rows that are open, as the record has them. -/
def rowsOf (s : Memory κ) : Path → Option UInt64 := fun p => openRow p (issued s.log)

/-- A row of the rank is open. -/
def RankOpen (rows : Path → Option UInt64) (addr : MappedAddr) : Prop :=
  ∃ p : Path, p 1 = path addr 1 ∧ rows p ≠ none

open Classical in
/-- **The command a request needs next**: a refresh closes its rank first,
and a column has its row opened, and any other row closed before. -/
noncomputable def nextCmd (rows : Path → Option UInt64) (req : Request κ) : Command :=
  if req.type = .refresh then if RankOpen rows req.mappedAddr then .PREA else .REF
  else
    match rows (path req.mappedAddr) with
    | none => .ACT
    | some row => if row = coord req.mappedAddr 4 then reqToCmd req.type else .PRE

/-- The commands a request still needs, by the one it needs next. After a
rank was closed a row of it may have to be opened once more. -/
def weight : Command → ℕ
  | .PRE | .PREA => 3
  | .ACT => 2
  | _ => 1

section Next

variable {o : Organization} {t : Timing} {d : Dram Command State 3} {rows : Path → Option UInt64}
  {addr : MappedAddr} {s : Memory κ} {req : Request κ}

/-- A rank is found open exactly where a row of it is. -/
theorem someOpen_iff {rank : Dram Command State 2} (hrank : d.2[path addr 1]? = some rank)
    (hrows : Rows d rows) : someOpen rank = true ↔ RankOpen rows addr := by
  constructor
  · intro hopen
    obtain ⟨group, hgroup, hbanks⟩ := List.any_eq_true.mp hopen
    obtain ⟨bank, hbank, hstate⟩ := List.any_eq_true.mp hbanks
    obtain ⟨i, hi, rfl⟩ := List.getElem_of_mem hgroup
    obtain ⟨j, hj, rfl⟩ := List.getElem_of_mem hbank
    -- the path of indices to the bank that was found
    refine ⟨fun l => if l = 1 then path addr 1 else if l = 2 then i else j, rfl, fun hnone => ?_⟩
    have hat : bankState (fun l => if l = 1 then path addr 1 else if l = 2 then i else j) 3 0 d =
        some (Node.state rank.2[i].2[j]) := by
      simp [bankState, bankAt, hrank, hi, hj]
    have hsame := hrows.state_eq hat
    rw [hnone] at hsame
    exact of_decide_eq_true hstate (congrArg Prod.fst hsame)
  · rintro ⟨p, hp, hrow⟩
    rcases hrows p with ⟨-, hnone⟩ | hsome
    · exact absurd hnone hrow
    · obtain ⟨row, hrow⟩ := Option.ne_none_iff_exists'.mp hrow
      rw [hrow, bankState, Option.map_eq_some_iff] at hsome
      obtain ⟨b, hb, hstate⟩ := hsome
      simp only [bankAt, Option.bind_eq_bind, Option.bind_eq_some_iff] at hb
      obtain ⟨rank', hrank', group, hgroup, bank, hbank, hb⟩ := hb
      obtain rfl : bank = b := Option.some.inj hb
      obtain rfl : rank = rank' := Option.some.inj (hrank.symm.trans (hp ▸ hrank'))
      have hopened : bank.currState = .opened := congrArg Prod.fst hstate
      refine List.any_eq_true.mpr ⟨group, List.mem_of_getElem? hgroup, List.any_eq_true.mpr
        ⟨bank, List.mem_of_getElem? hbank, decide_eq_true ?_⟩⟩
      rw [hopened]
      decide

/-- **The tree asks for the command the rows call for.** -/
theorem firstCmd_eq (sch : Scheduled s) (sized : Sized (spec o t) 3 0 s.ctrl.channel)
    (hin : InRange (spec o t) 3 0 req.mappedAddr)
    (htype : req.type = .read ∨ req.type = .write ∨ req.type = .refresh) :
    getFirstCmd (spec o t) req s = .ok (nextCmd (rowsOf s) req) := by
  have hcolumn : req.type = .read ∨ req.type = .write →
      getFirstCmd (spec o t) req s = .ok (nextCmd (rowsOf s) req) := by
    intro hty
    obtain ⟨b, hb⟩ := sized.bankAt hin
    have hstate : b.state = stateOf (rowsOf s (path req.mappedAddr)) :=
      sch.rows.state_eq (by rw [bankState, hb]; rfl)
    have hne : req.type ≠ .refresh := by rcases hty with h | h <;> rw [h] <;> decide
    refine (decode_column (isColumn_reqToCmd hty) sch.ranks hb).trans ?_
    rw [nextCmd, if_neg hne]
    unfold accessBank
    cases hrow : rowsOf s (path req.mappedAddr) with
    | none =>
        rw [hrow] at hstate
        rw [show b.currState = .closed from congrArg Prod.fst hstate]
        rfl
    | some row =>
        rw [hrow] at hstate
        rw [show b.currState = .opened from congrArg Prod.fst hstate,
          show b.rowState = [row] from congrArg Prod.snd hstate]
        by_cases hsame : row = coord req.mappedAddr 4
        · subst hsame
          simp
        · simp [hsame, Ne.symm hsame]
  rcases htype with hty | hty | hty
  · exact hcolumn (.inl hty)
  · exact hcolumn (.inr hty)
  · obtain ⟨rank, -, hc, -⟩ := sized.child hin
    have hrank : s.ctrl.channel.2[path req.mappedAddr 1]? = some rank := child_eq_ok.mp hc
    obtain ⟨rank', hrank', hdec⟩ | ⟨hnone, -⟩ := @decode_refresh o t req.mappedAddr s.ctrl.channel
    · obtain rfl := Option.some.inj (hrank.symm.trans hrank')
      rw [getFirstCmd, nextCmd, if_pos hty, hty]
      refine hdec.trans (congrArg Except.ok ?_)
      have hiff := someOpen_iff hrank sch.rows
      by_cases hopen : RankOpen (rowsOf s) req.mappedAddr
      · rw [if_pos hopen, if_pos (hiff.mpr hopen)]
      · rw [if_neg hopen, if_neg (mt hiff.mp hopen)]
    · rw [hrank] at hnone
      cases hnone

end Next

/-! ## What is still to be issued -/

/-- The queue of columns the controller turns to: the one with the older
front, and the reads where neither is older. -/
def columnName (s : Memory κ) : QueueName :=
  match s.reqs .write, s.reqs .read with
  | wreq :: _, rreq :: _ => if wreq.arrive < rreq.arrive then .write else .read
  | _ :: _, [] => .write
  | [], _ => .read

/-- The requests of a queue that came by the clock. -/
def cameBy (a : ℤ) (reqs : List (Request κ)) : List (Request κ) :=
  reqs.filter fun req => req.arrive.toInt ≤ a

/-- The columns queued by the clock. -/
def olderCount (a : ℤ) (s : Memory κ) : ℕ :=
  (cameBy a (s.reqs .read)).length + (cameBy a (s.reqs .write)).length

/-- The commands a queue still needs. -/
noncomputable def frontWork (rows : Path → Option UInt64) : List (Request κ) → ℕ
  | [] => 0
  | req :: rest => weight (nextCmd rows req) + 3 * rest.length

/-- The mark of the front changes nothing of when it came. -/
theorem length_cameBy_marked {a : ℤ} {req : Request κ} {rest : List (Request κ)} :
    (cameBy a (marked req :: rest)).length = (cameBy a (req :: rest)).length := by
  have harrive : (marked req).arrive = req.arrive := rfl
  by_cases hcame : req.arrive.toInt ≤ a <;> simp [cameBy, harrive, hcame]

@[simp] theorem nextCmd_marked {rows : Path → Option UInt64} {req : Request κ} :
    nextCmd rows (marked req) = nextCmd rows req := rfl

@[simp] theorem frontWork_nil {rows : Path → Option UInt64} :
    frontWork rows ([] : List (Request κ)) = 0 := rfl

theorem frontWork_cons {rows : Path → Option UInt64} {req : Request κ} {rest : List (Request κ)} :
    frontWork rows (req :: rest) = weight (nextCmd rows req) + 3 * rest.length := rfl

/-- The commands to come before any column that is not activated. -/
noncomputable def urgentWork (s : Memory κ) : ℕ :=
  (s.reqs .act).length + frontWork (rowsOf s) (s.reqs .misc)

/-- The commands for the columns queued by the clock. -/
noncomputable def columnWork (a : ℤ) (s : Memory κ) : ℕ :=
  match s.reqs (columnName s) with
  | [] => 0
  | req :: _ =>
    if req.arrive.toInt ≤ a then weight (nextCmd (rowsOf s) req) + 3 * (olderCount a s - 1) else 0

section Work

variable {o : Organization} {t : Timing} {rows rows' : Path → Option UInt64} {s u : Memory κ}
  {name : QueueName} {req : Request κ} {rest reqs : List (Request κ)} {cmd : Command} {a : ℤ}

theorem weight_pos : 1 ≤ weight cmd := by
  cases cmd <;> decide

theorem weight_le : weight cmd ≤ 3 := by
  cases cmd <;> decide

theorem frontWork_le : frontWork rows reqs ≤ 3 * reqs.length := by
  cases reqs with
  | nil => exact Nat.zero_le _
  | cons req rest =>
      have hle := @weight_le (nextCmd rows req)
      rw [frontWork, List.length_cons]
      omega

theorem columnName_eq : columnName s = .read ∨ columnName s = .write := by
  unfold columnName
  split
  · split
    · exact .inr rfl
    · exact .inl rfl
  · exact .inr rfl
  · exact .inl rfl

/-- The clocks the fronts came at decide it. -/
theorem columnName_congr
    (hread : (u.reqs .read).head?.map (·.arrive) = (s.reqs .read).head?.map (·.arrive))
    (hwrite : (u.reqs .write).head?.map (·.arrive) = (s.reqs .write).head?.map (·.arrive)) :
    columnName u = columnName s := by
  unfold columnName
  cases hr : s.reqs .read <;> cases hr' : u.reqs .read <;> cases hw : s.reqs .write <;>
    cases hw' : u.reqs .write <;> simp_all

/-- An older front is one of those counted. -/
theorem olderCount_pos (hfront : s.reqs (columnName s) = req :: rest) (ha : req.arrive.toInt ≤ a) :
    1 ≤ olderCount a s := by
  have hmem : req ∈ cameBy a (s.reqs (columnName s)) := by
    rw [hfront, cameBy]
    simp [ha]
  have hpos := List.length_pos_of_mem hmem
  rcases columnName_eq (s := s) with h | h <;> rw [h] at hpos <;> rw [olderCount] <;> omega

theorem columnWork_le : columnWork a s ≤ 3 * olderCount a s := by
  unfold columnWork
  split
  · exact Nat.zero_le _
  · rename_i req rest hfront
    split
    · rename_i ha
      have hpos := olderCount_pos hfront ha
      have hle := @weight_le (nextCmd (rowsOf s) req)
      omega
    · exact Nat.zero_le _

/-- What is the same for the columns. -/
theorem columnWork_congr (hread : u.reqs .read = s.reqs .read)
    (hwrite : u.reqs .write = s.reqs .write) {n : ℕ}
    (hnext : ∀ req : Request κ, req.type = .read ∨ req.type = .write →
      weight (nextCmd (rowsOf u) req) ≤ weight (nextCmd (rowsOf s) req) + n)
    (htypes : ∀ req ∈ s.reqs (columnName s), req.type = .read ∨ req.type = .write) :
    columnWork a u ≤ columnWork a s + n := by
  have hqueue : u.reqs (columnName u) = s.reqs (columnName s) := by
    have hname : columnName u = columnName s :=
      columnName_congr (by rw [hread]) (by rw [hwrite])
    rw [hname]
    rcases columnName_eq (s := s) with h | h <;> rw [h]
    · exact hread
    · exact hwrite
  have hcount : olderCount a u = olderCount a s := by rw [olderCount, olderCount, hread, hwrite]
  unfold columnWork
  rw [hqueue, hcount]
  split
  · exact Nat.zero_le _
  · rename_i req rest hfront
    have hle := hnext req (htypes req (hfront ▸ List.mem_cons_self))
    split
    · omega
    · exact Nat.zero_le _

/-- A queue of columns holds columns. -/
theorem columns_type (sch : Scheduled s) :
    ∀ req ∈ s.reqs (columnName s), req.type = .read ∨ req.type = .write := by
  intro req hreq
  have htype := sch.types _ req hreq
  rcases columnName_eq (s := s) with hn | hn <;> rw [hn] at htype
  · exact .inl htype
  · exact .inr htype

/-- A command after which the same rows are open. -/
theorem rowsOf_same (hcmd : cmd = .RD ∨ cmd = .WR ∨ cmd = .REF)
    (h : Issues (spec o t) s u name req rest cmd) : rowsOf u = rowsOf s := by
  funext p
  rw [rowsOf, rowsOf, h.commands, openRow_concat]
  rcases hcmd with rfl | rfl | rfl <;> rfl

/-- **An activated request is served.** -/
theorem act_work (h : Issues (spec o t) s u .act req rest cmd) (sch : Scheduled s)
    (hnext : cmd = nextCmd (rowsOf s) req) :
    urgentWork u + 1 ≤ urgentWork s ∧ columnWork a u ≤ columnWork a s := by
  have hmem : req ∈ s.reqs .act := h.front ▸ List.mem_cons_self
  have htype : req.type = .read ∨ req.type = .write := sch.types .act req hmem
  have hrow : rowsOf s (path req.mappedAddr) = some (coord req.mappedAddr 4) :=
    (sch.opened req hmem).2
  have hne : req.type ≠ .refresh := by rcases htype with h | h <;> rw [h] <;> decide
  rw [nextCmd, if_neg hne, hrow] at hnext
  simp only [if_true] at hnext
  have hcol : cmd = .RD ∨ cmd = .WR := hnext ▸ isColumn_reqToCmd htype
  have hrows := rowsOf_same (hcol.imp_right .inl) h
  have hends : (spec o t).ends cmd = true := by rcases hcol with rfl | rfl <;> rfl
  have hqueue : ∀ n, u.reqs n = if n = .act then rest else s.reqs n := by
    intro n
    rw [h.queue n]
    simp [hends]
  constructor
  · have hact := congrArg List.length h.front
    rw [List.length_cons] at hact
    rw [urgentWork, urgentWork, hrows, hqueue, hqueue]
    simp only [if_true, reduceCtorEq, if_false]
    omega
  · have hle := columnWork_congr (a := a) (n := 0) (hqueue .read) (hqueue .write)
      (fun r _ => by rw [hrows]; exact Nat.le_refl _) fun r hr => ?_
    · exact hle
    · exact columns_type sch r hr

/-- **A refresh is on its way**: its rank is closed, and then it is
issued. Closing the rank may close the row a column was to find open. -/
theorem misc_work (h : Issues (spec o t) s u .misc req rest cmd) (sch : Scheduled s)
    (hact : s.reqs .act = []) (hnext : cmd = nextCmd (rowsOf s) req) :
    urgentWork u + 1 ≤ urgentWork s ∧
      urgentWork u + columnWork a u + 1 ≤ urgentWork s + columnWork a s := by
  have htype : req.type = .refresh := sch.types .misc req (h.front ▸ List.mem_cons_self)
  have hcount : frontWork (rowsOf u) rest ≤ 3 * rest.length := frontWork_le
  by_cases hopen : RankOpen (rowsOf s) req.mappedAddr
  · -- its rank is closed first
    obtain rfl : cmd = .PREA := by rw [hnext, nextCmd, if_pos htype, if_pos hopen]
    have hrows : ∀ p, rowsOf u p = if p 1 = path req.mappedAddr 1 then none else rowsOf s p := by
      intro p
      rw [rowsOf, h.commands, openRow_concat]
      rfl
    have hqueue : ∀ n, u.reqs n = if n = .misc then marked req :: rest else s.reqs n := by
      intro n
      rw [h.queue n]
      simp [Spec.ends, spec, isAccessing, isRefreshing, isOpening]
    have hclosed : nextCmd (rowsOf u) req = .REF := by
      rw [nextCmd, if_pos htype, if_neg]
      rintro ⟨p, hp, hrow⟩
      rw [hrows, if_pos hp] at hrow
      exact hrow rfl
    have hcolumn := columnWork_congr (a := a) (n := 1) (hqueue .read) (hqueue .write)
      (fun r hr => ?_) (columns_type sch)
    · have hfront : nextCmd (rowsOf s) req = .PREA := hnext.symm
      rw [urgentWork, urgentWork, hqueue, hqueue, h.front]
      simp only [reduceCtorEq, if_false, if_true, hact, List.length_nil, frontWork_cons,
        nextCmd_marked, hclosed, hfront, weight]
      omega
    · -- the row the column asks for is as it was, or closed
      have hne : r.type ≠ .refresh := by rcases hr with h | h <;> rw [h] <;> decide
      have hpos := @weight_pos (nextCmd (rowsOf s) r)
      by_cases hp : path r.mappedAddr 1 = path req.mappedAddr 1
      · have hnone : nextCmd (rowsOf u) r = .ACT := by rw [nextCmd, if_neg hne, hrows, if_pos hp]
        rw [hnone]
        change 2 ≤ _
        omega
      · have hsame : nextCmd (rowsOf u) r = nextCmd (rowsOf s) r := by
          rw [nextCmd, nextCmd, if_neg hne, if_neg hne, hrows, if_neg hp]
        rw [hsame]
        exact Nat.le_succ _
  · -- and then it is issued
    obtain rfl : cmd = .REF := by rw [hnext, nextCmd, if_pos htype, if_neg hopen]
    have hrows := rowsOf_same (.inr (.inr rfl)) h
    have hqueue : ∀ n, u.reqs n = if n = .misc then rest else s.reqs n := by
      intro n
      rw [h.queue n]
      simp [Spec.ends, spec, isAccessing, isRefreshing]
    have hcolumn := columnWork_congr (a := a) (n := 0) (hqueue .read) (hqueue .write)
      (fun r _ => by rw [hrows]; exact Nat.le_refl _) (columns_type sch)
    have hfront : nextCmd (rowsOf s) req = .REF := hnext.symm
    rw [hrows] at hcount
    rw [urgentWork, urgentWork, hqueue, hqueue, h.front, hrows]
    simp only [reduceCtorEq, if_false, if_true, hact, List.length_nil, frontWork_cons, hfront,
      weight]
    omega

/-- **A column is on its way**, where it is the one the controller turns
to and came by the clock. -/
theorem column_work (h : Issues (spec o t) s u (columnName s) req rest cmd) (sch : Scheduled s)
    (hact : s.reqs .act = []) (hmisc : s.reqs .misc = [])
    (hnext : cmd = nextCmd (rowsOf s) req) (ha : req.arrive.toInt ≤ a) :
    urgentWork u + columnWork a u + 1 ≤ urgentWork s + columnWork a s := by
  have hname := columnName_eq (s := s)
  have htype := columns_type sch req (h.front ▸ List.mem_cons_self)
  have hne : req.type ≠ .refresh := by rcases htype with h | h <;> rw [h] <;> decide
  have hpos := olderCount_pos h.front ha
  have hwork : urgentWork s + columnWork a s = weight cmd + 3 * (olderCount a s - 1) := by
    rw [urgentWork, hact, hmisc, columnWork, h.front, hnext]
    simp [frontWork, ha]
  have hle := columnWork_le (a := a) (s := u)
  -- what is left of the columns queued by the clock, where the front leaves
  have hleave : (∀ n, n ≠ .act → u.reqs n = if n = columnName s then rest else s.reqs n) →
      olderCount a u + 1 = olderCount a s := by
    intro hqueue
    have hcons : cameBy a (req :: rest) = req :: cameBy a rest := by simp [cameBy, ha]
    rcases hname with hn | hn <;> have hfront := h.front <;> rw [hn] at hfront <;>
      rw [olderCount, olderCount, hqueue .read (by decide), hqueue .write (by decide), hn, hfront,
        hcons]
    all_goals
      simp only [reduceCtorEq, if_true, if_false, List.length_cons]
      omega
  have hmisc' : ∀ n, u.reqs .misc = (if QueueName.misc = columnName s then n else s.reqs .misc) →
      u.reqs .misc = [] := by
    intro n hn
    rw [hn, hmisc, if_neg (by rcases hname with h | h <;> rw [h] <;> decide)]
  have hact' : QueueName.act ≠ columnName s := by rcases hname with h | h <;> rw [h] <;> decide
  rw [nextCmd, if_neg hne] at hnext
  cases hrow : rowsOf s (path req.mappedAddr) with
  | none =>
      -- the row is opened, and the request waits for its column at the activation queue
      rw [hrow] at hnext
      obtain rfl : cmd = .ACT := hnext
      have hqueue : ∀ n, n ≠ .act → u.reqs n = if n = columnName s then rest else s.reqs n := by
        intro n hn
        rw [h.queue n]
        simp [hn, Spec.ends, spec, isAccessing, isRefreshing, isOpening]
      have hone : (u.reqs .act).length = 1 := by
        rw [h.queue .act, if_neg hact', hact]
        simp [Spec.ends, spec, isAccessing, isRefreshing, isOpening]
      have hcount := hleave hqueue
      rw [hwork, urgentWork, hone, hmisc' rest (hqueue .misc (by decide))]
      simp only [frontWork, weight]
      omega
  | some row =>
      rw [hrow] at hnext
      dsimp only at hnext
      by_cases hsame : row = coord req.mappedAddr 4
      · -- the column is read or written
        rw [if_pos hsame] at hnext
        have hcol : cmd = .RD ∨ cmd = .WR := hnext ▸ isColumn_reqToCmd htype
        have hends : (spec o t).ends cmd = true := by rcases hcol with rfl | rfl <;> rfl
        have hqueue : ∀ n, u.reqs n = if n = columnName s then rest else s.reqs n := by
          intro n
          rw [h.queue n]
          simp [hends]
        have hweight : weight cmd = 1 := by rcases hcol with rfl | rfl <;> rfl
        have hcount := hleave fun n _ => hqueue n
        rw [hwork, urgentWork, hqueue .act, if_neg hact', hact,
          hmisc' rest (hqueue .misc), hweight]
        simp only [frontWork, List.length_nil]
        omega
      · -- another row of the bank is closed
        rw [if_neg hsame] at hnext
        obtain rfl : cmd = .PRE := hnext
        have hqueue : ∀ n, u.reqs n =
            if n = columnName s then marked req :: rest else s.reqs n := by
          intro n
          rw [h.queue n]
          simp [Spec.ends, spec, isAccessing, isRefreshing, isOpening]
        have hrow' : rowsOf u (path req.mappedAddr) = none := by
          rw [rowsOf, h.commands, openRow_concat]
          exact if_pos fun l _ _ => rfl
        have hcolumns : columnName u = columnName s ∧ olderCount a u = olderCount a s := by
          have hfront := h.front
          rcases hname with hn | hn <;> rw [hn] at hfront
          all_goals
            refine ⟨columnName_congr ?_ ?_, ?_⟩
            · simp [hqueue, hn, hfront, marked]
            · simp [hqueue, hn, hfront, marked]
            · simp [olderCount, hqueue, hn, hfront, length_cameBy_marked]
        obtain ⟨hname', hcount⟩ := hcolumns
        have hfront' : u.reqs (columnName u) = marked req :: rest := by
          rw [hname', hqueue, if_pos rfl]
        have hnext' : nextCmd (rowsOf u) (marked req) = .ACT := by
          rw [nextCmd_marked, nextCmd, if_neg hne, hrow']
        have harrive : (marked req).arrive.toInt ≤ a := ha
        rw [hwork, urgentWork, hqueue .act, if_neg hact', hact, hmisc' _ (hqueue .misc), columnWork,
          hfront', hcount]
        simp only [frontWork, List.length_nil, harrive, if_true, hnext', weight]
        omega

end Work

end Ddr4

end Dram

end Vans
