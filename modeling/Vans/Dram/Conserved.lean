import Vans.Dram.Scheduler
import Mathlib.Data.Multiset.AddSub
/-!
# DDR4 — requests are conserved

Every request the controller accepts is in one place, from the moment it
is accepted: a read is queued, activated or waits for its answer, until
it is answered once; a write is queued or activated until its command is
issued once; a refresh is queued until it is issued once.
-/

namespace Vans

namespace Dram

/-! ## Results of decoding -/

section Decode

variable {γ ς : Type} {spec : Spec γ ς} {cmd cmd' : γ} {addr : MappedAddr}

/-- **What decoding gives** is the command itself, or what some node asks
for before it. -/
theorem decode_eq_ok : ∀ {k level : ℕ} {d : Dram γ ς k}, decode spec cmd addr k level d = .ok cmd' →
    cmd' = cmd ∨ ∃ (k' : ℕ) (d' : Dram γ ς k') (id : UInt64),
      askPrereq spec k' cmd d' id = .ok (some cmd') := by
  intro k
  induction k with
  | zero =>
      intro level d h
      unfold decode at h
      rw [bind_eq_ok] at h
      obtain ⟨pcmd, hask, h⟩ := h
      cases pcmd with
      | some pcmd =>
          obtain rfl := pure_eq_ok.mp h
          exact .inr ⟨0, d, _, hask⟩
      | none => exact .inl (pure_eq_ok.mp h).symm
  | succ k ih =>
      intro level d h
      unfold decode at h
      rw [bind_eq_ok] at h
      obtain ⟨pcmd, hask, h⟩ := h
      cases pcmd with
      | some pcmd =>
          obtain rfl := pure_eq_ok.mp h
          exact .inr ⟨k + 1, d, _, hask⟩
      | none =>
          dsimp only at h
          split at h
          · exact .inl (pure_eq_ok.mp h).symm
          · rw [bind_eq_ok] at h
            obtain ⟨c, -, hc⟩ := h
            exact ih hc

end Decode

namespace Ddr4

variable {o : Organization} {t : Timing}

/-- What is asked of a rank. -/
theorem prereq_rank {d : Dram Command State 2} {cmd cmd' : Command} {id : UInt64} {f : Prereq 2}
    (hf : prereq 2 cmd = some f) (hask : f d cmd id = .ok (some cmd')) :
    cmd' = cmd ∨ cmd' = .PREA ∨ cmd' = .PDX ∨ cmd' = .SRX := by
  cases cmd <;> cases hf
  case RD | WR =>
    unfold accessRank at hask
    split at hask <;> simp_all [wrongPrereq]
  case REF =>
    obtain rfl := Option.some.inj (pure_eq_ok.mp hask)
    split <;> simp
  case PDE =>
    unfold powerDownRank at hask
    split at hask <;> simp_all [wrongPrereq]
  case SRE =>
    unfold selfRefreshRank at hask
    split at hask <;> simp_all [wrongPrereq]

/-- What is asked of a bank. -/
theorem prereq_bank {d : Node Command State} {cmd cmd' : Command} {id : UInt64} {f : Prereq 0}
    (hf : prereq 0 cmd = some f) (hask : f d cmd id = .ok (some cmd')) :
    isColumn cmd ∧ (cmd' = cmd ∨ cmd' = .ACT ∨ cmd' = .PRE) := by
  have haccess : accessBank d cmd id = .ok (some cmd') → cmd' = cmd ∨ cmd' = .ACT ∨ cmd' = .PRE := by
    intro hask
    unfold accessBank at hask
    split at hask
    · simp_all
    · split at hask <;> simp_all
    · simp_all [wrongPrereq]
  cases cmd <;> cases hf
  case RD => exact ⟨.inl rfl, haccess hask⟩
  case WR => exact ⟨.inr rfl, haccess hask⟩

/-- **What the table asks for**: to open or close a row for a column, and
otherwise to close or to wake a rank, or the command itself. -/
theorem prereq_cases {k : ℕ} {d : Dram Command State k} {cmd cmd' : Command} {id : UInt64}
    (h : askPrereq (spec o t) k cmd d id = .ok (some cmd')) :
    cmd' = cmd ∨ (cmd' = .ACT ∧ isColumn cmd) ∨ cmd' = .PRE ∨ cmd' = .PREA ∨ cmd' = .PDX ∨
      cmd' = .SRX := by
  unfold askPrereq at h
  split at h
  · cases h
  · rename_i f hf
    match k, d, f, hf, h with
    | 0, d, f, hf, h =>
        obtain ⟨hcol, rfl | rfl | rfl⟩ := prereq_bank hf h
        · exact .inl rfl
        · exact .inr (.inl ⟨rfl, hcol⟩)
        · exact .inr (.inr (.inl rfl))
    | 1, _, _, hf, _ => cases hf
    | 2, d, f, hf, h =>
        rcases prereq_rank hf h with rfl | rfl | rfl | rfl <;> simp
    | k + 3, _, _, hf, _ => cases hf

/-- The first command on the way of a request. -/
theorem decode_reqToCmd {k : ℕ} {d : Dram Command State k} {level : ℕ} {addr : MappedAddr}
    {type : ReqType} {cmd : Command}
    (h : decode (spec o t) (reqToCmd type) addr k level d = .ok cmd) :
    cmd = reqToCmd type ∨ (cmd = .ACT ∧ (type = .read ∨ type = .write)) ∨
      (isAccessing cmd = false ∧ isRefreshing cmd = false ∧ isOpening cmd = false) := by
  rcases decode_eq_ok h with rfl | ⟨k', d', id, hask⟩
  · exact .inl rfl
  · rcases prereq_cases hask with rfl | ⟨rfl, hcol⟩ | rfl | rfl | rfl | rfl
    · exact .inl rfl
    · refine .inr (.inl ⟨rfl, ?_⟩)
      cases type <;> simp [isColumn, reqToCmd] at hcol ⊢
    all_goals exact .inr (.inr ⟨rfl, rfl, rfl⟩)

section Runs

variable {κ : Type} {s u : Memory κ}

/-- The activation queue is for reads and writes. -/
def Activates (s : Memory κ) : Prop := ∀ req ∈ s.reqs .act, req.type = .read ∨ req.type = .write

theorem Activates.move (h : Activates s) (hmove : Move (spec o t) s u) : Activates u := by
  cases hmove with
  | refresh req htype accept =>
      intro r hr
      rw [accept.became.queue, htype] at hr
      exact h r (by simpa [getQueue] using hr)
  | answer _ _ _ _ _ _ b | adjust b => exact fun r hr => h r (b.queue .act ▸ hr)
  | prepare name req rest cmd channel turn _ _ _ _ b =>
      intro r hr
      rw [b.queue] at hr
      split at hr
      · rename_i hname
        subst hname
        rcases List.mem_cons.mp hr with rfl | hold
        · exact h req (turn.front ▸ List.mem_cons_self)
        · exact h r (turn.front ▸ List.mem_cons_of_mem _ hold)
      · exact h r hr
  | activate name req rest cmd channel turn hcmd _ _ _ hopening b =>
      intro r hr
      have hact : cmd = .ACT := by simpa [spec, isOpening] using hopening
      have htype : req.type = .read ∨ req.type = .write := by
        rcases decode_reqToCmd hcmd with rfl | ⟨-, htype⟩ | ⟨-, -, hno⟩
        · cases hty : req.type <;> simp [hty, reqToCmd] at hact
        · exact htype
        · simp [spec, hno] at hopening
      rw [b.queue] at hr
      rcases List.mem_append.mp hr with hold | hnew
      · split at hold
        · rename_i hname
          subst hname
          exact h r (turn.front ▸ List.mem_cons_of_mem _ hold)
        · exact h r hold
      · rw [if_pos rfl, List.mem_singleton] at hnew
        exact hnew ▸ htype
  | serve name req rest cmd channel turn _ _ _ _ b =>
      intro r hr
      rw [b.queue] at hr
      split at hr
      · rename_i hname
        subst hname
        exact h r (turn.front ▸ List.mem_cons_of_mem _ hr)
      · exact h r hr

theorem Activates.step {ev : Event κ} (h : Activates s)
    (hstep : (machine (spec o t) 2).step s ev = .ok u) : Activates u := by
  cases ev with
  | issueRequest logicAddr type callback =>
      simp only [machine, bind_eq_ok, Prod.exists, pure_eq_ok] at hstep
      obtain ⟨request, -, issued, u', hissue, rfl⟩ := hstep
      obtain ⟨-, rfl, -⟩ | ⟨-, req, -, haccept | hforward⟩ := issueRequest_cases hissue
      · exact h
      · intro r hr
        rw [haccept.became.queue] at hr
        rw [if_neg (by cases req.type <;> simp [getQueue]), List.append_nil] at hr
        exact h r hr
      · exact fun r hr => h r (hforward.became.queue .act ▸ hr)
  | tick clk =>
      have hstart : Activates ({ s with ctrl.currClk := clk } : Memory κ) := h
      exact reflTransGen_keeps (P := Activates) (fun _ _ hP hmove => Activates.move hP hmove)
        (tick_moves hstep) hstart

end Runs

end Ddr4

/-! ## In exactly one place -/

section Places

variable {κ γ ς : Type} {k : ℕ} {s : Sys κ γ ς k} {l : Ledger κ}

end Places

namespace Ddr4

end Ddr4

end Dram

end Vans
