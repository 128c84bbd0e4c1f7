import Vans.Imc.Serves
import Vans.Model.Clears
/-!
# The iMC — it clears

Over one component that clears, and has room again once it has, the iMC
clears too. As long as requests wait, one of them at least is handed on
by the end of the first epoch after the component has room: a read that
is first in turn is tried at every tick, and a write at the end of each
epoch. So each request that waits costs one period, of the time the
component needs to have room and of one epoch.
-/

namespace Vans

namespace Imc

/-- Within so many clocks an epoch ends. -/
theorem lt_of_no_epoch {start n epoch : ℕ} (hepoch : 0 < epoch)
    (hnone : ∀ clk, start ≤ clk → clk < n → (clk + 1) % epoch ≠ 0) : n < start + epoch := by
  by_contra hle
  have hafter : start < epoch * (start / epoch + 1) := Nat.lt_mul_div_succ start hepoch
  have hbefore : epoch * (start / epoch + 1) ≤ start + epoch := by
    rw [Nat.mul_succ]
    exact Nat.add_le_add_right (Nat.mul_div_le start epoch) _
  refine hnone (epoch * (start / epoch + 1) - 1) (by omega) (by omega) ?_
  rw [Nat.sub_add_cancel (Nat.pos_of_ne_zero (by omega))]
  exact Nat.mul_mod_right _ _

variable {κ σ : Type} {C : Component κ σ} {limit n rounds lag rest a l : ℕ}
  {S : C.Serves BaseRequest.dueRead limit} {s t : Sys κ σ}

/-- The requests that wait in the queues. -/
def Sys.queued (s : Sys κ σ) : ℕ := s.ctrl.rpq.queue.length + s.ctrl.wpq.queue.length

/-! ## Something is handed on -/

/-- What is handed on waits no more, and nothing comes. -/
theorem Hands.queued_le (h : Hands C s t) : t.queued ≤ s.queued := by
  cases h with
  | clock => exact le_rfl
  | holdRead hq | refuseRead hq | handRead hq | refuseWrite hq | handWrite hq =>
      simp only [Sys.queued, hq, List.length_cons]
      omega

theorem queued_le (h : Relation.ReflTransGen (Hands C) s t) : t.queued ≤ s.queued :=
  reflTransGen_keeps (P := fun u => u.queued ≤ s.queued) (fun _ _ hu hm => hm.queued_le.trans hu) h
    le_rfl

/-- **A flush hands on** the first write, if no read goes before it and
the component has room. -/
theorem flushWpq_hands_on (hC : Flushable C) (h : s.Passes S rounds n) {w : BaseRequest κ}
    {ws : List (BaseRequest κ)} (hq : s.ctrl.wpq.queue = w :: ws) (hfirst : WritesFirst s w)
    (hroom : C.fullAt s.next 0 = .ok false) {k : ℕ} (hflush : flushWpq C (k + 1) s = .ok t) :
    t.queued < s.queued := by
  have hturn : (s.ctrl.rpq.queue.head?.any fun r => r.arrive < w.arrive) = false := by
    cases hr : s.ctrl.rpq.queue.head? with
    | none => rfl
    | some r => simpa using hfirst r hr
  rw [flushWpq, hq] at hflush
  simp only [hturn, Bool.false_eq_true, if_false, h.pick, hroom, ok_bind, bind_eq_ok,
    Prod.exists] at hflush
  obtain ⟨resp, req', next, hissue, hflush⟩ := hflush
  rw [if_pos (issueTo_accepts hC.accepts hroom hissue)] at hflush
  have hle := queued_le (flushWpq_hands hflush)
  simp only [Sys.queued, hq, List.length_cons] at hle ⊢
  omega

/-- **A read that is tried is handed on**, if the component has room. -/
theorem tickRead_hands_on (hC : Flushable C) (h : s.Passes S rounds n)
    (hroom : C.fullAt s.next 0 = .ok false) (hread : tickRead C s = .ok t) :
    t.queued < s.queued := by
  unfold tickRead at hread
  split at hread
  · exact absurd hread throw_ne_ok
  · rename_i req reqs hq
    simp only [h.pick, hroom, ok_bind, Bool.false_eq_true, if_false, bind_eq_ok,
      Prod.exists] at hread
    obtain ⟨resp, req', next, hissue, hread⟩ := hread
    rw [if_pos (issueTo_accepts hC.accepts hroom hissue)] at hread
    obtain rfl := pure_eq_ok.mp hread
    simp only [Sys.queued, hq, List.length_cons]
    omega

/-- **At the end of an epoch something is handed on**, if anything waits
and the component has room. -/
theorem tick_hands_on (hC : Flushable C) (h : s.Passes S rounds n) {clk : Clk}
    (hclk : clk.toNat + 1 < 2 ^ 64) (hends : (clk.toNat + 1) % s.ctrl.adrEpoch.toNat = 0)
    (hepoch : 0 < s.ctrl.adrEpoch.toNat) (hwaits : 0 < s.queued)
    (hroom : C.fullAt s.next 0 = .ok false) (htick : Imc.tick C rounds clk s = .ok t) :
    t.queued < s.queued := by
  simp only [Imc.tick, bind_eq_ok] at htick
  obtain ⟨v, hv, htick⟩ := htick
  obtain ⟨u, hu⟩ : ∃ u : Sys κ σ, u = { s with ctrl.imcCurrClk := clk } := ⟨_, rfl⟩
  have hpasses : u.Passes S rounds n :=
    hu ▸ ⟨h.single, h.mapping, h.reads, h.writes, h.rpq, h.wpq, h.rounds⟩
  have hsame : u.queued = s.queued ∧ u.next = s.next ∧ u.ctrl.adrEpoch = s.ctrl.adrEpoch ∧
      u.ctrl.imcCurrClk = clk := by
    subst hu
    exact ⟨rfl, rfl, rfl, rfl⟩
  obtain ⟨hqueued, hnext, hadr, hcurr⟩ := hsame
  rw [← hu] at hv
  rw [← hqueued] at hwaits ⊢
  rw [← hnext] at hroom
  obtain ⟨k, hk⟩ : ∃ k, rounds = k + 1 := Nat.exists_eq_succ_of_ne_zero (by
    have hrounds := h.rounds
    omega)
  -- what follows the queue that is served hands on, or leaves what waits
  have hrest : t.queued ≤ v.queued := by
    split at htick
    · exact queued_le (adr_hands htick)
    · obtain rfl := pure_eq_ok.mp htick
      exact le_rfl
  unfold tickQueue at hv
  split at hv
  · exact hrest.trans_lt (tickRead_hands_on hC hpasses hroom hv)
  · rename_i hwrite
    obtain ⟨w, ws, hq, hfirst⟩ : ∃ w ws, u.ctrl.wpq.queue = w :: ws ∧ WritesFirst u w := by
      unfold queueToTick at hwrite
      cases hw : u.ctrl.wpq.queue with
      | nil => cases hr : u.ctrl.rpq.queue <;> simp [hr, hw] at hwrite
      | cons w ws =>
          refine ⟨w, ws, rfl, fun r hr hlt => ?_⟩
          cases hr' : u.ctrl.rpq.queue with
          | nil => simp [hr'] at hr
          | cons r' rs =>
              simp only [hr', List.head?_cons, Option.mem_def, Option.some.injEq] at hr
              subst hr
              simp [hr', hw, hlt] at hwrite
    rw [RequestQueue.full_of_le hpasses.wpq, ok_bind] at hv
    rw [hk] at hv htick
    split at hv
    · exact hrest.trans_lt (flushWpq_hands_on hC hpasses hq hfirst hroom hv)
    · -- the epoch ends, and the writes are flushed
      obtain rfl := pure_eq_ok.mp hv
      have hempty : u.ctrl.wpq.empty = false := by simp [RequestQueue.empty, hq]
      have hne : u.ctrl.adrEpoch ≠ 0 := by
        rw [hadr]
        intro hzero
        rw [hzero] at hepoch
        exact absurd hepoch (by decide)
      have hzero : (u.ctrl.imcCurrClk + 1) % u.ctrl.adrEpoch = 0 := by
        rw [hcurr, hadr]
        refine UInt64.toNat_inj.mp ?_
        rw [UInt64.toNat_mod, UInt64.toNat_add]
        change (clk.toNat + 1) % 2 ^ 64 % _ = 0
        rw [Nat.mod_eq_of_lt hclk]
        exact hends
      rw [hempty, Bool.not_false, if_pos rfl, adr, if_pos hne, if_pos hzero] at htick
      exact flushWpq_hands_on hC hpasses hq hfirst hroom htick
  · rename_i hnone
    unfold queueToTick at hnone
    cases hr : u.ctrl.rpq.queue <;> cases hw : u.ctrl.wpq.queue <;> simp [hr, hw] at hnone
    · simp [Sys.queued, hr, hw] at hwaits
    · split at hnone <;> cases hnone

/-! ## What is held below -/

/-- The component below holds what it took. -/
def Sys.Below (K : S.Clears lag rest) (a l n : ℕ) (s : Sys κ σ) : Prop :=
  ∃ st, s.next = [st] ∧ K.held a l n st

/-- The reads that wait have callbacks. -/
def Sys.Answerable (s : Sys κ σ) : Prop := ∀ req ∈ s.ctrl.rpq.queue, req.Answerable

/-- What the configuration says is as it was. -/
structure SameConfig (s t : Sys κ σ) : Prop where
  adrEpoch : t.ctrl.adrEpoch = s.ctrl.adrEpoch
  rpq : t.ctrl.rpq.maxEntries = s.ctrl.rpq.maxEntries
  wpq : t.ctrl.wpq.maxEntries = s.ctrl.wpq.maxEntries

theorem SameConfig.trans {u : Sys κ σ} (h : SameConfig s t) (h' : SameConfig t u) :
    SameConfig s u :=
  ⟨h'.adrEpoch.trans h.adrEpoch, h'.rpq.trans h.rpq, h'.wpq.trans h.wpq⟩

theorem Hands.sameConfig (h : Hands C s t) : SameConfig s t := by
  cases h <;> exact ⟨rfl, rfl, rfl⟩

/-- A request that is tried is taken below, or not. -/
theorem Sys.Below.issueTo (K : S.Clears lag rest) (ha : a ≤ n) (h : s.Below K a l n)
    {req req' : BaseRequest κ} {resp : BaseResponse} {next : List σ} (hreq : req.Answerable)
    (hissue : C.issueTo s.next 0 req = .ok (resp, req', next)) : ∃ st, next = [st] ∧
      if resp.issued then K.held n (l + 1) n st else K.held a l n st := by
  obtain ⟨st, hone, hheld⟩ := h
  rw [hone] at hissue
  exact K.issueTo hreq ha hheld hissue

/-- **What the controller does is held below**: one request less waits,
and the component has taken it, or all is as it was. -/
theorem Hands.below (K : S.Clears lag rest) (hpasses : s.Passes S rounds n) (hans : s.Answerable)
    (ha : a ≤ n) (h : s.Below K a l n) (hm : Hands C s t) : t.Answerable ∧
      ((t.queued = s.queued ∧ t.Below K a l n) ∨
        (t.queued + 1 = s.queued ∧ t.Below K n (l + 1) n)) := by
  have hwrites := hpasses.writes
  cases hm with
  | clock => exact ⟨hans, .inl ⟨rfl, h⟩⟩
  | @holdRead req reqs hq hfull =>
      have hreads := hans
      rw [Sys.Answerable, hq] at hreads
      obtain ⟨hreq, hreqs⟩ := List.forall_mem_cons.mp hreads
      refine ⟨List.forall_mem_cons.mpr ⟨hreq, hreqs⟩, .inl ⟨?_, h⟩⟩
      simp only [Sys.queued, hq, List.length_cons]
  | @refuseRead req req' reqs resp next hq hfull hissue hno =>
      have hreads := hans
      rw [Sys.Answerable, hq] at hreads
      obtain ⟨hreq, hreqs⟩ := List.forall_mem_cons.mp hreads
      rw [hpasses.pick] at hissue
      obtain ⟨out, hout, hsame, -⟩ := hpasses.issueTo req
      obtain rfl := Except.ok.inj (hissue.symm.trans hout)
      obtain rfl : req' = req := hsame
      obtain ⟨st, hone, hheld⟩ := h.issueTo K ha hreq hissue
      rw [hno] at hheld
      refine ⟨List.forall_mem_cons.mpr ⟨hreq, hreqs⟩, .inl ⟨?_, st, hone, hheld⟩⟩
      simp only [Sys.queued, hq, List.length_cons]
  | @handRead req req' reqs resp next hq hfirst hissue hyes =>
      have hreads := hans
      rw [Sys.Answerable, hq] at hreads
      obtain ⟨hreq, hreqs⟩ := List.forall_mem_cons.mp hreads
      rw [hpasses.pick] at hissue
      obtain ⟨st, hone, hheld⟩ := h.issueTo K ha hreq hissue
      rw [hyes] at hheld
      refine ⟨hreqs, .inr ⟨?_, st, hone, hheld⟩⟩
      simp only [Sys.queued, hq, List.length_cons]
      omega
  | @refuseWrite req req' reqs resp next hq hfull hissue hno =>
      rw [hq] at hwrites
      have hreq : req.Answerable := by
        rw [BaseRequest.Answerable, (List.forall_mem_cons.mp hwrites).1]
        exact fun hread => BaseRequestType.noConfusion hread
      rw [hpasses.pick] at hissue
      obtain ⟨st, hone, hheld⟩ := h.issueTo K ha hreq hissue
      rw [hno] at hheld
      refine ⟨hans, .inl ⟨?_, st, hone, hheld⟩⟩
      simp only [Sys.queued, hq, List.length_cons]
  | @handWrite req req' reqs resp next hq hfirst hissue hyes =>
      rw [hq] at hwrites
      have hreq : req.Answerable := by
        rw [BaseRequest.Answerable, (List.forall_mem_cons.mp hwrites).1]
        exact fun hread => BaseRequestType.noConfusion hread
      rw [hpasses.pick] at hissue
      obtain ⟨st, hone, hheld⟩ := h.issueTo K ha hreq hissue
      rw [hyes] at hheld
      refine ⟨hans, .inr ⟨?_, st, hone, hheld⟩⟩
      simp only [Sys.queued, hq, List.length_cons]
      omega

/-- What a tick of the controller leaves, of what it found. -/
structure Relieved (K : S.Clears lag rest) (rounds a l n : ℕ) (s t : Sys κ σ) : Prop where
  passes : t.Passes S rounds n
  answerable : t.Answerable
  same : SameConfig s t
  below : (t.queued = s.queued ∧ t.Below K a l n) ∨
    (t.queued < s.queued ∧ ∃ l', l' + t.queued ≤ l + s.queued ∧ t.Below K n l' n)

theorem Sys.Passes.relieved (K : S.Clears lag rest) (hpasses : s.Passes S rounds n)
    (hans : s.Answerable) (ha : a ≤ n) (h : s.Below K a l n)
    (hm : Relation.ReflTransGen (Hands C) s t) : Relieved K rounds a l n s t := by
  refine reflTransGen_keeps (P := Relieved K rounds a l n s) (fun u v hu hv => ?_) hm
    ⟨hpasses, hans, ⟨rfl, rfl, rfl⟩, .inl ⟨rfl, h⟩⟩
  have same := hu.same.trans hv.sameConfig
  have passes := (hv.passes hu.passes).1
  rcases hu.below with ⟨hqueued, hbelow⟩ | ⟨hless, l', hload, hbelow⟩
  · obtain ⟨answerable, ⟨hsame, hbelow'⟩ | ⟨hone, hbelow'⟩⟩ :=
      hv.below K hu.passes hu.answerable ha hbelow
    · exact ⟨passes, answerable, same, .inl ⟨hsame.trans hqueued, hbelow'⟩⟩
    · exact ⟨passes, answerable, same, .inr ⟨by omega, l + 1, by omega, hbelow'⟩⟩
  · obtain ⟨answerable, ⟨hsame, hbelow'⟩ | ⟨hone, hbelow'⟩⟩ :=
      hv.below K hu.passes hu.answerable le_rfl hbelow
    · exact ⟨passes, answerable, same, .inr ⟨by omega, l', by omega, hbelow'⟩⟩
    · exact ⟨passes, answerable, same, .inr ⟨by omega, l' + 1, by omega, hbelow'⟩⟩

/-! ## The iMC clears -/

/-- **What an iMC holds.** Each request that waits costs a period from
the clock by which all was taken below; and no epoch has ended since the
component has room, or a request would have been handed on. -/
structure Sys.Holds (K : S.Clears lag rest) (rounds epoch entries a l n : ℕ) (s : Sys κ σ) :
    Prop where
  passes : s.Passes S rounds n
  answerable : s.Answerable
  adrEpoch : s.ctrl.adrEpoch.toNat = epoch
  room : s.ctrl.rpq.maxEntries + s.ctrl.wpq.maxEntries = entries
  below : ∃ a' l', s.Below K a' l' n ∧ a' ≤ n ∧
    a' + s.queued * (lag + epoch) ≤ a + entries * (lag + epoch) ∧ l' + s.queued ≤ l ∧
    (0 < s.queued → ∀ clk, a' + lag ≤ clk → clk < n → (clk + 1) % epoch ≠ 0)

/-- **A request enters its queue**, or is refused. -/
theorem issueRequest_queued {req : BaseRequest κ} {resp : BaseResponse}
    (h : issueRequest req s = .ok (resp, t)) : (resp.issued = false ∧ t = s) ∨
      (resp.issued = true ∧ t.next = s.next ∧ SameConfig s t ∧ t.queued = s.queued + 1 ∧
        (req.Answerable → s.Answerable → t.Answerable)) := by
  unfold issueRequest at h
  split at h
  all_goals
    simp only [bind_eq_ok, Prod.exists, pure_eq_ok, Prod.mk.injEq] at h
    obtain ⟨success, q, henq, rfl, rfl⟩ := h
    obtain ⟨-, ⟨rfl, -, rfl⟩ | ⟨rfl, -, rfl⟩⟩ := RequestQueue.enqueue_eq_ok.mp henq
    · exact .inl ⟨rfl, rfl⟩
    refine .inr ⟨rfl, rfl, ⟨rfl, rfl, rfl⟩, ?_, fun hreq hans => ?_⟩
    · simp only [if_true, Sys.queued, List.length_append, List.length_singleton]
      omega
  · intro r hr
    rcases List.mem_append.mp hr with hr | hr
    · exact hans r hr
    · exact List.mem_singleton.mp hr ▸ hreq
  · exact hans

namespace Sys.Holds

variable {K : S.Clears lag rest} {epoch entries : ℕ}

theorem later {a' : ℕ} (ha : a ≤ a') (h : s.Holds K rounds epoch entries a l n) :
    s.Holds K rounds epoch entries a' l n := by
  obtain ⟨b, l', hbelow, hb, hdue, hload, hnone⟩ := h.below
  have hdue' : b + s.queued * (lag + epoch) ≤ a' + entries * (lag + epoch) := by omega
  exact ⟨h.passes, h.answerable, h.adrEpoch, h.room, b, l', hbelow, hb, hdue', hload, hnone⟩

theorem queued_le (h : s.Holds K rounds epoch entries a l n) : s.queued ≤ entries := by
  have hrpq := h.passes.rpq
  have hwpq := h.passes.wpq
  have hroom := h.room
  rw [Sys.queued]
  omega

/-- All that waits, and all that was taken below, came by now. -/
theorem renew (h : s.Holds K rounds epoch entries a l n) :
    s.Holds K rounds epoch entries n (s.queued + (s.next.map K.load).sum) n := by
  obtain ⟨a', l', ⟨st, hone, hheld⟩, ha', -⟩ := h.below
  refine ⟨h.passes, h.answerable, h.adrEpoch, h.room, n, K.load st,
    ⟨st, hone, K.renew ha' hheld⟩, le_rfl, ?_, ?_, fun _ clk hfrom hto => by omega⟩
  · exact Nat.add_le_add_left (Nat.mul_le_mul_right _ h.queued_le) _
  · rw [hone, List.map_singleton, List.sum_singleton, Nat.add_comm]

theorem issue (h : s.Holds K rounds epoch entries a l n) {req req' : BaseRequest κ}
    {resp : BaseResponse} (hreq : req.Answerable)
    (hissue : (component rounds C).issueRequest req s = .ok (resp, req', t)) :
    if resp.issued then t.Holds K rounds epoch entries n (l + 1) n
    else t.Holds K rounds epoch entries a l n := by
  simp only [component, bind_eq_ok, Prod.exists, pure_eq_ok, Prod.mk.injEq] at hissue
  obtain ⟨resp, t, hissue, rfl, -, rfl⟩ := hissue
  obtain ⟨out, hout, hpasses, -⟩ := h.passes.issue req
  obtain rfl := Except.ok.inj (hissue.symm.trans hout)
  obtain ⟨hno, rfl⟩ | ⟨hyes, hnext, hsame, hqueued, hans⟩ := issueRequest_queued hissue
  · rw [hno]
    exact h
  · rw [hyes]
    obtain ⟨a', l', ⟨st, hone, hheld⟩, ha', -, hload, -⟩ := h.below
    have hentries : t.ctrl.rpq.maxEntries + t.ctrl.wpq.maxEntries = entries := by
      rw [hsame.rpq, hsame.wpq]
      exact h.room
    have hle : t.queued ≤ entries := by
      have hrpq : t.ctrl.rpq.queue.length ≤ t.ctrl.rpq.maxEntries := hpasses.rpq
      have hwpq : t.ctrl.wpq.queue.length ≤ t.ctrl.wpq.maxEntries := hpasses.wpq
      rw [Sys.queued]
      omega
    refine ⟨hpasses, hans hreq h.answerable, hsame.adrEpoch ▸ h.adrEpoch, hentries, n, l',
      ⟨st, hnext.trans hone, K.later ha' hheld⟩, le_rfl, ?_, by omega,
      fun _ clk hfrom hto => by omega⟩
    exact Nat.add_le_add_left (Nat.mul_le_mul_right _ hle) _

/-- **A tick**: something is handed on, or no epoch has ended yet. -/
theorem tick (hC : Flushable C) (hA : ∀ n, Answers C (S.fit n)) (hfrees : K.Frees)
    (hepoch : 0 < epoch) {clk : Clk} {visit : Visit} {out : Sys κ σ × List (Invocation κ)}
    (hclk : clk.toNat < limit) (h : s.Holds K rounds epoch entries a l clk.toNat)
    (htick : (component rounds C).tick visit clk s = .ok out) :
    out.1.Holds K rounds epoch entries a l (clk.toNat + 1) := by
  obtain ⟨out', hout, hpasses, -⟩ := (serves hC S hA rounds).tick visit h.passes hclk
  obtain rfl := Except.ok.inj (htick.symm.trans hout)
  simp only [component, bind_eq_ok, Prod.exists, pure_eq_ok] at htick
  obtain ⟨u, hu, next, ran, hnext, rfl⟩ := htick
  obtain ⟨a', l', hbelow, ha', hdue, hload, hnone⟩ := h.below
  have hlimit := S.limit_lt
  have hrelieved := h.passes.relieved K h.answerable ha' hbelow (tick_hands hu)
  have hends : 0 < s.queued → a' + lag ≤ clk.toNat → (clk.toNat + 1) % epoch = 0 →
      u.queued < s.queued := by
    intro hwaits hlag hend
    obtain ⟨st, hone, hheld⟩ := hbelow
    have hroom : C.fullAt s.next 0 = .ok false := by
      rw [hone]
      exact hfrees hheld hlag
    refine tick_hands_on hC h.passes (by omega) ?_ ?_ hwaits hroom hu
    · rw [h.adrEpoch]
      exact hend
    · rw [h.adrEpoch]
      exact hepoch
  have hadr : u.ctrl.adrEpoch.toNat = epoch := hrelieved.same.adrEpoch ▸ h.adrEpoch
  have hroom : u.ctrl.rpq.maxEntries + u.ctrl.wpq.maxEntries = entries := by
    rw [hrelieved.same.rpq, hrelieved.same.wpq]
    exact h.room
  rcases hrelieved.below with ⟨hqueued, st, hone, hheld⟩ | ⟨hless, l'', hload', st, hone, hheld⟩
  · rw [hone] at hnext
    obtain ⟨st', rfl, hheld'⟩ := K.tickNext hclk hheld hnext
    refine ⟨hpasses, hrelieved.answerable, hadr, hroom, a', l', ⟨st', rfl, hheld'⟩, by omega,
      ?_, ?_, fun hwaits c hfrom hto => ?_⟩
    · exact hqueued.symm ▸ hdue
    · exact hqueued.symm ▸ hload
    · have hwaits : 0 < s.queued := hqueued ▸ hwaits
      rcases Nat.lt_succ_iff_lt_or_eq.mp hto with hlt | rfl
      · exact hnone hwaits c hfrom hlt
      · intro hend
        exact absurd hqueued (hends hwaits hfrom hend).ne
  · -- the component below takes something at this clock, within the period
    rw [hone] at hnext
    obtain ⟨st', rfl, hheld'⟩ := K.tickNext hclk hheld hnext
    have hperiod := lt_of_no_epoch hepoch (hnone (Nat.zero_lt_of_lt hless))
    have hcost : u.queued * (lag + epoch) + (lag + epoch) ≤ s.queued * (lag + epoch) := by
      rw [← Nat.succ_mul]
      exact Nat.mul_le_mul_right _ hless
    refine ⟨hpasses, hrelieved.answerable, hadr, hroom, clk.toNat + 1, l'',
      ⟨st', rfl, K.later (Nat.le_succ _) hheld'⟩, le_rfl, ?_, ?_, fun _ c hfrom hto => by omega⟩
    · change clk.toNat + 1 + u.queued * (lag + epoch) ≤ _
      omega
    · change l'' + u.queued ≤ l
      omega

/-- Once every request has had its period, none waits. -/
theorem queued_eq_zero (hepoch : 0 < epoch) (h : s.Holds K rounds epoch entries a l n)
    (hlate : a + entries * (lag + epoch) ≤ n) : s.queued = 0 := by
  obtain ⟨a', l', -, -, hdue, -, hnone⟩ := h.below
  by_contra hwaits
  have hpos : 0 < s.queued := Nat.pos_of_ne_zero hwaits
  have hperiod := lt_of_no_epoch hepoch (hnone hpos)
  have hone : lag + epoch ≤ s.queued * (lag + epoch) := Nat.le_mul_of_pos_left _ hpos
  omega

/-- Nothing is in flight then, when the component is clear. -/
theorem clear (hC : Flushable C) (hA : ∀ n, Answers C (S.fit n)) (hepoch : 0 < epoch)
    (h : s.Holds K rounds epoch entries a l n)
    (hlate : a + entries * (lag + epoch) + (lag + rest) + l ≤ n) :
    (serves hC S hA rounds).inFlight s = 0 := by
  have hnone := h.queued_eq_zero hepoch (by omega)
  obtain ⟨a', l', ⟨st, hone, hheld⟩, -, hdue, hload, -⟩ := h.below
  have hbelow : S.inFlight st = 0 := K.clear hheld (by omega)
  obtain ⟨hreads, hwrites⟩ := Nat.add_eq_zero_iff.mp hnone
  have hrpq : s.ctrl.rpq.queue = [] := List.length_eq_zero_iff.mp hreads
  have hwpq : s.ctrl.wpq.queue = [] := List.length_eq_zero_iff.mp hwrites
  change s.dueInFlight S = 0
  rw [Sys.dueInFlight, hrpq, hwpq, hone, List.map_singleton, List.sum_singleton, hbelow]
  rfl

end Sys.Holds

/-- **The iMC clears**, with its component: each place of its queues costs
a period. -/
def clears (hC : Flushable C) (hA : ∀ n, Answers C (S.fit n)) (K : S.Clears lag rest)
    (hfrees : K.Frees) {epoch : ℕ} (hepoch : 0 < epoch) (entries : ℕ) :
    (serves hC S hA rounds).Clears (entries * (lag + epoch)) (lag + rest) where
  load := fun s => s.queued + (s.next.map K.load).sum
  held := fun a l n s => s.Holds K rounds epoch entries a l n
  fit := Sys.Holds.passes
  later := Sys.Holds.later
  renew := fun _ => Sys.Holds.renew
  issue := fun hreq _ h => h.issue hreq
  tick := fun hclk h => h.tick hC hA hfrees hepoch hclk
  clear := Sys.Holds.clear hC hA hepoch

end Imc

end Vans
