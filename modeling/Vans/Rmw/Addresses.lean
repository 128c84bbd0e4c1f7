import Vans.Rmw.Reads
/-!
# The RMW controller — the addresses of its completions

The callback of a read is run with the address of a cache line: the
block of the entry it waited in, and the line it waited for. This file
says that a read with this callback was issued for that line. It does
not ask that the callback be run once, and so holds also where a read
has taken another's place.
-/

namespace Vans

namespace Rmw

variable {κ σ : Type} {C : Component Callback σ} {issued : κ → Addr → Prop}

/-- The callback is of a read that was issued for the line. -/
def LineIssued (issued : κ → Addr → Prop) (callback : Option κ) (line : Addr) : Prop :=
  ∀ c, callback = some c → ∃ a, issued c a ∧ lineAddr a = line

/-- A read that was issued. -/
def ReadIssued (issued : κ → Addr → Prop) (req : BaseRequest κ) : Prop :=
  req.type = .read → ∀ c, req.callback = some c → issued c req.addr

/-- Only reads that were issued come in. -/
def onlyIssued (issued : κ → Addr → Prop) : Env κ := { accept := ReadIssued issued }

/-- **Wherever a callback waits, a read was issued for its line.** -/
structure Sys.Addressed (issued : κ → Addr → Prop) (s : Sys κ σ) : Prop where
  start : s.ctrl.startAddr = 0
  lsq : ∀ req ∈ s.ctrl.lsq.queue, ReadIssued issued req
  entries : ∀ key e, s.entry key = some e → ∀ cl : Fin blockSizeCl,
    LineIssued issued (e.callbacks cl) (key + UInt64.ofNat cl.val * cpuClSize)
  roq : ∀ req ∈ s.ctrl.roq.queue, LineIssued issued req.callback req.addr
  ran : ∀ inv ∈ ran s.log, ∃ a, issued inv.callback a ∧ lineAddr a = inv.addr

theorem LineIssued.none {line : Addr} : LineIssued issued (none : Option κ) line := by
  intro c hc
  cases hc

/-- Combining leaves only requests that were there. -/
theorem mem_of_combine {block : Addr} : ∀ {q : List (BaseRequest κ)} {hit : BitVec blockSizeCl}
    {taken left : List (BaseRequest κ)}, combine block q = (hit, taken, left) →
    ∀ req ∈ left, req ∈ q := by
  intro q
  induction q with
  | nil =>
      intro hit taken left h req hreq
      simp only [combine, Prod.mk.injEq] at h
      rwa [← h.2.2] at hreq
  | cons front q ih =>
      intro hit taken left h req hreq
      obtain ⟨hit', taken', left', hrec⟩ : ∃ hit taken left,
          combine block q = (hit, taken, left) := ⟨_, _, _, rfl⟩
      unfold combine at h
      split at h
      · simp only [hrec, Prod.mk.injEq] at h
        obtain ⟨-, -, rfl⟩ := h
        rcases List.mem_cons.mp hreq with rfl | hreq
        · exact List.mem_cons_self
        · exact List.mem_cons_of_mem _ (ih hrec req hreq)
      · cases ht : front.type with
        | read =>
            simp only [ht, Prod.mk.injEq] at h
            rwa [← h.2.2] at hreq
        | write =>
            simp only [ht, hrec, Prod.mk.injEq] at h
            obtain ⟨-, -, rfl⟩ := h
            exact List.mem_cons_of_mem _ (ih hrec req hreq)

/-- A transfer leaves the callbacks that wait in the entry. -/
theorem EntryMove.callbacks {key : Addr} {s s' : Sys κ σ} {e e' : BufferEntry κ}
    (hm : EntryMove C key s e e' s') (ok : EntryOk key e) : e'.callbacks = e.callbacks := by
  cases hm with
  | flush h => exact absurd h ok.not_flushBack
  | _ => rfl

/-- A transfer moves to the read-out queue only what waited in the
entry, under the address of its line. -/
theorem EntryMove.mem_roq {key : Addr} {s s' : Sys κ σ} {e e' : BufferEntry κ}
    (hm : EntryMove C key s e e' s') (ok : EntryOk key e) :
    ∀ req ∈ s'.ctrl.roq.queue, req ∈ s.ctrl.roq.queue ∨ ∃ cl : Fin blockSizeCl,
      req.callback = e.callbacks cl ∧ req.addr = key + UInt64.ofNat cl.val * cpuClSize := by
  cases hm with
  | flush h => exact absurd h ok.not_flushBack
  | @readout clk dur cl rest hst ht hidx hroom =>
      intro req hreq
      rcases List.mem_append.mp hreq with hreq | hreq
      · exact .inl hreq
      · obtain rfl := List.mem_singleton.mp hreq
        exact .inr ⟨cl, rfl, by rw [ok.block]⟩
  | _ => exact fun req hreq => .inl hreq

namespace Sys.Addressed

variable {s t : Sys κ σ} {key : Addr} {e e' : BufferEntry κ} {front : BaseRequest κ}

/-- One entry is new or has changed, and its callbacks are of reads of
its lines. -/
theorem update (h : s.Addressed issued) (hstart : t.ctrl.startAddr = s.ctrl.startAddr)
    (hlsq : ∀ req ∈ t.ctrl.lsq.queue, req ∈ s.ctrl.lsq.queue) (hroq : t.ctrl.roq = s.ctrl.roq)
    (hran : Rmw.ran t.log = Rmw.ran s.log)
    (hentry : ∀ k, t.entry k = if k = key then some e' else s.entry k)
    (hnew : ∀ cl : Fin blockSizeCl,
      LineIssued issued (e'.callbacks cl) (key + UInt64.ofNat cl.val * cpuClSize)) :
    t.Addressed issued where
  start := hstart.trans h.start
  lsq := fun req hreq => h.lsq req (hlsq req hreq)
  entries := by
    intro k e hk
    rw [hentry] at hk
    split at hk
    · rename_i hkey
      cases hk
      exact hkey ▸ hnew
    · exact h.entries k e hk
  roq := hroq ▸ h.roq
  ran := hran ▸ h.ran

/-- One entry has changed, and not in its callbacks. -/
theorem rewrite (h : s.Addressed issued) (hstart : t.ctrl.startAddr = s.ctrl.startAddr)
    (hlsq : ∀ req ∈ t.ctrl.lsq.queue, req ∈ s.ctrl.lsq.queue) (hroq : t.ctrl.roq = s.ctrl.roq)
    (hran : Rmw.ran t.log = Rmw.ran s.log) (he : s.entry key = some e)
    (hentry : ∀ k, t.entry k = if k = key then some e' else s.entry k)
    (hcb : e'.callbacks = e.callbacks) : t.Addressed issued :=
  h.update hstart hlsq hroq hran hentry (hcb ▸ h.entries key e he)

/-- A read that waits for its line waits under it. -/
theorem waitFor (hfront : ReadIssued issued front) (ht : front.type = .read)
    (he : ∀ cl : Fin blockSizeCl, LineIssued issued (e.callbacks cl)
      (translateToBlockAddr front.addr + UInt64.ofNat cl.val * cpuClSize)) (cl : Fin blockSizeCl) :
    LineIssued issued ((e.waitFor front).callbacks cl)
      (translateToBlockAddr front.addr + UInt64.ofNat cl.val * cpuClSize) := by
  intro c hc
  by_cases hcl : cl = blockOffsetCl front.addr
  · subst hcl
    have hcb : front.callback = some c := by
      simpa only [BufferEntry.waitFor, Function.update_self] using hc
    exact ⟨front.addr, hfront ht c hcb, (block_add_line _).symm⟩
  · exact he cl c (by simpa only [BufferEntry.waitFor, Function.update_of_ne hcl] using hc)

/-- **Every move keeps it.** -/
theorem move (h : s.Addressed issued) (ok : s.Ok) (hm : Move C (onlyIssued issued) s t) :
    t.Addressed issued := by
  have hfront : ∀ {req : BaseRequest κ} {rest : List (BaseRequest κ)},
      s.ctrl.lsq.queue = req :: rest → ReadIssued issued req ∧
        ∀ r ∈ rest, r ∈ s.ctrl.lsq.queue := by
    intro req rest hq
    rw [hq]
    exact ⟨h.lsq req (by rw [hq]; exact List.mem_cons_self), fun r => List.mem_cons_of_mem _⟩
  -- what is recorded of the reads and writes taken is no call
  have htaken : ∀ {how : Served} {reqs : List (BaseRequest κ)},
      Rmw.ran (s.log ++ reqs.map (Obs.taken how)) = Rmw.ran s.log := by
    intro how reqs
    simp [Rmw.ran, List.filterMap_append, List.filterMap_map, ranInvocation, Function.comp_def]
  cases hm with
  | @accept req room hQ =>
      refine ⟨h.start, fun r hr => ?_, h.entries, h.roq, ?_⟩
      · rcases List.mem_append.mp hr with hr | hr
        · exact h.lsq r hr
        · obtain rfl := List.mem_singleton.mp hr
          exact hQ
      · have hran : Rmw.ran (s.log ++ [.accepted req]) = Rmw.ran s.log := by
          simp [Rmw.ran, ranInvocation]
        exact hran ▸ h.ran
  | @run front rest clk hq hdue =>
      refine ⟨h.start, h.lsq, h.entries, fun req hreq => h.roq req ?_, fun inv hinv => ?_⟩
      · rw [hq]
        exact List.mem_cons_of_mem _ hreq
      · rw [Rmw.ran, List.filterMap_append] at hinv
        rcases List.mem_append.mp hinv with hinv | hinv
        · exact h.ran inv hinv
        · -- the read at the front is called back under its own address
          cases hcb : front.callback with
          | none => simp [hcb, invoke] at hinv
          | some c =>
              obtain rfl : inv = ⟨c, front.addr + s.ctrl.startAddr, clk⟩ := by
                simpa [hcb, invoke, ranInvocation] using hinv
              obtain ⟨a, ha, hline⟩ := h.roq front (by rw [hq]; exact List.mem_cons_self) c hcb
              exact ⟨a, ha, by rw [hline, h.start, UInt64.add_zero]⟩
  | evict he hend hfull =>
      refine ⟨h.start, h.lsq, fun k e' hk => ?_, h.roq, h.ran⟩
      rw [entry_erase] at hk
      split at hk
      · cases hk
      · exact h.entries k e' hk
  | @readCold front rest clk bits hq ht hnone hroom =>
      exact h.update rfl (hfront hq).2 rfl (@htaken .readCold [front])
        (fun _ => by rw [entry_takeRead, entry_newEntry])
        (waitFor (hfront hq).1 ht fun _ => .none)
  | @readPatch front rest e hq ht he hpend hread hne hlen hQ =>
      exact h.update rfl (hfront hq).2 rfl (@htaken .readPatch [front])
        (fun _ => by rw [entry_takeRead, entry_setEntry, entry_count])
        (waitFor (hfront hq).1 ht (h.entries _ _ he))
  | @readFf front rest e clk bits hq ht he hnot hvalid hidx =>
      exact h.update rfl (hfront hq).2 rfl (@htaken .readFf [front])
        (fun _ => by rw [entry_takeRead, entry_setEntry])
        (waitFor (hfront hq).1 ht fun _ => .none)
  | writeNew hq ht hcomb hnone hroom =>
      exact h.update rfl (mem_of_combine hcomb) rfl htaken
        (fun _ => by rw [entry_takeWrites, entry_newEntry]) fun _ => .none
  | writeComb hq ht hcomb he hpatch hall =>
      exact h.rewrite rfl (mem_of_combine hcomb) rfl htaken he
        (fun _ => entry_setEntry) rfl
  | writeJoin hq ht hcomb he hpatch hall =>
      exact h.rewrite rfl (mem_of_combine hcomb) rfl htaken he
        (fun _ => entry_setEntry) rfl
  | writePatch hq ht hcomb he hpend =>
      exact h.rewrite rfl (mem_of_combine hcomb) rfl htaken he
        (fun _ => entry_setEntry) rfl
  | @transfer key e e' s' he hact hm =>
      -- the callbacks of the entry move to roq, or stay under their lines
      have hok := ok key e he
      obtain ⟨hbuf, hlsq, hstart⟩ := hm.frame hok.not_flushBack
      have hran : Rmw.ran s'.log = Rmw.ran s.log := by
        rcases hm.log hok with hlog | ⟨hlog, -⟩ | ⟨hlog, -⟩ <;> simp [hlog, Rmw.ran, ranInvocation]
      have hentries : ∀ cl : Fin blockSizeCl,
          LineIssued issued (e'.callbacks cl) (key + UInt64.ofNat cl.val * cpuClSize) :=
        hm.callbacks hok ▸ h.entries key e he
      refine ⟨hstart.trans h.start, fun req hreq => h.lsq req (hlsq ▸ hreq), fun k e₁ hk => ?_,
        fun req hreq => ?_, hran ▸ h.ran⟩
      · rw [entry_setEntry] at hk
        split at hk
        · rename_i hkey
          cases hk
          exact hkey ▸ hentries
        · exact h.entries k e₁ (by rwa [Sys.entry, hbuf] at hk)
      · rcases hm.mem_roq hok req hreq with hreq | ⟨cl, hcb, haddr⟩
        · exact h.roq req hreq
        · rw [hcb, haddr]
          exact h.entries key e he cl
  | @wake addr e clk he =>
      exact h.rewrite rfl (fun _ hreq => hreq) rfl
        (by simp [Sys.emit, Sys.setEntry, Rmw.ran, ranInvocation]) he
        (fun _ => entry_setEntry) rfl
  -- neither touches an address
  | below | draining => exact ⟨h.start, h.lsq, h.entries, h.roq, h.ran⟩
  | flush he hdirty hend =>
      exact h.rewrite rfl (fun _ hreq => hreq) rfl rfl he (fun _ => entry_setEntry) rfl

theorem init {cfg : Config} {next : List σ} : (Sys.init cfg next : Sys κ σ).Addressed issued where
  start := rfl
  lsq := fun req hreq => by simp [Sys.init] at hreq
  entries := fun key e he => by simp [Sys.entry, Sys.init] at he
  roq := fun req hreq => by simp [Sys.init] at hreq
  ran := fun inv hinv => by simp [Sys.init, Rmw.ran] at hinv

end Sys.Addressed

end Rmw

end Vans
