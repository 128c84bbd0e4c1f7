import Vans.Dram.Service
/-!
# DDR4 — the only tick that fails

Whatever the clocks are and whatever was read and written, the requests
are for places in the tree and the banks are asked what they can be
asked. So a tick fails in one way only: the refreshes are due, and their
queue has no room for those of all ranks.
-/

namespace Vans

namespace Dram

namespace Ddr4

variable {κ : Type} {o : Organization} {t : Timing} {s u : Memory κ} {clk : Clk}

/-- **The invariant of every run**, whatever its clocks. -/
structure Reached (o : Organization) (t : Timing) (s : Memory κ) : Prop where
  sch : Scheduled s
  placed : Placed o t s

namespace Reached

theorem new {cfg : Config} (h : Sys.new (spec o t) 2 cfg = .ok s) : Reached o t s :=
  ⟨.new h, .new h⟩

/-- **A read or a write keeps it**: its address was mapped into the
tree. -/
theorem request {logicAddr : Addr} {type : ReqType} {callback : Option κ} {request : Request κ}
    {b : Bool} (h : Reached o t s) (htype : type = .read ∨ type = .write)
    (hmapped : s.mapped logicAddr type callback = .ok request)
    (hissue : issueRequest request s = .ok (b, u)) : Reached o t u := by
  have hstep : (machine (spec o t) 2).step s (.issueRequest logicAddr type callback) = .ok u := by
    simp only [machine, hmapped, hissue, ok_bind]
    rfl
  have haccess : IsAccess (.issueRequest logicAddr type callback) := htype
  have sch : Scheduled u := h.sch.step haccess hstep
  obtain ⟨x, hx, hrequest⟩ := bind_eq_ok.mp hmapped
  obtain rfl := pure_eq_ok.mp hrequest
  have hin := h.placed.mapped logicAddr x hx
  refine ⟨sch, ?_⟩
  obtain ⟨-, rfl, -⟩ | ⟨-, req, rfl, haccept | hforward⟩ := issueRequest_cases hissue
  · exact h.placed
  · refine h.placed.adds (.of_accept haccept) fun n r hr => ?_
    split at hr
    · obtain rfl := List.mem_singleton.mp hr
      exact hin
    · exact absurd hr List.not_mem_nil
  · exact h.placed.adds (.of_forward hforward) fun n r hr => absurd hr List.not_mem_nil

/-- **A tick succeeds where there is room**, and keeps it. -/
theorem tick (h : Reached o t s) (hroom : Room (spec o t) s clk) :
    Yields (tick (spec o t) clk s) (Reached o t) := by
  obtain ⟨m, begun⟩ := tick_begun hroom
  obtain ⟨new, hadds, hnew, -⟩ := begun_adds begun
  have sch : Scheduled m := h.sch.begun begun
  have placed : Placed o t m := by
    refine h.placed.adds hadds fun n r hr => ?_
    obtain ⟨-, rank, hrank, rfl⟩ := hnew n r hr
    exact h.placed.refresh_inRange hrank
  obtain ⟨u, hu, houtcome⟩ := placed.schedule_yields sch (chooseQueue m)
  have htick : (machine (spec o t) 2).step s (.tick clk) = .ok u := begun.tick.trans hu
  have haccess : IsAccess (.tick clk : Event κ) := trivial
  refine ⟨u, htick, h.sch.step haccess htick, ?_⟩
  rcases houtcome with ⟨rfl, -⟩ | ⟨req, rest, hissues⟩
  · exact placed
  · exact placed.issue hissues

/-- A tick succeeds exactly where there is room. -/
theorem tick_iff (h : Reached o t s) :
    (∃ u, Dram.tick (spec o t) clk s = .ok u) ↔ Room (spec o t) s clk := by
  constructor
  · rintro ⟨u, hu⟩
    exact room_of_tick h.placed.ranks_ne hu
  · intro hroom
    obtain ⟨u, hu, -⟩ := h.tick hroom
    exact ⟨u, hu⟩

theorem step {ev : Event κ} (h : Reached o t s) (hev : IsAccess ev)
    (hstep : (machine (spec o t) 2).step s ev = .ok u) : Reached o t u := by
  cases ev with
  | issueRequest logicAddr type callback =>
      simp only [machine, bind_eq_ok, Prod.exists, pure_eq_ok] at hstep
      obtain ⟨request, hmapped, b, u', hissue, rfl⟩ := hstep
      exact h.request hev hmapped hissue
  | tick clk =>
      obtain ⟨u', hu', hreached⟩ := h.tick (h.tick_iff.mp ⟨u, hstep⟩)
      obtain rfl := Except.ok.inj (hu'.symm.trans hstep)
      exact hreached

end Reached

/-- **A tick fails only for want of room.** For every configuration, and
after every run of reads, writes and ticks at any clocks, a tick succeeds
exactly where the queue has room for the refreshes of all ranks, if they
are due. -/
theorem tick_succeeds_iff {cfg : Config} {s₀ : Memory κ} {es : List (Event κ)}
    (hnew : Sys.new (spec o t) 2 cfg = .ok s₀) (haccess : ∀ ev ∈ es, IsAccess ev)
    (hrun : (machine (spec o t) 2).run s₀ es = .ok s) :
    (∃ u, tick (spec o t) clk s = .ok u) ↔ Room (spec o t) s clk := by
  have hs : Reached o t s := (machine (spec o t) 2).invariant_of_meets
    (fun _ _ _ h hev hstep => h.step hev hstep) (.new hnew)
    (Machine.meets_of_forall_mem haccess) hrun
  exact hs.tick_iff

end Ddr4

end Dram

end Vans
