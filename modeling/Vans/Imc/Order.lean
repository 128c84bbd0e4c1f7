import Vans.Imc.Delivery
/-!
# The iMC — the order it keeps for one component

Over one component no address is mapped away. With equal stamps the
writes waiting always go first; so the requests to an address go out in
the order they came in, provided no write comes in while a read of its
address waits.
-/

namespace Vans

namespace Imc

open ComponentMapping

variable {κ σ : Type} {C : Component κ σ} {rounds : ℕ}

/-! ## The requests to an address -/

/-- The types of the requests to an address, in order. -/
def typesTo (a : Addr) (reqs : List (BaseRequestType × Addr)) : List BaseRequestType :=
  (reqs.filter (·.2 = a)).map (·.1)

/-- A request, as the trace has it. -/
def key (req : BaseRequest κ) : BaseRequestType × Addr := (req.type, req.addr)

/-- The requests accepted, of both types. -/
def acceptedKeys (log : List (Obs κ)) : List (BaseRequestType × Addr) :=
  log.filterMap fun
    | .accepted req => some (key req)
    | _ => none

/-- The requests handed to the component below. -/
def handedKeys (log : List (Obs κ)) : List (BaseRequestType × Addr) :=
  log.filterMap fun
    | .handed type _ addr => some (type, addr)
    | _ => none

section Keys

variable {a : Addr} {xs ys : List (BaseRequestType × Addr)} {log : List (Obs κ)}
  {req : BaseRequest κ} {type : BaseRequestType} {i : ℕ} {addr : Addr} {invs : List (Invocation κ)}

theorem typesTo_append : typesTo a (xs ++ ys) = typesTo a xs ++ typesTo a ys := by
  simp [typesTo]

@[simp] theorem typesTo_nil : typesTo a [] = [] := rfl

theorem typesTo_eq_nil (h : ∀ x ∈ xs, x.2 ≠ a) : typesTo a xs = [] := by
  simpa [typesTo, List.filter_eq_nil_iff] using h

@[simp] theorem acceptedKeys_accepted :
    acceptedKeys (log ++ [.accepted req]) = acceptedKeys log ++ [key req] := by
  simp [acceptedKeys]

@[simp] theorem acceptedKeys_heldBack : acceptedKeys (log ++ [.heldBack]) = acceptedKeys log := by
  simp [acceptedKeys]

@[simp] theorem acceptedKeys_handed_read :
    acceptedKeys (log ++ [.handed type i addr]) = acceptedKeys log := by
  simp [acceptedKeys]

@[simp] theorem acceptedKeys_handed :
    acceptedKeys (log ++ .handed type i addr :: invs.map .ran) = acceptedKeys log := by
  simp [acceptedKeys]

@[simp] theorem handedKeys_accepted :
    handedKeys (log ++ [.accepted req]) = handedKeys log := by
  simp [handedKeys]

@[simp] theorem handedKeys_heldBack : handedKeys (log ++ [.heldBack]) = handedKeys log := by
  simp [handedKeys]

@[simp] theorem handedKeys_handed_read :
    handedKeys (log ++ [.handed type i addr]) = handedKeys log ++ [(type, addr)] := by
  simp [handedKeys]

@[simp] theorem handedKeys_handed :
    handedKeys (log ++ .handed type i addr :: invs.map .ran) =
      handedKeys log ++ [(type, addr)] := by
  simp [handedKeys]

end Keys

/-- One component maps every address to itself. -/
theorem mapping_one {f : ComponentMapping} (hf : f = noneMapping ∨ f = strideMapping4096)
    (a : Addr) : f a 1 = (a, 0) := by
  refine Prod.ext ((localAddr_eq_self_iff hf).mpr (.inr (.inl rfl))) ?_
  rcases hf with rfl | rfl
  · rfl
  · exact (target_stride (a := a)).trans (Nat.mod_one _)

/-- Where no request comes in, none is accepted. -/
theorem acceptedKeys_of_moves {s t : Sys κ σ} (h : Moves C (fun _ _ => False) s t) :
    acceptedKeys t.log = acceptedKeys s.log := by
  refine reflTransGen_keeps (P := fun u : Sys κ σ => acceptedKeys u.log = acceptedKeys s.log)
    (fun u v hu hm => ?_) h rfl
  rw [← hu]
  cases hm with
  | acceptRead _ _ hQ => exact hQ.elim
  | acceptWrite _ _ hQ => exact hQ.elim
  | child | draining => rfl
  | hands hm =>
      cases hm with
      | clock | refuseWrite => rfl
      | holdRead | refuseRead => exact acceptedKeys_heldBack
      | handRead => exact acceptedKeys_handed_read
      | handWrite => exact acceptedKeys_handed

/-! ## The invariant -/

/-- Requests carry one stamp, and no write comes in while a read of its
address waits. -/
def InTurn (stamp : Clk) (s : Sys κ σ) (req : BaseRequest κ) : Prop :=
  req.arrive = stamp ∧
    (req.type = .write → s.ctrl.wpq.queue.length < s.ctrl.wpq.maxEntries →
      ∀ r ∈ s.ctrl.rpq.queue, r.addr ≠ req.addr)

/-- **The order invariant**: what was accepted to an address is what was
handed on, then the writes that wait, then the reads that wait. -/
structure Sys.InOrder (stamp : Clk) (s : Sys κ σ) : Prop where
  mapping : s.ctrl.mappingFunc = noneMapping ∨ s.ctrl.mappingFunc = strideMapping4096
  single : s.next.length = 1
  reads : ∀ r ∈ s.ctrl.rpq.queue, r.type = .read ∧ r.arrive = stamp
  writes : ∀ w ∈ s.ctrl.wpq.queue, w.type = .write ∧ w.arrive = stamp
  order : ∀ a, typesTo a (acceptedKeys s.log) = typesTo a (handedKeys s.log) ++
    typesTo a (s.ctrl.wpq.queue.map key) ++ typesTo a (s.ctrl.rpq.queue.map key)

namespace Sys.InOrder

variable {stamp : Clk} {s t : Sys κ σ}

/-- **Every move keeps the order invariant**, where requests come in
turn. -/
theorem move (io : s.InOrder stamp) (hC : KeepsRefused C) (h : Move C (InTurn stamp) s t) :
    t.InOrder stamp := by
  -- with one child every address is its own
  have hmap : ∀ a, s.ctrl.mappingFunc a s.next.length = (a, 0) := fun a => by
    rw [io.single]; exact mapping_one io.mapping a
  cases h with
  | draining => exact ⟨io.mapping, io.single, io.reads, io.writes, io.order⟩
  | child hlen => exact ⟨io.mapping, hlen.trans io.single, io.reads, io.writes, io.order⟩
  | @acceptRead req ht room hQ =>
      refine ⟨io.mapping, io.single, ?_, io.writes, fun a => ?_⟩
      · intro r hr
        rcases List.mem_append.mp hr with hr | hr
        · exact io.reads r hr
        · obtain rfl := List.mem_singleton.mp hr
          exact ⟨ht, hQ.1⟩
      · simp only [acceptedKeys_accepted, handedKeys_accepted, List.map_append, List.map_cons,
          List.map_nil, typesTo_append]
        rw [io.order a, List.append_assoc]
  | @acceptWrite req ht room hQ =>
      refine ⟨io.mapping, io.single, io.reads, ?_, fun a => ?_⟩
      · intro w hw
        rcases List.mem_append.mp hw with hw | hw
        · exact io.writes w hw
        · obtain rfl := List.mem_singleton.mp hw
          exact ⟨ht, hQ.1⟩
      · simp only [acceptedKeys_accepted, handedKeys_accepted, List.map_append, List.map_cons,
          List.map_nil, typesTo_append]
        rw [io.order a]
        by_cases ha : req.addr = a
        · -- no read of the address waits
          have hnone : typesTo a (s.ctrl.rpq.queue.map key) = [] := by
            refine typesTo_eq_nil fun x hx => ?_
            obtain ⟨r, hr, rfl⟩ := List.mem_map.mp hx
            exact ha ▸ hQ.2 ht room r hr
          simp [hnone]
        · have hother : typesTo a [key req] = [] := typesTo_eq_nil (by simpa [key] using ha)
          simp [hother]
  | hands hm =>
      cases hm with
      | clock => exact ⟨io.mapping, io.single, io.reads, io.writes, io.order⟩
      | @holdRead req rest hq hfull =>
          have hsame : { req with addr := (s.ctrl.mappingFunc req.addr s.next.length).1 } = req := by
            rw [hmap]
          -- a request that is held or refused stays at the front as it was
          rw [hsame, ← hq]
          exact ⟨io.mapping, io.single, io.reads, io.writes, by simpa using io.order⟩
      | @refuseRead req req' rest resp next hq hfull hissue hno =>
          have hsame : req' = req := by
            rw [issueTo_refused hC hfull hissue hno, hmap]
          rw [hsame, ← hq]
          exact ⟨io.mapping, (Component.issueTo_length hissue).trans io.single, io.reads, io.writes,
            by simpa using io.order⟩
      | @handRead req req' rest resp next hq hfirst hissue hyes =>
          -- with equal stamps, reads are served only when no write waits
          have hwpq : s.ctrl.wpq.queue = [] := by
            cases hw : s.ctrl.wpq.queue with
            | nil => rfl
            | cons w ws =>
                have hlt := hfirst w (by simp [hw])
                rw [(io.reads req (by simp [hq])).2, (io.writes w (by simp [hw])).2] at hlt
                exact absurd hlt (UInt64.lt_irrefl stamp)
          refine ⟨io.mapping, (Component.issueTo_length hissue).trans io.single,
            fun r hr => io.reads r (by simp [hq, show r ∈ rest from hr]), io.writes, fun a => ?_⟩
          have hkey : key req = (.read, req.addr) := Prod.ext (io.reads req (by simp [hq])).1 rfl
          have horder := io.order a
          rw [hq, hwpq, List.map_cons, hkey, ← List.singleton_append, typesTo_append] at horder
          simp only [acceptedKeys_handed_read, handedKeys_handed_read, hmap, typesTo_append, hwpq]
          simpa using horder
      | @refuseWrite req req' rest resp next hq hfull hissue hno =>
          rw [issueTo_refused hC hfull hissue hno, ← hq]
          exact ⟨io.mapping, (Component.issueTo_length hissue).trans io.single, io.reads, io.writes,
            io.order⟩
      | @handWrite req req' rest resp next hq hfirst hissue hyes =>
          refine ⟨io.mapping, (Component.issueTo_length hissue).trans io.single, io.reads,
            fun w hw => io.writes w (by simp [hq, show w ∈ rest from hw]), fun a => ?_⟩
          have hkey : key req = (.write, req.addr) := Prod.ext (io.writes req (by simp [hq])).1 rfl
          have horder := io.order a
          rw [hq, List.map_cons, hkey, ← List.singleton_append, typesTo_append] at horder
          simp only [acceptedKeys_handed, handedKeys_handed, typesTo_append]
          simpa using horder

theorem init {cfg : Config} {st : σ}
    (hf : cfg.mappingFunc = noneMapping ∨ cfg.mappingFunc = strideMapping4096) :
    (Sys.init cfg [st] : Sys κ σ).InOrder stamp :=
  ⟨hf, rfl, nofun, nofun, fun _ => rfl⟩

/-- What was handed on to an address is the first of what was accepted. -/
theorem prefix_handed (io : s.InOrder stamp) (a : Addr) :
    typesTo a (handedKeys s.log) <+: typesTo a (acceptedKeys s.log) :=
  ⟨_, by rw [io.order a, List.append_assoc]⟩

end Sys.InOrder

end Imc

end Vans
