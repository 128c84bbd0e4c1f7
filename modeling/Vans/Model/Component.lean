import Vans.Model.Base
import Vans.Common.Keyed
import Vans.Common.Words
/-!
# Components, their mappings, and what they are built on

The interface every component of the tree offers its parent, the
mappings a controller picks a child with, the entry buffer two of the
controllers keep, and the memory of fixed latency they use as their
local store.

The source walks its hash maps in an order the language leaves open. A
`VisitOrder` is one such order: a permutation of the keys, chosen anew
for every tick and arbitrary in every theorem.
-/

namespace Vans

/-! ## Component mappings -/

/-- The address inside the component, and the component's index. -/
abbrev ComponentMapping := Addr → ℕ → Addr × ℕ

def noneMapping : ComponentMapping := fun inAddr _ => (inAddr, 0)

/-- The source divides 64-bit words; a component count is one, so the
division is that of the numbers. -/
def strideMapping4096 : ComponentMapping := fun inAddr totalComponents =>
  let page := (inAddr >>> 12).toNat
  ((UInt64.ofNat (page / totalComponents) <<< 12) ||| (inAddr &&& 0xfff), page % totalComponents)

def getComponentMappingFunc (mappingFuncName : String) : Result ComponentMapping :=
  if mappingFuncName = "none_mapping" then pure noneMapping
  else if mappingFuncName = "stride_mapping(4096)" then pure strideMapping4096
  else throw ("Unknown dram_mapping function: " ++ mappingFuncName)

/-- The mappings the code offers are these two. -/
theorem getComponentMappingFunc_eq_ok {name : String} {f : ComponentMapping}
    (h : getComponentMappingFunc name = .ok f) : f = noneMapping ∨ f = strideMapping4096 := by
  unfold getComponentMappingFunc at h
  split at h
  · exact .inl (pure_eq_ok.mp h).symm
  · split at h
    · exact .inr (pure_eq_ok.mp h).symm
    · exact absurd h throw_ne_ok

/-- The mappings the code offers pick a child that is there. -/
theorem mapping_lt {f : ComponentMapping} (hf : f = noneMapping ∨ f = strideMapping4096) {n : ℕ}
    (hn : 0 < n) (addr : Addr) : (f addr n).2 < n := by
  rcases hf with rfl | rfl
  · exact hn
  · exact Nat.mod_lt _ hn

/-! ## Walking a hash map -/

/-- An order the keys of a hash map may be walked in. -/
structure VisitOrder where
  visit : List Addr → List Addr
  perm : ∀ ks, (visit ks).Perm ks

/-- The orders of one tick, for the maps of a component tree: a map is
named by the path of child indices its component is reached by. -/
abbrev Visit := List ℕ → VisitOrder

namespace VisitOrder

/-- The order the keys are held in. -/
def asHeld : VisitOrder := ⟨id, fun _ => .refl _⟩

theorem mem_visit {o : VisitOrder} {k : Addr} {ks : List Addr} : k ∈ o.visit ks ↔ k ∈ ks :=
  (o.perm ks).mem_iff

end VisitOrder

/-- The orders below the `i`-th child. -/
def Visit.child (v : Visit) (i : ℕ) : Visit := fun path => v (i :: path)

/-! ## Components -/

/-- What a component offers its parent. A request is passed by
reference, so issuing one also gives back the request as the component
left it; a tick gives back the callbacks it ran. -/
structure Component (κ σ : Type) where
  issueRequest : BaseRequest κ → σ → Result (BaseResponse × BaseRequest κ × σ)
  full : σ → Result Bool
  pending : σ → Bool
  drain : σ → Result σ
  tick : Visit → Clk → σ → Result (σ × List (Invocation κ))

namespace Component

variable {κ σ : Type}

/-- The chosen child takes the request. A controller indexes its child
list unchecked. -/
def issueTo (C : Component κ σ) (next : List σ) (i : ℕ) (req : BaseRequest κ) :
    Result (BaseResponse × BaseRequest κ × List σ) :=
  match next[i]? with
  | none => throw "undefined behaviour: next_level_components index out of range"
  | some s => do
      let (resp, req', s') ← C.issueRequest req s
      return (resp, req', next.set i s')

/-- Whether the chosen child is full. -/
def fullAt (C : Component κ σ) (next : List σ) (i : ℕ) : Result Bool :=
  match next[i]? with
  | none => throw "undefined behaviour: next_level_components index out of range"
  | some s => C.full s

/-- The children tick in order. -/
def tickNext (C : Component κ σ) (visit : Visit) (currClk : Clk) (next : List σ) :
    Result (List σ × List (Invocation κ)) :=
  next.zipIdx.foldlM
    (fun (done, ran) (s, i) => do
      let (s', ran') ← C.tick (visit.child i) currClk s
      return (done ++ [s'], ran ++ ran'))
    ([], [])

variable {C : Component κ σ} {visit : Visit} {clk : Clk}

private theorem tickNext_foldlM : ∀ {l : List (σ × ℕ)} {done next : List σ}
    {before ran : List (Invocation κ)},
    l.foldlM (fun (done, ran) (s, i) => do
      let (s', ran') ← C.tick (visit.child i) clk s
      return (done ++ [s'], ran ++ ran')) (done, before) = .ok (next, ran) →
    ∃ outs, List.Forall₂ (fun si out => C.tick (visit.child si.2) clk si.1 = .ok out) l outs ∧
      next = done ++ outs.map Prod.fst ∧ ran = before ++ outs.flatMap Prod.snd := by
  intro l
  induction l with
  | nil =>
      intro done next before ran h
      obtain ⟨rfl, rfl⟩ := Prod.mk.inj (pure_eq_ok.mp h)
      exact ⟨[], .nil, by simp, by simp⟩
  | cons si l ih =>
      intro done next before ran h
      rw [List.foldlM_cons, bind_eq_ok] at h
      obtain ⟨acc, hacc, h⟩ := h
      simp only [bind_eq_ok, Prod.exists, pure_eq_ok] at hacc
      obtain ⟨s', ran', htick, rfl⟩ := hacc
      obtain ⟨outs, houts, rfl, rfl⟩ := ih h
      exact ⟨(s', ran') :: outs, .cons htick houts, by simp, by simp⟩

/-- **What the children's ticks do**: each child ticks once, in its
place, and the callbacks they run are collected in their order. -/
theorem tickNext_eq_ok {next next' : List σ} {ran : List (Invocation κ)}
    (h : C.tickNext visit clk next = .ok (next', ran)) :
    ∃ outs, List.Forall₂ (fun si out => C.tick (visit.child si.2) clk si.1 = .ok out)
        next.zipIdx outs ∧
      next' = outs.map Prod.fst ∧ ran = outs.flatMap Prod.snd := by
  obtain ⟨outs, houts, rfl, rfl⟩ := tickNext_foldlM h
  exact ⟨outs, houts, rfl, rfl⟩

theorem tickNext_length {next next' : List σ} {ran : List (Invocation κ)}
    (h : C.tickNext visit clk next = .ok (next', ran)) : next'.length = next.length := by
  obtain ⟨outs, houts, rfl, -⟩ := tickNext_eq_ok h
  rw [List.length_map, ← houts.length_eq, List.length_zipIdx]

/-- **What issuing to a child does**: the child is there, takes the
request or refuses it, and no other child changes. -/
theorem issueTo_eq_ok {next next' : List σ} {i : ℕ} {req req' : BaseRequest κ}
    {resp : BaseResponse} :
    C.issueTo next i req = .ok (resp, req', next') ↔
      ∃ s s', next[i]? = some s ∧ C.issueRequest req s = .ok (resp, req', s') ∧
        next' = next.set i s' := by
  unfold issueTo
  cases hst : next[i]? with
  | none => simp
  | some s =>
      simp only [bind_eq_ok, Prod.exists, pure_eq_ok, Prod.mk.injEq, Option.some.injEq]
      constructor
      · rintro ⟨resp', req'', s', hissue, rfl, rfl, rfl⟩
        exact ⟨s, s', rfl, hissue, rfl⟩
      · rintro ⟨_, s', rfl, hissue, rfl⟩
        exact ⟨resp, req', s', hissue, rfl, rfl, rfl⟩

theorem issueTo_length {next next' : List σ} {i : ℕ} {req req' : BaseRequest κ}
    {resp : BaseResponse} (h : C.issueTo next i req = .ok (resp, req', next')) :
    next'.length = next.length := by
  obtain ⟨s, s', -, -, rfl⟩ := issueTo_eq_ok.mp h
  exact List.length_set

end Component

/-! ## Runs of a component -/

/-- The calls a component receives from its driver. -/
inductive Call (κ : Type) where
  | issueRequest (req : BaseRequest κ)
  | tick (visit : Visit) (currClk : Clk)
  | drain

/-- A component, and what its driver saw of it: the requests it took, as
they were issued, and the callbacks it ran. -/
structure Driven (κ σ : Type) where
  state : σ
  accepted : List (BaseRequest κ) := []
  ran : List (Invocation κ) := []

namespace Component

variable {κ σ : Type}

/-- The component under its driver. -/
def machine (C : Component κ σ) : Machine (Driven κ σ) (Call κ) String where
  step := fun s call =>
    match call with
    | .issueRequest req => do
        let (resp, _, state) ← C.issueRequest req s.state
        return { s with
          state := state
          accepted := if resp.issued then s.accepted ++ [req] else s.accepted }
    | .tick visit currClk => do
        let (state, ran) ← C.tick visit currClk s.state
        return { s with state := state, ran := s.ran ++ ran }
    | .drain => do
        let state ← C.drain s.state
        return { s with state := state }

variable {C : Component κ σ}

/-- **The invariant rule of a component**: what its three calls keep,
its runs keep. -/
theorem run_keeps {P : σ → Prop}
    (hissue : ∀ req s resp req' s', P s → C.issueRequest req s = .ok (resp, req', s') → P s')
    (htick : ∀ visit clk s s' ran, P s → C.tick visit clk s = .ok (s', ran) → P s')
    (hdrain : ∀ s s', P s → C.drain s = .ok s' → P s')
    {calls : List (Call κ)} {s t : Driven κ σ} (hs : P s.state)
    (h : C.machine.run s calls = .ok t) : P t.state := by
  refine C.machine.invariant (P := fun u => P u.state) (fun u call v hu hv => ?_) hs h
  cases call with
  | issueRequest req =>
      simp only [machine, bind_eq_ok, Prod.exists, pure_eq_ok] at hv
      obtain ⟨resp, req', state, hok, rfl⟩ := hv
      exact hissue _ _ _ _ _ hu hok
  | tick visit clk =>
      simp only [machine, bind_eq_ok, Prod.exists, pure_eq_ok] at hv
      obtain ⟨state, ran, hok, rfl⟩ := hv
      exact htick _ _ _ _ _ hu hok
  | drain =>
      simp only [machine, bind_eq_ok, pure_eq_ok] at hv
      obtain ⟨state, hok, rfl⟩ := hv
      exact hdrain _ _ hu hok

end Component

/-! ## The memory of fixed latency -/

structure StaticMemory where
  readLatency : Clk
  writeLatency : Clk
  deriving Repr

namespace StaticMemory

def issueRequest {κ : Type} (m : StaticMemory) (request : BaseRequest κ) : Result BaseResponse :=
  if request.arrive = clkInvalid then
    throw "Internal error, this request's arrive clk is `clk_invalid`."
  else
    match request.type with
    | .read => pure ⟨true, true, request.arrive + m.readLatency⟩
    | .write => pure ⟨true, true, request.arrive + m.writeLatency⟩

/-- **A memory of fixed latency takes every request**, and knows at once
when it will be served. -/
theorem issueRequest_eq_ok {κ : Type} {m : StaticMemory} {req : BaseRequest κ} {resp : BaseResponse}
    (h : m.issueRequest req = .ok resp) : resp.issued = true ∧ resp.deterministic = true := by
  unfold issueRequest at h
  split at h
  · exact absurd h throw_ne_ok
  · split at h <;> · obtain rfl := pure_eq_ok.mp h; exact ⟨rfl, rfl⟩

/-- As a component: it is never full and never pending, and its tick
does nothing. -/
def component {κ : Type} : Component κ StaticMemory where
  issueRequest := fun req m => do
    let resp ← m.issueRequest req
    return (resp, req, m)
  full := fun _ => pure false
  pending := fun _ => false
  drain := pure
  tick := fun _ _ m => pure (m, [])

end StaticMemory

/-! ## The entry buffer -/

/-- The buffer of a controller: at most `maxEntries` entries, keyed by
the block address `addrFunc` makes of an address. -/
structure InternalBuffer (addrFunc : Addr → Addr) (ε : Type) where
  entryMap : Keyed Addr ε := ∅
  maxEntries : ℕ
  nextAvailableIndex : ℕ := 0

namespace InternalBuffer

variable {addrFunc : Addr → Addr} {ε : Type} {b b' : InternalBuffer addrFunc ε} {addr : Addr}

/-- The constructor of the entry is given the index the buffer assigns
it; the new entry is given back, as the source's iterator points to it. -/
def insert (b : InternalBuffer addrFunc ε) (addr : Addr) (mk : ℕ → ε) :
    Result (ε × InternalBuffer addrFunc ε) :=
  if (b.entryMap.lookup (addrFunc addr)).isSome then
    throw "Internal error, insert to an existing entry."
  else if b.maxEntries < b.entryMap.keys.length + 1 then
    throw "Internal error, insert to a full rmw."
  else if b.maxEntries < b.nextAvailableIndex then
    throw ("Internal error, buffer local index out of range: " ++ toString b.nextAvailableIndex
      ++ " > " ++ toString b.maxEntries ++ " for addr [" ++ toString addr ++ "]")
  else
    pure (mk b.nextAvailableIndex, { b with
      entryMap := b.entryMap.insert (addrFunc addr) (mk b.nextAvailableIndex)
      nextAvailableIndex := b.nextAvailableIndex + 1 })

def find (b : InternalBuffer addrFunc ε) (logicAddr : Addr) : Option ε :=
  b.entryMap.lookup (addrFunc logicAddr)

/-- Writing through the iterator `find` returned. -/
def set (b : InternalBuffer addrFunc ε) (key : Addr) (e : ε) : InternalBuffer addrFunc ε :=
  { b with entryMap := b.entryMap.insert key e }

def erase (b : InternalBuffer addrFunc ε) (logicAddr : Addr) : InternalBuffer addrFunc ε :=
  { b with
    entryMap := b.entryMap.erase (addrFunc logicAddr)
    nextAvailableIndex := b.nextAvailableIndex - 1 }

def full (b : InternalBuffer addrFunc ε) : Bool := b.maxEntries ≤ b.entryMap.keys.length

/-- Whether some entry satisfies the test. -/
def any (b : InternalBuffer addrFunc ε) (p : ε → Bool) : Bool :=
  b.entryMap.entries.any fun s => p s.2

/-- **What `insert` does**: it puts the new entry under a key that was
free, and only where there is room. -/
theorem insert_eq_ok {mk : ℕ → ε} {e : ε} (h : b.insert addr mk = .ok (e, b')) :
    b.entryMap.lookup (addrFunc addr) = none ∧ b.entryMap.keys.length < b.maxEntries ∧
      e = mk b.nextAvailableIndex ∧ b' = { b with
        entryMap := b.entryMap.insert (addrFunc addr) (mk b.nextAvailableIndex)
        nextAvailableIndex := b.nextAvailableIndex + 1 } := by
  unfold insert at h
  split at h
  · exact absurd h throw_ne_ok
  · rename_i hnone
    split at h
    · exact absurd h throw_ne_ok
    · split at h
      · exact absurd h throw_ne_ok
      · obtain ⟨rfl, rfl⟩ := Prod.mk.inj (pure_eq_ok.mp h)
        exact ⟨by simpa using hnone, by omega, rfl, rfl⟩

/-- **Where there is room, a new entry can be inserted.** -/
theorem insert_of_room {mk : ℕ → ε} (hnone : b.entryMap.lookup (addrFunc addr) = none)
    (hroom : b.entryMap.keys.length < b.maxEntries)
    (hcount : b.nextAvailableIndex = b.entryMap.keys.length) :
    b.insert addr mk = .ok (mk b.nextAvailableIndex, { b with
      entryMap := b.entryMap.insert (addrFunc addr) (mk b.nextAvailableIndex)
      nextAvailableIndex := b.nextAvailableIndex + 1 }) := by
  rw [insert, hnone, if_neg (by simp), if_neg (by omega), if_neg (by omega)]
  rfl

theorem any_eq_false {p : ε → Bool} :
    b.any p = false ↔ ∀ k e, b.entryMap.lookup k = some e → p e = false := by
  simp only [any, List.any_eq_false, Bool.not_eq_true]
  constructor
  · intro h k e hk
    exact h ⟨k, e⟩ (AList.mem_lookup_iff.mp hk)
  · intro h s hs
    exact h s.1 s.2 (AList.mem_lookup_iff.mpr hs)

end InternalBuffer

end Vans
