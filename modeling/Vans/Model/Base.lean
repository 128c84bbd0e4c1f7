import Vans.Common.Machine
/-!
# The simulator's common types

Requests, responses, queues and counters, as every component of the
simulator shares them. Clocks and addresses are 64-bit words and wrap
as the source's do. An internal error of the source is a failed
computation carrying the source's message; so is a step the language
leaves undefined, which a run can then not pass through unnoticed.

A callback is a token of the party that issued the request: what a
component does with one is to run it, and a run of a callback is a
record that the token was called, with the arguments it was given.
-/

namespace Vans

abbrev Clk := UInt64

abbrev Addr := UInt64

/-- A computation that may raise an internal error. -/
abbrev Result := Except String

def clkInvalid : Clk := 0xffffffffffffffff

def addrInvalid : Addr := 0xffffffffffffffff

/-- The size of a processor cache line. -/
def cpuClSize : UInt64 := 64

def cpuClBitshift : UInt64 := 6

inductive BaseRequestType where
  | read
  | write
  deriving DecidableEq, Repr

/-- A request, with the token of the callback its issuer wants run. -/
structure BaseRequest (κ : Type) where
  addr : Addr
  arrive : Clk
  depart : Clk := clkInvalid
  type : BaseRequestType
  callback : Option κ := none
  deriving DecidableEq, Repr

/-- The answer to a request: whether it was taken, and the clock it will
be served at where that is known at once. -/
structure BaseResponse where
  issued : Bool
  deterministic : Bool
  nextClk : Clk
  deriving DecidableEq, Repr

/-- `deterministic ? next_clk : clk_invalid` -/
def BaseResponse.actionClk (resp : BaseResponse) : Clk :=
  if resp.deterministic then resp.nextClk else clkInvalid

/-- One run of a callback. -/
structure Invocation (κ : Type) where
  callback : κ
  addr : Addr
  clk : Clk
  deriving DecidableEq, Repr

/-- Running a callback: nothing happens where none was given. -/
def invoke {κ : Type} (cb : Option κ) (addr : Addr) (clk : Clk) : List (Invocation κ) :=
  match cb with
  | none => []
  | some c => [⟨c, addr, clk⟩]

/-! ## Queues -/

/-- A queue with a bound its own `enqueue` observes. -/
structure RequestQueue (ρ : Type) where
  queue : List ρ := []
  maxEntries : ℕ
  deriving Repr

namespace RequestQueue

variable {ρ : Type} {q q' : RequestQueue ρ} {r : ρ} {b : Bool}

def full (q : RequestQueue ρ) : Result Bool :=
  if q.maxEntries < q.queue.length then
    throw ("Internal error: queue overflow, " ++ toString q.queue.length ++ " > "
      ++ toString q.maxEntries)
  else
    pure (q.queue.length == q.maxEntries)

def empty (q : RequestQueue ρ) : Bool := q.queue.isEmpty

def pending (q : RequestQueue ρ) : Bool := !q.empty

/-- The source declares this `bool`: it tells an empty queue from any
other, and no more. -/
def size (q : RequestQueue ρ) : Bool := q.queue.length != 0

def enqueue (q : RequestQueue ρ) (r : ρ) : Result (Bool × RequestQueue ρ) := do
  if ← q.full then
    return (false, q)
  return (true, { q with queue := q.queue ++ [r] })

theorem full_eq_ok :
    q.full = .ok b ↔ q.queue.length ≤ q.maxEntries ∧ (b = true ↔ q.queue.length = q.maxEntries) := by
  unfold full
  split
  · simp; omega
  · cases b <;> simp <;> omega

/-- Within its bound, a queue knows whether it is full. -/
theorem full_of_le (h : q.queue.length ≤ q.maxEntries) :
    q.full = .ok (q.queue.length == q.maxEntries) := by
  rw [full, if_neg (Nat.not_lt.mpr h)]
  rfl

/-- **What `enqueue` does**: it appends to a queue with room, and leaves
a full one as it was. -/
theorem enqueue_eq_ok :
    q.enqueue r = .ok (b, q') ↔
      q.queue.length ≤ q.maxEntries ∧
      ((b = false ∧ q.queue.length = q.maxEntries ∧ q' = q) ∨
        (b = true ∧ q.queue.length < q.maxEntries ∧ q' = { q with queue := q.queue ++ [r] })) := by
  unfold enqueue
  rw [bind_eq_ok]
  constructor
  · rintro ⟨f, hf, h⟩
    obtain ⟨hle, hiff⟩ := full_eq_ok.mp hf
    cases f <;> simp at h hiff
    · exact ⟨hle, .inr ⟨h.1, by omega, h.2.symm⟩⟩
    · exact ⟨hle, .inl ⟨h.1, hiff, h.2.symm⟩⟩
  · rintro ⟨hle, ⟨rfl, heq, rfl⟩ | ⟨rfl, hlt, rfl⟩⟩
    · exact ⟨true, full_eq_ok.mpr ⟨hle, by simp [heq]⟩, by simp⟩
    · exact ⟨false, full_eq_ok.mpr ⟨hle, by simp; omega⟩, by simp⟩

/-- Within its bound, a queue can be asked. -/
theorem enqueue_of_le (h : q.queue.length ≤ q.maxEntries) : ∃ p, q.enqueue r = .ok p := by
  unfold enqueue
  simp only [full_of_le h, ok_bind]
  split <;> exact ⟨_, rfl⟩

@[simp] theorem pending_eq_false : q.pending = false ↔ q.queue = [] := by
  simp [pending, empty]

end RequestQueue

/-! ## Hardware counters -/

/-- A family of counters, one a name. -/
def Counter (ν : Type) := ν → ℕ

namespace Counter

variable {ν : Type} [DecidableEq ν] {c : Counter ν} {n n' : ν} {k : ℕ}

def zero : Counter ν := fun _ => 0

def add (c : Counter ν) (n : ν) (k : ℕ) : Counter ν := fun m => if m = n then c m + k else c m

/-- `counter[name]++` -/
def incr (c : Counter ν) (n : ν) : Counter ν := c.add n 1

@[simp] theorem add_self : (c.add n k) n = c n + k := by simp [add]

@[simp] theorem add_of_ne (h : n' ≠ n) : (c.add n k) n' = c n' := by simp [add, h]

end Counter

end Vans
