import Mathlib.Data.List.Basic
import Mathlib.Order.Lattice
/-!
# Merging two queues

Two queues, and what has left them. Each is first in, first out; the
left one yields to the right one on ties. If what comes in carries
stamps that never decrease, and the queue with the earlier front is
served, then what leaves is ordered by its stamps, and nothing leaves
before what came earlier.
-/

namespace Vans

/-- Two queues, and what has left them, in order. -/
structure Merge (A : Type) where
  left : List A := []
  right : List A := []
  out : List A := []

namespace Merge

variable {A : Type}

/-- The two queues change places. -/
def swap (m : Merge A) : Merge A := { m with left := m.right, right := m.left }

def putLeft (m : Merge A) (a : A) : Merge A := { m with left := m.left ++ [a] }

def putRight (m : Merge A) (a : A) : Merge A := (m.swap.putLeft a).swap

/-- The front of the left queue leaves. -/
def takeLeft (m : Merge A) : Merge A :=
  match m.left with
  | [] => m
  | a :: rest => { m with left := rest, out := m.out ++ [a] }

/-- The front of the right queue leaves. -/
def takeRight (m : Merge A) : Merge A := m.swap.takeLeft.swap

variable {m : Merge A} {a : A} {rest : List A}

theorem takeLeft_cons (h : m.left = a :: rest) :
    m.takeLeft = { m with left := rest, out := m.out ++ [a] } := by
  simp only [takeLeft, h]

theorem takeRight_cons (h : m.right = a :: rest) :
    m.takeRight = { m with right := rest, out := m.out ++ [a] } := by
  rw [takeRight, takeLeft_cons (m := m.swap) h]
  rfl

/-! ## Nothing is lost -/

/-- What came in has left or waits, in its order; the predicate says
which queue it is for. -/
structure Holds (p : A → Bool) (puts : List A) (m : Merge A) : Prop where
  left : puts.filter p = m.out.filter p ++ m.left
  right : puts.filter (!p ·) = m.out.filter (!p ·) ++ m.right

namespace Holds

variable {p : A → Bool} {puts : List A}

theorem nil : Holds p [] ({} : Merge A) := ⟨rfl, rfl⟩

theorem swap (h : Holds p puts m) : Holds (!p ·) puts m.swap :=
  ⟨h.right, by simpa [Merge.swap] using h.left⟩

theorem of_swap (h : Holds (!p ·) puts m.swap) : Holds p puts m := by
  have hleft := h.right
  simp only [Bool.not_not] at hleft
  exact ⟨hleft, h.left⟩

theorem putLeft (h : Holds p puts m) (ha : p a) : Holds p (puts ++ [a]) (m.putLeft a) where
  left := by
    rw [List.filter_append, h.left, List.append_assoc]
    simp [Merge.putLeft, ha]
  right := by
    rw [List.filter_append, h.right]
    simp [Merge.putLeft, ha]

theorem putRight (h : Holds p puts m) (ha : p a = false) :
    Holds p (puts ++ [a]) (m.putRight a) :=
  (h.swap.putLeft (by simpa using ha)).of_swap

theorem of_mem_left (h : Holds p puts m) (ha : a ∈ m.left) : a ∈ puts ∧ p a := by
  have hmem : a ∈ puts.filter p := h.left ▸ List.mem_append_right _ ha
  exact List.mem_filter.mp hmem

theorem of_mem_right (h : Holds p puts m) (ha : a ∈ m.right) : a ∈ puts :=
  (h.swap.of_mem_left ha).1

theorem of_mem_out (h : Holds p puts m) (ha : a ∈ m.out) : a ∈ puts := by
  cases hp : p a with
  | true =>
      have hmem : a ∈ puts.filter p :=
        h.left ▸ List.mem_append_left _ (List.mem_filter.mpr ⟨ha, hp⟩)
      exact (List.mem_filter.mp hmem).1
  | false =>
      have hmem : a ∈ puts.filter (!p ·) :=
        h.right ▸ List.mem_append_left _ (List.mem_filter.mpr ⟨ha, by simp [hp]⟩)
      exact (List.mem_filter.mp hmem).1

theorem takeLeft (h : Holds p puts m) : Holds p puts m.takeLeft := by
  cases hq : m.left with
  | nil => simpa only [Merge.takeLeft, hq] using h
  | cons a rest =>
      have hp : p a := (h.of_mem_left (by rw [hq]; exact List.mem_cons_self)).2
      rw [takeLeft_cons hq]
      refine ⟨?_, ?_⟩
      · rw [h.left, hq]
        simp [List.filter_append, hp]
      · rw [h.right]
        simp [List.filter_append, hp]

theorem takeRight (h : Holds p puts m) : Holds p puts m.takeRight :=
  h.swap.takeLeft.of_swap

end Holds

/-! ## Order -/

section Order

variable {S : Type} [LinearOrder S] (stamp : A → S)

/-- The queues and what left them are ordered by stamp, and what left
came no later than what waits. -/
structure Ordered (m : Merge A) : Prop where
  left : (m.left.map stamp).Pairwise (· ≤ ·)
  right : (m.right.map stamp).Pairwise (· ≤ ·)
  out : (m.out.map stamp).Pairwise (· ≤ ·)
  before : ∀ o ∈ m.out, ∀ q ∈ m.left ++ m.right, stamp o ≤ stamp q

variable {stamp}

/-- A list that is ordered, extended by a last element. -/
theorem pairwise_concat {l : List A} (h : (l.map stamp).Pairwise (· ≤ ·))
    (ha : ∀ b ∈ l, stamp b ≤ stamp a) : ((l ++ [a]).map stamp).Pairwise (· ≤ ·) := by
  rw [List.map_append, List.pairwise_append]
  refine ⟨h, by simp, fun x hx y hy => ?_⟩
  obtain ⟨b, hb, rfl⟩ := List.mem_map.mp hx
  obtain rfl : y = stamp a := by simpa using hy
  exact ha b hb

/-- The front of an ordered list is its least. -/
theorem front_le {l : List A} (h : (l.map stamp).Pairwise (· ≤ ·)) {b c : A} (hb : b ∈ l.head?)
    (hc : c ∈ l) : stamp b ≤ stamp c := by
  cases l with
  | nil => simp at hb
  | cons d l =>
      obtain rfl : d = b := by simpa using hb
      rcases List.mem_cons.mp hc with rfl | hc
      · exact le_refl _
      · rw [List.map_cons, List.pairwise_cons] at h
        exact h.1 _ (List.mem_map_of_mem hc)

namespace Ordered

theorem nil : Ordered stamp ({} : Merge A) := ⟨.nil, .nil, .nil, by simp⟩

theorem swap (o : Ordered stamp m) : Ordered stamp m.swap :=
  ⟨o.right, o.left, o.out, fun b hb q hq => o.before b hb q
    (List.mem_append.mpr (List.mem_append.mp hq).symm)⟩

theorem putLeft (o : Ordered stamp m) (ha : ∀ b ∈ m.out ++ m.left, stamp b ≤ stamp a) :
    Ordered stamp (m.putLeft a) := by
  refine ⟨pairwise_concat o.left fun b hb => ha b (List.mem_append_right _ hb), o.right, o.out,
    fun b hb q hq => ?_⟩
  rcases List.mem_append.mp hq with hq | hq
  · rcases List.mem_append.mp hq with hq | hq
    · exact o.before b hb q (List.mem_append_left _ hq)
    · obtain rfl := List.mem_singleton.mp hq
      exact ha b (List.mem_append_left _ hb)
  · exact o.before b hb q (List.mem_append_right _ hq)

theorem putRight (o : Ordered stamp m) (ha : ∀ b ∈ m.out ++ m.right, stamp b ≤ stamp a) :
    Ordered stamp (m.putRight a) :=
  (o.swap.putLeft ha).swap

/-- **The left front leaves**, being no later than the right one. -/
theorem takeLeft (o : Ordered stamp m) (hq : m.left = a :: rest)
    (hfirst : ∀ b ∈ m.right.head?, stamp a ≤ stamp b) : Ordered stamp m.takeLeft := by
  have hleast : ∀ q ∈ m.left ++ m.right, stamp a ≤ stamp q := by
    intro q hmem
    rcases List.mem_append.mp hmem with hmem | hmem
    · exact front_le o.left (by simp [hq]) hmem
    · cases hr : m.right with
      | nil => simp [hr] at hmem
      | cons b bs => exact le_trans (hfirst b (by simp [hr])) (front_le o.right (by simp [hr]) hmem)
  have hsub : ∀ q ∈ rest ++ m.right, q ∈ m.left ++ m.right := by
    intro q hmem
    rw [hq, List.cons_append]
    exact List.mem_cons_of_mem _ hmem
  rw [takeLeft_cons hq]
  refine ⟨?_, o.right, pairwise_concat o.out fun b hb => o.before b hb a (by simp [hq]),
    fun b hb q hmem => ?_⟩
  · have h := o.left
    rw [hq, List.map_cons, List.pairwise_cons] at h
    exact h.2
  · rcases List.mem_append.mp hb with hb | hb
    · exact o.before b hb q (hsub q hmem)
    · obtain rfl := List.mem_singleton.mp hb
      exact hleast q (hsub q hmem)

/-- **The right front leaves**, being no later than the left one. -/
theorem takeRight (o : Ordered stamp m) (hq : m.right = a :: rest)
    (hfirst : ∀ b ∈ m.left.head?, stamp a ≤ stamp b) : Ordered stamp m.takeRight :=
  (o.swap.takeLeft hq hfirst).swap

end Ordered

end Order

end Merge

end Vans
