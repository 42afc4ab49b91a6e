import Mathlib.Data.List.Nodup
import Mathlib.Logic.Function.Basic

/-!
# Circular doubly linked lists

A heap of nodes with two links each. A *ring* is a head and a list of nodes, all different, that the
links run through in both directions and back to the head. The empty ring is a head linked to
itself.

* `IsRing.next_prev` — in a ring the links undo each other.
* `IsRing.prev_inj` — so no two nodes have one predecessor.
-/

namespace Ring

variable {N : Type*}

structure Links (N : Type*) where
  next : N → N
  prev : N → N

/-- The links run from `a` through the list to `last`, and back. -/
def Chain (s : Links N) (last : N) : N → List N → Prop
  | a, [] => s.next a = last ∧ s.prev last = a
  | a, x :: xs => (s.next a = x ∧ s.prev x = a) ∧ Chain s last x xs

structure IsRing (s : Links N) (head : N) (xs : List N) : Prop where
  chain : Chain s head head xs
  nodup : (head :: xs).Nodup

theorem Chain.next_prev {s : Links N} {last a : N} {xs : List N} (h : Chain s last a xs) {x : N}
    (hx : x ∈ xs ∨ x = last) : s.next (s.prev x) = x := by
  induction xs generalizing a with
  | nil =>
    obtain rfl : x = last := hx.resolve_left List.not_mem_nil
    rw [h.2, h.1]
  | cons y ys ih =>
    obtain ⟨⟨hnext, hprev⟩, hrest⟩ := h
    rcases hx with hx | hx
    · rcases List.mem_cons.1 hx with rfl | hx
      · rw [hprev, hnext]
      · exact ih hrest (.inl hx)
    · exact ih hrest (.inr hx)

theorem IsRing.next_prev {s : Links N} {head : N} {xs : List N} (h : IsRing s head xs) {x : N}
    (hx : x ∈ head :: xs) : s.next (s.prev x) = x := by
  apply h.chain.next_prev
  rcases List.mem_cons.1 hx with rfl | hx
  · exact .inr rfl
  · exact .inl hx

theorem IsRing.prev_inj {s : Links N} {head : N} {xs : List N} (h : IsRing s head xs) {x y : N}
    (hx : x ∈ head :: xs) (hy : y ∈ head :: xs) (heq : s.prev x = s.prev y) : x = y := by
  rw [← h.next_prev hx, heq, h.next_prev hy]

end Ring
