import KernelElevator.Requests
import KernelElevator.Library.TailInsertion

/-!
# Concurrent requests

`add_passenger` takes no lock around `list_add_tail`, and a system call runs in the context of any
process. Here the queue of one floor is what it is in memory, a ring of records, and the five
accesses of `list_add_tail` to the links are steps of their own.

* `Queued` — the links hold a queue; `link_refines` — a call that runs alone does what `State.link`
  says.
* `Rush` — calls on one floor, with their steps in any order, all of which have returned.
* `requests_kept_iff` — when nobody is lost.
-/

namespace KernelElevator

open Machine
open Ring (Links IsRing)

/-- A list head: that of `floors[k]`, or the one in a record. -/
abbrev Node := Option Nat

/-- The `list` member of a passenger's record. -/
def Passenger.node (p : Passenger) : Node := some p.id

/-- The links are those of a queue with these passengers. -/
def Queued (links : Links Node) (ps : List Passenger) : Prop :=
  IsRing links none (ps.map Passenger.node)

/-- No record is the list head of the floor. -/
theorem head_not_mem (ps : List Passenger) : (none : Node) ∉ ps.map Passenger.node := by
  simp [Passenger.node]

theorem nodup_nodes {ps : List Passenger} (h : (ps.map Passenger.id).Nodup) :
    (ps.map Passenger.node).Nodup := by
  have hmap : ps.map Passenger.node = (ps.map Passenger.id).map some := by
    simp only [List.map_map]
    rfl
  rw [hmap]
  exact h.map (Option.some_injective Nat)

/-! ## A call that runs alone -/

/-- Reading the tail, the four writes, and nothing in between. -/
def uninterrupted (p : Passenger) : List Node := List.replicate 5 p.node

/-- **`list_add_tail`, uninterrupted, appends.** -/
theorem link_refines {s : State} {p : Passenger} {links : Links Node}
    (hstart : 1 ≤ p.startFloor ∧ p.startFloor ≤ 10) (hq : Queued links (s.queue p.startFloor))
    (hnew : ∀ q ∈ s.queue p.startFloor, q.id ≠ p.id) :
    Queued (run (Ring.move none) (uninterrupted p) (Ring.begin links [p.node])).links
      ((s.link p).queue p.startFloor) := by
  have hqueue : (s.link p).queue p.startFloor = s.queue p.startFloor ++ [p] := by
    show getQueue (putQueue s.floors p.startFloor _) p.startFloor = _
    rw [getQueue_putQueue s.floors hstart, Function.update_self]
  have hn : p.node ∉ none :: (s.queue p.startFloor).map Passenger.node := by
    simpa [Passenger.node] using hnew
  rw [hqueue, Queued, List.map_append]
  exact Ring.isRing_alone hq hn

/-! ## Calls that run concurrently -/

/-- Some calls of `issue_request` on one floor, each with the record it has allocated, and the order
in which they came to move. All of them have returned. -/
structure Rush where
  links : Links Node
  /-- The passengers who wait already. -/
  queue : List Passenger
  calls : List Passenger
  moves : List Node
  queued : Queued links queue
  /-- No two records are the same. -/
  records : ((queue ++ calls).map Passenger.id).Nodup
  returned : ∀ n ∈ calls.map Passenger.node,
    (run (Ring.move none) moves (Ring.begin links (calls.map Passenger.node))).stage n = .done

namespace Rush

/-- Before the first move. -/
def start (r : Rush) : Ring.Config Node := Ring.begin r.links (r.calls.map Passenger.node)

/-- After the last one. -/
def final (r : Rush) : Ring.Config Node := run (Ring.move none) r.moves r.start

/-- The queue holds everybody once. -/
def Kept (r : Rush) : Prop := ∃ ps, ps.Perm (r.queue ++ r.calls) ∧ Queued r.final.links ps

theorem calls_new (r : Rush) :
    ∀ n ∈ r.calls.map Passenger.node, n ∉ none :: r.queue.map Passenger.node := by
  have hnodes := nodup_nodes r.records
  rw [List.map_append, List.nodup_append] at hnodes
  intro n hn hmem
  rcases List.mem_cons.1 hmem with rfl | hmem
  · exact head_not_mem r.calls hn
  · exact hnodes.2.2 n hmem n hn rfl

theorem kept_iff_isRing (r : Rush) :
    r.Kept ↔ ∃ ys, ys.Perm (r.queue.map Passenger.node ++ r.calls.map Passenger.node) ∧
      IsRing r.final.links none ys := by
  rw [← List.map_append]
  constructor
  · intro hkept
    obtain ⟨ps, hperm, hring⟩ := hkept
    exact ⟨_, hperm.map _, hring⟩
  · intro hring
    obtain ⟨ys, hperm, hring⟩ := hring
    have hcomp : Relation.Comp (· = List.map Passenger.node ·) List.Perm ys
        (r.queue ++ r.calls) := by
      rw [List.eq_map_comp_perm]
      exact hperm
    obtain ⟨ps, rfl, hps⟩ := hcomp
    exact ⟨ps, hps, hring⟩

end Rush

/-- **Concurrent requests are kept if and only if each call that writes `head->prev` finds there
what it has read, and no call writes the `next` link of a record that has yet to write its own.** -/
theorem requests_kept_iff (r : Rush) :
    r.Kept ↔ Along (Ring.move none) (Ring.Timely none) r.moves r.start := by
  have hnodup : (r.calls.map Passenger.node).Nodup := by
    have hnodes := nodup_nodes r.records
    rw [List.map_append] at hnodes
    exact (List.nodup_append.1 hnodes).2.1
  rw [r.kept_iff_isRing]
  exact Ring.isRing_iff_timely r.queued hnodup r.calls_new r.returned

/-- Two adults call on an empty floor, and both read the tail before either writes it. -/
def sameTail : Rush where
  links := ⟨fun _ => none, fun _ => none⟩
  queue := []
  calls := [⟨0, 2, 1, 1, 2, adult, .up⟩, ⟨1, 2, 1, 1, 3, adult, .up⟩]
  moves := [some 0, some 1, some 0, some 0, some 0, some 0, some 1, some 1, some 1, some 1]
  queued := ⟨⟨rfl, rfl⟩, by simp⟩
  records := by decide
  returned := by decide

/-- Both records end with the list head as their predecessor. -/
theorem sameTail_lost : ¬ sameTail.Kept := by
  intro hkept
  obtain ⟨ps, hperm, hring⟩ := hkept
  have hmem : ∀ p ∈ sameTail.calls, p.node ∈ none :: ps.map Passenger.node := by
    intro p hp
    apply List.mem_cons_of_mem
    exact List.mem_map_of_mem (hperm.mem_iff.2 (List.mem_append_right _ hp))
  have hsame : (some 0 : Node) = some 1 :=
    hring.prev_inj (hmem _ List.mem_cons_self)
      (hmem _ (List.mem_cons_of_mem _ List.mem_cons_self)) (by decide)
  exact absurd hsame (by decide)

end KernelElevator
