import KernelElevator.Library.Territory
import KernelElevator.BoardingAtomic

/-!
# Requests on all floors

Requests on one floor may lose each other's passengers when their accesses to the links meet. Here
they come in on any floors. The queue of a floor is worth as much as the requests on this floor make
of it: what happens on the other floors does not matter, even if passengers are lost there, and the
passengers on board are not touched.

* `RushHour` — requests on any floors, with their steps in any order, all of which have returned.
* `kept_iff` — when the queue of a floor keeps everybody.
* `floors_apart` — the queues and `onboard`, together.
-/

namespace KernelElevator

open Machine

/-- Some requests, each with the record it has allocated, and the order in which they came to
move. -/
structure RushHour where
  state : State
  links : Ring.Links Cell
  calls : List Passenger
  moves : List Cell
  holds : Holds state links
  /-- No two records are the same. -/
  records : ((state.onboard ++ waiting state ++ calls).map Passenger.id).Nodup

namespace RushHour

variable (r : RushHour)

/-- The list that `add_passenger` appends the record to. -/
def owner (x : Cell) : Option (Option (Fin 10)) :=
  (r.calls.find? (·.cell = x)).bind fun p => (slot p.startFloor).map some

def start : Ring.Config Cell := Ring.begin r.links (r.calls.map Passenger.cell)

/-- A step of the request that has allocated the record. -/
def step : Cell → Ring.Config Cell → Ring.Config Cell := Ring.moveIn listHead r.owner

def final : Ring.Config Cell := run r.step r.moves r.start

/-- The requests on floor `k` have returned. -/
def Returned (k : Fin 10) : Prop := ∀ p ∈ onFloor k r.calls, r.final.stage p.cell = .done

instance (k : Fin 10) : Decidable (r.Returned k) := inferInstanceAs (Decidable (∀ p ∈ _, _))

/-- The queue of floor `k` holds everybody once. -/
def Kept (k : Fin 10) : Prop :=
  ∃ ps : List Passenger, ps.Perm (r.state.floors k ++ onFloor k r.calls) ∧
    Ring.IsRing r.final.links (listHead (some k)) (ps.map Passenger.cell)

/-- A request on floor `k` finds in `head->prev` what it has read when it writes there, and does not
write the `next` link of a record that has yet to write its own. -/
def Timely (k : Fin 10) (c : Ring.Config Cell) (x : Cell) : Prop :=
  r.owner x = some (some k) → Ring.Timely (listHead (some k)) c x

instance (k : Fin 10) (c : Ring.Config Cell) (x : Cell) : Decidable (r.Timely k c x) :=
  inferInstanceAs (Decidable (_ → _))

/-- The new nodes of a list. -/
def own : Option (Fin 10) → List Cell
  | none => []
  | some k => (onFloor k r.calls).map Passenger.cell

theorem nodup_cells : (r.calls.map Passenger.cell).Nodup := by
  have hids := r.records
  rw [List.map_append, List.nodup_append] at hids
  have hmap : r.calls.map Passenger.cell = (r.calls.map Passenger.id).map Cell.record := by
    rw [List.map_map]
    rfl
  rw [hmap]
  exact hids.2.1.map fun _ _ h => Cell.record.inj h

theorem find_call {p : Passenger} (hp : p ∈ r.calls) :
    r.calls.find? (·.cell = p.cell) = some p := by
  cases hfind : r.calls.find? (·.cell = p.cell) with
  | none => exact absurd (List.find?_eq_none.1 hfind p hp) (by simp)
  | some q =>
    have hq := List.mem_of_find?_eq_some hfind
    have hcell : q.cell = p.cell := by simpa using List.find?_some hfind
    rw [List.inj_on_of_nodup_map r.nodup_cells hq hp hcell]

theorem mem_own {x : Cell} {i : Option (Fin 10)} : x ∈ r.own i ↔ r.owner x = some i := by
  constructor
  · intro hx
    cases i with
    | none => cases hx
    | some k =>
      obtain ⟨p, hp, rfl⟩ := List.mem_map.1 hx
      obtain ⟨hcall, hslot⟩ := List.mem_filter.1 hp
      rw [owner, r.find_call hcall]
      simpa using hslot
  · intro hx
    obtain ⟨p, hfind, hslot⟩ := Option.bind_eq_some_iff.1 hx
    obtain ⟨k, hk, rfl⟩ := Option.map_eq_some_iff.1 hslot
    have hcell : p.cell = x := by simpa using List.find?_some hfind
    rw [← hcell]
    exact List.mem_map_of_mem
      (List.mem_filter.2 ⟨List.mem_of_find?_eq_some hfind, by simpa using hk⟩)

theorem apart : Ring.Apart listHead r.owner r.links (fun i => (r.state.list i).map Passenger.cell)
    r.own (r.calls.map Passenger.cell) := by
  have hsub : ∀ k, (onFloor k r.calls).Sublist r.calls := fun k => List.filter_sublist
  refine ⟨r.holds, (begin_making r.records r.holds).disjoint, ?_, fun x i => r.mem_own, ?_, ?_⟩
  · intro n hn i
    obtain ⟨p, hp, rfl⟩ := List.mem_map.1 hn
    exact call_not_mem r.records hp i
  · intro i
    cases i with
    | none => exact List.nodup_nil
    | some k => exact r.nodup_cells.sublist ((hsub k).map _)
  · intro i n hn
    cases i with
    | none => cases hn
    | some k => exact ((hsub k).map _).subset hn

/-- **A queue keeps everybody if and only if its own requests are timely.** -/
theorem kept_iff {k : Fin 10} (hreturned : r.Returned k) :
    r.Kept k ↔ Along r.step (r.Timely k) r.moves r.start := by
  have hdone : ∀ n ∈ r.own (some k), r.final.stage n = .done := by
    intro n hn
    obtain ⟨p, hp, rfl⟩ := List.mem_map.1 hn
    exact hreturned p hp
  refine Iff.trans ?_ (Ring.isRing_in_iff r.apart (some k) hdone)
  have hcells : (r.state.list (some k)).map Passenger.cell ++ r.own (some k) =
      (r.state.floors k ++ onFloor k r.calls).map Passenger.cell := (List.map_append ..).symm
  rw [hcells]
  constructor
  · rintro ⟨ps, hperm, hring⟩
    exact ⟨_, hperm.map _, hring⟩
  · rintro ⟨ys, hperm, hring⟩
    have hcomp : Relation.Comp (· = List.map Passenger.cell ·) List.Perm ys
        (r.state.floors k ++ onFloor k r.calls) := by
      rw [List.eq_map_comp_perm]
      exact hperm
    obtain ⟨ps, rfl, hps⟩ := hcomp
    exact ⟨ps, hps, hring⟩

/-- Requests do not touch the passengers on board. -/
theorem isRing_onboard :
    Ring.IsRing r.final.links (listHead none) (r.state.onboard.map Passenger.cell) := by
  have hmoves : Ring.ownMoves r.owner none r.moves = [] := by
    apply List.filter_eq_nil_iff.2
    intro x _ hx
    exact List.not_mem_nil ((r.mem_own (i := none)).2 (by simpa using hx))
  have hsame := r.apart.territories.run_same r.apart.within_begin (r.apart.same_begin none) r.moves
  rw [hmoves] at hsame
  refine (r.holds none).congr fun x hx => ?_
  obtain ⟨-, hnext, hprev⟩ := hsame x (.inl hx)
  exact ⟨hnext.symm, hprev.symm⟩

/-- **Requests on different floors do not disturb each other.** However the steps of the requests
interleave, the passengers on board stay as they are, and the queue of each floor on which the
requests have returned keeps everybody if and only if the requests on this floor are timely. -/
theorem floors_apart :
    Ring.IsRing r.final.links (listHead none) (r.state.onboard.map Passenger.cell) ∧
      ∀ k, r.Returned k → (r.Kept k ↔ Along r.step (r.Timely k) r.moves r.start) :=
  ⟨r.isRing_onboard, fun _ => r.kept_iff⟩

end RushHour

/-! ## One floor loses a passenger, another one does not -/

def callsBelow : List Passenger := ⟨4, 2, 1, 1, 5, adult, .up⟩ :: Boarding.twoCome

theorem sameTailBelow_records : (((Boarding.queueWaits [adultWaiting]).onboard ++
    waiting (Boarding.queueWaits [adultWaiting]) ++ callsBelow).map Passenger.id).Nodup := by
  rw [Boarding.waiting_queueWaits]
  decide

theorem sameTailBelow_holds : Holds (Boarding.queueWaits [adultWaiting])
    (Boarding.ringLinks [listHead (some Boarding.ground), adultWaiting.cell]) :=
  (Boarding.meeting []).holds

/-- Two requests on floor 1 read the same tail, while a third comes in on floor 4. -/
def sameTailBelow : RushHour where
  state := Boarding.queueWaits [adultWaiting]
  links := Boarding.ringLinks [listHead (some Boarding.ground), adultWaiting.cell]
  calls := callsBelow
  moves := [.record 4, .record 2, .record 3] ++ List.replicate 4 (.record 4) ++
    List.replicate 4 (.record 3) ++ List.replicate 4 (.record 2)
  holds := sameTailBelow_holds
  records := sameTailBelow_records

theorem sameTailBelow_apart :
    ¬ sameTailBelow.Kept Boarding.ground ∧ sameTailBelow.Kept ⟨3, by decide⟩ := by
  have hkept := sameTailBelow.floors_apart.2
  refine ⟨?_, ?_⟩
  · rw [hkept Boarding.ground (by decide +kernel)]
    decide +kernel
  · rw [hkept ⟨3, by decide⟩ (by decide +kernel)]
    decide +kernel

end KernelElevator
