import KernelElevator.Offload

/-!
# The floor that `min_onboard` chooses

The loop looks for the smallest difference between a destination and the current floor, in the
direction of travel. A destination behind the elevator has a negative difference, which is smaller
than that of any floor ahead: the choice is the destination furthest behind, if there is one.

* `nearest_iff` — when the choice is the nearest destination ahead.
-/

namespace KernelElevator

/-- Everybody on board gets off at a floor of the building, and there is a direction to go on in. -/
structure Carrying (s : State) : Prop where
  onboard : s.onboard ≠ []
  destinations : ∀ p ∈ s.onboard, 1 ≤ p.destinationFloor ∧ p.destinationFloor ≤ 10
  floor : 1 ≤ s.currentFloor ∧ s.currentFloor ≤ 10
  direction : s.previousState = .up ∨ s.previousState = .down

/-- The passenger's floor is the current one, or ahead of it. -/
def Ahead (s : State) (p : Passenger) : Prop :=
  NotBefore s.previousState s.currentFloor p.destinationFloor

/-- If somebody's floor is ahead, `min_onboard` chooses the first of these; otherwise the floor of
anybody. -/
def ChoosesNearest (s : State) : Prop :=
  (∃ q ∈ s.onboard, minOnboard s = q.destinationFloor) ∧
  ((∃ p ∈ s.onboard, Ahead s p) →
    NotBefore s.previousState s.currentFloor (minOnboard s) ∧
    ∀ r ∈ s.onboard, Ahead s r → NotBefore s.previousState (minOnboard s) r.destinationFloor)

theorem NotBefore.trans {direction : Status} {f g h : Int} (hfg : NotBefore direction f g)
    (hgh : NotBefore direction g h) : NotBefore direction f h :=
  ⟨fun hup => (hfg.1 hup).trans (hgh.1 hup), fun hdown => (hgh.2 hdown).trans (hfg.2 hdown)⟩

/-- **`min_onboard` chooses the nearest floor ahead if and only if the floors of those on board are
all ahead, or all behind.** -/
theorem nearest_iff {s : State} (h : Carrying s) :
    ChoosesNearest s ↔ (∀ p ∈ s.onboard, Ahead s p) ∨ ∀ p ∈ s.onboard, ¬ Ahead s p := by
  obtain ⟨p, hp⟩ := List.exists_mem_of_ne_nil _ h.onboard
  obtain ⟨q, hq, hmin, hfirst⟩ := minOnboard_first h.floor h.direction hp (h.destinations p hp)
  rw [← hmin] at hfirst
  constructor
  · rintro ⟨-, hnearest⟩
    by_cases hahead : ∃ p ∈ s.onboard, Ahead s p
    · -- Nobody's floor comes before the choice, which is ahead.
      refine .inl ?_
      intro r hr
      exact (hnearest hahead).1.trans (hfirst r hr)
    · refine .inr ?_
      intro r hr hrahead
      exact hahead ⟨r, hr, hrahead⟩
  · intro hside
    refine ⟨⟨q, hq, hmin⟩, ?_⟩
    rintro ⟨r, hr, hrahead⟩
    rcases hside with hall | hnone
    · refine ⟨?_, fun r hr _ => hfirst r hr⟩
      rw [hmin]
      exact hall q hq
    · exact absurd hrahead (hnone r hr)

/-- On the way up from floor 4, to floor 7. -/
def onTheWay : State :=
  { elevatorInit with
    currentFloor := 4
    previousState := .up
    onboard := [⟨0, 2, 1, 3, 7, adult, .up⟩, ⟨1, 2, 1, 2, 9, adult, .up⟩] }

theorem onTheWay_nearest : ChoosesNearest onTheWay ∧ minOnboard onTheWay = 7 := by
  refine ⟨(nearest_iff ⟨by decide, by decide, by decide, .inl rfl⟩).2 (.inl ?_), by decide⟩
  intro p hp
  refine ⟨fun _ => ?_, fun hdown => absurd hdown (by decide)⟩
  revert p
  decide

/-- Two passengers board at floor 3, one for floor 2 and one for floor 7; the elevator is on its way
up to floor 4 when it is stopped. -/
def mixedStop : List Label :=
  [.call (.request adult 3 2 true), .call (.request adult 3 7 true), .call .start, .sched granted,
    .sched granted, .sched granted, .sched granted, .call .stop, .sched granted]

/-- It turns round to floor 2. -/
theorem mixedStop_turns : CallsMinOnboard granted (after mixedStop) ∧
    (after mixedStop).previousState = .up ∧ (after mixedStop).currentFloor = 4 ∧
    minOnboard (after mixedStop) = 2 ∧ ¬ ChoosesNearest (after mixedStop) := by
  have hprevious : (after mixedStop).previousState = .up := by decide
  have hfloor : (after mixedStop).currentFloor = 4 := by decide
  have hmin : minOnboard (after mixedStop) = 2 := by decide
  refine ⟨by decide, hprevious, hfloor, hmin, ?_⟩
  rintro ⟨-, hnearest⟩
  have hahead : ∃ p ∈ (after mixedStop).onboard, Ahead (after mixedStop) p := by
    refine ⟨⟨1, 2, 1, 3, 7, adult, .up⟩, by decide, ?_⟩
    rw [Ahead, hprevious, hfloor]
    exact ⟨fun _ => by decide, fun hdown => absurd hdown (by decide)⟩
  have hle := (hnearest hahead).1.1 hprevious
  rw [hmin, hfloor] at hle
  exact absurd hle (by decide)

end KernelElevator
