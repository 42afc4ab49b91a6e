import KernelElevator.State
import Mathlib.Data.List.FinRange

/-!
# The operations of the module

The functions of `elevator_proc.c` other than the scheduler, each with the source's name. A
function that returns an `int` gives the value it returns along with the state it leaves.
`printk` is dropped, and with it `print_passengers` and `print_who_on_it`.
-/

namespace KernelElevator

/-! ## Start and stop -/

def startElevator (s : State) : Int × State :=
  if s.started then (1, s)
  else (0, { s with state := .idle, currentFloor := 1, started := true })

def stopElevator (s : State) : Int × State :=
  if s.started then
    let s := if s.state = .up ∨ s.state = .down then { s with previousState := s.state } else s
    (0, { s with state := .offline, started := false })
  else (1, s)

/-! ## Requests -/

/-- The weight, in half units, and the space `add_passenger` gives a type. -/
def unitsOf (type : Int) : Option (Int × Int) :=
  if type = adult then some (2, 1)
  else if type = child then some (1, 1)
  else if type = rs then some (4, 2)
  else if type = bellhop then some (8, 2)
  else none

def directionOf (startFloor destinationFloor : Int) : Status :=
  if startFloor - destinationFloor > 0 then .down
  else if startFloor - destinationFloor < 0 then .up
  else .equal

/-- `list_add_tail(&p->list, &floors[start_floor - 1])`. -/
def State.link (p : Passenger) (s : State) : State :=
  { s with
    floors := putQueue s.floors p.startFloor (s.queue p.startFloor ++ [p])
    log := s.log ++ [.linked p] }

/-- A successful `kmalloc`. -/
def State.allocate (s : State) : State :=
  { s with records := s.records + 1, live := s.live ++ [s.records] }

def addPassenger (type startFloor destinationFloor : Int) (kmalloc : Bool) (s : State) :
    Int × State :=
  if kmalloc then
    match unitsOf type with
    | some (weight, space) =>
      (0, s.allocate.link
        { id := s.records, weightUnits := weight, spaceUnits := space, startFloor := startFloor,
          destinationFloor := destinationFloor, type := type,
          state := directionOf startFloor destinationFloor })
    | none => (-1, s.allocate)
  else (-12, s) -- -ENOMEM

/-- `issue_request` answers 0 whatever `add_passenger` returned. -/
def issueRequest (passengerType startFloor destinationFloor : Int) (kmalloc : Bool) (s : State) :
    Int × State :=
  if passengerType > 4 ∨ passengerType < 1 then (1, s)
  else if startFloor > 10 ∨ startFloor < 1 then (1, s)
  else if destinationFloor > 10 ∨ destinationFloor < 1 then (1, s)
  else (0, (addPassenger passengerType startFloor destinationFloor kmalloc s).2)

/-! ## Clearing the floors -/

/-- `list_move_tail` of each passenger of `floors[k]` onto `move_list`, counting. -/
def moveFloor (k : Fin 10) : List Passenger → State × List Passenger × Int →
    State × List Passenger × Int
  | [], acc => acc
  | p :: ps, (s, moveList, count) =>
    moveFloor k ps
      ({ s with floors := Function.update s.floors k ((s.floors k).erase p) },
        moveList ++ [p], count + 1)

def moveFloors : List (Fin 10) → State × List Passenger × Int → State × List Passenger × Int
  | [], acc => acc
  | k :: ks, acc => moveFloors ks (moveFloor k (acc.1.floors k) acc)

/-- `kfree` of each record of `move_list`. -/
def freeAll : List Passenger → State → State
  | [], s => s
  | p :: ps, s =>
    freeAll ps { s with live := s.live.erase p.id, log := s.log ++ [.freed p.id] }

/-- `delete_passenger`, with the count it logs. -/
def deletePassenger (s : State) : Int × State :=
  let (s, moveList, count) := moveFloors (List.finRange 10) (s, [], 0)
  (count, freeAll moveList s)

/-- `elevator_exit`: `kthread_stop` returns once the scheduler has left its loop, so it runs with
the scheduler at `top`. -/
def elevatorExit (s : State) : State := (deletePassenger s).2

/-! ## Loading and unloading -/

/-- A passenger whose start is its destination leaves the queue served. -/
def State.serveHere (floor : Int) (p : Passenger) (s : State) : State :=
  { s with
    served := bump s.served floor
    totalServed := s.totalServed + 1
    floors := putQueue s.floors floor ((s.queue floor).erase p)
    log := s.log ++ [.servedHere s.currentFloor p] }

/-- A passenger is moved from the queue to the tail of `onboard`. -/
def State.board (floor : Int) (p : Passenger) (s : State) : State :=
  { s with
    oddChildren := if p.type = child then s.oddChildren + 1 else s.oddChildren
    currentWeight := s.currentWeight + p.weightUnits
    currentUnits := s.currentUnits + p.spaceUnits
    floors := putQueue s.floors floor ((s.queue floor).erase p)
    onboard := s.onboard ++ [p]
    log := s.log ++ [.boarded s.currentFloor p] }

/-- A passenger leaves the elevator served. -/
def State.letOff (floor : Int) (p : Passenger) (s : State) : State :=
  { s with
    currentWeight := s.currentWeight - p.weightUnits
    currentUnits := s.currentUnits - p.spaceUnits
    oddChildren := if p.type = child then s.oddChildren - 1 else s.oddChildren
    served := bump s.served floor
    totalServed := s.totalServed + 1
    onboard := s.onboard.erase p
    log := s.log ++ [.unloaded s.currentFloor p] }

/-- The capacity test of `load_elevator`. -/
def Fits (s : State) (p : Passenger) : Prop :=
  s.currentWeight + p.weightUnits ≤ maxWeight ∧ s.currentUnits + p.spaceUnits ≤ maxUnits

instance (s : State) (p : Passenger) : Decidable (Fits s p) :=
  inferInstanceAs (Decidable (_ ∧ _))

/-- The `list_for_each_safe` of `load_elevator`. The first passenger who does not fit ends it; the
two branches that do so differ in their message only. -/
def loadLoop (floor : Int) : List Passenger → State → Int × State
  | [], s => (0, s)
  | p :: ps, s =>
    if p.state = .equal then loadLoop floor ps (s.serveHere floor p)
    else if Fits s p then loadLoop floor ps (s.board floor p)
    else (-1, s)

def loadElevator (floor : Int) (s : State) : Int × State :=
  if floor ≠ s.currentFloor then (-1, s)
  else
    let s := { s with log := s.log ++ [.opened floor] }
    if s.queue floor = [] then (-1, s)
    else loadLoop floor (s.queue floor) s

/-- The `list_for_each_safe` of `unload_elevator`. -/
def unloadLoop (floor : Int) : List Passenger → State → State
  | [], s => s
  | p :: ps, s =>
    if p.destinationFloor = floor then unloadLoop floor ps (s.letOff floor p)
    else unloadLoop floor ps s

def unloadElevator (floor : Int) (s : State) : Int × State :=
  if s.currentFloor ≠ floor then (-1, s)
  else (0, unloadLoop floor s.onboard s)

/-! ## Moving -/

/-- `move_elevator` up to its `ssleep`; `none` when the elevator is already at the floor. -/
def moveElevator (floor : Int) (s : State) : Option State :=
  if floor ≠ s.currentFloor then some { s with nextFloor := floor } else none

/-- The rest of `move_elevator`, after its `ssleep`. -/
def arrive (floor : Int) (s : State) : State := { s with currentFloor := floor }

theorem moveElevator_eq_some {floor : Int} {s t : State} (h : moveElevator floor s = some t) :
    floor ≠ s.currentFloor ∧ t = { s with nextFloor := floor } := by
  by_cases hf : floor ≠ s.currentFloor
  · rw [moveElevator, if_pos hf] at h
    exact ⟨hf, (Option.some.inj h).symm⟩
  · rw [moveElevator, if_neg hf] at h
    exact absurd h (by simp)

theorem moveElevator_eq_none {floor : Int} {s : State} (h : moveElevator floor s = none) :
    floor = s.currentFloor := by
  by_contra hf
  rw [moveElevator, if_pos hf] at h
  exact absurd h (by simp)

/-- The loop of `min_onboard`, for the distance `diff` of its branch. -/
def minOnboardLoop (diff : Passenger → Int) : List Passenger → Int × Int → Int × Int
  | [], best => best
  | p :: ps, (minDiff, minFloor) =>
    if diff p < minDiff then minOnboardLoop diff ps (diff p, p.destinationFloor)
    else minOnboardLoop diff ps (minDiff, minFloor)

def minOnboard (s : State) : Int :=
  if s.previousState = .up then
    (minOnboardLoop (fun p => p.destinationFloor - s.currentFloor) s.onboard (10, 0)).2
  else if s.previousState = .down then
    (minOnboardLoop (fun p => s.currentFloor - p.destinationFloor) s.onboard (10, 0)).2
  else -1

end KernelElevator
