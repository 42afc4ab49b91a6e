import KernelElevator.Scheduler

/-!
# The arithmetic of the module

The results of the operations on `int`s, in the order in which the code computes them: the
differences of floors, the sums of the capacity tests, the counters, and the indices `floor - 1`.
The indices of the `for` loops are left out, and what `printk` prints.

* `stepInts` — those of a step.
* `runInts` — those of a run.
* `readInts` — those of `elevator_proc_read`.
-/

namespace KernelElevator

/-! ## Moving -/

/-- In `move_elevator`: `x`, its negation, and the argument of `ssleep`. -/
def moveInts (floor : Int) (s : State) : List Int :=
  if floor ≠ s.currentFloor then
    let x := s.currentFloor - floor
    if x < 0 then [x, x * -1, 2 * (x * -1)] else [x, 2 * x]
  else []

/-- In `min_onboard`: each `tempNum`. -/
def minOnboardInts (s : State) : List Int :=
  if s.previousState = .up then s.onboard.map fun p => p.destinationFloor - s.currentFloor
  else if s.previousState = .down then s.onboard.map fun p => s.currentFloor - p.destinationFloor
  else []

/-- `served[floor-1]++` and `total_served++`. -/
def serveInts (floor : Int) (s : State) : List Int :=
  (floor - 1) :: (slot floor).toList.map (fun k => s.served k + 1) ++ [s.totalServed + 1]

/-- For a passenger who gets off. -/
def letOffInts (floor : Int) (p : Passenger) (s : State) : List Int :=
  [s.currentWeight - p.weightUnits, s.currentUnits - p.spaceUnits] ++
    (if p.type = child then [s.oddChildren - 1] else []) ++ serveInts floor s

def unloadInts (floor : Int) : List Passenger → State → List Int
  | [], _ => []
  | p :: ps, s =>
    if p.destinationFloor = floor then
      letOffInts floor p s ++ unloadInts floor ps (s.letOff floor p)
    else unloadInts floor ps s

def unloadElevatorInts (floor : Int) (s : State) : List Int :=
  if s.currentFloor ≠ floor then [] else unloadInts floor s.onboard s

/-- The sums of the capacity test; the second is computed when the first is within capacity. The
test that ends the traversal computes the same. -/
def testInts (p : Passenger) (s : State) : List Int :=
  (s.currentWeight + p.weightUnits) ::
    if s.currentWeight + p.weightUnits ≤ maxWeight then [s.currentUnits + p.spaceUnits] else []

/-- For a passenger who boards. -/
def boardInts (p : Passenger) (s : State) : List Int :=
  (if p.type = child then [s.oddChildren + 1] else []) ++
    [s.currentWeight + p.weightUnits, s.currentUnits + p.spaceUnits]

def loadInts (floor : Int) : List Passenger → State → List Int
  | [], _ => []
  | p :: ps, s =>
    if p.state = .equal then serveInts floor s ++ loadInts floor ps (s.serveHere floor p)
    else if Fits s p then testInts p s ++ boardInts p s ++ loadInts floor ps (s.board floor p)
    else testInts p s ++ testInts p s

def loadElevatorInts (floor : Int) (s : State) : List Int :=
  if floor ≠ s.currentFloor then []
  else
    let s := { s with log := s.log ++ [.opened floor] }
    (floor - 1) :: if s.queue floor = [] then [] else loadInts floor (s.queue floor) s

def drainPassInts (s : State) : List Int :=
  if s.onboard = [] then []
  else
    minOnboardInts s ++ moveInts (minOnboard s) s ++
      match moveElevator (minOnboard s) s with
      | some _ => []
      | none => unloadElevatorInts s.currentFloor s

def drainArriveInts (floor : Int) (s : State) : List Int :=
  let s := arrive floor s
  unloadElevatorInts s.currentFloor s

def idleScanInts : List (Fin 10) → State → List Int
  | [], _ => []
  | i :: is, s =>
    match s.floors i with
    | [] => idleScanInts is s
    | p :: _ =>
      moveInts p.startFloor s ++
        match moveElevator p.startFloor s with
        | some _ => []
        | none => idleScanInts is (s.setState .loading)

/-- `elevator.current_floor-1`, and the move there. -/
def downPartInts (locks : Locks) (s : State) : List Int :=
  if s.state = .down ∧ locks .down ∧ s.currentFloor ≠ 1 then
    (s.currentFloor - 1) :: moveInts (s.currentFloor - 1) s
  else []

/-- `elevator.current_floor+1` below the last floor, the move, and what follows if there is none. -/
def upPartInts (locks : Locks) (s : State) : List Int :=
  if s.state = .up ∧ locks .up then
    (if s.currentFloor = 10 then [] else [s.currentFloor + 1]) ++
      moveInts (nextUp s.currentFloor) s ++
      match moveElevator (nextUp s.currentFloor) s with
      | some _ => []
      | none => downPartInts locks s
  else downPartInts locks s

def serviceInts (locks : Locks) (s : State) : List Int :=
  let s := s.lock .service locks
  if locks .service then
    let s := s.setState .loading
    unloadElevatorInts s.currentFloor s
  else upPartInts locks (s.unlock .service)

def loadAndGoInts (locks : Locks) (s : State) : List Int :=
  loadElevatorInts s.currentFloor s ++
    upPartInts locks (((loadElevator s.currentFloor s).2.setState .up).unlock .service)

def scheduleInts (locks : Locks) (s : State) : List Int :=
  match s.pc with
  | .top =>
    if s.state = .offline then
      let s := s.lock .offline locks
      if locks .offline then drainPassInts s else []
    else if s.state = .idle then idleScanInts (List.finRange 10) s
    else serviceInts locks s
  | .drain => drainPassInts s
  | .drainMove floor => drainArriveInts floor s
  | .idleMove is floor => idleScanInts is ((arrive floor s).setState .loading)
  | .loadSleep => loadAndGoInts locks s
  | .upMove floor => downPartInts locks ((arrive floor s).unlock .up)
  | .downMove _ => []

/-- In `add_passenger`: the comparisons of the floors, and the index. -/
def addPassengerInts (type startFloor destinationFloor : Int) (kmalloc : Bool) : List Int :=
  if kmalloc then
    match unitsOf type with
    | some _ =>
      (if startFloor - destinationFloor > 0 then [startFloor - destinationFloor]
        else [startFloor - destinationFloor, startFloor - destinationFloor]) ++ [startFloor - 1]
    | none => []
  else []

def issueRequestInts (passengerType startFloor destinationFloor : Int) (kmalloc : Bool) :
    List Int :=
  if passengerType > 4 ∨ passengerType < 1 then []
  else if startFloor > 10 ∨ startFloor < 1 then []
  else if destinationFloor > 10 ∨ destinationFloor < 1 then []
  else addPassengerInts passengerType startFloor destinationFloor kmalloc

def stepInts (l : Label) (s : State) : List Int :=
  match l with
  | .sched locks => scheduleInts locks s
  | .call (.request t a b kmalloc) => issueRequestInts t a b kmalloc
  | .call _ => []

/-- The results of all the operations of a run. -/
def runInts : List Label → State → List Int
  | [], _ => []
  | l :: ls, s => stepInts l s ++ runInts ls (step l s)

/-- In the inner loop of `elevator_proc_read`: the sums so far, and `weightSum/2`. -/
def waitingInts : List Passenger → Int × Int → List Int
  | [], sums => [sums.1.tdiv 2]
  | p :: ps, sums =>
    let sums := (sums.1 + p.weightUnits, sums.2 + p.spaceUnits)
    sums.1 :: sums.2 :: waitingInts ps sums

/-- In `elevator_proc_read`: `odd_children % 2`, `current_weight/2`, and `i+1` and the sums for each
floor. -/
def readInts (s : State) : List Int :=
  s.oddChildren.tmod 2 :: s.currentWeight.tdiv 2 ::
    (List.finRange 10).flatMap fun k => floorOf k :: waitingInts (s.floors k) (0, 0)

end KernelElevator
