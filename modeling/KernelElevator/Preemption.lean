import KernelElevator.Switching
import KernelElevator.Service

/-!
# Preemption between statements

In the runs of `Scheduler` a system call comes in where the scheduler sleeps. Here it comes in
anywhere: the scheduler thread and any number of processes, with their calls of `start_elevator`,
`stop_elevator` and `issue_request`, take turns at every access to the globals. A list operation is
one access, and so is an `issue_request`, of which only the `list_add_tail` can be seen.

* `Count`, `Deed` — what `load_elevator` and `unload_elevator` do with a passenger: one counter
  after another, and at last the list.
* `Point`, `advance` — where the scheduler is, and its next statement.
* `World`, `step` — the scheduler and the processes.
-/

namespace KernelElevator.Preemption

open Switching (Starting Stopping startStatement stopStatement)

/-! ## A passenger -/

/-- The counters. -/
structure Books where
  weight : Int
  units : Int
  oddChildren : Int
  total : Int
  served : Fin 10 → Int

def books (s : State) : Books :=
  ⟨s.currentWeight, s.currentUnits, s.oddChildren, s.totalServed, s.served⟩

/-- The state with these counters. -/
def withBooks (b : Books) (s : State) : State :=
  { s with
    currentWeight := b.weight
    currentUnits := b.units
    oddChildren := b.oddChildren
    totalServed := b.total
    served := b.served }

@[simp] theorem withBooks_books (s : State) : withBooks (books s) s = s := rfl

@[simp] theorem books_withBooks (b : Books) (s : State) : books (withBooks b s) = b := rfl

/-- A statement that changes a counter for the passenger at hand. -/
inductive Count where
  | oddUp | oddDown | weightUp | weightDown | unitsUp | unitsDown | served | total
  deriving DecidableEq

def Count.exec (floor : Int) (p : Passenger) (b : Books) : Count → Books
  | .oddUp => { b with oddChildren := b.oddChildren + 1 }
  | .oddDown => { b with oddChildren := b.oddChildren - 1 }
  | .weightUp => { b with weight := b.weight + p.weightUnits }
  | .weightDown => { b with weight := b.weight - p.weightUnits }
  | .unitsUp => { b with units := b.units + p.spaceUnits }
  | .unitsDown => { b with units := b.units - p.spaceUnits }
  | .served => { b with served := bump b.served floor }
  | .total => { b with total := b.total + 1 }

def Count.execAll (floor : Int) (p : Passenger) (cs : List Count) (b : Books) : Books :=
  cs.foldl (Count.exec floor p) b

/-- What happens to a passenger in a loop body of `load_elevator` and `unload_elevator`. -/
inductive Deed where
  /-- On the spot: start and destination are the same. -/
  | serve
  | board
  | letOff
  deriving DecidableEq

/-- The statements before the list operation. -/
def Deed.counts (p : Passenger) : Deed → List Count
  | .serve => [.served, .total]
  | .board => (if p.type = child then [.oddUp] else []) ++ [.weightUp, .unitsUp]
  | .letOff => [.weightDown, .unitsDown] ++ (if p.type = child then [.oddDown] else []) ++
      [.served, .total]

/-- `list_del` or `list_move_tail`. The history gets the floor that the function was called for. -/
def Deed.link (floor : Int) (p : Passenger) (s : State) : Deed → State
  | .serve =>
    { s with
      floors := putQueue s.floors floor ((s.queue floor).erase p)
      log := s.log ++ [.servedHere floor p] }
  | .board =>
    { s with
      floors := putQueue s.floors floor ((s.queue floor).erase p)
      onboard := s.onboard ++ [p]
      log := s.log ++ [.boarded floor p] }
  | .letOff => { s with onboard := s.onboard.erase p, log := s.log ++ [.unloaded floor p] }

/-! ## The scheduler -/

/-- Where `move_elevator` was called. -/
inductive Back where
  | drain
  /-- In the `IDLE` branch, with the indices still to look at. -/
  | idle (rest : List (Fin 10))
  | up
  | down
  deriving DecidableEq

/-- Where the loop over the list goes on. -/
inductive Rest where
  /-- In `unload_elevator`, which the service branch has called, or the `OFFLINE` loop. -/
  | unload (service : Bool) (ps : List Passenger)
  /-- In `load_elevator`, with `dummy`; `none` is the list head. -/
  | load (dummy : Option Passenger)
  deriving DecidableEq

/-- The next statement of the scheduler, with the locals of the functions it is in. -/
inductive Point where
  /-- `if(elevator.state == OFFLINE)`, at the head of the loop. -/
  | head
  /-- `else if(elevator.state == IDLE)` -/
  | elseIf
  | lockOffline
  /-- `while(!list_empty(&elevator.onboard))` -/
  | drain
  /-- The tests of `previous_state` in `min_onboard`. -/
  | testUp
  | testDown
  /-- The loop of `min_onboard`, going up or down. -/
  | minLoop (up : Bool) (ps : List Passenger) (minDiff minFloor : Int)
  /-- `if(floor != elevator.current_floor)`, in `move_elevator`. -/
  | move (floor : Int) (back : Back)
  | setNext (floor : Int) (back : Back)
  /-- `elevator.current_floor = floor`, after the sleep. -/
  | setFloor (floor : Int) (back : Back)
  /-- The argument of `unload_elevator` is read, and then compared. -/
  | unloadArg (service : Bool)
  | unloadTest (floor : Int) (service : Bool)
  | unload (floor : Int) (service : Bool) (ps : List Passenger)
  /-- A loop body, with the counters still to be changed. -/
  | deed (d : Deed) (floor : Int) (p : Passenger) (todo : List Count) (rest : Rest)
  /-- The loop of the `IDLE` branch. -/
  | scan (rest : List (Fin 10))
  | setLoading (rest : List (Fin 10))
  | lockService
  | service
  | loadArg
  | loadTest (floor : Int)
  /-- `list_empty(&floors[floor-1])` -/
  | loadEmpty (floor : Int)
  | loadFirst (floor : Int)
  /-- `dummy = temp->next` -/
  | loadSave (floor : Int) (temp : Option Passenger)
  | loadBody (floor : Int) (temp dummy : Option Passenger)
  | setUp
  /-- `if(elevator.state == UP)` -/
  | ifUp
  | lockUp
  | testTen
  | upArg
  /-- `if (elevator.state == DOWN)` -/
  | ifDown
  | lockDown
  | testOne
  | setUpDown
  | downArg
  | testEmpty
  | setIdle
  deriving DecidableEq

def Back.point : Back → Point
  | .drain => .unloadArg false
  | .idle rest => .setLoading rest
  | .up => .ifDown
  | .down => .testEmpty

/-- After `unload_elevator`. -/
def unloaded (service : Bool) : Point := if service then .loadArg else .drain

def Rest.point (floor : Int) : Rest → Point
  | .unload service ps => .unload floor service ps
  | .load dummy => .loadSave floor dummy

/-- The passenger behind `p` in a queue. -/
def behind (p : Passenger) : List Passenger → Option Passenger
  | [] => none
  | q :: qs => if q = p then qs.head? else behind p qs

/-- The next statement of the scheduler. `ok` is the outcome of an attempt to lock the mutex. -/
def advance (ok : Bool) (s : State) : Point → Point × State
  | .head => (if s.state = .offline then .lockOffline else .elseIf, s)
  | .elseIf => (if s.state = .idle then .scan (List.finRange 10) else .lockService, s)
  | .lockOffline => (if ok then .drain else .head, s)
  | .drain => (if s.onboard = [] then .head else .testUp, s)
  | .testUp => (if s.previousState = .up then .minLoop true s.onboard 10 0 else .testDown, s)
  | .testDown =>
    (if s.previousState = .down then .minLoop false s.onboard 10 0 else .move (-1) .drain, s)
  | .minLoop _ [] _ minFloor => (.move minFloor .drain, s)
  | .minLoop up (p :: ps) minDiff minFloor =>
    let tempNum :=
      if up then p.destinationFloor - s.currentFloor else s.currentFloor - p.destinationFloor
    (if tempNum < minDiff then .minLoop up ps tempNum p.destinationFloor
      else .minLoop up ps minDiff minFloor, s)
  | .move floor back => (if floor ≠ s.currentFloor then .setNext floor back else back.point, s)
  | .setNext floor back => (.setFloor floor back, { s with nextFloor := floor })
  | .setFloor floor back => (back.point, { s with currentFloor := floor })
  | .unloadArg service => (.unloadTest s.currentFloor service, s)
  | .unloadTest floor service =>
    (if s.currentFloor ≠ floor then unloaded service else .unload floor service s.onboard, s)
  | .unload _ service [] => (unloaded service, s)
  | .unload floor service (p :: ps) =>
    (if p.destinationFloor = floor then
      .deed .letOff floor p (Deed.letOff.counts p) (.unload service ps)
    else .unload floor service ps, s)
  | .deed d floor p [] rest => (rest.point floor, d.link floor p s)
  | .deed d floor p (c :: todo) rest =>
    (.deed d floor p todo rest, withBooks (c.exec floor p (books s)) s)
  | .scan [] => (.head, s)
  | .scan (i :: is) =>
    match s.floors i with
    | [] => (.scan is, s)
    | p :: _ => (.move p.startFloor (.idle is), s)
  | .setLoading is => (.scan is, { s with state := .loading })
  | .lockService => (if ok then .service else .ifUp, s)
  | .service => (.unloadArg true, { s with state := .loading })
  | .loadArg => (.loadTest s.currentFloor, s)
  | .loadTest floor => (if floor ≠ s.currentFloor then .setUp else .loadEmpty floor, s)
  | .loadEmpty floor => (if s.queue floor = [] then .setUp else .loadFirst floor, s)
  | .loadFirst floor => (.loadSave floor (s.queue floor).head?, s)
  | .loadSave _ none => (.setUp, s)
  | .loadSave floor (some p) => (.loadBody floor (some p) (behind p (s.queue floor)), s)
  | .loadBody _ none _ => (.setUp, s)
  | .loadBody floor (some p) dummy =>
    (if p.state = .equal then .deed .serve floor p (Deed.serve.counts p) (.load dummy)
    else if Fits s p then .deed .board floor p (Deed.board.counts p) (.load dummy)
    else .setUp, s)
  | .setUp => (.ifUp, { s with state := .up })
  | .ifUp => (if s.state = .up then .lockUp else .ifDown, s)
  | .lockUp => (if ok then .testTen else .ifDown, s)
  | .testTen => (if s.currentFloor = 10 then .move 1 .up else .upArg, s)
  | .upArg => (.move (s.currentFloor + 1) .up, s)
  | .ifDown => (if s.state = .down then .lockDown else .testEmpty, s)
  | .lockDown => (if ok then .testOne else .testEmpty, s)
  | .testOne => (if s.currentFloor = 1 then .setUpDown else .downArg, s)
  | .setUpDown => (.testEmpty, { s with state := .up })
  | .downArg => (.move (s.currentFloor - 1) .down, s)
  | .testEmpty => (if s.onboard = [] then .setIdle else .head, s)
  | .setIdle => (.head, { s with state := .idle })

/-! ## The processes -/

/-- Where a process is in a call of `start_elevator` or `stop_elevator`. -/
inductive Process where
  | out
  | starting (p : Starting)
  | stopping (p : Stopping)

structure World where
  memory : State
  point : Point
  process : ℕ → Process

/-- When the scheduler thread begins. -/
def init : World := ⟨elevatorInit, .head, fun _ => .out⟩

inductive Label where
  | sched (ok : Bool)
  /-- The next statement of the call that process `i` is in; if it is in none, the test of
  `started`, of a call of `stop_elevator` or of `start_elevator`. -/
  | call (i : ℕ) (stops : Bool)
  | request (passengerType startFloor destinationFloor : Int) (kmalloc : Bool)

/-- The next statement of a process, and where that leaves it. -/
def proceed (stops : Bool) (s : State) : Process → Process × State
  | .out =>
    if s.started = stops then (if stops then .stopping .testUp else .starting .state, s)
    else (.out, s)
  | .starting p => ((startStatement p s).2.elim .out .starting, (startStatement p s).1)
  | .stopping p => ((stopStatement p s).2.elim .out .stopping, (stopStatement p s).1)

def step : Label → World → World
  | .sched ok, w =>
    { w with
      point := (advance ok w.memory w.point).1
      memory := (advance ok w.memory w.point).2 }
  | .call i stops, w =>
    { w with
      memory := (proceed stops w.memory (w.process i)).2
      process := Function.update w.process i (proceed stops w.memory (w.process i)).1 }
  | .request t a b kmalloc, w => { w with memory := (issueRequest t a b kmalloc w.memory).2 }

/-- The world after these statements. -/
def after (ls : List Label) : World := Machine.run step ls init

end KernelElevator.Preemption
