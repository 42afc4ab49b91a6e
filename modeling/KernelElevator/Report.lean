import KernelElevator.State
import KernelElevator.Library.Decimal
import Mathlib.Data.List.FinRange

/-!
# The report of `/proc/elevator`

The text that `elevator_proc_read` builds in `message` with `sprintf` and `strcat`: the fields of
the elevator, the passengers served at each floor, and the weight and space of those waiting there.
A weight is stored in half units, and divided with `/`, which rounds towards zero.
-/

namespace KernelElevator

/-- The number that the source gives the status. -/
def Status.code : Status → Int
  | .offline => 0
  | .idle => 1
  | .loading => 2
  | .up => 3
  | .down => 4
  | .equal => 5

/-- The digit after the point of the elevator's weight. -/
def decimalOf (oddChildren : Int) : Int :=
  if oddChildren.tmod 2 = 0 ∧ oddChildren ≥ 0 then 0 else 5

/-- The first `sprintf`. -/
def statusText (s : State) : String :=
  "\nSTATE: " ++ toString s.state.code ++
  "\nCurrent floor: " ++ toString s.currentFloor ++
  "\nNext floor: " ++ toString s.nextFloor ++
  "\nWeight units: " ++ toString (s.currentWeight.tdiv 2) ++ "." ++
    toString (decimalOf s.oddChildren) ++
  "\nPassenger units: " ++ toString s.currentUnits ++
  "\nTotal serviced: " ++ toString s.totalServed ++ "\n"

def servedLine (s : State) (k : Fin 10) : String :=
  "Served on floor " ++ toString (floorOf k) ++ ":" ++ toString (s.served k) ++ "\n"

/-- `weightSum` and `spaceSum` of those waiting at a floor. -/
def waitingSums (ps : List Passenger) : Int × Int :=
  ps.foldl (fun sums p => (sums.1 + p.weightUnits, sums.2 + p.spaceUnits)) (0, 0)

def waitingLine (s : State) (k : Fin 10) : String :=
  "floor: " ++ toString (floorOf k) ++ ", weight: " ++
    toString ((waitingSums (s.floors k)).1.tdiv 2) ++ ", space: " ++
    toString (waitingSums (s.floors k)).2 ++ "\n"

/-- A loop over the floors that appends each line with `strcat`. -/
def strcatLines (line : Fin 10 → String) (message : String) : String :=
  (List.finRange 10).foldl (fun message k => message ++ line k) message

/-- What a reader gets to see of the state. -/
def report (s : State) : String :=
  let message := statusText s
  let message := message ++ "\n"
  let message := strcatLines (servedLine s) message
  let message := message ++ "\n"
  let message := message ++ "People Waiting\n"
  let message := strcatLines (waitingLine s) message
  message ++ "\n"

theorem report_ne_empty (s : State) : report s ≠ "" := Decimal.line_ne_empty _

end KernelElevator
