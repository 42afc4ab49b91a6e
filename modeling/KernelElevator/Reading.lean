import KernelElevator.Library.Traversal
import KernelElevator.BoardingAtomic
import KernelElevator.ReportedLoad

/-!
# Reading while requests come in

`elevator_proc_read` asks for no mutex. It goes through the queues of the floors one by one, and
`add_passenger` may append to any of them meanwhile. Here each `next` link that it reads is a step,
and each access of a request is.

* `Lobby` — the links, and how far the reader is.
* `Reading` — a reader and some requests, in the order in which they move.
* `Reading.shown` — what there is to see of a queue: those who waited at the start, and the
  passengers of the requests, up to the first whose request has yet to return.
-/

namespace KernelElevator

open Machine

/-! ## The steps -/

/-- Where `elevator_proc_read` is. It traverses each queue with
`list_for_each_safe(temp, dummy, ..)`. -/
inductive ReadPhase where
  /-- All that comes before the loop over the floors; no list is read. -/
  | enter
  /-- `temp = head->next`. -/
  | first (k : Fin 10)
  /-- `dummy = temp->next`. -/
  | save (k : Fin 10) (temp : Cell)
  /-- The test of the loop, and its body; or what comes after it. -/
  | test (k : Fin 10) (temp dummy : Cell)
  | returned
  deriving DecidableEq

/-- The floor whose queue it traverses. -/
def ReadPhase.floor : ReadPhase → Option (Fin 10)
  | .enter => none
  | .first k => some k
  | .save k _ => some k
  | .test k _ _ => some k
  | .returned => none

/-- The links with the stage of each request, and the locals of `elevator_proc_read`. -/
structure Lobby where
  config : Ring.Config Cell
  read : ReadPhase
  /-- `weightSum` and `spaceSum`. -/
  sums : Int × Int
  message : String

/-- The text up to the loop over the floors. -/
def opening (s : State) : String :=
  let message := statusText s
  let message := message ++ "\n"
  let message := strcatLines (servedLine s) message
  let message := message ++ "\n"
  message ++ "People Waiting\n"

def sumsLine (sums : Int × Int) (k : Fin 10) : String :=
  "floor: " ++ toString (floorOf k) ++ ", weight: " ++ toString (sums.1.tdiv 2) ++ ", space: " ++
    toString sums.2 ++ "\n"

namespace Lobby

def goto (read : ReadPhase) (s : Lobby) : Lobby := { s with read := read }

/-- After the floor `k` comes the next one, or the end of the text. -/
def nextFloor (k : Fin 10) (s : Lobby) : Lobby :=
  if h : k.val + 1 < 10 then s.goto (.first ⟨k.val + 1, h⟩)
  else { s with message := s.message ++ "\n" }.goto .returned

/-- The next access of `elevator_proc_read`. `members` are the `weight_units` and `space_units` that
`list_entry` finds beside a cell. -/
def access (s₀ : State) (members : Cell → Int × Int) (s : Lobby) : Lobby :=
  match s.read with
  | .enter => { s with message := opening s₀, sums := (0, 0) }.goto (.first Boarding.ground)
  | .first k => s.goto (.save k (s.config.links.next (listHead (some k))))
  | .save k temp => s.goto (.test k temp (s.config.links.next temp))
  | .test k temp dummy =>
    if temp = listHead (some k) then
      { s with message := s.message ++ sumsLine s.sums k, sums := (0, 0) }.nextFloor k
    else
      { s with sums := (s.sums.1 + (members temp).1, s.sums.2 + (members temp).2) }.goto
        (.save k dummy)
  | .returned => s

/-- A step of the request that has allocated the record `id`. -/
def callStep (passenger : Nat → Passenger) (id : Nat) (s : Lobby) : Lobby :=
  match slot (passenger id).startFloor with
  | some j => { s with config := Ring.move (listHead (some j)) (.record id) s.config }
  | none => s

end Lobby

/-! ## A reader and requests -/

namespace Reading

inductive Step where
  | call (id : Nat)
  | read
  deriving DecidableEq

/-- A request does not disturb another one. -/
def OnTime (passenger : Nat → Passenger) (s : Lobby) : Step → Prop
  | .call id => ∀ j, slot (passenger id).startFloor = some j →
      Ring.Timely (listHead (some j)) s.config (.record id)
  | .read => True

instance (passenger : Nat → Passenger) (s : Lobby) : ∀ l, Decidable (OnTime passenger s l)
  | .call id =>
    match h : slot (passenger id).startFloor with
    | none => isTrue (by simp [OnTime, h])
    | some j =>
      decidable_of_iff (Ring.Timely (listHead (some j)) s.config (.record id)) (by simp [OnTime, h])
  | .read => isTrue trivial

end Reading

/-- `elevator_proc_read` and some requests, each with the record that it has allocated; and the
order in which they move. -/
structure Reading where
  state : State
  links : Ring.Links Cell
  /-- The other members of the records. -/
  passenger : Nat → Passenger
  /-- What a list head has beside it, where a record has its units. -/
  beside : Cell → Int × Int
  calls : List Passenger
  moves : List Reading.Step
  holds : Holds state links
  /-- No two records are the same. -/
  records : ((state.onboard ++ waiting state ++ calls).map Passenger.id).Nodup
  filled : ∀ p ∈ state.onboard ++ waiting state ++ calls, passenger p.id = p

namespace Reading

variable (r : Reading)

def members : Cell → Int × Int
  | .record id => ((r.passenger id).weightUnits, (r.passenger id).spaceUnits)
  | x => r.beside x

def step : Step → Lobby → Lobby
  | .call id => Lobby.callStep r.passenger id
  | .read => Lobby.access r.state r.members

def start : Lobby where
  config := Ring.begin r.links (r.calls.map Passenger.cell)
  read := .enter
  sums := (0, 0)
  message := ""

/-- After these moves. -/
def lobby (ms : List Step) : Lobby := run r.step ms r.start

/-- The passenger whose request writes `head->prev`. -/
def enters (s : Lobby) : Step → List Passenger
  | .call id =>
    match slot (r.passenger id).startFloor, s.config.stage (.record id) with
    | some _, .read _ => [r.passenger id]
    | _, _ => []
  | .read => []

/-- The passengers in the order in which their requests write `head->prev`. -/
def order : List Step → Lobby → List Passenger
  | [], _ => []
  | l :: ms, s => r.enters s l ++ order ms (r.step l s)

/-- After these moves: those who waited on floor `k` at the start, and the passengers of requests up
to the first that has yet to return. -/
def shown (ms : List Step) (k : Fin 10) : List Passenger :=
  r.state.floors k ++ (onFloor k (r.order ms r.start)).takeWhile
    fun p => (r.lobby ms).config.stage p.cell = .done

end Reading

end KernelElevator
