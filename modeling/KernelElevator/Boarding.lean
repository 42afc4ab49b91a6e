import KernelElevator.Library.FrontRemoval
import KernelElevator.LinkRefinement

/-!
# Boarding while requests come in

`load_elevator` holds the scheduler's mutex, and `add_passenger` does not ask for it. So the one
takes passengers out of a queue while the other appends to it. Here each access to a link is a step,
of `load_elevator` and of any number of requests on any floors.

* `Landing` — the links, and how far everybody is.
* `loadElevator_takesOut` — `load_elevator` that runs alone, by the passengers it takes.
* `OnTime` — what each access has to find.
* `Boarding` — `load_elevator` and the requests, in the order in which they move.
-/

namespace KernelElevator

open Machine

/-! ## The steps -/

/-- Where `load_elevator` is. It traverses the queue with `list_for_each_safe(pos, n, ..)`; `board`
says whether the passenger at `pos` goes on board or is served on the spot. -/
inductive LoadPhase where
  | enter
  /-- `pos = head->next`. -/
  | first
  /-- `n = pos->next`. -/
  | save (pos : Cell)
  /-- The test of the loop, and what the body does with the passenger. -/
  | test (pos n : Cell)
  /-- `__list_del_entry(pos)` reads both links, and makes two writes. -/
  | readPrev (board : Bool) (pos n : Cell)
  | readNext (board : Bool) (pos n prev : Cell)
  | setPrev (board : Bool) (pos n prev next : Cell)
  | setNext (board : Bool) (pos n prev next : Cell)
  /-- The rest of `list_del`. -/
  | poisonNext (pos n : Cell)
  | poisonPrev (pos n : Cell)
  /-- The rest of `list_move_tail`: `list_add_tail(pos, &elevator.onboard)`. -/
  | addTail (pos n : Cell) (stage : Ring.Stage Cell)
  | returned (value : Int)
  deriving DecidableEq

/-- The links with the stage of each request, the other globals, and `load_elevator`. -/
structure Landing where
  config : Ring.Config Cell
  globals : Globals
  load : LoadPhase
  /-- How often `load_elevator` has moved; a history that no code reads. -/
  steps : Nat

/-- `onboard`, or the queue of a floor. -/
def listHead : Option (Fin 10) → Cell
  | none => .head .onboard
  | some k => .head (.floor k)

/-- `served[floor-1]++; total_served++`. -/
def Globals.serve (k : Fin 10) (g : Globals) : Globals :=
  { g with
    served := Function.update g.served k (g.served k + 1)
    totalServed := g.totalServed + 1 }

/-- What `load_elevator` adds up for a passenger that boards. -/
def Globals.board (p : Passenger) (g : Globals) : Globals :=
  { g with
    oddChildren := if p.type = child then g.oddChildren + 1 else g.oddChildren
    currentWeight := g.currentWeight + p.weightUnits
    currentUnits := g.currentUnits + p.spaceUnits }

def Globals.Fits (g : Globals) (p : Passenger) : Prop :=
  g.currentWeight + p.weightUnits ≤ maxWeight ∧ g.currentUnits + p.spaceUnits ≤ maxUnits

instance (g : Globals) (p : Passenger) : Decidable (g.Fits p) := inferInstanceAs (Decidable (_ ∧ _))

namespace Landing

def setNext (x y : Cell) (s : Landing) : Landing :=
  { s with config.links.next := Function.update s.config.links.next x y }

def setPrev (x y : Cell) (s : Landing) : Landing :=
  { s with config.links.prev := Function.update s.config.links.prev x y }

def goto (load : LoadPhase) (s : Landing) : Landing := { s with load := load }

/-- The body of the loop, up to `__list_del_entry`. -/
def body (k : Fin 10) (p : Passenger) (pos n : Cell) (s : Landing) : Landing :=
  if p.state = .equal then { s with globals := s.globals.serve k }.goto (.readPrev false pos n)
  else if s.globals.Fits p then { s with globals := s.globals.board p }.goto (.readPrev true pos n)
  else s.goto (.returned (-1))

/-- The next access of `load_elevator(floorOf k)`. -/
def access (passenger : Nat → Passenger) (k : Fin 10) (s : Landing) : Landing :=
  let head := listHead (some k)
  match s.load with
  | .enter =>
    if floorOf k ≠ s.globals.currentFloor then s.goto (.returned (-1))
    else if s.config.links.next head = head then s.goto (.returned (-1))
    else s.goto .first
  | .first => s.goto (.save (s.config.links.next head))
  | .save pos => s.goto (.test pos (s.config.links.next pos))
  | .test pos n =>
    if pos = head then s.goto (.returned 0)
    else
      match pos with
      | .record id => s.body k (passenger id) pos n
      | _ => s -- no record
  | .readPrev board pos n => s.goto (.readNext board pos n (s.config.links.prev pos))
  | .readNext board pos n prev => s.goto (.setPrev board pos n prev (s.config.links.next pos))
  | .setPrev board pos n prev next => (s.setPrev next prev).goto (.setNext board pos n prev next)
  | .setNext board pos n prev next =>
    (s.setNext prev next).goto (if board then .addTail pos n .start else .poisonNext pos n)
  | .poisonNext pos n => (s.setNext pos .poison1).goto (.poisonPrev pos n)
  | .poisonPrev pos n => (s.setPrev pos .poison2).goto (.save n)
  | .addTail pos n stage =>
    let c : Ring.Config Cell := Ring.move (listHead none) pos
      { s.config with stage := Function.update s.config.stage pos stage }
    { s with config.links := c.links }.goto
      (if c.stage pos = Ring.Stage.done then .save n else .addTail pos n (c.stage pos))
  | .returned _ => s

/-- A step of `load_elevator`. -/
def loadStep (passenger : Nat → Passenger) (k : Fin 10) (s : Landing) : Landing :=
  match s.load with
  | .returned _ => s
  | _ => { s.access passenger k with steps := s.steps + 1 }

/-- A step of the request that has allocated the record `id`. -/
def callStep (passenger : Nat → Passenger) (id : Nat) (s : Landing) : Landing :=
  match slot (passenger id).startFloor with
  | some j => { s with config := Ring.move (listHead (some j)) (.record id) s.config }
  | none => s

end Landing

/-! ## One after the other -/

/-- `list_add_tail` of each. -/
def linkAll (ps : List Passenger) (s : State) : State := ps.foldl (fun s p => s.link p) s

/-- Those who wait on floor `k`. -/
def onFloor (k : Fin 10) (ps : List Passenger) : List Passenger :=
  ps.filter (slot ·.startFloor = some k)

theorem onFloor_append (k : Fin 10) (ps qs : List Passenger) :
    onFloor k (ps ++ qs) = onFloor k ps ++ onFloor k qs := List.filter_append ..

theorem link_floors (s : State) (p : Passenger) (k : Fin 10) :
    (s.link p).floors k = s.floors k ++ onFloor k [p] := by
  show putQueue s.floors p.startFloor (s.queue p.startFloor ++ [p]) k = _
  cases hj : slot p.startFloor with
  | none => simp [putQueue, onFloor, hj]
  | some j =>
    by_cases hk : k = j
    · subst hk
      simp [putQueue, State.queue, getQueue, onFloor, hj]
    · simp [putQueue, onFloor, hj, hk, Ne.symm hk]

section LinkAll

variable (ps : List Passenger) (s : State)

theorem linkAll_floors (k : Fin 10) : (linkAll ps s).floors k = s.floors k ++ onFloor k ps := by
  induction ps generalizing s with
  | nil => simp [linkAll, onFloor]
  | cons p ps ih =>
    rw [linkAll, List.foldl_cons]
    refine (ih (s.link p)).trans ?_
    rw [link_floors, List.append_assoc, ← onFloor_append, List.singleton_append]

theorem linkAll_onboard : (linkAll ps s).onboard = s.onboard := by
  induction ps generalizing s with
  | nil => rfl
  | cons p ps ih => exact ih (s.link p)

theorem linkAll_globals : (linkAll ps s).globals = s.globals := by
  induction ps generalizing s with
  | nil => rfl
  | cons p ps ih => exact ih (s.link p)

end LinkAll

/-- What `load_elevator` adds up for a passenger that it takes out of the queue. -/
def Globals.take (k : Fin 10) (g : Globals) (p : Passenger) : Globals :=
  if p.state = .equal then g.serve k else g.board p

/-- `load_elevator` takes these out of the queue. -/
def Takeable (k : Fin 10) : List Passenger → Globals → Prop
  | [], _ => True
  | p :: ps, g => (p.state = .equal ∨ g.Fits p) ∧ Takeable k ps (g.take k p)

instance Takeable.decidable (k : Fin 10) :
    ∀ (ps : List Passenger) (g : Globals), Decidable (Takeable k ps g)
  | [], _ => isTrue trivial
  | p :: ps, g =>
    have := Takeable.decidable k ps (g.take k p)
    inferInstanceAs (Decidable (_ ∧ _))

theorem takeable_append {k : Fin 10} {ps qs : List Passenger} {g : Globals} :
    Takeable k (ps ++ qs) g ↔ Takeable k ps g ∧ Takeable k qs (ps.foldl (Globals.take k) g) := by
  induction ps generalizing g with
  | nil => simp [Takeable]
  | cons p ps ih => simp [Takeable, ih, and_assoc]

/-- It stops at the first of these. -/
def Stops (g : Globals) (ps : List Passenger) : Prop :=
  ∀ p ∈ ps.head?, p.state ≠ .equal ∧ ¬ g.Fits p

section Load

variable {k : Fin 10} {p : Passenger} {ps qs : List Passenger} {s : State}

theorem serveHere_floors (hq : s.floors k = p :: ps) :
    (s.serveHere (floorOf k) p).floors = Function.update s.floors k ps := by
  show putQueue s.floors (floorOf k) ((s.queue (floorOf k)).erase p) = _
  rw [State.queue, getQueue_floorOf, hq, List.erase_cons_head, putQueue_floorOf]

theorem board_floors (hq : s.floors k = p :: ps) :
    (s.board (floorOf k) p).floors = Function.update s.floors k ps := serveHere_floors hq

theorem serveHere_globals : (s.serveHere (floorOf k) p).globals = s.globals.serve k := by
  show (⟨_, _, _, _, _, bump s.served (floorOf k)⟩ : Globals) = _
  rw [bump_floorOf]
  rfl

/-- `load_elevator` takes `ps` and leaves `qs`. -/
structure TakesOut (k : Fin 10) (ps qs : List Passenger) (s t : State) : Prop where
  floors : t.floors = Function.update s.floors k qs
  onboard : t.onboard = s.onboard ++ ps.filter (·.state ≠ .equal)
  globals : t.globals = ps.foldl (Globals.take k) s.globals

theorem loadLoop_takesOut (hq : s.floors k = ps ++ qs) (htakes : Takeable k ps s.globals)
    (hstops : Stops (ps.foldl (Globals.take k) s.globals) qs) :
    (loadLoop (floorOf k) (ps ++ qs) s).1 = (if qs = [] then 0 else -1) ∧
      TakesOut k ps qs s (loadLoop (floorOf k) (ps ++ qs) s).2 := by
  induction ps generalizing s with
  | nil =>
    have hsame : TakesOut k [] qs s s := by
      refine ⟨?_, (List.append_nil _).symm, rfl⟩
      rw [List.nil_append] at hq
      rw [← hq, Function.update_eq_self]
    cases qs with
    | nil => exact ⟨rfl, hsame⟩
    | cons q qs =>
      obtain ⟨hequal, hfits⟩ := hstops q rfl
      have hfits' : ¬ Fits s q := hfits
      rw [List.nil_append, loadLoop, if_neg hequal, if_neg hfits']
      exact ⟨rfl, hsame⟩
  | cons p ps ih =>
    rw [List.cons_append] at hq
    obtain ⟨hp, hrest⟩ := htakes
    rw [List.cons_append, loadLoop]
    rw [List.foldl_cons] at hstops
    by_cases hequal : p.state = .equal
    · rw [Globals.take, if_pos hequal, ← serveHere_globals (p := p)] at hrest hstops
      have hfloors := serveHere_floors hq
      rw [if_pos hequal]
      obtain ⟨hvalue, hloads⟩ := ih (by rw [hfloors, Function.update_self]) hrest hstops
      refine ⟨hvalue, ?_, ?_, ?_⟩
      · rw [hloads.floors, hfloors, Function.update_idem]
      · rw [hloads.onboard, List.filter_cons_of_neg (by simpa using hequal)]
        rfl
      · rw [hloads.globals, serveHere_globals, List.foldl_cons, Globals.take, if_pos hequal]
    · have hfits : Fits s p := hp.resolve_left hequal
      rw [Globals.take, if_neg hequal] at hrest hstops
      have hfloors := board_floors hq
      rw [if_neg hequal, if_pos hfits]
      obtain ⟨hvalue, hloads⟩ := ih (s := s.board (floorOf k) p)
        (by rw [hfloors, Function.update_self]) hrest hstops
      refine ⟨hvalue, ?_, ?_, ?_⟩
      · rw [hloads.floors, hfloors, Function.update_idem]
      · rw [hloads.onboard, List.filter_cons_of_pos (by simpa using hequal)]
        exact List.append_assoc s.onboard [p] _
      · rw [hloads.globals, List.foldl_cons, Globals.take, if_neg hequal]
        rfl

/-- `load_elevator`, by the passengers that it takes. -/
theorem loadElevator_takesOut (hfloor : s.currentFloor = floorOf k) (hq : s.floors k = ps ++ qs)
    (htakes : Takeable k ps s.globals) (hstops : Stops (ps.foldl (Globals.take k) s.globals) qs) :
    (loadElevator (floorOf k) s).1 = (if qs = [] ∧ ps ≠ [] then 0 else -1) ∧
      TakesOut k ps qs s (loadElevator (floorOf k) s).2 := by
  set t : State := { s with log := s.log ++ [.opened (floorOf k)] } with ht
  have hqueue : t.queue (floorOf k) = ps ++ qs := (getQueue_floorOf s.floors k).trans hq
  have hload : loadElevator (floorOf k) s =
      if ps ++ qs = [] then (-1, t) else loadLoop (floorOf k) (ps ++ qs) t := by
    rw [loadElevator, if_neg (not_not.2 hfloor.symm)]
    simp only [← ht, hqueue]
  by_cases hempty : ps ++ qs = []
  · obtain ⟨rfl, rfl⟩ := List.append_eq_nil_iff.1 hempty
    rw [hload, if_pos hempty]
    refine ⟨by simp, ?_, (List.append_nil _).symm, rfl⟩
    rw [← hq.trans hempty, Function.update_eq_self]
  · rw [hload, if_neg hempty]
    obtain ⟨hvalue, hloads⟩ := loadLoop_takesOut (s := t) hq htakes hstops
    refine ⟨?_, hloads.floors, hloads.onboard, hloads.globals⟩
    rw [hvalue]
    by_cases hqs : qs = []
    · have hps : ps ≠ [] := fun hps => hempty (by rw [hps, hqs, List.nil_append])
      rw [if_pos hqs, if_pos ⟨hqs, hps⟩]
    · rw [if_neg hqs, if_neg fun h => hqs h.1]

end Load

/-- `onboard`, or the queue of a floor. -/
def State.list (s : State) : Option (Fin 10) → List Passenger
  | none => s.onboard
  | some k => s.floors k

/-- The links are those of the lists of a state. -/
def Holds (s : State) (links : Ring.Links Cell) : Prop :=
  ∀ i, Ring.IsRing links (listHead i) ((s.list i).map Passenger.cell)

namespace Boarding

inductive Step where
  | call (id : Nat)
  | load
  deriving DecidableEq

def step (passenger : Nat → Passenger) (k : Fin 10) : Step → Landing → Landing
  | .call id => Landing.callStep passenger id
  | .load => Landing.loadStep passenger k

/-- `load_elevator` is about to write the `next` link of this cell. -/
def Pending (s : Landing) (x : Cell) : Prop :=
  ∃ board pos n next, s.load = .setNext board pos n x next

/-- A request writes `head->prev` while it is what it has read, and links itself behind a cell whose
`next` link nobody is about to write. `load_elevator` writes `head->prev` while it is the passenger
that it takes out. -/
def OnTime (passenger : Nat → Passenger) (k : Fin 10) (s : Landing) : Step → Prop
  | .call id => ∀ j, slot (passenger id).startFloor = some j →
      Ring.Timely (listHead (some j)) s.config (.record id) ∧
      ∀ t, s.config.stage (.record id) = .prevSet t → ¬ Pending s t
  | .load => ∀ board pos n prev, s.load = .setPrev board pos n prev (listHead (some k)) →
      s.config.links.prev (listHead (some k)) = pos

instance (s : Landing) (x : Cell) : Decidable (Pending s x) :=
  match h : s.load with
  | .setNext _ _ _ prev _ => decidable_of_iff (prev = x) (by simp [Pending, h, eq_comm])
  | .enter | .first | .save _ | .test .. | .readPrev .. | .readNext .. | .setPrev ..
  | .poisonNext .. | .poisonPrev .. | .addTail .. | .returned _ => isFalse (by simp [Pending, h])

instance (s : Landing) (x : Cell) :
    Decidable (∀ t, s.config.stage x = .prevSet t → ¬ Pending s t) :=
  match h : s.config.stage x with
  | .prevSet t => decidable_of_iff (¬ Pending s t) (by simp)
  | .start | .read _ | .headSet _ | .nextSet _ | .done => isTrue (by simp)

instance (passenger : Nat → Passenger) (k : Fin 10) (s : Landing) :
    ∀ l, Decidable (OnTime passenger k s l)
  | .call id =>
    match h : slot (passenger id).startFloor with
    | none => isTrue (by simp [OnTime, h])
    | some j =>
      decidable_of_iff (Ring.Timely (listHead (some j)) s.config (.record id) ∧
        ∀ t, s.config.stage (.record id) = .prevSet t → ¬ Pending s t) (by simp [OnTime, h])
  | .load =>
    match h : s.load with
    | .setPrev _ pos _ _ next =>
      decidable_of_iff (next = listHead (some k) → s.config.links.prev (listHead (some k)) = pos)
        (by simp [OnTime, h]; grind)
    | .enter | .first | .save _ | .test .. | .readPrev .. | .readNext .. | .setNext ..
    | .poisonNext .. | .poisonPrev .. | .addTail .. | .returned _ =>
      isTrue (by simp [OnTime, h])

end Boarding

/-- `load_elevator` on the floor where the elevator is, and some requests, each with the record that
it has allocated; and the order in which they move. -/
structure Boarding where
  state : State
  links : Ring.Links Cell
  /-- The other members of the records. -/
  passenger : Nat → Passenger
  floor : Fin 10
  calls : List Passenger
  moves : List Boarding.Step
  here : state.currentFloor = floorOf floor
  holds : Holds state links
  /-- No two records are the same. -/
  records : ((state.onboard ++ waiting state ++ calls).map Passenger.id).Nodup
  filled : ∀ p ∈ state.onboard ++ waiting state ++ calls, passenger p.id = p

namespace Boarding

def start (r : Boarding) : Landing where
  config := Ring.begin r.links (r.calls.map Passenger.cell)
  globals := r.state.globals
  load := .enter
  steps := 0

def final (r : Boarding) : Landing := run (step r.passenger r.floor) r.moves r.start

end Boarding

end KernelElevator
