import KernelElevator.Library.LinkedLists
import KernelElevator.Records

/-!
# The lists in memory

`load_elevator`, `unload_elevator` and `delete_passenger` once more, on the links: each
`list_for_each_safe` follows the `next` pointers, and its body relinks the node it is at.

* `Low` — the memory, and what else the three functions use.
* `Represents` — the memory holds the lists of a state; `Linked.listDel`, `Linked.listMoveTail` —
  how a passenger leaves a list.
-/

namespace KernelElevator

open Ring (Mem Lists)

/-- The lists, by their heads. -/
inductive Place where
  | onboard
  | floor (k : Fin 10)
  /-- `move_list`, on the stack of `delete_passenger`. -/
  | moveList
  deriving DecidableEq

/-- What a `struct list_head *` points to. -/
inductive Cell where
  | head (place : Place)
  /-- The `list` member of a record. -/
  | record (id : Nat)
  | poison1
  | poison2
  deriving DecidableEq

/-- The `list` member of a passenger's record. -/
def Passenger.cell (p : Passenger) : Cell := .record p.id

/-- The globals that are no links. -/
structure Globals where
  currentFloor : Int
  currentWeight : Int
  currentUnits : Int
  oddChildren : Int
  totalServed : Int
  served : Fin 10 → Int

def State.globals (s : State) : Globals :=
  ⟨s.currentFloor, s.currentWeight, s.currentUnits, s.oddChildren, s.totalServed, s.served⟩

/-- A traversal that has ended: the list it was called on, and the nodes it stood on. -/
structure Walk where
  place : Place
  nodes : List Cell
  deriving DecidableEq

/-- A traversal of a list with these passengers, from end to end. -/
def Walk.whole (place : Place) (ps : List Passenger) : Walk := ⟨place, ps.map Passenger.cell⟩

structure Low where
  mem : Mem Cell
  /-- The other members of the records. -/
  passenger : Nat → Passenger
  globals : Globals
  /-- The local `count` of `delete_passenger`. -/
  count : Int
  /-- A history that no code reads. -/
  walks : List Walk

namespace Low

/-! ## The functions -/

/-- `*list_entry(pos, Passenger, list)`. -/
def entry (l : Low) : Cell → Option Passenger
  | .record id => if l.mem.live (.record id) then some (l.passenger id) else none
  | _ => none

/-- `kfree(list_entry(pos, Passenger, list))`. -/
def kfree (l : Low) : Cell → Option Low
  | .record id =>
    if l.mem.live (.record id) then
      some { l with mem := l.mem.setLive (.record id) false }
    else none
  | _ => none

/-- `list_for_each_safe` on one of the lists. -/
def traverse (place : Place) (body : Cell → Low → Option (Option Int × Low)) (fuel : ℕ) (l : Low) :
    Option (Option Int × Low) := do
  let (nodes, r, l) ← Ring.listForEachSafe mem (.head place) body fuel l
  return (r, { l with walks := l.walks ++ [⟨place, nodes⟩] })

/-- `print_who_on_it`, without what it prints. -/
def printBody (pos : Cell) (l : Low) : Option (Option Int × Low) := do
  let _ ← l.entry pos
  return (none, l)

def printWhoOnIt (fuel : ℕ) (l : Low) : Option Low := do
  let (_, l) ← l.traverse .onboard printBody fuel
  return l

/-- `served[floor-1]++; total_served++`; out of bounds there is no result. -/
def serve (floor : Int) (g : Globals) : Option Globals := do
  let k ← slot floor
  return { g with
    served := Function.update g.served k (g.served k + 1)
    totalServed := g.totalServed + 1 }

def loadBody (floor : Int) (fuel : ℕ) (pos : Cell) (l : Low) : Option (Option Int × Low) := do
  let p ← l.entry pos
  if p.state = .equal then
    let globals ← serve floor l.globals
    let mem ← l.mem.listDel .poison1 .poison2 pos
    return (none, { l with mem, globals })
  else if l.globals.currentWeight + p.weightUnits ≤ maxWeight ∧
      l.globals.currentUnits + p.spaceUnits ≤ maxUnits then
    let globals : Globals := { l.globals with
      oddChildren := if p.type = child then l.globals.oddChildren + 1 else l.globals.oddChildren
      currentWeight := l.globals.currentWeight + p.weightUnits
      currentUnits := l.globals.currentUnits + p.spaceUnits }
    let mem ← l.mem.listMoveTail pos (.head .onboard)
    let l ← printWhoOnIt fuel { l with mem, globals }
    return (none, l)
  else return (some (-1), l)

def loadElevator (floor : Int) (fuel : ℕ) (l : Low) : Option (Int × Low) :=
  if floor ≠ l.globals.currentFloor then some (-1, l)
  else do
    let k ← slot floor
    if ← l.mem.listEmpty (.head (.floor k)) then
      return (-1, l)
    let (r, l) ← l.traverse (.floor k) (loadBody floor fuel) fuel
    return (r.getD 0, l)

def unloadBody (floor : Int) (fuel : ℕ) (pos : Cell) (l : Low) : Option (Option Int × Low) := do
  let p ← l.entry pos
  if p.destinationFloor = floor then
    let globals ← serve floor { l.globals with
      currentWeight := l.globals.currentWeight - p.weightUnits
      currentUnits := l.globals.currentUnits - p.spaceUnits
      oddChildren := if p.type = child then l.globals.oddChildren - 1 else l.globals.oddChildren }
    let mem ← l.mem.listDel .poison1 .poison2 pos
    let l ← printWhoOnIt fuel { l with mem, globals }
    return (none, l)
  else return (none, l)

def unloadElevator (floor : Int) (fuel : ℕ) (l : Low) : Option (Int × Low) :=
  if l.globals.currentFloor ≠ floor then some (-1, l)
  else do
    let (r, l) ← l.traverse .onboard (unloadBody floor fuel) fuel
    return (r.getD 0, l)

def moveBody (pos : Cell) (l : Low) : Option (Option Int × Low) := do
  let mem ← l.mem.listMoveTail pos (.head .moveList)
  return (none, { l with mem, count := l.count + 1 })

def moveFloors (fuel : ℕ) : List (Fin 10) → Low → Option Low
  | [], l => some l
  | k :: ks, l => do
    let (_, l) ← l.traverse (.floor k) moveBody fuel
    moveFloors fuel ks l

def freeBody (pos : Cell) (l : Low) : Option (Option Int × Low) := do
  let mem ← l.mem.listDel .poison1 .poison2 pos
  let l ← { l with mem }.kfree pos
  return (none, l)

/-- `delete_passenger`, with the count it logs. `move_list` lives as long as the call. -/
def deletePassenger (fuel : ℕ) (l : Low) : Option (Int × Low) := do
  let mem ← (l.mem.setLive (.head .moveList) true).initListHead (.head .moveList)
  let l ← moveFloors fuel (List.finRange 10) { l with mem, count := 0 }
  let (_, l) ← l.traverse .moveList freeBody fuel
  return (l.count, { l with mem := l.mem.setLive (.head .moveList) false })

end Low

/-! ## Representation -/

/-- The lists of a state, and `move_list`. -/
def State.lists (s : State) (moveList : List Passenger) : Place → List Passenger
  | .onboard => s.onboard
  | .floor k => s.floors k
  | .moveList => moveList

section Lists

variable (s : State) (moveList q : List Passenger)

theorem lists_onboard : ({ s with onboard := q } : State).lists moveList =
    Function.update (s.lists moveList) .onboard q := by
  funext i
  cases i with
  | onboard => rfl
  | floor j => rfl
  | moveList => rfl

theorem lists_moveList : s.lists q = Function.update (s.lists moveList) .moveList q := by
  funext i
  cases i with
  | onboard => rfl
  | floor j => rfl
  | moveList => rfl

theorem lists_floors (k : Fin 10) :
    ({ s with floors := Function.update s.floors k q } : State).lists moveList =
      Function.update (s.lists moveList) (.floor k) q := by
  funext i
  cases i with
  | onboard => rfl
  | floor j =>
    show Function.update s.floors k q j = _
    by_cases hj : j = k
    · rw [hj, Function.update_self, Function.update_self]
    · rw [Function.update_of_ne hj, Function.update_of_ne (by simpa using hj)]
      rfl
  | moveList => rfl

end Lists

/-- The lists in use are linked in memory, and their records filled in. -/
structure Linked (used : Set Place) (xs : Place → List Passenger) (mem : Mem Cell)
    (passenger : Nat → Passenger) : Prop where
  lists : Lists used Cell.head (fun i => (xs i).map Passenger.cell) mem
  passenger : ∀ i ∈ used, ∀ p ∈ xs i, passenger p.id = p

structure Represents (used : Set Place) (s : State) (moveList : List Passenger) (l : Low) :
    Prop where
  linked : Linked used (s.lists moveList) l.mem l.passenger
  globals : l.globals = s.globals

theorem cells_update (xs : Place → List Passenger) (i : Place) (ys : List Passenger) :
    (fun j => (Function.update xs i ys j).map Passenger.cell) =
      Function.update (fun j => (xs j).map Passenger.cell) i (ys.map Passenger.cell) := by
  funext j
  by_cases hj : j = i
  · rw [hj, Function.update_self, Function.update_self]
  · rw [Function.update_of_ne hj, Function.update_of_ne hj]

theorem cells_append {qs as bs : List Passenger} {p : Passenger} (h : qs = as ++ p :: bs) :
    qs.map Passenger.cell = as.map Passenger.cell ++ p.cell :: bs.map Passenger.cell := by
  rw [h, List.map_append, List.map_cons]

theorem cell_ne_head (p : Passenger) (i : Place) : p.cell ≠ .head i := by
  simp [Passenger.cell]

namespace Linked

variable {used : Set Place} {xs : Place → List Passenger} {mem : Mem Cell}
  {passenger : Nat → Passenger} {i : Place} {p : Passenger}

theorem live (h : Linked used xs mem passenger) (hi : i ∈ used) (hp : p ∈ xs i) :
    mem.live p.cell = true :=
  h.lists.live i hi _ (List.mem_cons_of_mem _ (List.mem_map_of_mem hp))

theorem first (h : Linked used xs mem passenger) (hi : i ∈ used) :
    mem.next (.head i) = some (((xs i).map Passenger.cell).headD (.head i)) :=
  h.lists.first hi

theorem next (h : Linked used xs mem passenger) (hi : i ∈ used) {as bs : List Passenger}
    (hxs : xs i = as ++ p :: bs) :
    mem.next p.cell = some ((bs.map Passenger.cell).headD (.head i)) := by
  exact h.lists.next hi (cells_append hxs)

theorem next_front (h : Linked used xs mem passenger) (hi : i ∈ used) {ps : List Passenger}
    (hxs : xs i = p :: ps) :
    mem.next p.cell = some ((ps.map Passenger.cell).headD (.head i)) := by
  have hfront : xs i = [] ++ p :: ps := hxs
  exact h.next hi hfront

theorem nodup (h : Linked used xs mem passenger) (hi : i ∈ used) :
    ((xs i).map Passenger.cell).Nodup :=
  (List.nodup_cons.1 (h.lists.ring i hi).nodup).2

theorem listEmpty (h : Linked used xs mem passenger) (hi : i ∈ used) :
    mem.listEmpty (.head i) = some (decide (xs i = [])) := by
  rw [h.lists.listEmpty hi]
  simp

/-- A list loses passengers, or gets some whose record is filled in. -/
theorem passenger_update (h : Linked used xs mem passenger) (hi : i ∈ used) {ys : List Passenger}
    (hys : ∀ q ∈ ys, q ∈ xs i ∨ passenger q.id = q) :
    ∀ j ∈ used, ∀ q ∈ Function.update xs i ys j, passenger q.id = q := by
  intro j hj q hq
  by_cases hji : j = i
  · rw [hji, Function.update_self] at hq
    exact (hys q hq).elim (h.passenger i hi q) id
  · rw [Function.update_of_ne hji] at hq
    exact h.passenger j hj q hq

theorem listDel (h : Linked used xs mem passenger) (hi : i ∈ used) {as bs : List Passenger}
    (hxs : xs i = as ++ p :: bs) :
    ∃ mem', mem.listDel .poison1 .poison2 p.cell = some mem' ∧ mem'.live = mem.live ∧
      Linked used (Function.update xs i (as ++ bs)) mem' passenger ∧
      ∀ j ∈ used, p.cell ∉ .head j :: (Function.update xs i (as ++ bs) j).map Passenger.cell := by
  obtain ⟨mem', hrun, hlive, hlists, hout⟩ :=
    h.lists.listDel hi (cells_append hxs) .poison1 .poison2
  rw [← List.map_append, ← cells_update] at hlists hout
  refine ⟨mem', hrun, hlive, ⟨hlists, h.passenger_update hi ?_⟩, hout⟩
  intro q hq
  rw [hxs]
  exact .inl (((List.sublist_cons_self p bs).append_left as).subset hq)

theorem listMoveTail (h : Linked used xs mem passenger) {j : Place} (hi : i ∈ used)
    (hj : j ∈ used) (hij : i ≠ j) {as bs : List Passenger} (hxs : xs i = as ++ p :: bs) :
    ∃ mem', mem.listMoveTail p.cell (.head j) = some mem' ∧ mem'.live = mem.live ∧
      Linked used (Function.update (Function.update xs i (as ++ bs)) j (xs j ++ [p])) mem'
        passenger := by
  have hp : passenger p.id = p := h.passenger i hi p (by simp [hxs])
  obtain ⟨mem', hrun, hlive, hlists⟩ := h.lists.listMoveTail hi hj hij (cells_append hxs)
  refine ⟨mem', hrun, hlive, ?_, ?_⟩
  · rw [cells_update, cells_update, List.map_append, List.map_append]
    exact hlists
  · intro k hk q hq
    by_cases hkj : k = j
    · rw [hkj, Function.update_self] at hq
      rcases List.mem_append.1 hq with hq | hq
      · exact h.passenger j hj q hq
      · rw [List.mem_singleton.1 hq]
        exact hp
    · rw [Function.update_of_ne hkj] at hq
      refine h.passenger_update hi ?_ k hk q hq
      intro q hq
      rw [hxs]
      exact .inl (((List.sublist_cons_self p bs).append_left as).subset hq)

theorem setLive (h : Linked used xs mem passenger) {c : Cell}
    (hout : ∀ j ∈ used, c ∉ .head j :: (xs j).map Passenger.cell) (live : Bool) :
    Linked used xs (mem.setLive c live) passenger :=
  ⟨h.lists.setLive hout live, h.passenger⟩

end Linked

end KernelElevator
