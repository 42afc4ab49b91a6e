import Mathlib.Logic.Function.Basic

/-!
# The elevator's data

The globals of `elevator_proc.c` and what `kmalloc`, the lists and the scheduler thread add to
them. A `struct list_head` is the list of the passengers linked on it, front first; a passenger
record is named by the `kmalloc` call that returned it. An `int` is an integer: floors and loads
stay small, and the served counters would wrap only once 2^31 records had been served, none of
which the module ever frees.
-/

namespace KernelElevator

/-- `OFFLINE` to `EQUAL`: the states of the elevator, and the directions of a passenger. -/
inductive Status where
  | offline | idle | loading | up | down | equal
  deriving DecidableEq, Repr

/-! ## The constants of the building -/

def adult : Int := 1
def child : Int := 2
def rs : Int := 3
def bellhop : Int := 4

/-- `MAXWEIGHT`, in half units. -/
def maxWeight : Int := 30
def maxUnits : Int := 10

/-- `Passenger`. -/
structure Passenger where
  /-- The record: which successful `kmalloc` returned it. -/
  id : Nat
  weightUnits : Int
  spaceUnits : Int
  startFloor : Int
  destinationFloor : Int
  type : Int
  state : Status
  deriving DecidableEq, Repr

/-- The four `mutex_lock_interruptible` calls of the scheduler, by the branch they guard. -/
inductive LockSite where
  | offline | service | up | down
  deriving DecidableEq, Repr

/-- Where the scheduler thread is. Everything but `top` and `drain` is a sleep. -/
inductive Pc where
  /-- At the test of the outer `while`. -/
  | top
  /-- Between two passes of the `OFFLINE` loop, mutex held. -/
  | drain
  /-- In the `ssleep` of `move_elevator(min_onboard())`. -/
  | drainMove (floor : Int)
  /-- In the `ssleep` of the `IDLE` scan, with the indices still to look at. -/
  | idleMove (rest : List (Fin 10)) (floor : Int)
  /-- In the `ssleep(1)` between unloading and loading, mutex held. -/
  | loadSleep
  /-- In the `ssleep` of the move up, mutex held. -/
  | upMove (floor : Int)
  /-- In the `ssleep` of the move down, mutex held. -/
  | downMove (floor : Int)
  deriving DecidableEq, Repr

/-- What happened to the passengers, as a history. The floor recorded is `current_floor` at that
moment; it is also the number whose predecessor indexes `floors` and `served`. -/
inductive Event where
  /-- `list_add_tail` in `add_passenger`. -/
  | linked (p : Passenger)
  /-- `load_elevator` looks into the queue of this floor. -/
  | opened (floor : Int)
  /-- `list_move_tail` in `load_elevator`. -/
  | boarded (floor : Int) (p : Passenger)
  /-- `list_del` in `load_elevator`: start and destination are the same. -/
  | servedHere (floor : Int) (p : Passenger)
  /-- `list_del` in `unload_elevator`. -/
  | unloaded (floor : Int) (p : Passenger)
  /-- `kfree` in `delete_passenger`. -/
  | freed (id : Nat)
  deriving DecidableEq, Repr

/-- What the scheduler did to the mutex. -/
inductive MutexOp where
  | lock (site : LockSite) (ok : Bool)
  | unlock (site : LockSite)
  deriving DecidableEq, Repr

/-- The module's state. `log` and `mutexLog` are histories that no code reads. -/
structure State where
  currentWeight : Int
  currentUnits : Int
  previousState : Status
  state : Status
  currentFloor : Int
  nextFloor : Int
  onboard : List Passenger
  started : Bool
  oddChildren : Int
  totalServed : Int
  floors : Fin 10 → List Passenger
  served : Fin 10 → Int
  /-- How many `kmalloc` calls succeeded: the name of the next record. -/
  records : Nat
  /-- The records allocated and not freed. -/
  live : List Nat
  pc : Pc
  log : List Event
  mutexLog : List MutexOp

/-! ## Floors and indices -/

/-- The index `floor - 1` into `floors` and `served`; `none` is out of bounds. -/
def slot (floor : Int) : Option (Fin 10) :=
  if h : 1 ≤ floor ∧ floor ≤ 10 then some ⟨(floor - 1).toNat, by omega⟩ else none

/-- The floor with index `k`. -/
def floorOf (k : Fin 10) : Int := (k : Int) + 1

theorem floorOf_bounds (k : Fin 10) : 1 ≤ floorOf k ∧ floorOf k ≤ 10 := by
  have hk := k.isLt
  simp only [floorOf]
  omega

theorem slot_floorOf (k : Fin 10) : slot (floorOf k) = some k := by
  rw [slot, dif_pos (floorOf_bounds k)]
  apply congrArg some
  apply Fin.ext
  simp only [floorOf]
  omega

theorem floorOf_of_slot {floor : Int} {k : Fin 10} (h : slot floor = some k) :
    floorOf k = floor := by
  by_cases hf : 1 ≤ floor ∧ floor ≤ 10
  · rw [slot, dif_pos hf] at h
    obtain rfl := Option.some.inj h
    simp only [floorOf]
    omega
  · rw [slot, dif_neg hf] at h
    exact absurd h (by simp)

theorem slot_eq_some {floor : Int} (h : 1 ≤ floor ∧ floor ≤ 10) : ∃ k, slot floor = some k := by
  simp [slot, h]

theorem floorOf_inj {j k : Fin 10} (h : floorOf j = floorOf k) : j = k := by
  simp only [floorOf] at h
  omega

/-- `floors[floor-1]`; out of bounds the model reads an empty queue. -/
def getQueue (floors : Fin 10 → List Passenger) (floor : Int) : List Passenger :=
  match slot floor with
  | some k => floors k
  | none => []

/-- Write `floors[floor-1]`. -/
def putQueue (floors : Fin 10 → List Passenger) (floor : Int) (q : List Passenger) :
    Fin 10 → List Passenger :=
  match slot floor with
  | some k => Function.update floors k q
  | none => floors

/-- `served[floor-1]++`. -/
def bump (served : Fin 10 → Int) (floor : Int) : Fin 10 → Int :=
  match slot floor with
  | some k => Function.update served k (served k + 1)
  | none => served

section Queues

variable (floors : Fin 10 → List Passenger)

@[simp] theorem getQueue_floorOf (k : Fin 10) : getQueue floors (floorOf k) = floors k := by
  rw [getQueue, slot_floorOf]

theorem getQueue_putQueue {floor : Int} (hf : 1 ≤ floor ∧ floor ≤ 10) (q : List Passenger) :
    getQueue (putQueue floors floor q) = Function.update (getQueue floors) floor q := by
  obtain ⟨k, hk⟩ := slot_eq_some hf
  obtain rfl := floorOf_of_slot hk
  funext g
  simp only [getQueue, putQueue, hk, Function.update_apply]
  cases hg : slot g with
  | none =>
    have hne : g ≠ floorOf k := by
      rintro rfl
      rw [hk] at hg
      exact absurd hg (by simp)
    simp [hne]
  | some j =>
    obtain rfl := floorOf_of_slot hg
    by_cases hj : j = k
    · simp [hj]
    · have hne : floorOf j ≠ floorOf k := fun h => hj (floorOf_inj h)
      simp [hj, hne]

theorem bounds_of_getQueue {floor : Int} (h : getQueue floors floor ≠ []) :
    1 ≤ floor ∧ floor ≤ 10 := by
  cases hk : slot floor with
  | none => simp [getQueue, hk] at h
  | some k => exact floorOf_of_slot hk ▸ floorOf_bounds k

end Queues

theorem bump_apply (served : Fin 10 → Int) (floor : Int) (k : Fin 10) :
    bump served floor k = served k + if floorOf k = floor then 1 else 0 := by
  cases hj : slot floor with
  | none =>
    have hne : floorOf k ≠ floor := by
      intro heq
      rw [← heq, slot_floorOf] at hj
      exact absurd hj (by simp)
    simp [bump, hj, hne]
  | some j =>
    obtain rfl := floorOf_of_slot hj
    by_cases hk : k = j
    · simp [bump, hj, hk]
    · have hne : floorOf k ≠ floorOf j := fun heq => hk (floorOf_inj heq)
      simp [bump, hj, hk, hne]

/-- `floors[floor-1]`. -/
def State.queue (s : State) (floor : Int) : List Passenger := getQueue s.floors floor

/-- The state `elevator_init` sets up; `previous_state`, `odd_children` and `started` keep their
static zero. -/
def elevatorInit : State where
  currentWeight := 0
  currentUnits := 0
  previousState := .offline
  state := .offline
  currentFloor := 0
  nextFloor := 0
  onboard := []
  started := false
  oddChildren := 0
  totalServed := 0
  floors := fun _ => []
  served := fun _ => 0
  records := 0
  live := []
  pc := .top
  log := []
  mutexLog := []

end KernelElevator
