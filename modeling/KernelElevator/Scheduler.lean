import KernelElevator.Operations
import KernelElevator.Library.Machine
import Mathlib.Data.List.Induction

/-!
# The scheduler thread and the runs of the module

`scheduler` sleeps in the middle of an iteration, and the system calls take no lock. Its code is
cut at the sleeps: `schedule` runs the thread from where it is to its next sleep, to the next pass
of the `OFFLINE` loop or to the loop head, and a system call may come between any two such steps.
The outcome of each `mutex_lock_interruptible` is an input. `Scheduled` says once what such a step
can be.

A *run* is a list of steps from `elevatorInit`. A *sequential run* takes whole iterations only,
with every lock granted: nobody else takes the mutex, and a kernel thread has no signal pending.
-/

namespace KernelElevator

open Machine

/-- Which `mutex_lock_interruptible` calls return 0. -/
abbrev Locks := LockSite → Bool

/-- Every lock is granted. -/
def granted : Locks := fun _ => true

namespace State

/-- `mutex_lock_interruptible`. -/
def lock (site : LockSite) (locks : Locks) (s : State) : State :=
  { s with mutexLog := s.mutexLog ++ [.lock site (locks site)] }

/-- `mutex_unlock`. -/
def unlock (site : LockSite) (s : State) : State :=
  { s with mutexLog := s.mutexLog ++ [.unlock site] }

def goto (pc : Pc) (s : State) : State := { s with pc := pc }

def setState (status : Status) (s : State) : State := { s with state := status }

@[simp] theorem goto_pc (pc : Pc) (s : State) : (s.goto pc).pc = pc := rfl

@[simp] theorem setState_state (status : Status) (s : State) :
    (s.setState status).state = status := rfl

end State

/-! ## The `OFFLINE` branch -/

/-- One pass of `while(!list_empty(&elevator.onboard))`, up to the sleep if the elevator moves. -/
def drainPass (s : State) : State :=
  if s.onboard = [] then (s.unlock .offline).goto .top
  else
    match moveElevator (minOnboard s) s with
    | some s' => s'.goto (.drainMove (minOnboard s))
    | none => (unloadElevator s.currentFloor s).2.goto .drain

/-- The rest of a pass, after the sleep. -/
def drainArrive (floor : Int) (s : State) : State :=
  let s := arrive floor s
  (unloadElevator s.currentFloor s).2.goto .drain

def offlineBranch (locks : Locks) (s : State) : State :=
  let s := s.lock .offline locks
  if locks .offline then drainPass s else (s.unlock .offline).goto .top

/-! ## The `IDLE` branch -/

/-- The `for` loop over the floors, from the indices still to look at. -/
def idleScan : List (Fin 10) → State → State
  | [], s => s.goto .top
  | i :: is, s =>
    match s.floors i with
    | [] => idleScan is s
    | p :: _ =>
      match moveElevator p.startFloor s with
      | some s' => s'.goto (.idleMove is p.startFloor)
      | none => idleScan is (s.setState .loading)

/-- The loop, woken from the move to `floor`. -/
def idleArrive (is : List (Fin 10)) (floor : Int) (s : State) : State :=
  idleScan is ((arrive floor s).setState .loading)

/-! ## The service branch -/

/-- The end of an iteration: an empty elevator is `IDLE`. -/
def endService (s : State) : State :=
  (if s.onboard = [] then s.setState .idle else s).goto .top

/-- `if (elevator.state == DOWN)`. -/
def downPart (locks : Locks) (s : State) : State :=
  if s.state = .down then
    let s := s.lock .down locks
    if locks .down then
      if s.currentFloor = 1 then endService ((s.setState .up).unlock .down)
      else
        match moveElevator (s.currentFloor - 1) s with
        | some s' => s'.goto (.downMove (s.currentFloor - 1))
        | none => endService (s.unlock .down)
    else endService s
  else endService s

/-- The floor the sweep goes to from `floor`. -/
def nextUp (floor : Int) : Int := if floor = 10 then 1 else floor + 1

/-- `if(elevator.state == UP)`. Here the unlock also follows a failed attempt. -/
def upPart (locks : Locks) (s : State) : State :=
  if s.state = .up then
    let s := s.lock .up locks
    if locks .up then
      match moveElevator (nextUp s.currentFloor) s with
      | some s' => s'.goto (.upMove (nextUp s.currentFloor))
      | none => downPart locks (s.unlock .up)
    else downPart locks (s.unlock .up)
  else downPart locks s

/-- The stop at a floor, up to its `ssleep(1)`. -/
def serviceBranch (locks : Locks) (s : State) : State :=
  let s := s.lock .service locks
  if locks .service then
    let s := s.setState .loading
    (unloadElevator s.currentFloor s).2.goto .loadSleep
  else upPart locks (s.unlock .service)

/-- The rest of the stop, after `ssleep(1)`. -/
def loadAndGo (locks : Locks) (s : State) : State :=
  let s := (loadElevator s.currentFloor s).2
  upPart locks ((s.setState .up).unlock .service)

/-! ## Steps and runs -/

/-- The scheduler thread, from where it is to where it next stops. -/
def schedule (locks : Locks) (s : State) : State :=
  match s.pc with
  | .top =>
    if s.state = .offline then offlineBranch locks s
    else if s.state = .idle then idleScan (List.finRange 10) s
    else serviceBranch locks s
  | .drain => drainPass s
  | .drainMove floor => drainArrive floor s
  | .idleMove is floor => idleArrive is floor s
  | .loadSleep => loadAndGo locks s
  | .upMove floor => downPart locks ((arrive floor s).unlock .up)
  | .downMove floor => endService ((arrive floor s).unlock .down)

section Schedule

variable {s : State} (locks : Locks)

theorem schedule_offline (hpc : s.pc = .top) (h : s.state = .offline) :
    schedule locks s = offlineBranch locks s := by
  simp only [schedule, hpc, if_pos h]

theorem schedule_idle (hpc : s.pc = .top) (h : s.state = .idle) :
    schedule locks s = idleScan (List.finRange 10) s := by
  simp [schedule, hpc, h]

theorem schedule_service (hpc : s.pc = .top) (hoff : s.state ≠ .offline) (hidle : s.state ≠ .idle) :
    schedule locks s = serviceBranch locks s := by
  simp only [schedule, hpc, if_neg hoff, if_neg hidle]

theorem schedule_drain (hpc : s.pc = .drain) : schedule locks s = drainPass s := by
  simp only [schedule, hpc]

theorem schedule_drainMove {floor : Int} (hpc : s.pc = .drainMove floor) :
    schedule locks s = drainArrive floor s := by
  simp only [schedule, hpc]

theorem schedule_idleMove {is : List (Fin 10)} {floor : Int} (hpc : s.pc = .idleMove is floor) :
    schedule locks s = idleArrive is floor s := by
  simp only [schedule, hpc]

theorem schedule_loadSleep (hpc : s.pc = .loadSleep) : schedule locks s = loadAndGo locks s := by
  simp only [schedule, hpc]

theorem schedule_upMove {floor : Int} (hpc : s.pc = .upMove floor) :
    schedule locks s = downPart locks ((arrive floor s).unlock .up) := by
  simp only [schedule, hpc]

theorem schedule_downMove {floor : Int} (hpc : s.pc = .downMove floor) :
    schedule locks s = endService ((arrive floor s).unlock .down) := by
  simp only [schedule, hpc]

/-- What the scheduler does in one step, by where it is and what it finds there. -/
inductive Scheduled (locks : Locks) (s : State) : State → Prop where
  | offline (hpc : s.pc = .top) (hoff : s.state = .offline) (hlock : locks .offline = true) :
    Scheduled locks s (drainPass (s.lock .offline locks))
  | offlineRefused (hpc : s.pc = .top) (hoff : s.state = .offline)
    (hlock : locks .offline = false) :
    Scheduled locks s (((s.lock .offline locks).unlock .offline).goto .top)
  | idle (hpc : s.pc = .top) (hidle : s.state = .idle) :
    Scheduled locks s (idleScan (List.finRange 10) s)
  | service (hpc : s.pc = .top) (hoff : s.state ≠ .offline) (hidle : s.state ≠ .idle)
    (hlock : locks .service = true) :
    Scheduled locks s ((unloadElevator s.currentFloor
      ((s.lock .service locks).setState .loading)).2.goto .loadSleep)
  | serviceRefused (hpc : s.pc = .top) (hoff : s.state ≠ .offline) (hidle : s.state ≠ .idle)
    (hlock : locks .service = false) :
    Scheduled locks s (upPart locks ((s.lock .service locks).unlock .service))
  | drain (hpc : s.pc = .drain) : Scheduled locks s (drainPass s)
  | drainMove (floor : Int) (hpc : s.pc = .drainMove floor) :
    Scheduled locks s (drainArrive floor s)
  | idleMove (is : List (Fin 10)) (floor : Int) (hpc : s.pc = .idleMove is floor) :
    Scheduled locks s (idleArrive is floor s)
  | loadSleep (hpc : s.pc = .loadSleep) : Scheduled locks s (loadAndGo locks s)
  | upMove (floor : Int) (hpc : s.pc = .upMove floor) :
    Scheduled locks s (downPart locks ((arrive floor s).unlock .up))
  | downMove (floor : Int) (hpc : s.pc = .downMove floor) :
    Scheduled locks s (endService ((arrive floor s).unlock .down))

theorem scheduled (s : State) : Scheduled locks s (schedule locks s) := by
  cases hpc : s.pc with
  | top =>
    by_cases hoff : s.state = .offline
    · rw [schedule_offline locks hpc hoff, offlineBranch]
      cases hlock : locks .offline with
      | true => exact .offline hpc hoff hlock
      | false => exact .offlineRefused hpc hoff hlock
    · by_cases hidle : s.state = .idle
      · rw [schedule_idle locks hpc hidle]
        exact .idle hpc hidle
      · rw [schedule_service locks hpc hoff hidle, serviceBranch]
        cases hlock : locks .service with
        | true => exact .service hpc hoff hidle hlock
        | false => exact .serviceRefused hpc hoff hidle hlock
  | drain =>
    rw [schedule_drain locks hpc]
    exact .drain hpc
  | drainMove floor =>
    rw [schedule_drainMove locks hpc]
    exact .drainMove floor hpc
  | idleMove is floor =>
    rw [schedule_idleMove locks hpc]
    exact .idleMove is floor hpc
  | loadSleep =>
    rw [schedule_loadSleep locks hpc]
    exact .loadSleep hpc
  | upMove floor =>
    rw [schedule_upMove locks hpc]
    exact .upMove floor hpc
  | downMove floor =>
    rw [schedule_downMove locks hpc]
    exact .downMove floor hpc

end Schedule

/-- A system call, with the outcome of the `kmalloc` it may make. -/
inductive Call where
  | start
  | stop
  | request (passengerType startFloor destinationFloor : Int) (kmalloc : Bool)
  deriving DecidableEq, Repr

/-- What the call returns, and the state it leaves. -/
def Call.exec : Call → State → Int × State
  | .start => startElevator
  | .stop => stopElevator
  | .request t a b kmalloc => issueRequest t a b kmalloc

/-- A step of an interleaved run. -/
inductive Label where
  | sched (locks : Locks)
  | call (c : Call)

def Label.isSched : Label → Bool
  | .sched _ => true
  | .call _ => false

def step : Label → State → State
  | .sched locks => schedule locks
  | .call c => fun s => (c.exec s).2

/-- The state after an interleaved run. -/
def after (ls : List Label) : State := run step ls elevatorInit

theorem after_append (ls ms : List Label) : after (ls ++ ms) = run step ms (after ls) :=
  run_append step ls ms elevatorInit

theorem after_snoc (ls : List Label) (l : Label) : after (ls ++ [l]) = step l (after ls) :=
  after_append ls [l]

/-- A step has to keep `I` only where `J` holds, if `J` holds in every state of every run. -/
theorem after_invariant {I J : State → Prop} (hJ : ∀ ls, J (after ls)) (hinit : I elevatorInit)
    (hstep : ∀ l s, J s → I s → I (step l s)) (ls : List Label) : I (after ls) := by
  induction ls using List.reverseRecOn with
  | nil => exact hinit
  | append_singleton ls l ih =>
    rw [after_snoc]
    exact hstep l (after ls) (hJ ls) ih

/-- One whole iteration: from the loop head to where the scheduler is next at the loop head. -/
inductive Returns : State → State → Prop
  | top {s : State} : (schedule granted s).pc = .top → Returns s (schedule granted s)
  | mid {s s' : State} : (schedule granted s).pc ≠ .top → Returns (schedule granted s) s' →
      Returns s s'

/-- An operation of a sequential run. -/
inductive Op where
  | iteration
  | call (c : Call)
  deriving DecidableEq, Repr

inductive OpStep : Op → State → State → Prop
  | iteration {s s' : State} : Returns s s' → OpStep .iteration s s'
  | call (c : Call) (s : State) : OpStep (.call c) s (c.exec s).2

/-- A sequential run from `elevatorInit`, latest operation last. -/
inductive SeqRun : List Op → State → Prop
  | nil : SeqRun [] elevatorInit
  | snoc {ops : List Op} {s s' : State} {op : Op} :
      SeqRun ops s → OpStep op s s' → SeqRun (ops ++ [op]) s'

end KernelElevator
