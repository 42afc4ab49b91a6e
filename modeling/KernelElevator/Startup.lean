import KernelElevator.Loading
import KernelElevator.ProcFile
import KernelElevator.Requests

/-!
# The elevator while it is being initialised

`elevator_init` hands out the system calls, the proc entry and the scheduler thread before it sets
the fields and the list heads, so all of these may run between its statements. A statement is a
step, and so are the three parts of the `for` and the `return`; those on `fops` are left out, for
nobody sees `fops` before `proc_create`. The loop's `i` is the global one, which `print_passengers`
also counts with.

* `uses` — the lists that a step walks along or appends to.
* `init_refines` — without anybody in between, this is `Kernel.elevatorInit`.
* `Sound` — no list is used before its `INIT_LIST_HEAD`, and when `elevator_init` returns, whoever
  was accepted is queued, and the elevator is fresh or started.
* `Harmless` — what the others may do before the last list is there, and what the return may find.
-/

namespace KernelElevator.Startup

open Machine

/-! ## The lists -/

inductive ListHead where
  | onboard
  | floor (k : Fin 10)
  deriving DecidableEq, Repr

/-- What the null links of a zeroed list head lead to. They are not links to the head, so
`list_empty` takes the list for one with somebody in it. -/
def nobody : Passenger := ⟨0, 0, 0, 0, 0, 0, .offline⟩

/-- The module's memory when `elevator_init` is called. -/
def zeroed : State := { elevatorInit with onboard := [nobody], floors := fun _ => [nobody] }

def everyFloor : List ListHead := (List.finRange 10).map .floor

/-- `min_onboard` goes through the list in two of its three branches, and `unload_elevator` follows
at once if the elevator need not move. -/
def drainPassUses (s : State) : List ListHead :=
  if s.onboard = [] then []
  else if s.previousState = .up ∨ s.previousState = .down ∨
      moveElevator (minOnboard s) s = none then
    [.onboard]
  else []

/-- `list_first_entry` of each queue that is not empty, up to the first sleep. -/
def idleScanUses : List (Fin 10) → State → List ListHead
  | [], _ => []
  | i :: is, s =>
    match s.floors i with
    | [] => idleScanUses is s
    | p :: _ =>
      .floor i ::
        match moveElevator p.startFloor s with
        | some _ => []
        | none => idleScanUses is (s.setState .loading)

/-- The queue, if there is somebody in it, and `onboard` if somebody gets in. -/
def loadUses (s : State) : List ListHead :=
  match slot s.currentFloor with
  | none => []
  | some k =>
    if s.floors k = [] then []
    else if (loadElevator s.currentFloor s).2.onboard = s.onboard then [.floor k]
    else [.floor k, .onboard]

def scheduleUses (locks : Locks) (s : State) : List ListHead :=
  match s.pc with
  | .top =>
    if s.state = .offline then if locks .offline then drainPassUses s else []
    else if s.state = .idle then idleScanUses (List.finRange 10) s
    else if locks .service then [.onboard] else []
  | .drain => drainPassUses s
  | .drainMove _ => [.onboard]
  | .idleMove is floor => idleScanUses is ((arrive floor s).setState .loading)
  | .loadSleep => loadUses s
  | .upMove _ => []
  | .downMove _ => []

/-- An accepted request appends to its queue, and then prints all of them. -/
def callUses : Call → State → List ListHead
  | .request t a b kmalloc, s =>
    if (issueRequest t a b kmalloc s).1 = 0 ∧ kmalloc = true then everyFloor else []
  | _, _ => []

/-- A read that makes a report goes through all queues. A `NULL` buffer stops it before. -/
def readUses (f : ProcFile.File) : List ListHead :=
  if f.readP = true ∧ f.message ≠ none then everyFloor else []

/-! ## The module during `elevator_init` -/

/-- The statements of `elevator_init`. -/
inductive Statement where
  | stubStartElevator | stubStopElevator | stubIssueRequest
  | procCreate | kthreadRun
  | totalServed | currentWeight | currentUnits | currentFloor | nextFloor | state
  | initOnboard
  /-- `i = 0`. -/
  | loop
  /-- `i < 10`. -/
  | test
  /-- `INIT_LIST_HEAD(&floors[i])`. -/
  | initFloor
  /-- `i++`. -/
  | increment
  /-- With the error to be returned. -/
  | removeProcEntry (error : Int)
  | return (value : Int)
  deriving DecidableEq, Repr

inductive Position where
  | at (statement : Statement)
  | returned (value : Int)
  deriving DecidableEq, Repr

/-- What is kept of the history: who wrote `current_floor` and `state`. -/
inductive Mark where
  | currentFloorSet
  | stateSet
  /-- A `start_elevator` that returned 0. -/
  | started
  /-- A `stop_elevator` that returned 0. -/
  | stopped
  /-- The scheduler woke from a move of the `OFFLINE` branch. -/
  | woke
  /-- The scheduler wrote `LOADING`, at this floor. -/
  | loading (floor : Int)
  /-- The scheduler wrote `UP` at this floor and set out. -/
  | up (floor : Int)
  /-- The scheduler came to the end of an iteration at this floor. -/
  | ended (floor : Int)
  deriving DecidableEq, Repr

/-- The `IDLE` scan writes `LOADING` before its first sleep if the first to wait stands where the
elevator is. -/
def scanMarks : List (Fin 10) → State → List Mark
  | [], _ => []
  | i :: is, s =>
    match s.floors i with
    | [] => scanMarks is s
    | p :: _ => if p.startFloor = s.currentFloor then [.loading s.currentFloor] else []

/-- The mark that the scheduler leaves. Nothing writes `DOWN`, so an iteration that does not go up
ends. -/
def schedMarks (locks : Locks) (s : State) : List Mark :=
  match s.pc with
  | .top =>
    if s.state = .offline then []
    else if s.state = .idle then scanMarks (List.finRange 10) s
    else if locks .service then [.loading s.currentFloor]
    else if s.state = .up ∧ locks .up then []
    else [.ended s.currentFloor]
  | .drain => []
  | .drainMove _ => [.woke]
  | .idleMove _ floor => [.loading floor]
  | .loadSleep => if locks .up then [.up s.currentFloor] else [.ended s.currentFloor]
  | .upMove floor => [.ended floor]
  | .downMove floor => [.ended floor]

/-- The scheduler comes to `load_elevator` at a floor where somebody waits. -/
def Loads (s : State) : Prop := s.pc = .loadSleep ∧ s.queue s.currentFloor ≠ []

instance (s : State) : Decidable (Loads s) := inferInstanceAs (Decidable (_ ∧ _))

structure Module where
  position : Position
  stubStartElevator : Bool
  stubStopElevator : Bool
  stubIssueRequest : Bool
  proc : Bool
  thread : Bool
  i : Int
  file : ProcFile.File
  memory : State
  /-- The lists whose `INIT_LIST_HEAD` has been executed. -/
  initialised : List ListHead
  /-- The requests that returned 0, and the passengers they have queued. -/
  accepted : List (Option Passenger)
  /-- The scheduler has loaded at a floor where somebody waited. -/
  boarded : Bool
  /-- Latest first. -/
  marks : List Mark
  /-- A list has been used before its `INIT_LIST_HEAD`. -/
  oops : Bool

/-- `insmod` calls `elevator_init`. -/
def loaded : Module where
  position := .at .stubStartElevator
  stubStartElevator := false
  stubStopElevator := false
  stubIssueRequest := false
  proc := false
  thread := false
  i := 0
  file := ProcFile.init.file
  memory := zeroed
  initialised := []
  accepted := []
  boarded := false
  marks := []
  oops := false

namespace Module

def goto (statement : Statement) (m : Module) : Module := { m with position := .at statement }

/-- The loop has tested `i` before it comes here; out of bounds the model sets up nothing. -/
def initFloor (m : Module) : Module :=
  match slot (m.i + 1) with
  | some k =>
    { m with
      memory := { m.memory with floors := Function.update m.memory.floors k [] }
      initialised := .floor k :: m.initialised }
  | none => m

/-- A statement of `elevator_init`, with the outcomes of `proc_create` and `kthread_run`. -/
def init (procCreate : Bool) (kthreadRun : Option (Fin 4095)) (m : Module) : Module :=
  match m.position with
  | .returned _ => m
  | .at .stubStartElevator => { m with stubStartElevator := true }.goto .stubStopElevator
  | .at .stubStopElevator => { m with stubStopElevator := true }.goto .stubIssueRequest
  | .at .stubIssueRequest => { m with stubIssueRequest := true }.goto .procCreate
  | .at .procCreate =>
    if procCreate then { m with proc := true }.goto .kthreadRun
    else m.goto (.removeProcEntry (-12)) -- -ENOMEM
  | .at .kthreadRun =>
    match kthreadRun with
    | none => { m with thread := true }.goto .totalServed
    | some e => m.goto (.removeProcEntry (-(e + 1)))
  | .at .totalServed => { m with memory := { m.memory with totalServed := 0 } }.goto .currentWeight
  | .at .currentWeight =>
    { m with memory := { m.memory with currentWeight := 0 } }.goto .currentUnits
  | .at .currentUnits => { m with memory := { m.memory with currentUnits := 0 } }.goto .currentFloor
  | .at .currentFloor =>
    { m with
      memory := { m.memory with currentFloor := 0 }
      marks := .currentFloorSet :: m.marks }.goto .nextFloor
  | .at .nextFloor => { m with memory := { m.memory with nextFloor := 0 } }.goto .state
  | .at .state =>
    { m with
      memory := { m.memory with state := .offline }
      marks := .stateSet :: m.marks }.goto .initOnboard
  | .at .initOnboard =>
    { m with
      memory := { m.memory with onboard := [] }
      initialised := .onboard :: m.initialised }.goto .loop
  | .at .loop => { m with i := 0 }.goto .test
  | .at .test => m.goto (if m.i < 10 then .initFloor else .return 0)
  | .at .initFloor => m.initFloor.goto .increment
  | .at .increment => { m with i := m.i + 1 }.goto .test
  | .at (.removeProcEntry error) => { m with proc := false }.goto (.return error)
  | .at (.return value) => { m with position := .returned value }

/-- The scheduler goes on. -/
def sched (locks : Locks) (m : Module) : Module :=
  { m with
    memory := schedule locks m.memory
    boarded := m.boarded || decide (Loads m.memory)
    marks := schedMarks locks m.memory ++ m.marks }

/-- The mark that a call leaves. -/
def callMarks : Call → Int → List Mark
  | .start, 0 => [.started]
  | .stop, 0 => [.stopped]
  | _, _ => []

def call (c : Call) (m : Module) : Module :=
  let (value, memory) := c.exec m.memory
  let m := { m with memory := memory, marks := callMarks c value ++ m.marks }
  match c with
  | .request _ a _ kmalloc =>
    if value ≠ 0 then m
    else if kmalloc then { m with i := 10, accepted := m.accepted ++ [(memory.queue a).getLast?] }
    else { m with accepted := m.accepted ++ [none] }
  | _ => m

end Module

/-! ## Runs -/

inductive Label where
  | init (procCreate : Bool) (kthreadRun : Option (Fin 4095))
  | sched (locks : Locks)
  | open (kmalloc : Bool)
  | read
  | release
  | call (c : Call)

/-- `elevator_init` has not returned. -/
def Module.Starting (m : Module) : Prop := ∃ statement, m.position = .at statement

/-- The kernel keeps the module. A module whose `elevator_init` has failed is freed. -/
def Module.kept (m : Module) : Bool :=
  match m.position with
  | .at _ => true
  | .returned value => value = 0

/-- The `STUB` pointer of the call is set. -/
def Module.stub (m : Module) : Call → Bool
  | .start => m.stubStartElevator
  | .stop => m.stubStopElevator
  | .request .. => m.stubIssueRequest

/-- What the step comes through has been handed out. -/
def published (l : Label) (m : Module) : Bool :=
  match l with
  | .init .. => true
  | .sched _ => m.thread
  | .open _ => m.proc
  | .read => m.proc
  | .release => m.proc
  | .call c => m.stub c

/-- The lists that the step uses. -/
def uses (l : Label) (m : Module) : List ListHead :=
  match l with
  | .sched locks => scheduleUses locks m.memory
  | .read => readUses m.file
  | .call c => callUses c m.memory
  | _ => []

def exec (l : Label) (m : Module) : Module :=
  match l with
  | .init procCreate kthreadRun => m.init procCreate kthreadRun
  | .sched locks => m.sched locks
  | .open kmalloc => { m with file := (ProcFile.elevatorProcOpen kmalloc m.file).2 }
  | .read => { m with file := (ProcFile.elevatorProcRead m.memory m.file).2 }
  | .release => { m with file := (ProcFile.elevatorProcRelease m.file).2 }
  | .call c => m.call c

/-- A step that uses a list too early is an oops, with which the run ends. -/
def step (l : Label) (m : Module) : Module :=
  if m.kept && !m.oops && published l m then
    if ∀ h ∈ uses l m, h ∈ m.initialised then exec l m else { m with oops := true }
  else m

/-! ## Nobody in between -/

/-- The kernel, as far as `elevator_init` has got. -/
def Module.kernel (m : Module) : Kernel where
  stubStartElevator := m.stubStartElevator
  stubStopElevator := m.stubStopElevator
  stubIssueRequest := m.stubIssueRequest
  proc := m.proc
  thread := m.thread
  image := if m.position = .returned 0 then some m.memory else none
  log := []

/-- All statements of `elevator_init`; a return leaves the rest undone. -/
def uninterrupted (procCreate : Bool) (kthreadRun : Option (Fin 4095)) : List Label :=
  List.replicate 45 (.init procCreate kthreadRun)

theorem kept_failed {m : Module} {value : Int} (h : m.position = .returned value)
    (hvalue : value ≠ 0) : m.kept = false := by
  simp [Module.kept, h, hvalue]

/-- A module that has been freed does nothing more. -/
theorem run_freed {m : Module} (h : m.kept = false) (ls : List Label) : run step ls m = m := by
  induction ls with
  | nil => rfl
  | cons l ls ih =>
    have hstep : step l m = m := by simp [step, h]
    rw [run_cons, hstep, ih]

/-- The loop of `elevator_init` has done `n` floors, and nobody has come in between. -/
structure Filling (m : Module) (n : Nat) : Prop where
  position : m.position = .at .test
  oops : m.oops = false
  i : m.i = n
  memory : m.memory = { elevatorInit with floors := fun k => if k < n then [] else [nobody] }
  published : m.stubStartElevator = true ∧ m.stubStopElevator = true ∧ m.stubIssueRequest = true ∧
    m.proc = true ∧ m.thread = true

theorem step_init {m : Module} {statement : Statement} (hposition : m.position = .at statement)
    (hoops : m.oops = false) (procCreate : Bool) (kthreadRun : Option (Fin 4095)) :
    step (.init procCreate kthreadRun) m = m.init procCreate kthreadRun := by
  simp [step, Module.kept, hposition, hoops, published, uses, exec]

theorem step_goto {m : Module} (hoops : m.oops = false) (statement : Statement) (procCreate : Bool)
    (kthreadRun : Option (Fin 4095)) :
    step (.init procCreate kthreadRun) (m.goto statement) =
      (m.goto statement).init procCreate kthreadRun :=
  @step_init (m.goto statement) statement rfl hoops procCreate kthreadRun

theorem init_increment (m : Module) (procCreate : Bool) (kthreadRun : Option (Fin 4095)) :
    (m.goto .increment).init procCreate kthreadRun =
      { m with i := m.i + 1, position := .at .test } := rfl

/-- Once round the loop. -/
theorem Filling.round {m : Module} {n : Nat} (h : Filling m n) (hn : n < 10) (procCreate : Bool)
    (kthreadRun : Option (Fin 4095)) :
    Filling (run step (List.replicate 3 (.init procCreate kthreadRun)) m) (n + 1) := by
  have hi := h.i
  have hbounds : 1 ≤ m.i + 1 ∧ m.i + 1 ≤ 10 := by omega
  obtain ⟨k, hk⟩ := slot_eq_some hbounds
  have hkn : (k : Nat) = n := by
    have hfloor := floorOf_of_slot hk
    simp only [floorOf] at hfloor
    omega
  have hfill : Function.update (fun j : Fin 10 => if (j : Nat) < n then [] else [nobody]) k [] =
      fun j : Fin 10 => if (j : Nat) < n + 1 then [] else [nobody] := by
    funext j
    by_cases hj : j = k
    · subst hj
      simp [hkn]
    · have hjn : (j : Nat) ≠ n := fun heq => hj (Fin.ext (heq.trans hkn.symm))
      have hlt : (j : Nat) < n ↔ (j : Nat) < n + 1 := by omega
      simp [hj, hlt]
  have htest : step (.init procCreate kthreadRun) m = m.goto .initFloor := by
    rw [step_init h.position h.oops]
    simp only [Module.init, h.position, if_pos (show m.i < 10 by omega)]
  have hfloor : (m.goto .initFloor).initFloor = { m.goto .initFloor with
      memory := { m.memory with floors := Function.update m.memory.floors k [] }
      initialised := .floor k :: m.initialised } := by
    simp only [Module.initFloor, Module.goto, hk]
  simp only [List.replicate_succ, List.replicate_zero, run_cons, run_nil]
  rw [htest, step_goto h.oops]
  show Filling (step _ ((m.goto .initFloor).initFloor.goto .increment)) (n + 1)
  rw [hfloor, step_goto, init_increment]
  swap
  · exact h.oops
  refine ⟨rfl, h.oops, ?_, ?_, h.published⟩
  · show m.i + 1 = ((n + 1 : Nat) : Int)
    omega
  · show { m.memory with floors := Function.update m.memory.floors k [] } = _
    simp only [h.memory, hfill]

theorem Filling.run {m : Module} {n : Nat} (h : Filling m n) {k : Nat} (hk : n + k ≤ 10)
    (procCreate : Bool) (kthreadRun : Option (Fin 4095)) :
    Filling (run step (List.replicate (3 * k) (.init procCreate kthreadRun)) m) (n + k) := by
  induction k generalizing m n with
  | zero => exact h
  | succ k ih =>
    have hsplit : List.replicate (3 * (k + 1)) (Label.init procCreate kthreadRun) =
        List.replicate 3 (.init procCreate kthreadRun) ++
          List.replicate (3 * k) (.init procCreate kthreadRun) := by
      rw [← List.replicate_add]
      congr 1
      omega
    have hnext := ih (h.round (by omega) procCreate kthreadRun) (by omega)
    rw [hsplit, run_append]
    rwa [Nat.add_right_comm] at hnext

/-- The loop is over. -/
theorem Filling.returns {m : Module} (h : Filling m 10) (procCreate : Bool)
    (kthreadRun : Option (Fin 4095)) :
    Machine.run step (List.replicate 2 (.init procCreate kthreadRun)) m =
      { m with position := .returned 0 } := by
  have hi := h.i
  have htest : step (.init procCreate kthreadRun) m = m.goto (.return 0) := by
    rw [step_init h.position h.oops]
    simp only [Module.init, h.position, if_neg (show ¬ m.i < 10 by omega)]
  simp only [List.replicate_succ, List.replicate_zero, run_cons, run_nil]
  rw [htest, step_goto h.oops]
  rfl

/-- **`elevator_init`, uninterrupted.** -/
theorem init_refines (procCreate : Bool) (kthreadRun : Option (Fin 4095)) :
    let m := run step (uninterrupted procCreate kthreadRun) loaded
    m.position = .returned (Kernel.elevatorInit procCreate kthreadRun Kernel.boot).1 ∧
      m.kernel = (Kernel.elevatorInit procCreate kthreadRun Kernel.boot).2 := by
  cases procCreate with
  | false =>
    have hsplit : uninterrupted false kthreadRun = List.replicate 6 (.init false kthreadRun) ++
        List.replicate 39 (.init false kthreadRun) := rfl
    have hsix : run step (List.replicate 6 (.init false kthreadRun)) loaded =
        { loaded with
          stubStartElevator := true
          stubStopElevator := true
          stubIssueRequest := true
          position := .returned (-12) } := by
      simp [List.replicate_succ, step, loaded, Module.kept, published, uses, exec, Module.init,
        Module.goto]
    rw [hsplit, run_append, hsix, run_freed (kept_failed rfl (by decide))]
    exact ⟨rfl, rfl⟩
  | true =>
    cases kthreadRun with
    | none =>
      have hsplit : uninterrupted true none = List.replicate 13 (.init true none) ++
          (List.replicate (3 * 10) (.init true none) ++ List.replicate 2 (.init true none)) := rfl
      have hloop : Filling (run step (List.replicate 13 (.init true none)) loaded) 0 :=
        ⟨rfl, rfl, rfl, rfl, rfl, rfl, rfl, rfl, rfl⟩
      have hend := hloop.run (k := 10) (by decide) true none
      rw [hsplit, run_append, run_append]
      generalize run step (List.replicate (3 * 10) _) _ = m at hend
      obtain ⟨hstart, hstop, hissue, hproc, hthread⟩ := hend.published
      have hmemory : m.memory = elevatorInit := by
        rw [hend.memory]
        simp [elevatorInit]
      rw [hend.returns]
      refine ⟨rfl, ?_⟩
      simp [Module.kernel, hstart, hstop, hissue, hproc, hthread, hmemory, Kernel.elevatorInit,
        Kernel.boot]
    | some e =>
      have hsplit : uninterrupted true (some e) =
          List.replicate 7 (.init true (some e)) ++ List.replicate 38 (.init true (some e)) := rfl
      have hseven : run step (List.replicate 7 (.init true (some e))) loaded =
          { loaded with
            stubStartElevator := true
            stubStopElevator := true
            stubIssueRequest := true
            position := .returned (-(e + 1)) } := by
        simp [List.replicate_succ, step, loaded, Module.kept, published, uses, exec, Module.init,
          Module.goto]
      have hfailed : -((e : Int) + 1) ≠ 0 := by omega
      have hreturned : Position.returned (-((e : Int) + 1)) ≠ .returned 0 :=
        fun heq => hfailed (Position.returned.inj heq)
      rw [hsplit, run_append, hseven, run_freed (kept_failed rfl hfailed)]
      refine ⟨rfl, ?_⟩
      rw [Module.kernel, if_neg hreturned]
      rfl

/-! ## Sound runs -/

/-- Every request that returned 0 has a passenger in the queue. -/
def AllQueued (m : Module) : Prop :=
  ∀ a ∈ m.accepted, ∃ p, a = some p ∧ p ∈ m.memory.queue p.startFloor

def Fresh (m : Module) : Prop := m.memory.currentFloor = 0 ∧ m.memory.state = .offline

/-- As a `start_elevator` that returned 0 leaves it. -/
def Started (m : Module) : Prop :=
  .started ∈ m.marks ∧ m.memory.currentFloor = 1 ∧ m.memory.state = .idle

/-- What is asked of a step. -/
def Sound (m : Module) (l : Label) : Prop :=
  (step l m).oops = false ∧
  (m.Starting → ¬ (step l m).Starting →
    AllQueued (step l m) ∧ (Fresh (step l m) ∨ Started (step l m)))

/-- The last `INIT_LIST_HEAD` has been executed. -/
def Module.Filled (m : Module) : Prop := .floor (Fin.last 9) ∈ m.initialised

/-- Since `current_floor` was set to 0, no `start_elevator` has returned 0, and the scheduler has
neither woken from a move nor gone to work; or else a start has returned 0, and the latest mark is a
start or the end of an iteration at floor 1. -/
def Orderly (marks : List Mark) : Prop :=
  (∀ mark ∈ marks.takeWhile (· ≠ .currentFloorSet), mark = .stateSet ∨ mark = .stopped) ∨
  (.started ∈ marks ∧ (marks.head? = some .started ∨ marks.head? = some (.ended 1)))

/-- What may happen before `elevator_init` returns. -/
def Harmless (m : Module) (l : Label) : Prop :=
  m.Starting →
    match l with
    | .init _ _ =>
      (∃ value, m.position = .at (.return value)) →
        none ∉ m.accepted ∧ m.boarded = false ∧ Orderly m.marks
    | .sched _ => m.thread = true → ¬ m.Filled →
      (m.memory.pc = .top → m.memory.state ≠ .idle) ∧
      (∀ floor, m.memory.pc = .drainMove floor → .onboard ∈ m.initialised)
    | .open _ => True
    | .read => m.proc = true → ¬ m.Filled → m.file.message ≠ none → m.file.readP = false
    | .release => True
    | .call (.request t a b kmalloc) =>
      m.stubIssueRequest = true → ¬ m.Filled → ValidRequest t a b → kmalloc = false
    | .call _ => True

end KernelElevator.Startup
