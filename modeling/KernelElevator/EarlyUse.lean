import KernelElevator.LateStart

/-!
# Nobody too early

While `elevator_init` sets up the lists and the others are harmless, the lists that are there are
empty, and whoever last wrote `current_floor` and `state` tells what they hold. A step that is not
harmless comes to a list that is not there, and does so at once; the return finds out about the
rest.

* `Quiet`, `Booting` — what holds before each statement, until the last list is there.
* `startup_sound_iff` — a run is sound if and only if it is harmless.
-/

namespace KernelElevator.Startup

open Machine

theorem lastState_offline_or_idle {marks : List Mark} (h : ∀ mark ∈ marks, mark.floor = none) :
    lastState marks = .offline ∨ lastState marks = .idle := by
  induction marks with
  | nil => exact .inl rfl
  | cons mark marks ih =>
    have ih := ih fun mark hmark => h mark (List.mem_cons_of_mem _ hmark)
    have hmark := h mark List.mem_cons_self
    cases mark with
    | currentFloorSet => exact ih
    | stateSet => exact .inl rfl
    | started => exact .inr rfl
    | stopped => exact .inl rfl
    | woke => exact ih
    | loading floor => cases hmark
    | up floor => cases hmark
    | ended floor => cases hmark

/-! ## Before the last list is there -/

/-- `INIT_LIST_HEAD(&elevator.onboard)` comes before the statement. -/
def Statement.listing : Statement → Bool
  | .loop => true
  | .test => true
  | .initFloor => true
  | .increment => true
  | _ => false

/-- How many queues are there before the statement. -/
def Statement.filled (i : Int) : Statement → Int
  | .test => i
  | .initFloor => i
  | .increment => i + 1
  | _ => 0

/-- The error that a statement passes on; -1 for those that pass on none. -/
def Statement.error : Statement → Int
  | .removeProcEntry error => error
  | .return value => value
  | _ => -1

/-- Nothing has happened to the lists but their `INIT_LIST_HEAD`, and the marks tell the rest. -/
structure Quiet (s : State) (marks : List Mark) (initialised : List ListHead) : Prop where
  scheduler : s.pc = .top ∨ (s.pc = .drain ∧ .onboard ∈ initialised) ∨ s.pc = .drainMove (-1)
  noFloor : ∀ mark ∈ marks, mark.floor = none
  currentFloor : s.currentFloor = lastFloor marks
  state : s.state = lastState marks
  onboard : s.onboard = if .onboard ∈ initialised then [] else [nobody]
  floors : ∀ k, s.floors k = if .floor k ∈ initialised then [] else [nobody]
  /-- The scheduler wakes on the floor it has gone to only once `onboard` is a list. -/
  away : s.currentFloor = -1 → .onboard ∈ initialised
  /-- The counters and the histories are as they were. -/
  rest : { s with
    state := .offline, currentFloor := 0, nextFloor := 0, onboard := [], started := false,
    floors := fun _ => [], pc := .top, mutexLog := [] } = elevatorInit

/-- `elevator_init` is at the statement, and everything has been harmless so far. -/
structure Booting (m : Module) (statement : Statement) : Prop where
  position : m.position = .at statement
  oops : m.oops = false
  quiet : Quiet m.memory m.marks m.initialised
  onboard : .onboard ∈ m.initialised ↔ statement.listing = true
  floors : ∀ k : Fin 10, .floor k ∈ m.initialised ↔ (k : Int) < statement.filled m.i
  filled : 0 ≤ statement.filled m.i ∧ statement.filled m.i ≤ 9
  /-- A floor that has been set to 0 and not been left goes with `OFFLINE`, but for the two
  statements after `current_floor = 0`. -/
  settled : m.memory.currentFloor = 0 →
    m.memory.state = .offline ∨ statement = .nextFloor ∨ statement = .state
  accepted : ∀ a ∈ m.accepted, a = none
  boarded : m.boarded = false
  error : statement.error ≠ 0

/-- `elevator_init` has returned, and all lists are there unless it has failed. -/
structure Booted (m : Module) (value : Int) : Prop where
  position : m.position = .returned value
  oops : m.oops = false
  lists : value = 0 → ∀ h, h ∈ m.initialised

theorem booting_loaded : Booting loaded .stubStartElevator := by
  refine ⟨rfl, rfl, ⟨.inl rfl, ?_, rfl, rfl, rfl, ?_, ?_, rfl⟩, ?_, ?_, ?_, ?_, ?_, rfl, ?_⟩
  · simp [loaded]
  · intro k
    rfl
  · simp [loaded, zeroed, elevatorInit]
  · simp [loaded, Statement.listing]
  · simp [loaded, Statement.filled]
  · simp [Statement.filled]
  · intro _
    exact .inl rfl
  · simp [loaded]
  · simp [Statement.error]

section Steps

variable {m : Module} {statement : Statement}

theorem Booting.floor_nine (h : Booting m statement) : ¬ m.Filled := by
  rw [Module.Filled, h.floors]
  intro hlt
  exact absurd hlt (by simpa using h.filled.2)

theorem Booting.everyFloor (h : Booting m statement) :
    ¬ ∀ head ∈ everyFloor, head ∈ m.initialised := by
  intro hall
  apply h.floor_nine
  apply hall
  exact List.mem_map_of_mem (List.mem_finRange (Fin.last 9))

/-! ### The statements of `elevator_init` -/

theorem filled_of_not_listing {statement : Statement} (h : statement.listing = false) (i : Int) :
    statement.filled i = 0 := by
  cases statement <;> simp_all [Statement.listing, Statement.filled]

/-- A statement that sets up no list. -/
theorem Booting.next (h : Booting m statement) {m' : Module} {statement' : Statement}
    (hlisting : statement.listing = false) (hlisting' : statement'.listing = false)
    (hposition : m'.position = .at statement') (hoops : m'.oops = m.oops)
    (hinitialised : m'.initialised = m.initialised) (haccepted : m'.accepted = m.accepted)
    (hboarded : m'.boarded = m.boarded) (hquiet : Quiet m'.memory m'.marks m'.initialised)
    (hsettled : m'.memory.currentFloor = 0 →
      m'.memory.state = .offline ∨ statement' = .nextFloor ∨ statement' = .state)
    (herror : statement'.error ≠ 0) : Booting m' statement' := by
  have hnone := filled_of_not_listing hlisting m.i
  have hnone' := filled_of_not_listing hlisting' m'.i
  refine ⟨hposition, hoops.trans h.oops, hquiet, ?_, ?_, ?_, hsettled, haccepted ▸ h.accepted,
    hboarded.trans h.boarded, herror⟩
  · rw [hinitialised, h.onboard, hlisting, hlisting']
  · intro k
    rw [hinitialised, h.floors k, hnone, hnone']
  · rw [hnone']
    decide

/-- A statement that leaves `current_floor` and `state` alone, away from the two in between. -/
theorem Booting.keep (h : Booting m statement) {m' : Module} {statement' : Statement}
    (hlisting : statement.listing = false) (hlisting' : statement'.listing = false)
    (hbetween : statement ≠ .nextFloor ∧ statement ≠ .state)
    (hposition : m'.position = .at statement') (hoops : m'.oops = m.oops)
    (hinitialised : m'.initialised = m.initialised) (haccepted : m'.accepted = m.accepted)
    (hboarded : m'.boarded = m.boarded) (hquiet : Quiet m'.memory m'.marks m'.initialised)
    (hfloor : m'.memory.currentFloor = m.memory.currentFloor)
    (hstate : m'.memory.state = m.memory.state) (herror : statement'.error ≠ 0) :
    Booting m' statement' := by
  refine h.next hlisting hlisting' hposition hoops hinitialised haccepted hboarded hquiet ?_ herror
  rw [hfloor, hstate]
  intro hzero
  exact .inl ((h.settled hzero).resolve_right (by simp [hbetween]))

/-- A part of the `for` counts, and leaves the lists alone. -/
theorem Booting.count (h : Booting m statement) {i : Int} {statement' : Statement}
    (hlisting : statement.listing = true) (hlisting' : statement'.listing = true)
    (hfilled : statement'.filled i = statement.filled m.i)
    (herror : statement'.error ≠ 0) (hbetween : statement ≠ .nextFloor ∧ statement ≠ .state) :
    Booting ({ m with i := i }.goto statement') statement' := by
  refine ⟨rfl, h.oops, h.quiet, h.onboard.trans (by rw [hlisting, hlisting']), ?_, ?_, ?_,
    h.accepted, h.boarded, herror⟩
  · intro k
    exact (h.floors k).trans (by rw [← hfilled]; rfl)
  · show 0 ≤ statement'.filled i ∧ statement'.filled i ≤ 9
    rw [hfilled]
    exact h.filled
  · intro hzero
    exact .inl ((h.settled hzero).resolve_right (by simp [hbetween]))

theorem Booting.initOnboard (h : Booting m .initOnboard) :
    Booting ({ m with
      memory := { m.memory with onboard := [] }
      initialised := .onboard :: m.initialised }.goto .loop) .loop := by
  obtain ⟨hpc, hmarks, hfloor, hstate, -, hfloors, -, hrest⟩ := h.quiet
  have hnew : ListHead.onboard ∈ ListHead.onboard :: m.initialised := List.mem_cons_self
  refine ⟨rfl, h.oops, ⟨?_, hmarks, hfloor, hstate, (if_pos hnew).symm, ?_, fun _ => hnew, hrest⟩,
    iff_of_true hnew rfl, ?_, h.filled, ?_, h.accepted, h.boarded, h.error⟩
  · exact hpc.imp_right (Or.imp_left (And.imp_right (List.mem_cons_of_mem _)))
  · intro k
    simpa [Module.goto] using hfloors k
  · intro k
    simpa [Module.goto, Statement.filled] using h.floors k
  · intro hzero
    exact .inl ((h.settled hzero).resolve_right (by simp))

/-- `INIT_LIST_HEAD(&floors[i])` finds `i` where the loop has left it. -/
theorem Booting.initFloor_eq (h : Booting m .initFloor) : ∃ k : Fin 10, (k : Int) = m.i ∧
    m.initFloor = { m with
      memory := { m.memory with floors := Function.update m.memory.floors k [] }
      initialised := .floor k :: m.initialised } := by
  have hbounds : 1 ≤ m.i + 1 ∧ m.i + 1 ≤ 10 := by
    obtain ⟨hlow, hhigh⟩ := h.filled
    simp only [Statement.filled] at hlow hhigh
    omega
  obtain ⟨k, hk⟩ := slot_eq_some hbounds
  refine ⟨k, ?_, ?_⟩
  · have hfloor := floorOf_of_slot hk
    simp only [floorOf] at hfloor
    omega
  · rw [Module.initFloor, hk]

/-- One more queue is there. -/
theorem Booting.floors_cons (h : Booting m .initFloor) {k : Fin 10} (hk : (k : Int) = m.i)
    (j : Fin 10) : .floor j ∈ ListHead.floor k :: m.initialised ↔ (j : Int) < m.i + 1 := by
  rw [List.mem_cons, h.floors j]
  simp only [ListHead.floor.injEq, Statement.filled, Fin.ext_iff]
  omega

/-- The queues after one more `INIT_LIST_HEAD`. -/
theorem Quiet.initFloor {s : State} {marks : List Mark} {initialised : List ListHead}
    (h : Quiet s marks initialised) (hthere : .onboard ∈ initialised) (k : Fin 10) :
    Quiet { s with floors := Function.update s.floors k [] } marks (.floor k :: initialised) := by
  obtain ⟨hpc, hmarks, hfloor, hstate, honboard, hfloors, -, hrest⟩ := h
  have hthere' := List.mem_cons_of_mem (ListHead.floor k) hthere
  refine ⟨?_, hmarks, hfloor, hstate, ?_, ?_, fun _ => hthere', hrest⟩
  · exact hpc.imp_right (Or.imp_left (And.imp_right (List.mem_cons_of_mem _)))
  · rw [if_pos hthere] at honboard
    rw [if_pos hthere']
    exact honboard
  · intro j
    by_cases hj : j = k
    · subst hj
      rw [if_pos List.mem_cons_self]
      exact Function.update_self ..
    · simpa [hj] using hfloors j

section Lists

variable {s : State} {marks : List Mark} {initialised : List ListHead}

theorem Quiet.offline_or_idle (h : Quiet s marks initialised) :
    s.state = .offline ∨ s.state = .idle := by
  rw [h.state]
  exact lastState_offline_or_idle h.noFloor

theorem Quiet.previousState (h : Quiet s marks initialised) : s.previousState = .offline :=
  congrArg State.previousState h.rest

/-- With all lists there, the memory is that of an elevator that has been initialised, but for what
steers it. -/
theorem Quiet.serves (h : Quiet s marks initialised) (hlists : ∀ head, head ∈ initialised) :
    Serves s := by
  have hon : s.onboard = [] := by rw [h.onboard, if_pos (hlists _)]
  have hfloors : s.floors = fun _ => [] := by
    funext k
    rw [h.floors k, if_pos (hlists _)]
  have heq : { elevatorInit with
      previousState := s.previousState, state := s.state, currentFloor := s.currentFloor,
      nextFloor := s.nextFloor, started := s.started, pc := s.pc, mutexLog := s.mutexLog } = s := by
    have hrest := congrArg (fun t : State => { t with
      state := s.state, currentFloor := s.currentFloor, nextFloor := s.nextFloor,
      onboard := s.onboard, started := s.started, floors := s.floors, pc := s.pc,
      mutexLog := s.mutexLog }) h.rest
    refine Eq.trans ?_ hrest.symm
    simp only [hon, hfloors, h.previousState]
    rfl
  exact heq ▸ serves_effect (.control elevatorInit ..) serves_init

theorem Quiet.unboarded (h : Quiet s marks initialised) (hlists : ∀ head, head ∈ initialised)
    (accepted : List (Option Passenger)) : Unboarded s accepted where
  onboard := by rw [h.onboard, if_pos (hlists _)]
  done := by
    have hlog : s.log = [] := congrArg State.log h.rest
    rw [State.done, hlog]
    rfl
  queued := by
    intro k p hp
    rw [h.floors k, if_pos (hlists _)] at hp
    cases hp

theorem Quiet.tracked (h : Quiet s marks initialised)
    (hsettled : s.currentFloor = 0 → s.state = .offline) : Tracked s marks where
  floors := by
    intro mark hmark floor hfloor
    rw [h.noFloor mark hmark] at hfloor
    cases hfloor
  currentFloor := h.currentFloor
  state := h.state
  settled := hsettled
  scheduler := by
    have hstate := h.offline_or_idle
    rcases h.scheduler with hpc | ⟨hpc, -⟩ | hpc
    · exact atWork_top hpc (hstate.imp_right .inl)
    · rw [AtWork, hpc]
      exact hstate
    · rw [AtWork, hpc]
      exact ⟨rfl, hstate⟩

end Lists

theorem Booting.initFloor (h : Booting m .initFloor) (hi : m.i < 9) :
    Booting (m.initFloor.goto .increment) .increment := by
  obtain ⟨k, hk, heq⟩ := h.initFloor_eq
  have hthere : .onboard ∈ m.initialised := h.onboard.2 rfl
  rw [heq]
  refine ⟨rfl, h.oops, h.quiet.initFloor hthere k, ?_, h.floors_cons hk, ?_, ?_, h.accepted,
    h.boarded, h.error⟩
  · exact iff_of_true (List.mem_cons_of_mem _ hthere) rfl
  · have hlow : 0 ≤ m.i := h.filled.1
    show 0 ≤ m.i + 1 ∧ m.i + 1 ≤ 9
    omega
  · intro hzero
    exact .inl ((h.settled hzero).resolve_right (by simp))

/-- The lists are all there and empty, and no request has found memory. -/
theorem Booting.late (h : Booting m .initFloor) (hi : m.i = 9) :
    Late (m.initFloor.goto .increment) := by
  obtain ⟨k, hk, heq⟩ := h.initFloor_eq
  have hthere : .onboard ∈ m.initialised := h.onboard.2 rfl
  have hquiet := h.quiet.initFloor hthere k
  have hlists : ∀ head, head ∈ ListHead.floor k :: m.initialised := by
    intro head
    cases head with
    | onboard => exact List.mem_cons_of_mem _ hthere
    | floor j =>
      rw [h.floors_cons hk j]
      omega
  have haccepted : ∀ p, some p ∉ m.accepted := by
    intro p hp
    cases h.accepted (some p) hp
  rw [heq]
  refine ⟨.inl ⟨rfl, hi.ge⟩, h.oops, hlists, hquiet.serves hlists, ?_, ?_, ?_⟩
  · intro p hp
    exact absurd hp (haccepted p)
  · intro _
    refine ⟨hquiet.unboarded hlists _, hquiet.tracked ?_⟩
    intro hzero
    exact (h.settled hzero).resolve_right (by simp)
  · intro hboarded
    exact absurd (hboarded.symm.trans h.boarded) (by decide)

/-- Before it returns, a statement leads to the next one, or beyond the last list. -/
theorem Booting.init (h : Booting m statement) (procCreate : Bool)
    (kthreadRun : Option (Fin 4095)) :
    ((¬ ∃ value, m.position = .at (.return value)) ∧
      ((∃ statement', Booting (m.init procCreate kthreadRun) statement') ∨
        Late (m.init procCreate kthreadRun))) ∨
    ∃ value, value ≠ 0 ∧ m.position = .at (.return value) ∧
      m.init procCreate kthreadRun = { m with position := .returned value } := by
  have hquiet := h.quiet
  obtain ⟨hpc, hmarks, hfloor, hstate, honboard, hfloors, haway, hrest⟩ := h.quiet
  by_cases hreturn : ∃ value, statement = .return value
  · obtain ⟨value, rfl⟩ := hreturn
    refine .inr ⟨value, h.error, h.position, ?_⟩
    simp only [Module.init, h.position]
  have hmore : ¬ ∃ value, m.position = .at (.return value) := by
    rintro ⟨value, hvalue⟩
    exact hreturn ⟨value, Position.at.inj (h.position.symm.trans hvalue)⟩
  refine .inl ⟨hmore, ?_⟩
  unfold Module.init
  rw [h.position]
  cases statement with
  | stubStartElevator | stubStopElevator | stubIssueRequest =>
    exact .inl ⟨_, h.keep rfl rfl (by decide) rfl rfl rfl rfl rfl hquiet rfl rfl (by decide)⟩
  | procCreate =>
    cases procCreate <;>
      exact .inl ⟨_, h.keep rfl rfl (by decide) rfl rfl rfl rfl rfl hquiet rfl rfl (by decide)⟩
  | kthreadRun =>
    cases kthreadRun with
    | none =>
      exact .inl ⟨_, h.keep rfl rfl (by decide) rfl rfl rfl rfl rfl hquiet rfl rfl (by decide)⟩
    | some e =>
      refine .inl ⟨_, h.keep rfl rfl (by decide) rfl rfl rfl rfl rfl hquiet rfl rfl ?_⟩
      show -((e : Int) + 1) ≠ 0
      omega
  | totalServed =>
    refine .inl ⟨_, h.keep rfl rfl (by decide) rfl rfl rfl rfl rfl ?_ rfl rfl (by decide)⟩
    refine ⟨hpc, hmarks, hfloor, hstate, honboard, hfloors, haway, ?_⟩
    exact congrArg (fun t : State => { t with totalServed := 0 }) hrest
  | currentWeight =>
    refine .inl ⟨_, h.keep rfl rfl (by decide) rfl rfl rfl rfl rfl ?_ rfl rfl (by decide)⟩
    refine ⟨hpc, hmarks, hfloor, hstate, honboard, hfloors, haway, ?_⟩
    exact congrArg (fun t : State => { t with currentWeight := 0 }) hrest
  | currentUnits =>
    refine .inl ⟨_, h.keep rfl rfl (by decide) rfl rfl rfl rfl rfl ?_ rfl rfl (by decide)⟩
    refine ⟨hpc, hmarks, hfloor, hstate, honboard, hfloors, haway, ?_⟩
    exact congrArg (fun t : State => { t with currentUnits := 0 }) hrest
  | currentFloor =>
    refine .inl ⟨_, h.next rfl rfl rfl rfl rfl rfl rfl ?_ (fun _ => .inr (.inl rfl)) (by decide)⟩
    refine ⟨hpc, List.forall_mem_cons.2 ⟨rfl, hmarks⟩, rfl, hstate, honboard, hfloors, ?_, hrest⟩
    intro haway
    cases haway
  | nextFloor =>
    refine .inl ⟨_, h.next rfl rfl rfl rfl rfl rfl rfl ?_ (fun _ => .inr (.inr rfl)) (by decide)⟩
    exact ⟨hpc, hmarks, hfloor, hstate, honboard, hfloors, haway, hrest⟩
  | state =>
    refine .inl ⟨_, h.next rfl rfl rfl rfl rfl rfl rfl ?_ (fun _ => .inl rfl) (by decide)⟩
    exact ⟨hpc, List.forall_mem_cons.2 ⟨rfl, hmarks⟩, hfloor, rfl, honboard, hfloors, haway, hrest⟩
  | initOnboard => exact .inl ⟨_, h.initOnboard⟩
  | loop => exact .inl ⟨_, h.count rfl rfl rfl (by decide) (by decide)⟩
  | test =>
    have hhigh : m.i ≤ 9 := h.filled.2
    rw [if_pos (show m.i < 10 by omega)]
    exact .inl ⟨_, h.count rfl rfl rfl (by decide) (by decide)⟩
  | initFloor =>
    have hhigh : m.i ≤ 9 := h.filled.2
    by_cases hnine : m.i = 9
    · exact .inr (h.late hnine)
    · exact .inl ⟨_, h.initFloor (by omega)⟩
  | increment => exact .inl ⟨_, h.count rfl rfl rfl (by decide) (by decide)⟩
  | removeProcEntry error =>
    exact .inl ⟨_, h.keep rfl rfl (by simp) rfl rfl rfl rfl rfl hquiet rfl rfl h.error⟩
  | «return» value => exact absurd ⟨value, rfl⟩ hreturn

/-! ### The scheduler -/

section Scheduler

variable {s : State} {marks : List Mark} {initialised : List ListHead}

theorem Quiet.onboard_eq_nil (h : Quiet s marks initialised) (hmem : .onboard ∈ initialised) :
    s.onboard = [] := by
  rw [h.onboard, if_pos hmem]

theorem Quiet.not_loads (h : Quiet s marks initialised) : ¬ Loads s := by
  rintro ⟨hpc, -⟩
  rcases h.scheduler with htop | ⟨hdrain, -⟩ | hmove <;> simp_all

/-- `OFFLINE`, with nobody on board or with `onboard` still zeroed: `min_onboard` returns -1, and
that is where the elevator goes. -/
theorem Quiet.drainPass_eq (h : Quiet s marks initialised) :
    drainPassUses s = [] ∧
      ((.onboard ∈ initialised ∧ drainPass s = (s.unlock .offline).goto .top) ∨
        drainPass s = State.goto (.drainMove (-1)) { s with nextFloor := -1 }) := by
  by_cases hmem : .onboard ∈ initialised
  · have hon := h.onboard_eq_nil hmem
    exact ⟨by simp [drainPassUses, hon], .inl ⟨hmem, drainPass_nobody hon⟩⟩
  · have hon := h.onboard
    rw [if_neg hmem] at hon
    have hmin : minOnboard s = -1 := by simp [minOnboard, h.previousState]
    have hmove : moveElevator (-1) s = some { s with nextFloor := -1 } := by
      rw [moveElevator, if_pos (Ne.symm (mt h.away hmem))]
    refine ⟨?_, .inr ?_⟩
    · simp [drainPassUses, hon, h.previousState, hmin, hmove]
    · simp [drainPass, hon, hmin, hmove]

/-- What a harmless step of the scheduler leaves. -/
structure Idles (s t : State) (marks : List Mark) (initialised : List ListHead) : Prop where
  quiet : Quiet t marks initialised
  state : t.state = s.state
  currentFloor : t.currentFloor = s.currentFloor ∨ t.currentFloor = -1

theorem Quiet.drainPass (h : Quiet s marks initialised) :
    Idles s (drainPass s) marks initialised := by
  rcases h.drainPass_eq.2 with ⟨-, heq⟩ | heq
  · rw [heq]
    exact ⟨⟨.inl rfl, h.noFloor, h.currentFloor, h.state, h.onboard, h.floors, h.away, h.rest⟩, rfl,
      .inl rfl⟩
  · rw [heq]
    exact ⟨⟨.inr (.inr rfl), h.noFloor, h.currentFloor, h.state, h.onboard, h.floors, h.away,
      h.rest⟩, rfl, .inl rfl⟩

theorem Quiet.lock (h : Quiet s marks initialised) (site : LockSite) (locks : Locks) :
    Quiet (s.lock site locks) marks initialised :=
  ⟨h.scheduler, h.noFloor, h.currentFloor, h.state, h.onboard, h.floors, h.away, h.rest⟩

/-- The scheduler finds the elevator `OFFLINE`. -/
theorem Quiet.offlineBranch (h : Quiet s marks initialised) (locks : Locks) :
    Idles s (offlineBranch locks s) marks initialised := by
  cases hlock : locks .offline with
  | true =>
    rw [KernelElevator.offlineBranch, if_pos hlock]
    have hpass := (h.lock .offline locks).drainPass
    exact ⟨hpass.quiet, hpass.state, hpass.currentFloor⟩
  | false =>
    rw [KernelElevator.offlineBranch, if_neg (by simp [hlock])]
    exact ⟨⟨.inl rfl, h.noFloor, h.currentFloor, h.state, h.onboard, h.floors, h.away, h.rest⟩, rfl,
      .inl rfl⟩

/-- The scheduler wakes on floor -1, with nobody on board. -/
theorem Quiet.drainArrive (h : Quiet s marks initialised) (hmem : .onboard ∈ initialised) :
    Idles s (drainArrive (-1) s) (.woke :: marks) initialised := by
  have hunload : KernelElevator.drainArrive (-1) s = (arrive (-1) s).goto .drain :=
    congrArg (State.goto .drain) (unload_nobody (s := arrive (-1) s) (h.onboard_eq_nil hmem))
  rw [hunload]
  exact ⟨⟨.inr (.inl ⟨rfl, hmem⟩), List.forall_mem_cons.2 ⟨rfl, h.noFloor⟩, rfl, h.state, h.onboard,
    h.floors, fun _ => hmem, h.rest⟩, rfl, .inr rfl⟩

theorem Quiet.schedule (h : Quiet s marks initialised) (locks : Locks)
    (htop : s.pc = .top → s.state ≠ .idle)
    (hwake : ∀ floor, s.pc = .drainMove floor → .onboard ∈ initialised) :
    (∀ head ∈ scheduleUses locks s, head ∈ initialised) ∧
      Idles s (schedule locks s) (schedMarks locks s ++ marks) initialised := by
  rcases h.scheduler with hpc | ⟨hpc, hmem⟩ | hpc
  · have hoff := h.offline_or_idle.resolve_right (htop hpc)
    rw [schedule_offline locks hpc hoff, scheduleUses, schedMarks, hpc]
    simp only [hoff, if_true, List.nil_append, h.drainPass_eq.1]
    exact ⟨by simp, h.offlineBranch locks⟩
  · rw [schedule_drain locks hpc, scheduleUses, schedMarks, hpc]
    simp only [List.nil_append, h.drainPass_eq.1]
    exact ⟨by simp, h.drainPass⟩
  · have hmem := hwake (-1) hpc
    rw [schedule_drainMove locks hpc, scheduleUses, schedMarks, hpc]
    exact ⟨by simpa using hmem, h.drainArrive hmem⟩

/-- The scan comes to the first queue that is not there. -/
theorem Quiet.idleScanUses (h : Quiet s marks initialised) {is : List (Fin 10)} {j : Fin 10}
    (hj : j ∈ is) (hout : .floor j ∉ initialised) :
    ¬ ∀ head ∈ idleScanUses is s, head ∈ initialised := by
  induction is with
  | nil => cases hj
  | cons i is ih =>
    have hfloor := h.floors i
    by_cases hi : .floor i ∈ initialised
    · have hji : j ≠ i := fun heq => hout (heq ▸ hi)
      rw [if_pos hi] at hfloor
      simpa [Startup.idleScanUses, hfloor] using ih ((List.mem_cons.1 hj).resolve_left hji)
    · rw [if_neg hi] at hfloor
      intro hall
      apply hi
      apply hall
      simp [Startup.idleScanUses, hfloor]

theorem Quiet.schedule_uses (h : Quiet s marks initialised) (locks : Locks)
    (hout : .floor (Fin.last 9) ∉ initialised)
    (huses : ∀ head ∈ scheduleUses locks s, head ∈ initialised) :
    (s.pc = .top → s.state ≠ .idle) ∧
      (∀ floor, s.pc = .drainMove floor → .onboard ∈ initialised) := by
  refine ⟨?_, ?_⟩
  · intro hpc hidle
    apply h.idleScanUses (List.mem_finRange (Fin.last 9)) hout
    simpa [scheduleUses, hpc, hidle] using huses
  · intro floor hpc
    apply huses
    simp [scheduleUses, hpc]

end Scheduler

/-- Somebody else's step sets up no list. -/
theorem Booting.between (h : Booting m statement) {m' : Module}
    (hposition : m'.position = m.position) (hoops : m'.oops = m.oops) (hi : m'.i = m.i)
    (hinitialised : m'.initialised = m.initialised) (hboarded : m'.boarded = m.boarded)
    (hquiet : Quiet m'.memory m'.marks m'.initialised)
    (hsettled : m'.memory.currentFloor = 0 →
      m'.memory.state = .offline ∨ statement = .nextFloor ∨ statement = .state)
    (haccepted : ∀ a ∈ m'.accepted, a = none) : Booting m' statement := by
  refine ⟨hposition.trans h.position, hoops.trans h.oops, hquiet, hinitialised ▸ h.onboard, ?_,
    hi ▸ h.filled, hsettled, haccepted, hboarded.trans h.boarded, h.error⟩
  rw [hinitialised, hi]
  exact h.floors

theorem Booting.sched (h : Booting m statement) (locks : Locks)
    (htop : m.memory.pc = .top → m.memory.state ≠ .idle)
    (hwake : ∀ floor, m.memory.pc = .drainMove floor → .onboard ∈ m.initialised) :
    Booting (m.sched locks) statement := by
  obtain ⟨hquiet, hstate, hfloor⟩ := (h.quiet.schedule locks htop hwake).2
  have hboarded : (m.sched locks).boarded = m.boarded := by
    simp [Module.sched, h.quiet.not_loads]
  refine h.between rfl rfl rfl rfl hboarded hquiet ?_ h.accepted
  intro hzero
  rcases hfloor with hfloor | hfloor
  · have hsettled := h.settled (hfloor ▸ hzero)
    rwa [← hstate] at hsettled
  · exact absurd (hfloor.symm.trans hzero) (by decide)

/-! ### Calls -/

theorem Booting.start (h : Booting m statement) : Booting (m.call .start) statement := by
  cases hstarted : m.memory.started with
  | true => rwa [call_start_on hstarted]
  | false =>
    have hquiet := h.quiet
    rw [call_start_off hstarted]
    refine h.between rfl rfl rfl rfl rfl ?_ ?_ h.accepted
    · refine ⟨hquiet.scheduler, List.forall_mem_cons.2 ⟨rfl, hquiet.noFloor⟩, rfl, rfl,
        hquiet.onboard, hquiet.floors, ?_, hquiet.rest⟩
      intro haway
      cases haway
    · intro hzero
      cases hzero

theorem Booting.stop (h : Booting m statement) : Booting (m.call .stop) statement := by
  cases hstarted : m.memory.started with
  | false => rwa [call_stop_off hstarted]
  | true =>
    -- The elevator has not been seen moving, so there is no direction to remember.
    have hmoving : ¬ (m.memory.state = .up ∨ m.memory.state = .down) := by
      rcases h.quiet.offline_or_idle with hstate | hstate <;> simp [hstate]
    have hquiet := h.quiet
    rw [call_stop_on hstarted]
    simp only [if_neg hmoving]
    exact h.between rfl rfl rfl rfl rfl ⟨hquiet.scheduler,
      List.forall_mem_cons.2 ⟨rfl, hquiet.noFloor⟩, hquiet.currentFloor, rfl, hquiet.onboard,
      hquiet.floors, hquiet.away, hquiet.rest⟩ (fun _ => .inl rfl) h.accepted

/-- A request that is refused or finds no memory touches nothing. -/
theorem Booting.request (h : Booting m statement) {t a b : Int} {kmalloc : Bool}
    (hharmless : ValidRequest t a b → kmalloc = false) :
    Booting (m.call (.request t a b kmalloc)) statement := by
  by_cases hvalid : ValidRequest t a b
  · obtain rfl := hharmless hvalid
    rw [call_request_no_memory hvalid]
    refine h.between rfl rfl rfl rfl rfl h.quiet h.settled ?_
    intro p hp
    rcases List.mem_append.1 hp with hp | hp
    · exact h.accepted p hp
    · exact List.mem_singleton.1 hp
  · rwa [call_request_invalid hvalid]

theorem Booting.request_iff (h : Booting m statement) (t a b : Int) (kmalloc : Bool) :
    (∀ head ∈ callUses (.request t a b kmalloc) m.memory, head ∈ m.initialised) ↔
      (ValidRequest t a b → kmalloc = false) := by
  by_cases hvalid : ValidRequest t a b
  · cases kmalloc with
    | false => simp [callUses]
    | true => simpa [callUses, issueRequest_valid m.memory hvalid, hvalid] using h.everyFloor
  · simp [callUses, issueRequest_invalid m.memory hvalid, hvalid]

theorem Booting.read_iff (h : Booting m statement) :
    (∀ head ∈ readUses m.file, head ∈ m.initialised) ↔
      (m.file.message ≠ none → m.file.readP = false) := by
  by_cases huses : m.file.readP = true ∧ m.file.message ≠ none
  · rw [readUses, if_pos huses]
    refine iff_of_false h.everyFloor ?_
    simp [huses]
  · rw [readUses, if_neg huses]
    refine iff_of_true (by simp) ?_
    intro hmessage
    simpa [hmessage] using huses

/-! ### One step -/

theorem exec_keeps {l : Label} (m : Module) (h : ∀ a b, l = .init a b → ¬ m.Starting) :
    (exec l m).position = m.position ∧ (exec l m).oops = m.oops ∧
      (exec l m).initialised = m.initialised := by
  cases l with
  | init a b =>
    have hstarting := h a b rfl
    have heq : m.init a b = m := by
      unfold Module.init
      cases hposition : m.position with
      | returned value => rfl
      | «at» statement => exact absurd ⟨statement, hposition⟩ hstarting
    rw [exec, heq]
    exact ⟨rfl, rfl, rfl⟩
  | sched locks => exact ⟨rfl, rfl, rfl⟩
  | «open» kmalloc => exact ⟨rfl, rfl, rfl⟩
  | read => exact ⟨rfl, rfl, rfl⟩
  | release => exact ⟨rfl, rfl, rfl⟩
  | call c =>
    cases c with
    | start => exact ⟨rfl, rfl, rfl⟩
    | stop => exact ⟨rfl, rfl, rfl⟩
    | request t a b kmalloc =>
      simp only [exec, Module.call]
      split_ifs <;> exact ⟨rfl, rfl, rfl⟩

/-- Once all lists are there, or the module is gone, there is nothing to do wrong. -/
theorem Booted.step {value : Int} (h : Booted m value) (l : Label) :
    Booted (step l m) value := by
  by_cases hvalue : value = 0
  · have hall : ∀ head ∈ uses l m, head ∈ m.initialised := fun head _ => h.lists hvalue head
    rw [Startup.step, if_pos hall]
    split_ifs
    · obtain ⟨hposition, hoops, hinitialised⟩ :=
        exec_keeps m (l := l) fun _ _ _ => not_starting h.position
      exact ⟨hposition.trans h.position, hoops.trans h.oops, hinitialised ▸ h.lists⟩
    · exact h
  · have hgone : m.kept = false := by simp [Module.kept, h.position, hvalue]
    rw [Startup.step, if_neg (by simp [hgone])]
    exact h

theorem Booted.sound {value : Int} (h : Booted m value) (l : Label) : Sound m l ∧ Harmless m l := by
  refine ⟨⟨(h.step l).oops, ?_⟩, ?_⟩
  · intro hstarting
    exact absurd hstarting (not_starting h.position)
  · intro hstarting
    exact absurd hstarting (not_starting h.position)

theorem Booting.starting (h : Booting m statement) : m.Starting := ⟨statement, h.position⟩

theorem Booting.step_eq (h : Booting m statement) (l : Label) : step l m =
    if published l m then
      if ∀ head ∈ uses l m, head ∈ m.initialised then exec l m else { m with oops := true }
    else m := by
  have hkept : m.kept = true := by simp [Module.kept, h.position]
  simp only [step, hkept, h.oops, Bool.not_false, Bool.true_and]

/-- Before the return, a step of somebody else is sound if it can be taken only without using a list
too early. -/
theorem Booting.sound_iff (h : Booting m statement) {l : Label} (hl : ∀ a b, l ≠ .init a b) :
    Sound m l ↔ (published l m = true → ∀ head ∈ uses l m, head ∈ m.initialised) := by
  have hkeeps := exec_keeps m (l := l) fun a b heq => absurd heq (hl a b)
  have hstarting : (step l m).Starting := by
    refine ⟨statement, ?_⟩
    rw [h.step_eq]
    split_ifs
    · exact hkeeps.1.trans h.position
    · exact h.position
    · exact h.position
  have hsound : Sound m l ↔ (step l m).oops = false :=
    ⟨And.left, fun hoops => ⟨hoops, fun _ hreturned => absurd hstarting hreturned⟩⟩
  rw [hsound, h.step_eq]
  split_ifs with hpublished huses
  · exact iff_of_true (hkeeps.2.1.trans h.oops) fun _ => huses
  · refine iff_of_false (by simp) ?_
    intro hall
    exact huses (hall hpublished)
  · exact iff_of_true h.oops fun hall => absurd hall hpublished

theorem Booting.uses_iff_harmless (h : Booting m statement) {l : Label}
    (hl : ∀ a b, l ≠ .init a b) :
    (published l m = true → ∀ head ∈ uses l m, head ∈ m.initialised) ↔ Harmless m l := by
  have hstarting := h.starting
  cases l with
  | init a b => exact absurd rfl (hl a b)
  | sched locks =>
    simp only [Harmless, hstarting, true_imp_iff, published, uses]
    constructor
    · intro huses hthread hmore
      exact h.quiet.schedule_uses locks hmore (huses hthread)
    · intro hharmless hthread
      obtain ⟨htop, hwake⟩ := hharmless hthread h.floor_nine
      exact (h.quiet.schedule locks htop hwake).1
  | «open» kmalloc => simp [Harmless, uses]
  | read =>
    simp only [Harmless, hstarting, h.floor_nine, not_false_eq_true, true_imp_iff, published, uses,
      h.read_iff]
  | release => simp [Harmless, uses]
  | call c =>
    cases c with
    | start => simp [Harmless, uses, callUses]
    | stop => simp [Harmless, uses, callUses]
    | request t a b kmalloc =>
      simp only [Harmless, hstarting, h.floor_nine, not_false_eq_true, true_imp_iff, published,
        Module.stub, uses, h.request_iff]

/-- A harmless step of somebody else leaves `elevator_init` where it is. -/
theorem Booting.step (h : Booting m statement) {l : Label} (hl : ∀ a b, l ≠ .init a b)
    (hharmless : Harmless m l) : Booting (step l m) statement := by
  have huses := (h.uses_iff_harmless hl).2 hharmless
  have hharmless := hharmless h.starting
  rw [h.step_eq]
  by_cases hpublished : published l m = true
  swap
  · rwa [if_neg hpublished]
  rw [if_pos hpublished, if_pos (huses hpublished)]
  cases l with
  | init a b => exact absurd rfl (hl a b)
  | sched locks =>
    obtain ⟨htop, hwake⟩ := hharmless hpublished h.floor_nine
    exact h.sched locks htop hwake
  | «open» kmalloc => exact h.between rfl rfl rfl rfl rfl h.quiet h.settled h.accepted
  | read => exact h.between rfl rfl rfl rfl rfl h.quiet h.settled h.accepted
  | release => exact h.between rfl rfl rfl rfl rfl h.quiet h.settled h.accepted
  | call c =>
    cases c with
    | start => exact h.start
    | stop => exact h.stop
    | request t a b kmalloc => exact h.request (hharmless hpublished h.floor_nine)

/-- What is asked of a return that fails, in terms of the history. -/
theorem Booting.return_iff (h : Booting m statement)
    (hbetween : statement ≠ .nextFloor ∧ statement ≠ .state) :
    AllQueued m ∧ (Fresh m ∨ Started m) ↔
      none ∉ m.accepted ∧ m.boarded = false ∧ Orderly m.marks := by
  -- No accepted request has queued anybody, so there must be none.
  have hqueued : AllQueued m ↔ none ∉ m.accepted := by
    constructor
    · intro hqueued hnone
      obtain ⟨p, hp, -⟩ := hqueued none hnone
      cases hp
    · intro hnone a ha
      exact absurd (h.accepted a ha ▸ ha) hnone
  have htracked := h.quiet.tracked fun hzero =>
    (h.settled hzero).resolve_right (by simp [hbetween])
  rw [hqueued, fresh_or_started_iff htracked.floors htracked.currentFloor htracked.state
    htracked.settled]
  simp only [h.boarded, true_and]

theorem Booting.sound_init_iff (h : Booting m statement) (procCreate : Bool)
    (kthreadRun : Option (Fin 4095)) :
    Sound m (.init procCreate kthreadRun) ↔ Harmless m (.init procCreate kthreadRun) := by
  have hstarting := h.starting
  simp only [Sound, Harmless, step_init h.position h.oops, hstarting, true_imp_iff]
  rcases h.init procCreate kthreadRun with ⟨hmore, hnext⟩ | ⟨value, hvalue, hposition, hinit⟩
  · have hnext : (m.init procCreate kthreadRun).Starting ∧
        (m.init procCreate kthreadRun).oops = false := by
      rcases hnext with ⟨statement', hnext⟩ | hlate
      · exact ⟨hnext.starting, hnext.oops⟩
      · exact ⟨hlate.starting, hlate.oops⟩
    refine iff_of_true ⟨hnext.2, fun hend => absurd hnext.1 hend⟩ ?_
    exact fun hend => absurd hend hmore
  · obtain rfl : statement = .return value := Position.at.inj (h.position.symm.trans hposition)
    rw [hinit]
    have hend : ¬ Module.Starting { m with position := .returned value } := not_starting rfl
    have hreturn := h.return_iff (by simp)
    constructor
    · intro hsound _
      exact hreturn.1 (hsound.2 hend)
    · intro hharmless
      exact ⟨h.oops, fun _ => hreturn.2 (hharmless ⟨value, hposition⟩)⟩

end Steps

/-! ## Whole runs -/

/-- `elevator_init` is under way and undisturbed, or it has returned. -/
def Undisturbed (m : Module) : Prop :=
  (∃ statement, Booting m statement) ∨ Late m ∨ ∃ value, Booted m value

theorem undisturbed_step (l : Label) (m : Module) (h : Undisturbed m) (hharmless : Harmless m l) :
    Undisturbed (step l m) := by
  rcases h with ⟨statement, h⟩ | h | ⟨value, h⟩
  · rcases l.init_or with ⟨procCreate, kthreadRun, rfl⟩ | hl
    · rw [step_init h.position h.oops]
      rcases h.init procCreate kthreadRun with ⟨-, hnext⟩ | ⟨value, hvalue, -, hinit⟩
      · exact hnext.imp_right .inl
      · rw [hinit]
        exact .inr (.inr ⟨value, rfl, h.oops, fun hzero => absurd hzero hvalue⟩)
    · exact .inl ⟨statement, h.step hl hharmless⟩
  · rcases l.init_or with ⟨procCreate, kthreadRun, rfl⟩ | hl
    · rw [h.step_init]
      rcases h.init procCreate kthreadRun with ⟨-, hnext⟩ | ⟨-, hinit⟩
      · exact .inr (.inl hnext)
      · rw [hinit]
        exact .inr (.inr ⟨0, rfl, h.oops, fun _ => h.lists⟩)
    · exact .inr (.inl (h.step hl))
  · exact .inr (.inr ⟨value, h.step l⟩)

theorem sound_step_iff (l : Label) (m : Module) (h : Undisturbed m) :
    Sound m l ↔ Harmless m l := by
  rcases h with ⟨statement, h⟩ | h | ⟨value, h⟩
  · rcases l.init_or with ⟨procCreate, kthreadRun, rfl⟩ | hl
    · exact h.sound_init_iff procCreate kthreadRun
    · rw [h.sound_iff hl, h.uses_iff_harmless hl]
  · exact h.sound_iff l
  · exact iff_of_true (h.sound l).1 (h.sound l).2

/-- **Nothing uses the elevator before it is initialised, and it comes out of that fresh or started,
if and only if every step before the return is harmless.** -/
theorem startup_sound_iff (ls : List Label) :
    Along step Sound ls loaded ↔ Along step Harmless ls loaded := by
  apply along_iff undisturbed_step sound_step_iff
  exact .inl ⟨_, booting_loaded⟩

/-- A request comes as soon as its `STUB` pointer is set. -/
theorem earlyRequest_unsound : ¬ Along step Sound
    [.init true none, .init true none, .init true none, .call (.request adult 1 2 true)]
    loaded := by
  intro h
  have hoops := h.2.2.2.1.1
  exact absurd hoops (by decide)

end KernelElevator.Startup
