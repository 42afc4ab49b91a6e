import KernelElevator.FloorStop
import KernelElevator.LoopHead
import KernelElevator.Service
import KernelElevator.Startup

/-!
# Once the last list is there

Between the last `INIT_LIST_HEAD` and the `return` of `elevator_init` all may come: the lists are
there, and what the module does is what it does later. Only the return asks for something. Whoever
has been accepted is queued until the scheduler loads where somebody waits. Then it takes the first
in line: nobody is on board yet, and anybody fits in an empty elevator.

* `Unboarded` — nobody has left a queue.
* `Tracked` — the marks tell where the elevator is, and in which state.
* `Late` — what holds until the return, with `Late.step` and `Late.sound_iff`.
-/

namespace KernelElevator.Startup

open Machine

/-! ## What the marks say -/

/-- Where a mark of the scheduler was left. -/
def Mark.floor : Mark → Option Int
  | .loading floor => some floor
  | .up floor => some floor
  | .ended floor => some floor
  | _ => none

/-- What was last written to `current_floor`. -/
def lastFloor : List Mark → Int
  | [] => 0
  | .currentFloorSet :: _ => 0
  | .started :: _ => 1
  | .woke :: _ => -1
  | .loading floor :: _ => floor
  | .up floor :: _ => floor
  | .ended floor :: _ => floor
  | _ :: marks => lastFloor marks

/-- What was last written to `state`, with nobody on board. -/
def lastState : List Mark → Status
  | [] => .offline
  | .stateSet :: _ => .offline
  | .started :: _ => .idle
  | .stopped :: _ => .offline
  | .loading _ :: _ => .loading
  | .up _ :: _ => .up
  | .ended _ :: _ => .idle
  | _ :: marks => lastState marks

theorem lastState_ne_down (marks : List Mark) : lastState marks ≠ .down := by
  induction marks with
  | nil => simp [lastState]
  | cons mark marks ih => cases mark <;> simp [lastState, ih]

theorem lastFloor_eq_zero_iff {marks : List Mark}
    (h : ∀ mark ∈ marks, ∀ floor, mark.floor = some floor → IsFloor floor) :
    lastFloor marks = 0 ↔
      ∀ mark ∈ marks.takeWhile (· ≠ .currentFloorSet), mark = .stateSet ∨ mark = .stopped := by
  induction marks with
  | nil => simp [lastFloor]
  | cons mark marks ih =>
    have ih := ih fun mark hmark => h mark (List.mem_cons_of_mem _ hmark)
    have hmark : ∀ floor, mark.floor = some floor → floor ≠ 0 := by
      rintro floor hfloor rfl
      have hin := h mark List.mem_cons_self 0 hfloor
      exact absurd hin (by decide)
    cases mark with
    | loading floor => simp [lastFloor, hmark floor rfl]
    | up floor => simp [lastFloor, hmark floor rfl]
    | ended floor => simp [lastFloor, hmark floor rfl]
    | _ => simp [lastFloor, ih]

theorem head_iff (marks : List Mark) :
    marks.head? = some .started ∨ marks.head? = some (.ended 1) ↔
      lastFloor marks = 1 ∧ lastState marks = .idle := by
  cases marks with
  | nil => simp [lastFloor]
  | cons mark marks => cases mark <;> simp [lastFloor, lastState]

/-- What an elevator at rest looks like, from its last marks. -/
theorem fresh_or_started_iff {m : Module}
    (hmarks : ∀ mark ∈ m.marks, ∀ floor, mark.floor = some floor → IsFloor floor)
    (hfloor : m.memory.currentFloor = lastFloor m.marks)
    (hstate : m.memory.state = lastState m.marks)
    (hsettled : m.memory.currentFloor = 0 → m.memory.state = .offline) :
    Fresh m ∨ Started m ↔ Orderly m.marks := by
  rw [Orderly, ← lastFloor_eq_zero_iff hmarks, head_iff, ← hfloor, ← hstate]
  constructor
  · intro hend
    exact hend.imp_left And.left
  · intro horderly
    exact horderly.imp_left fun hzero => ⟨hzero, hsettled hzero⟩

/-! ## Nobody has boarded -/

section Scheduler

variable {s t : State} {marks : List Mark} {accepted : List (Option Passenger)}

/-- Nobody has left a queue. -/
structure Unboarded (s : State) (accepted : List (Option Passenger)) : Prop where
  onboard : s.onboard = []
  done : s.done = []
  queued : ∀ k, ∀ p ∈ s.floors k, some p ∈ accepted

/-- `OFFLINE`, with nobody on board. -/
theorem drainPass_nobody (hon : s.onboard = []) :
    drainPass s = (s.unlock .offline).goto .top := by
  rw [drainPass, if_pos hon]

theorem unload_nobody (hon : s.onboard = []) : (unloadElevator s.currentFloor s).2 = s := by
  apply unloadElevator_of_none
  simp [hon]

/-- `load_elevator` looks into the queue. -/
def opened (s : State) : State := { s with log := s.log ++ [Event.opened s.currentFloor] }

/-- `load_elevator` at the elevator's floor. -/
theorem load_here (s : State) : loadElevator s.currentFloor s =
    if s.queue s.currentFloor = [] then (-1, opened s)
    else loadLoop s.currentFloor (s.queue s.currentFloor) (opened s) := by
  rw [loadElevator, if_neg (not_not.2 rfl)]
  rfl

theorem Unboarded.steers (h : Unboarded s accepted) (hsteers : Steers s t) :
    Unboarded t accepted := by
  cases hsteers with
  | mk => exact ⟨h.onboard, h.done, h.queued⟩

theorem Unboarded.arrive (h : Unboarded s accepted) (floor : Int) :
    Unboarded (arrive floor s) accepted :=
  ⟨h.onboard, h.done, h.queued⟩

/-- With nobody on board, nobody is let off. -/
theorem Unboarded.unload (h : Unboarded s accepted) :
    Unboarded (unloadElevator s.currentFloor s).2 accepted := by
  rwa [unload_nobody h.onboard]

theorem Unboarded.drainPass (h : Unboarded s accepted) : Unboarded (drainPass s) accepted := by
  rw [drainPass_nobody h.onboard]
  exact h.steers (((Steers.refl s).unlock _).goto _)

theorem Unboarded.look (h : Unboarded s accepted) : Unboarded (opened s) accepted := by
  refine ⟨h.onboard, ?_, h.queued⟩
  have hdone := h.done
  rw [State.done] at hdone ⊢
  simp [opened, hdone, actOf]

theorem Unboarded.schedule (h : Unboarded s accepted) (locks : Locks) (hloads : ¬ Loads s) :
    Unboarded (schedule locks s) accepted := by
  have hstep := scheduled locks s
  generalize KernelElevator.schedule locks s = t at hstep ⊢
  have hrefl := Steers.refl s
  cases hstep with
  | offline => exact (h.steers (hrefl.lock _ _)).drainPass
  | offlineRefused => exact h.steers (((hrefl.lock _ _).unlock _).goto _)
  | idle => exact h.steers (idleScan_steers _ s)
  | service =>
    have hlock := h.steers ((hrefl.lock .service locks).setState .loading)
    exact hlock.unload.steers ((Steers.refl _).goto _)
  | serviceRefused => exact h.steers (((hrefl.lock _ _).unlock _).trans (upPart_steers _ _))
  | drain => exact h.drainPass
  | drainMove floor => exact (h.arrive floor).unload.steers ((Steers.refl _).goto _)
  | idleMove is floor =>
    exact (h.arrive floor).steers (((Steers.refl _).setState .loading).trans (idleScan_steers is _))
  | loadSleep hpc =>
    have hqueue : s.queue s.currentFloor = [] := by
      by_contra hne
      exact hloads ⟨hpc, hne⟩
    rw [loadAndGo, load_here, if_pos hqueue]
    exact h.look.steers ((((Steers.refl _).setState .up).unlock .service).trans
      (upPart_steers _ _))
  | upMove floor =>
    exact (h.arrive floor).steers (((Steers.refl _).unlock .up).trans (downPart_steers locks _))
  | downMove floor =>
    exact (h.arrive floor).steers (((Steers.refl _).unlock .down).trans (endService_steers _))

/-! ## Where the elevator is -/

/-- What the scheduler can be about, with nobody on board. -/
def AtWork (s : State) : Prop :=
  match s.pc with
  | .top => s.state = .offline ∨ s.state = .idle ∨ (s.state = .loading ∧ IsFloor s.currentFloor)
  | .drain => s.state = .offline ∨ s.state = .idle
  | .drainMove floor => floor = -1 ∧ (s.state = .offline ∨ s.state = .idle)
  | .idleMove _ floor => IsFloor floor
  | .loadSleep => IsFloor s.currentFloor
  | .upMove floor => IsFloor floor
  | .downMove _ => False

/-- The marks tell where the elevator is, and in which state. -/
structure Tracked (s : State) (marks : List Mark) : Prop where
  floors : ∀ mark ∈ marks, ∀ floor, mark.floor = some floor → IsFloor floor
  currentFloor : s.currentFloor = lastFloor marks
  state : s.state = lastState marks
  /-- A floor that has been set to 0 and not been left goes with `OFFLINE`. -/
  settled : s.currentFloor = 0 → s.state = .offline
  scheduler : AtWork s

theorem atWork_top (hpc : s.pc = .top)
    (h : s.state = .offline ∨ s.state = .idle ∨ (s.state = .loading ∧ IsFloor s.currentFloor)) :
    AtWork s := by
  rw [AtWork, hpc]
  exact h

/-- Nothing is written. -/
theorem Tracked.same (h : Tracked s marks) (hfloor : t.currentFloor = s.currentFloor)
    (hstate : t.state = s.state) (hwork : AtWork t) : Tracked t marks where
  floors := h.floors
  currentFloor := hfloor.trans h.currentFloor
  state := hstate.trans h.state
  settled := by
    rw [hfloor, hstate]
    exact h.settled
  scheduler := hwork

/-- The scheduler leaves its mark at a floor. -/
theorem Tracked.mark (h : Tracked s marks) {mark : Mark} {floor : Int}
    (hmark : mark.floor = some floor) (hin : IsFloor floor) (hfloor : t.currentFloor = floor)
    (hstate : t.state = lastState [mark]) (hwork : AtWork t) : Tracked t (mark :: marks) where
  floors := by
    intro mark' hmem floor' hfloor'
    rcases List.mem_cons.1 hmem with rfl | hmem
    · obtain rfl : floor = floor' := Option.some.inj (hmark.symm.trans hfloor')
      exact hin
    · exact h.floors mark' hmem floor' hfloor'
  currentFloor := by
    cases mark <;> simp_all [Mark.floor, lastFloor]
  state := by
    cases mark <;> simp_all [Mark.floor, lastState]
  settled := by
    intro hzero
    rw [hfloor] at hzero
    rw [hzero] at hin
    exact absurd hin (by decide)
  scheduler := hwork

/-- A mark that names no floor. -/
theorem Tracked.plain (h : Tracked s marks) {mark : Mark} (hmark : mark.floor = none)
    (hfloor : t.currentFloor = lastFloor (mark :: marks))
    (hstate : t.state = lastState (mark :: marks))
    (hsettled : t.currentFloor = 0 → t.state = .offline) (hwork : AtWork t) :
    Tracked t (mark :: marks) where
  floors := by
    intro mark' hmem floor hfloor'
    rcases List.mem_cons.1 hmem with rfl | hmem
    · rw [hmark] at hfloor'
      cases hfloor'
    · exact h.floors mark' hmem floor hfloor'
  currentFloor := hfloor
  state := hstate
  settled := hsettled
  scheduler := hwork

/-- The rest of an iteration with nobody on board. -/
theorem downPart_nobody (locks : Locks) (hon : s.onboard = []) (hdown : s.state ≠ .down) :
    downPart locks s = (s.setState .idle).goto .top := by
  rw [downPart, if_neg hdown, endService, if_pos hon]

/-- An iteration ends. -/
theorem Tracked.ended (h : Tracked s marks) (locks : Locks) (hon : t.onboard = [])
    (hdown : t.state ≠ .down) (hin : IsFloor t.currentFloor) :
    Tracked (downPart locks t) (.ended t.currentFloor :: marks) := by
  rw [downPart_nobody locks hon hdown]
  exact h.mark rfl hin rfl rfl (atWork_top rfl (.inr (.inl rfl)))

/-- The scan writes `LOADING` or nothing before its first sleep. -/
theorem idleScan_marks (hacc : Accounting s) (is : List (Fin 10)) :
    ((scanMarks is s = [] ∧ (idleScan is s).state = s.state) ∨
      (scanMarks is s = [.loading s.currentFloor] ∧ (idleScan is s).state = .loading ∧
        IsFloor s.currentFloor)) ∧
    ((idleScan is s).pc = .top ∨
      ∃ rest floor, (idleScan is s).pc = .idleMove rest floor ∧ IsFloor floor) := by
  induction is generalizing s with
  | nil => exact ⟨.inl ⟨rfl, rfl⟩, .inl rfl⟩
  | cons i is ih =>
    cases hq : s.floors i with
    | nil => simpa only [scanMarks, idleScan, hq] using ih hacc
    | cons p ps =>
      have hin : IsFloor p.startFloor := (hacc.queued i p (hq ▸ List.mem_cons_self)).1.start
      by_cases hhere : p.startFloor = s.currentFloor
      · have hstay : moveElevator p.startFloor s = none := by
          rw [moveElevator, if_neg (not_not.2 hhere)]
        have hmarks : scanMarks (i :: is) s = [.loading s.currentFloor] := by
          simp only [scanMarks, hq, if_pos hhere]
        have hscan : idleScan (i :: is) s = idleScan is (s.setState .loading) := by
          simp only [idleScan, hq, hstay]
        have hnext := ih (s := s.setState .loading) { hacc with }
        rw [hmarks, hscan]
        refine ⟨.inr ⟨rfl, ?_, hhere ▸ hin⟩, hnext.2⟩
        rcases hnext.1 with ⟨-, hstate⟩ | ⟨-, hstate, -⟩
        · exact hstate
        · exact hstate
      · have hmove : moveElevator p.startFloor s = some { s with nextFloor := p.startFloor } := by
          rw [moveElevator, if_pos hhere]
        have hmarks : scanMarks (i :: is) s = [] := by
          simp only [scanMarks, hq, if_neg hhere]
        have hscan : idleScan (i :: is) s =
            State.goto (.idleMove is p.startFloor) { s with nextFloor := p.startFloor } := by
          simp only [idleScan, hq, hmove]
        rw [hmarks, hscan]
        exact ⟨.inl ⟨rfl, rfl⟩, .inr ⟨is, _, rfl, hin⟩⟩

/-- The scan leads to the loop head, or to a floor where somebody waits. -/
theorem atWork_scan (hacc : Accounting s) (is : List (Fin 10))
    (h : s.state = .idle ∨ (s.state = .loading ∧ IsFloor s.currentFloor)) :
    AtWork (idleScan is s) := by
  have hfloor := (idleScan_steers is s).currentFloor
  obtain ⟨hwrites, hends⟩ := idleScan_marks hacc is
  rcases hends with hpc | ⟨rest, floor, hpc, hin⟩
  · apply atWork_top hpc
    rw [hfloor]
    rcases hwrites with ⟨-, hstate⟩ | ⟨-, hstate, hin⟩
    · rw [hstate]
      exact .inr h
    · exact .inr (.inr ⟨hstate, hin⟩)
  · rw [AtWork, hpc]
    exact hin

theorem Tracked.schedule (h : Tracked s marks) (hacc : Accounting s) (hon : s.onboard = [])
    (locks : Locks) (hloads : ¬ Loads s) :
    Tracked (schedule locks s) (schedMarks locks s ++ marks) := by
  have hdown : s.state ≠ .down := h.state ▸ lastState_ne_down marks
  have hwork := h.scheduler
  have hstep := scheduled locks s
  generalize KernelElevator.schedule locks s = t at hstep ⊢
  cases hstep with
  | offline hpc hoff hlock =>
    have hpass : drainPass (s.lock .offline locks) =
        ((s.lock .offline locks).unlock .offline).goto .top := drainPass_nobody hon
    rw [hpass, schedMarks, hpc]
    simp only [if_pos hoff]
    exact h.same rfl rfl (atWork_top rfl (.inl hoff))
  | offlineRefused hpc hoff hlock =>
    rw [schedMarks, hpc]
    simp only [if_pos hoff]
    exact h.same rfl rfl (atWork_top rfl (.inl hoff))
  | idle hpc hidle =>
    have hfloor := (idleScan_steers (List.finRange 10) s).currentFloor
    have hscan := atWork_scan hacc (List.finRange 10) (.inl hidle)
    simp only [schedMarks, hpc, hidle, reduceCtorEq, if_false, if_true]
    rcases (idleScan_marks hacc (List.finRange 10)).1 with ⟨hmarks, hstate⟩ | ⟨hmarks, hstate, hin⟩
    · rw [hmarks]
      exact h.same hfloor hstate hscan
    · rw [hmarks]
      exact h.mark rfl hin hfloor hstate hscan
  | service hpc hoff hidle hlock =>
    rw [AtWork, hpc] at hwork
    obtain ⟨-, hin⟩ := (hwork.resolve_left hoff).resolve_left hidle
    have hunload : (unloadElevator s.currentFloor ((s.lock .service locks).setState .loading)).2 =
        (s.lock .service locks).setState .loading :=
      unload_nobody (s := (s.lock .service locks).setState .loading) hon
    rw [hunload]
    simp only [schedMarks, hpc, hoff, hidle, hlock, if_false, if_true]
    exact h.mark rfl hin rfl rfl hin
  | serviceRefused hpc hoff hidle hlock =>
    rw [AtWork, hpc] at hwork
    obtain ⟨hloading, hin⟩ := (hwork.resolve_left hoff).resolve_left hidle
    have hup : ¬ ((s.lock .service locks).unlock .service).state = .up := by
      show ¬ s.state = .up
      simp [hloading]
    rw [upPart, if_neg hup]
    simp only [schedMarks, hpc, hloading, hlock, reduceCtorEq, false_and, if_false,
      Bool.false_eq_true]
    exact h.ended (t := (s.lock .service locks).unlock .service) locks hon hdown hin
  | drain hpc =>
    rw [AtWork, hpc] at hwork
    rw [drainPass_nobody hon, schedMarks, hpc]
    exact h.same rfl rfl (atWork_top rfl (hwork.imp_right .inl))
  | drainMove floor hpc =>
    rw [AtWork, hpc] at hwork
    obtain ⟨rfl, hrest⟩ := hwork
    have hunload : drainArrive (-1) s = (arrive (-1) s).goto .drain :=
      congrArg (State.goto .drain) (unload_nobody (s := arrive (-1) s) hon)
    rw [hunload, schedMarks, hpc]
    refine h.plain rfl rfl h.state ?_ hrest
    intro hzero
    cases hzero
  | idleMove is floor hpc =>
    rw [AtWork, hpc] at hwork
    rw [schedMarks, hpc, idleArrive]
    have hacc' : Accounting ((arrive floor s).setState .loading) := { hacc with }
    have hfloor := (idleScan_steers is ((arrive floor s).setState .loading)).currentFloor
    have hscan := atWork_scan hacc' is (.inr ⟨rfl, hwork⟩)
    refine h.mark rfl hwork hfloor ?_ hscan
    rcases (idleScan_marks hacc' is).1 with ⟨-, hstate⟩ | ⟨-, hstate, -⟩
    · exact hstate
    · exact hstate
  | loadSleep hpc =>
    rw [AtWork, hpc] at hwork
    have hqueue : s.queue s.currentFloor = [] := by
      by_contra hne
      exact hloads ⟨hpc, hne⟩
    rw [loadAndGo, load_here, if_pos hqueue]
    set t := ((opened s).setState .up).unlock .service
    have hup : t.state = .up := rfl
    rw [upPart, if_pos hup]
    simp only [schedMarks, hpc]
    cases hlock : locks .up with
    | true =>
      have hmove := moveElevator_nextUp (t.lock .up locks)
      simp only [if_true, hmove]
      exact h.mark rfl hwork rfl rfl (isFloor_nextUp hwork)
    | false =>
      simp only [Bool.false_eq_true, if_false]
      refine h.ended (t := (t.lock .up locks).unlock .up) locks hon ?_ hwork
      show Status.up ≠ .down
      decide
  | upMove floor hpc =>
    rw [AtWork, hpc] at hwork
    rw [schedMarks, hpc]
    exact h.ended (t := (arrive floor s).unlock .up) locks hon hdown hwork
  | downMove floor hpc =>
    rw [AtWork, hpc] at hwork
    exact hwork.elim

/-! ## Somebody has boarded -/

/-- The passenger has left its queue for good. -/
def Gone (p : Passenger) (s : State) : Prop := p ∈ s.onboard ∨ p ∈ s.done

variable {p : Passenger}

theorem gone_effect (heff : Effect s t) (h : Gone p s) : Gone p t := by
  rcases h with hon | hdone
  · cases heff with
    | boarded q => exact .inl (List.mem_append_left _ hon)
    | letOff q hq =>
      by_cases hpq : p = q
      · subst hpq
        exact .inr (by simp [State.done, State.letOff, actOf, Delivery.serviceOf])
      · exact .inl ((List.mem_erase_of_ne hpq).2 hon)
    | _ => exact .inl hon
  · exact .inr ((((log_grows_effect heff).filterMap _).filterMap _).subset hdone)

/-- Once gone, nobody comes back. -/
theorem Gone.effects (h : Gone p s) (heff : Effects s t) : Gone p t :=
  of_effects (fun _ _ => gone_effect) heff h

/-- The first load takes the first in line. -/
theorem Unboarded.load (h : Unboarded s accepted) (hacc : Accounting s) (locks : Locks)
    (hloads : Loads s) : ∃ p, some p ∈ accepted ∧ Gone p (KernelElevator.schedule locks s) := by
  obtain ⟨hpc, hne⟩ := hloads
  obtain ⟨p, rest, hq⟩ := List.exists_cons_of_ne_nil hne
  have hp : p ∈ s.queue s.currentFloor := hq ▸ List.mem_cons_self
  obtain ⟨k, -, hk⟩ := mem_getQueue hp
  refine ⟨p, h.queued k p hk, ?_⟩
  have hq' : (opened s).queue s.currentFloor = p :: rest := hq
  have hrest : Effects (loadElevator s.currentFloor s).2 (KernelElevator.schedule locks s) := by
    rw [schedule_loadSleep locks hpc]
    exact ((((Steers.refl _).setState .up).unlock .service).trans (upPart_steers _ _)).effects
  refine Gone.effects ?_ hrest
  rw [load_here, if_neg hne, hq, loadLoop]
  by_cases hequal : p.state = .equal
  · rw [if_pos hequal]
    have hgone : Gone p ((opened s).serveHere s.currentFloor p) :=
      .inr (by simp [State.done, State.serveHere, actOf, Delivery.serviceOf])
    exact hgone.effects (loadLoop_effects rest rfl (queue_serveHere hq'))
  · have hwf := (hacc.of_queue hp).1
    have hfits : Fits (opened s) p := Accounting.fits_of_empty { hacc with } h.onboard hwf
    rw [if_neg hequal, if_pos hfits]
    have hgone : Gone p ((opened s).board s.currentFloor p) := .inl (by simp [State.board])
    exact hgone.effects (loadLoop_effects rest rfl (queue_board hq'))

end Scheduler

/-! ## Until the return -/

/-- All lists are there, and `elevator_init` has yet to count, to test and to return. -/
structure Late (m : Module) : Prop where
  position : (m.position = .at .increment ∧ 9 ≤ m.i) ∨ (m.position = .at .test ∧ 10 ≤ m.i) ∨
    m.position = .at (.return 0)
  oops : m.oops = false
  lists : ∀ h, h ∈ m.initialised
  serves : Serves m.memory
  accepted : ∀ p, some p ∈ m.accepted → p ∈ m.memory.accepted
  waiting : m.boarded = false → Unboarded m.memory m.accepted ∧ Tracked m.memory m.marks
  boarded : m.boarded = true → ∃ p, some p ∈ m.accepted ∧ Gone p m.memory

section Late

variable {m : Module}

theorem accepted_effects {s t : State} (heff : Effects s t) {p : Passenger} (h : p ∈ s.accepted) :
    p ∈ t.accepted := by
  have hgrows : s.log <+: t.log :=
    of_effects (I := fun u => s.log <+: u.log)
      (fun _ _ heff h => h.trans (log_grows_effect heff)) heff List.prefix_rfl
  exact ((hgrows.filterMap _).filterMap _).subset h

/-- A step that takes nobody from a queue. -/
theorem Late.effects (h : Late m) {m' : Module} (hposition : m'.position = m.position)
    (hi : m'.i = m.i) (hoops : m'.oops = m.oops) (hlists : m'.initialised = m.initialised)
    (heff : Effects m.memory m'.memory)
    (haccepted : ∀ p, some p ∈ m'.accepted ↔ some p ∈ m.accepted)
    (hboarded : m'.boarded = m.boarded)
    (hwaiting : m.boarded = false → Unboarded m'.memory m'.accepted ∧ Tracked m'.memory m'.marks) :
    Late m' := by
  refine ⟨?_, hoops.trans h.oops, hlists ▸ h.lists, ?_, ?_, hboarded ▸ hwaiting, ?_⟩
  · rw [hposition, hi]
    exact h.position
  · exact of_effects (fun _ _ => serves_effect) heff h.serves
  · intro p hp
    exact accepted_effects heff (h.accepted p ((haccepted p).1 hp))
  · intro hloaded
    obtain ⟨p, hp, hgone⟩ := h.boarded (hboarded ▸ hloaded)
    exact ⟨p, (haccepted p).2 hp, hgone.effects heff⟩

theorem Late.sched (h : Late m) (locks : Locks) : Late (m.sched locks) := by
  have heff := schedule_effects locks m.memory
  refine ⟨h.position, h.oops, h.lists, ?_, ?_, ?_, ?_⟩
  · exact of_effects (fun _ _ => serves_effect) heff h.serves
  · intro p hp
    exact accepted_effects heff (h.accepted p hp)
  · intro hnobody
    obtain ⟨hboarded, hloads⟩ := Bool.or_eq_false_iff.1 hnobody
    obtain ⟨hunboarded, htracked⟩ := h.waiting hboarded
    have hloads := of_decide_eq_false hloads
    exact ⟨hunboarded.schedule locks hloads,
      htracked.schedule h.serves.accounting hunboarded.onboard locks hloads⟩
  · intro hsomebody
    cases hboarded : m.boarded with
    | true =>
      obtain ⟨p, hp, hgone⟩ := h.boarded hboarded
      exact ⟨p, hp, hgone.effects heff⟩
    | false =>
      -- This load is the first.
      have hloads : Loads m.memory := by
        have hsomebody : (m.boarded || decide (Loads m.memory)) = true := hsomebody
        rw [hboarded, Bool.false_or] at hsomebody
        exact of_decide_eq_true hsomebody
      exact (h.waiting hboarded).1.load h.serves.accounting locks hloads

/-! ### Calls -/

theorem startElevator_off {s : State} (h : s.started = false) :
    startElevator s = (0, { s with state := .idle, currentFloor := 1, started := true }) := by
  simp [startElevator, h]

theorem startElevator_on {s : State} (h : s.started = true) : startElevator s = (1, s) := by
  simp [startElevator, h]

theorem call_start_off (h : m.memory.started = false) : m.call .start = { m with
    memory := { m.memory with state := .idle, currentFloor := 1, started := true }
    marks := .started :: m.marks } := by
  simp [Module.call, Call.exec, startElevator_off h, Module.callMarks]

theorem call_start_on (h : m.memory.started = true) : m.call .start = m := by
  simp [Module.call, Call.exec, startElevator_on h, Module.callMarks]

theorem call_stop_off (h : m.memory.started = false) : m.call .stop = m := by
  simp [Module.call, Call.exec, stopElevator, h, Module.callMarks]

theorem call_stop_on (h : m.memory.started = true) : m.call .stop = { m with
    memory := { m.memory with
      previousState :=
        if m.memory.state = .up ∨ m.memory.state = .down then m.memory.state
        else m.memory.previousState
      state := .offline
      started := false }
    marks := .stopped :: m.marks } := by
  by_cases hmoving : m.memory.state = .up ∨ m.memory.state = .down
  · simp [Module.call, Call.exec, stopElevator, h, hmoving, Module.callMarks]
  · simp [Module.call, Call.exec, stopElevator, h, hmoving, Module.callMarks]

theorem call_request_invalid {t a b : Int} (h : ¬ ValidRequest t a b) (kmalloc : Bool) :
    m.call (.request t a b kmalloc) = m := by
  simp [Module.call, Call.exec, issueRequest_invalid m.memory h, Module.callMarks]

theorem call_request_no_memory {t a b : Int} (h : ValidRequest t a b) :
    m.call (.request t a b false) = { m with accepted := m.accepted ++ [none] } := by
  simp [Module.call, Call.exec, issueRequest_no_memory m.memory h, Module.callMarks]

/-- A request that finds memory. -/
theorem call_request {t a b : Int} (h : ValidRequest t a b) :
    ∃ p : Passenger, p.id = m.memory.records ∧ p.WellFormed ∧
      m.call (.request t a b true) = { m with
        memory := m.memory.allocate.link p
        i := 10
        accepted := m.accepted ++ [some p] } := by
  obtain ⟨⟨weight, space⟩, hunits⟩ := exists_unitsOf h.type
  refine ⟨⟨m.memory.records, weight, space, a, b, t, directionOf a b⟩, rfl,
    ⟨hunits, h.start, h.dest, rfl⟩, ?_⟩
  set p : Passenger := ⟨m.memory.records, weight, space, a, b, t, directionOf a b⟩
  have hissue : issueRequest t a b true m.memory = (0, m.memory.allocate.link p) := by
    rw [issueRequest_valid m.memory h]
    simp only [addPassenger, hunits, if_true]
    rfl
  have hqueue : (m.memory.allocate.link p).queue a = m.memory.queue a ++ [p] := by
    have hput := getQueue_putQueue m.memory.floors h.start (m.memory.queue a ++ [p])
    exact (congrFun hput a).trans (Function.update_self ..)
  simp [Module.call, Call.exec, hissue, Module.callMarks, hqueue]

theorem AtWork.start {s : State} (h : AtWork s) :
    AtWork { s with state := .idle, currentFloor := 1, started := true } := by
  cases hpc : s.pc <;> simp_all [AtWork, isFloor_one]

theorem AtWork.stop {s : State} (h : AtWork s) (previousState : Status) :
    AtWork { s with previousState := previousState, state := .offline, started := false } := by
  cases hpc : s.pc <;> simp_all [AtWork]

theorem Late.start (h : Late m) : Late (m.call .start) := by
  cases hstarted : m.memory.started with
  | true => rwa [call_start_on hstarted]
  | false =>
    rw [call_start_off hstarted]
    refine h.effects rfl rfl rfl rfl (.single (.control m.memory ..)) (fun _ => Iff.rfl) rfl ?_
    intro hboarded
    obtain ⟨hunboarded, htracked⟩ := h.waiting hboarded
    refine ⟨⟨hunboarded.onboard, hunboarded.done, hunboarded.queued⟩, ?_⟩
    refine htracked.plain rfl rfl rfl ?_ htracked.scheduler.start
    intro hzero
    cases hzero

theorem Late.stop (h : Late m) : Late (m.call .stop) := by
  cases hstarted : m.memory.started with
  | false => rwa [call_stop_off hstarted]
  | true =>
    rw [call_stop_on hstarted]
    refine h.effects rfl rfl rfl rfl (.single (.control m.memory ..)) (fun _ => Iff.rfl) rfl ?_
    intro hboarded
    obtain ⟨hunboarded, htracked⟩ := h.waiting hboarded
    refine ⟨⟨hunboarded.onboard, hunboarded.done, hunboarded.queued⟩, ?_⟩
    exact htracked.plain rfl htracked.currentFloor rfl (fun _ => rfl) (htracked.scheduler.stop _)

theorem Late.request (h : Late m) (t a b : Int) (kmalloc : Bool) :
    Late (m.call (.request t a b kmalloc)) := by
  by_cases hvalid : ValidRequest t a b
  swap
  · rwa [call_request_invalid hvalid]
  cases kmalloc with
  | false =>
    rw [call_request_no_memory hvalid]
    refine h.effects rfl rfl rfl rfl .refl (by simp) rfl ?_
    intro hboarded
    obtain ⟨hunboarded, htracked⟩ := h.waiting hboarded
    refine ⟨⟨hunboarded.onboard, hunboarded.done, ?_⟩, htracked⟩
    intro k p hp
    exact List.mem_append_left _ (hunboarded.queued k p hp)
  | true =>
    obtain ⟨p, hid, hp, heq⟩ := call_request (m := m) hvalid
    have heff : Effects m.memory (m.memory.allocate.link p) := .single (.admitted _ p hid hp)
    have hnew : p ∈ (m.memory.allocate.link p).accepted := by
      simp [State.accepted, State.link, actOf, Delivery.arrivalOf]
    rw [heq]
    refine ⟨?_, h.oops, h.lists, of_effects (fun _ _ => serves_effect) heff h.serves, ?_, ?_, ?_⟩
    · -- The counting of `print_passengers` leaves `i` where the loop ends.
      rcases h.position with ⟨hposition, -⟩ | ⟨hposition, -⟩ | hposition
      · exact .inl ⟨hposition, show (9 : Int) ≤ 10 by decide⟩
      · exact .inr (.inl ⟨hposition, le_rfl⟩)
      · exact .inr (.inr hposition)
    · intro q hq
      rcases List.mem_append.1 hq with hq | hq
      · exact accepted_effects heff (h.accepted q hq)
      · obtain rfl : q = p := Option.some.inj (List.mem_singleton.1 hq)
        exact hnew
    · intro hboarded
      obtain ⟨hunboarded, htracked⟩ := h.waiting hboarded
      refine ⟨⟨hunboarded.onboard, ?_, ?_⟩, htracked.same rfl rfl htracked.scheduler⟩
      · have hdone := hunboarded.done
        rw [State.done] at hdone ⊢
        simp [State.link, State.allocate, hdone, actOf, Delivery.serviceOf]
      · intro k q hq
        rcases mem_putQueue hq with ⟨-, hq⟩ | hq
        · rcases List.mem_append.1 hq with hq | hq
          · obtain ⟨j, -, hj⟩ := mem_getQueue hq
            exact List.mem_append_left _ (hunboarded.queued j q hj)
          · rw [List.mem_singleton.1 hq]
            exact List.mem_append_right _ List.mem_cons_self
        · exact List.mem_append_left _ (hunboarded.queued k q hq)
    · intro hboarded
      obtain ⟨q, hq, hgone⟩ := h.boarded hboarded
      exact ⟨q, List.mem_append_left _ hq, hgone.effects heff⟩

/-! ### One step -/

theorem not_starting {value : Int} (h : m.position = .returned value) : ¬ m.Starting := by
  rintro ⟨statement, hstatement⟩
  rw [h] at hstatement
  cases hstatement

theorem Late.starting (h : Late m) : m.Starting := by
  rcases h.position with ⟨hposition, -⟩ | ⟨hposition, -⟩ | hposition <;> exact ⟨_, hposition⟩

theorem Late.step_eq (h : Late m) (l : Label) :
    step l m = if published l m then exec l m else m := by
  have hkept : m.kept = true := by
    obtain ⟨statement, hposition⟩ := h.starting
    simp [Module.kept, hposition]
  have huses : ∀ head ∈ uses l m, head ∈ m.initialised := fun head _ => h.lists head
  simp only [step, hkept, h.oops, Bool.not_false, Bool.true_and, if_pos huses]

theorem Late.step_init (h : Late m) (procCreate : Bool) (kthreadRun : Option (Fin 4095)) :
    Startup.step (.init procCreate kthreadRun) m = m.init procCreate kthreadRun := by
  obtain ⟨statement, hposition⟩ := h.starting
  exact Startup.step_init hposition h.oops procCreate kthreadRun

/-- A step is one of `elevator_init`, or comes in between. -/
theorem Label.init_or (l : Label) : (∃ a b, l = .init a b) ∨ ∀ a b, l ≠ .init a b := by
  by_cases h : ∃ a b, l = .init a b
  · exact .inl h
  · simp only [not_exists] at h
    exact .inr h

/-- What comes in between leaves `elevator_init` where it is. -/
theorem Late.step (h : Late m) {l : Label} (hl : ∀ a b, l ≠ .init a b) : Late (step l m) := by
  rw [h.step_eq]
  split_ifs
  swap
  · exact h
  cases l with
  | init a b => exact absurd rfl (hl a b)
  | sched locks => exact h.sched locks
  | «open» kmalloc =>
    exact ⟨h.position, h.oops, h.lists, h.serves, h.accepted, h.waiting, h.boarded⟩
  | read => exact ⟨h.position, h.oops, h.lists, h.serves, h.accepted, h.waiting, h.boarded⟩
  | release => exact ⟨h.position, h.oops, h.lists, h.serves, h.accepted, h.waiting, h.boarded⟩
  | call c =>
    cases c with
    | start => exact h.start
    | stop => exact h.stop
    | request t a b kmalloc => exact h.request t a b kmalloc

/-- The loop counts once more, tests and returns. -/
theorem Late.init (h : Late m) (procCreate : Bool) (kthreadRun : Option (Fin 4095)) :
    ((¬ ∃ value, m.position = .at (.return value)) ∧ Late (m.init procCreate kthreadRun)) ∨
    (m.position = .at (.return 0) ∧
      m.init procCreate kthreadRun = { m with position := .returned 0 }) := by
  rcases h.position with ⟨hposition, hi⟩ | ⟨hposition, hi⟩ | hposition
  · refine .inl ⟨by simp [hposition], ?_⟩
    simp only [Module.init, hposition]
    refine ⟨.inr (.inl ⟨rfl, ?_⟩), h.oops, h.lists, h.serves, h.accepted, h.waiting, h.boarded⟩
    show 10 ≤ m.i + 1
    omega
  · refine .inl ⟨by simp [hposition], ?_⟩
    simp only [Module.init, hposition, if_neg (show ¬ m.i < 10 by omega)]
    exact ⟨.inr (.inr rfl), h.oops, h.lists, h.serves, h.accepted, h.waiting, h.boarded⟩
  · exact .inr ⟨hposition, by simp only [Module.init, hposition]⟩

/-- Whoever has boarded is not queued; if nobody has, everybody is. -/
theorem Late.allQueued_iff (h : Late m) :
    AllQueued m ↔ none ∉ m.accepted ∧ m.boarded = false := by
  constructor
  · intro hqueued
    refine ⟨?_, ?_⟩
    · intro hnone
      obtain ⟨p, hp, -⟩ := hqueued none hnone
      cases hp
    · by_contra hboarded
      obtain ⟨p, hp, hgone⟩ := h.boarded (by simpa using hboarded)
      obtain ⟨q, hq, hmem⟩ := hqueued (some p) hp
      obtain rfl := Option.some.inj hq
      obtain ⟨k, -, hk⟩ := mem_getQueue hmem
      rcases hgone with hon | hdone
      · exact h.serves.not_queued_of_onboard hon k hk
      · exact h.serves.not_queued_of_done hdone k hk
  · intro hnobody
    obtain ⟨hnone, hboarded⟩ := hnobody
    have hunboarded := (h.waiting hboarded).1
    intro a ha
    cases a with
    | none => exact absurd ha hnone
    | some p =>
      refine ⟨p, rfl, ?_⟩
      have hone := h.serves.count_eq_one (h.accepted p ha)
      rw [hunboarded.onboard, hunboarded.done] at hone
      simp only [List.count_nil, add_zero] at hone
      apply List.count_pos_iff.1
      omega

/-- What is asked of the return, in terms of the history. -/
theorem Late.return_iff (h : Late m) : AllQueued m ∧ (Fresh m ∨ Started m) ↔
    none ∉ m.accepted ∧ m.boarded = false ∧ Orderly m.marks := by
  rw [h.allQueued_iff, and_assoc]
  refine and_congr_right fun _ => and_congr_right fun hboarded => ?_
  obtain ⟨-, htracked⟩ := h.waiting hboarded
  exact fresh_or_started_iff htracked.floors htracked.currentFloor htracked.state htracked.settled

/-- Once the lists are there, only the return can go wrong. -/
theorem Late.sound_iff (h : Late m) (l : Label) : Sound m l ↔ Harmless m l := by
  have hstarting := h.starting
  have hfilled : m.Filled := h.lists _
  rcases l.init_or with ⟨procCreate, kthreadRun, rfl⟩ | hl
  · simp only [Sound, Harmless, h.step_init, hstarting, true_imp_iff]
    rcases h.init procCreate kthreadRun with ⟨hmore, hnext⟩ | ⟨hposition, hinit⟩
    · refine iff_of_true ⟨hnext.oops, fun hend => absurd hnext.starting hend⟩ ?_
      exact fun hend => absurd hend hmore
    · rw [hinit]
      have hend : ¬ Module.Starting { m with position := .returned 0 } := not_starting rfl
      constructor
      · intro hsound _
        exact h.return_iff.1 (hsound.2 hend)
      · intro hharmless
        exact ⟨h.oops, fun _ => h.return_iff.2 (hharmless ⟨0, hposition⟩)⟩
  · have hnext := h.step hl
    refine iff_of_true ⟨hnext.oops, fun _ hend => absurd hnext.starting hend⟩ ?_
    intro _
    cases l with
    | init a b => exact absurd rfl (hl a b)
    | sched locks => exact fun _ hmore => absurd hfilled hmore
    | «open» kmalloc => trivial
    | read => exact fun _ hmore => absurd hfilled hmore
    | release => trivial
    | call c =>
      cases c with
      | start => trivial
      | stop => trivial
      | request t a b kmalloc => exact fun _ hmore => absurd hfilled hmore

end Late

end KernelElevator.Startup
