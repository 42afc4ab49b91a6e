import KernelElevator.Service

/-!
# What the pieces leave alone

Two views of the state: the *cargo*, which is passengers, records and counters, and the *controls*,
which is everything the scheduler decides by. Loading and unloading leave the controls alone; the
rest of the scheduler leaves the cargo alone. Then the specifications of `unload_elevator`,
`load_elevator` and `min_onboard` that the later modules use.
-/

namespace KernelElevator

structure Cargo where
  currentWeight : Int
  currentUnits : Int
  onboard : List Passenger
  oddChildren : Int
  totalServed : Int
  floors : Fin 10 → List Passenger
  served : Fin 10 → Int
  records : Nat
  live : List Nat
  log : List Event

structure Controls where
  previousState : Status
  state : Status
  currentFloor : Int
  nextFloor : Int
  started : Bool
  pc : Pc
  deriving DecidableEq

namespace State

def cargo (s : State) : Cargo :=
  ⟨s.currentWeight, s.currentUnits, s.onboard, s.oddChildren, s.totalServed, s.floors, s.served,
    s.records, s.live, s.log⟩

def controls (s : State) : Controls :=
  ⟨s.previousState, s.state, s.currentFloor, s.nextFloor, s.started, s.pc⟩

end State

/-! ## Loading and unloading leave the controls alone -/

section Views

variable {α : Type*} (v : State → α)

/-- What no passenger who gets off changes, unloading leaves alone. -/
theorem unloadElevator_view (hv : ∀ floor p s, v (State.letOff floor p s) = v s) (floor : Int)
    (s : State) : v (unloadElevator floor s).2 = v s := by
  have hloop : ∀ ps s, v (unloadLoop floor ps s) = v s := by
    intro ps
    induction ps with
    | nil =>
      intro s
      rfl
    | cons p ps ih =>
      intro s
      by_cases hd : p.destinationFloor = floor
      · rw [unloadLoop, if_pos hd, ih, hv]
      · rw [unloadLoop, if_neg hd, ih]
  by_cases hf : s.currentFloor ≠ floor
  · rw [unloadElevator, if_pos hf]
  · rw [unloadElevator, if_neg hf]
    exact hloop s.onboard s

/-- What no passenger who is taken from a queue changes, loading leaves alone. -/
theorem loadElevator_view (hopened : ∀ floor s, v { s with log := s.log ++ [.opened floor] } = v s)
    (hserve : ∀ floor p s, v (State.serveHere floor p s) = v s)
    (hboard : ∀ floor p s, v (State.board floor p s) = v s) (floor : Int) (s : State) :
    v (loadElevator floor s).2 = v s := by
  have hloop : ∀ ps s, v (loadLoop floor ps s).2 = v s := by
    intro ps
    induction ps with
    | nil =>
      intro s
      rfl
    | cons p ps ih =>
      intro s
      simp only [loadLoop]
      split_ifs
      · rw [ih, hserve]
      · rw [ih, hboard]
      · rfl
  unfold loadElevator
  split_ifs
  · rfl
  · dsimp only
    split_ifs
    · exact hopened floor s
    · exact (hloop _ _).trans (hopened floor s)

end Views

theorem loadElevator_controls (floor : Int) (s : State) :
    (loadElevator floor s).2.controls = s.controls :=
  loadElevator_view State.controls (fun _ _ => rfl) (fun _ _ _ => rfl) (fun _ _ _ => rfl) floor s

theorem unloadElevator_controls (floor : Int) (s : State) :
    (unloadElevator floor s).2.controls = s.controls :=
  unloadElevator_view State.controls (fun _ _ _ => rfl) floor s

section ControlFields

variable (floor : Int) (s : State)

@[simp] theorem loadElevator_currentFloor :
    (loadElevator floor s).2.currentFloor = s.currentFloor :=
  congrArg Controls.currentFloor (loadElevator_controls floor s)

@[simp] theorem unloadElevator_previousState :
    (unloadElevator floor s).2.previousState = s.previousState :=
  congrArg Controls.previousState (unloadElevator_controls floor s)
@[simp] theorem unloadElevator_state : (unloadElevator floor s).2.state = s.state :=
  congrArg Controls.state (unloadElevator_controls floor s)
@[simp] theorem unloadElevator_currentFloor :
    (unloadElevator floor s).2.currentFloor = s.currentFloor :=
  congrArg Controls.currentFloor (unloadElevator_controls floor s)
@[simp] theorem unloadElevator_started : (unloadElevator floor s).2.started = s.started :=
  congrArg Controls.started (unloadElevator_controls floor s)

end ControlFields

/-! ## The rest of the scheduler leaves the cargo alone -/

theorem Steers.cargo {s t : State} (h : Steers s t) : t.cargo = s.cargo := by
  cases h with
  | mk => rfl

/-! ## What only the system calls write -/

/-- What the scheduler never writes. -/
structure Fixed where
  started : Bool
  previousState : Status
  records : Nat
  live : List Nat

def State.fixed (s : State) : Fixed := ⟨s.started, s.previousState, s.records, s.live⟩

theorem Steers.fixed {s t : State} (h : Steers s t) : t.fixed = s.fixed := by
  cases h with
  | mk => rfl

theorem unloadElevator_fixed (floor : Int) (s : State) :
    (unloadElevator floor s).2.fixed = s.fixed :=
  unloadElevator_view State.fixed (fun _ _ _ => rfl) floor s

theorem loadElevator_fixed (floor : Int) (s : State) :
    (loadElevator floor s).2.fixed = s.fixed :=
  loadElevator_view State.fixed (fun _ _ => rfl) (fun _ _ _ => rfl) (fun _ _ _ => rfl) floor s

theorem drainPass_fixed (s : State) : (drainPass s).fixed = s.fixed := by
  rcases drainPass_cases s with hsteers | hunload
  · exact hsteers.fixed
  · rw [hunload]
    exact unloadElevator_fixed _ s

theorem schedule_fixed (locks : Locks) (s : State) : (schedule locks s).fixed = s.fixed := by
  have hstep := scheduled locks s
  generalize schedule locks s = t at hstep ⊢
  cases hstep with
  | offline => exact drainPass_fixed (s.lock .offline locks)
  | offlineRefused => rfl
  | idle => exact (idleScan_steers _ s).fixed
  | service => exact unloadElevator_fixed _ ((s.lock .service locks).setState .loading)
  | serviceRefused => exact (upPart_steers locks _).fixed
  | drain => exact drainPass_fixed s
  | drainMove floor => exact unloadElevator_fixed _ (arrive floor s)
  | idleMove is floor => exact (idleScan_steers is _).fixed
  | loadSleep => exact (upPart_steers locks _).fixed.trans (loadElevator_fixed _ s)
  | upMove floor => exact (downPart_steers locks _).fixed
  | downMove floor => exact (endService_steers _).fixed

theorem schedule_started (locks : Locks) (s : State) : (schedule locks s).started = s.started :=
  congrArg Fixed.started (schedule_fixed locks s)

theorem schedule_records (locks : Locks) (s : State) : (schedule locks s).records = s.records :=
  congrArg Fixed.records (schedule_fixed locks s)

/-! ## What a system call does -/

theorem issueRequest_controls (t a b : Int) (kmalloc : Bool) (s : State) :
    (issueRequest t a b kmalloc s).2.controls = s.controls := by
  rcases issueRequest_cases t a b kmalloc s with hsame | ⟨p, -, -, hlink⟩
  · rw [hsame]
  · rw [hlink]
    rfl

/-- A call leaves the controls alone, unless it is a start or a stop that returns 0. -/
theorem call_cases (c : Call) (s : State) :
    (c.exec s).2.controls = s.controls ∨
    (c = .start ∧ s.started = false ∧
      (c.exec s).2 = { s with state := .idle, currentFloor := 1, started := true }) ∨
    (c = .stop ∧ s.started = true ∧
      (c.exec s).2 = { s with
        previousState := if s.state = .up ∨ s.state = .down then s.state else s.previousState
        state := .offline, started := false }) := by
  cases c with
  | start =>
    by_cases hs : s.started
    · exact .inl (by simp [Call.exec, startElevator, hs])
    · exact .inr (.inl ⟨rfl, by simpa using hs, by simp [Call.exec, startElevator, hs]⟩)
  | stop =>
    by_cases hs : s.started
    · refine .inr (.inr ⟨rfl, hs, ?_⟩)
      simp only [Call.exec, stopElevator, if_pos hs]
      split_ifs <;> rfl
    · exact .inl (by simp [Call.exec, stopElevator, hs])
  | request t a b kmalloc => exact .inl (issueRequest_controls t a b kmalloc s)

/-- No call moves the scheduler. -/
theorem call_pc (c : Call) (s : State) : (c.exec s).2.pc = s.pc := by
  rcases call_cases c s with hc | ⟨-, -, hc⟩ | ⟨-, -, hc⟩
  · exact congrArg Controls.pc hc
  · rw [hc]
  · rw [hc]

theorem startElevator_zero {s : State} : (startElevator s).1 = 0 ↔ s.started = false := by
  cases hs : s.started <;> simp [startElevator, hs]

theorem stopElevator_zero {s : State} : (stopElevator s).1 = 0 ↔ s.started = true := by
  cases hs : s.started <;> simp [stopElevator, hs]

/-- On the passengers and records, a call does nothing, or links a well-formed passenger. -/
theorem call_cargo (c : Call) (s : State) : (c.exec s).2.cargo = s.cargo ∨
    ∃ p : Passenger, p.WellFormed ∧ (c.exec s).2.cargo = (s.allocate.link p).cargo := by
  cases c with
  | start =>
    simp only [Call.exec, startElevator]
    split_ifs <;> exact .inl rfl
  | stop =>
    simp only [Call.exec, stopElevator]
    split_ifs <;> exact .inl rfl
  | request t a b kmalloc =>
    rcases issueRequest_cases t a b kmalloc s with hsame | ⟨p, -, hp, hlink⟩
    · exact .inl (congrArg State.cargo hsame)
    · exact .inr ⟨p, hp, congrArg State.cargo hlink⟩

/-- What no new passenger changes, a call leaves alone. -/
theorem call_view {α : Type*} (v : Cargo → α)
    (hlink : ∀ s p, v (State.link p (State.allocate s)).cargo = v s.cargo) (c : Call) (s : State) :
    v (c.exec s).2.cargo = v s.cargo := by
  rcases call_cargo c s with hsame | ⟨p, -, hadd⟩
  · rw [hsame]
  · rw [hadd, hlink]

theorem call_onboard (c : Call) (s : State) : (c.exec s).2.onboard = s.onboard :=
  call_view Cargo.onboard (fun _ _ => rfl) c s

/-- A call only appends to the queues. -/
theorem call_queue (c : Call) (s : State) (floor : Int) :
    s.queue floor <+: (c.exec s).2.queue floor := by
  rcases call_cargo c s with hsame | ⟨p, hp, hadd⟩
  · have hfloors : (c.exec s).2.floors = s.floors := congrArg Cargo.floors hsame
    rw [State.queue, State.queue, hfloors]
  · have hfloors : (c.exec s).2.floors =
        putQueue s.floors p.startFloor (s.queue p.startFloor ++ [p]) := congrArg Cargo.floors hadd
    rw [State.queue, State.queue, hfloors, getQueue_putQueue _ hp.start, Function.update_apply]
    by_cases hf : floor = p.startFloor
    · rw [if_pos hf, hf]
      exact List.prefix_append _ _
    · rw [if_neg hf]

/-! ## What unloading does -/

theorem unloadings_letOff (s : State) (floor : Int) (p : Passenger) :
    (s.letOff floor p).unloadings = s.unloadings ++ [p] := by
  show Delivery.delivered (acts (s.log ++ _)) = _
  rw [acts_snoc]
  exact Delivery.delivered_snoc _ _

theorem unloadLoop_spec {floor : Int} (ps : List Passenger) {kept : List Passenger} {s : State}
    (hon : s.onboard = kept ++ ps) (hkept : ∀ q ∈ kept, q.destinationFloor ≠ floor) :
    (unloadLoop floor ps s).onboard = kept ++ ps.filter (·.destinationFloor ≠ floor) ∧
      (unloadLoop floor ps s).floors = s.floors ∧
      (unloadLoop floor ps s).unloadings =
        s.unloadings ++ ps.filter (·.destinationFloor = floor) ∧
      (unloadLoop floor ps s).totalServed =
        s.totalServed + ps.countP (·.destinationFloor = floor) := by
  induction ps generalizing s kept with
  | nil => simp [unloadLoop, hon]
  | cons p ps ih =>
    simp only [unloadLoop]
    split_ifs with hd
    · have hp : p ∉ kept := fun hmem => hkept p hmem hd
      have hon' : (s.letOff floor p).onboard = kept ++ ps := by
        simp [State.letOff, hon, List.erase_append_right _ hp]
      obtain ⟨h1, h2, h3, h4⟩ := ih hon' hkept
      refine ⟨by rw [h1]; simp [hd], h2, ?_, ?_⟩
      · rw [h3, unloadings_letOff, List.filter_cons_of_pos (by simpa using hd)]
        simp
      · rw [h4, List.countP_cons_of_pos (by simpa using hd)]
        show s.totalServed + 1 + _ = _
        push_cast
        omega
    · have hkept' : ∀ q ∈ kept ++ [p], q.destinationFloor ≠ floor := by
        intro q hq
        rcases List.mem_append.1 hq with hq | hq
        · exact hkept q hq
        · rw [List.mem_singleton.1 hq]
          exact hd
      obtain ⟨h1, h2, h3, h4⟩ := @ih (kept ++ [p]) s (by simp [hon]) hkept'
      refine ⟨by rw [h1]; simp [hd], h2, ?_, ?_⟩
      · rw [h3, List.filter_cons_of_neg (by simpa using hd)]
      · rw [h4, List.countP_cons_of_neg (by simpa using hd)]

/-- `unload_elevator` at the current floor lets off exactly those whose floor it is. -/
theorem unload_spec (s : State) :
    (unloadElevator s.currentFloor s).2.onboard =
        s.onboard.filter (·.destinationFloor ≠ s.currentFloor) ∧
      (unloadElevator s.currentFloor s).2.floors = s.floors ∧
      (unloadElevator s.currentFloor s).2.unloadings =
        s.unloadings ++ s.onboard.filter (·.destinationFloor = s.currentFloor) ∧
      (unloadElevator s.currentFloor s).2.totalServed =
        s.totalServed + s.onboard.countP (·.destinationFloor = s.currentFloor) := by
  rw [unloadElevator, if_neg (not_not.2 rfl)]
  exact unloadLoop_spec s.onboard (List.nil_append _).symm (by simp)

theorem unloadLoop_served (floor : Int) (ps : List Passenger) (s : State) (k : Fin 10) :
    (unloadLoop floor ps s).served k = s.served k +
      if floorOf k = floor then (ps.countP (·.destinationFloor = floor) : Int) else 0 := by
  induction ps generalizing s with
  | nil => simp [unloadLoop]
  | cons p ps ih =>
    by_cases hd : p.destinationFloor = floor
    · rw [unloadLoop, if_pos hd, ih, List.countP_cons_of_pos (by simpa using hd)]
      simp only [State.letOff, bump_apply]
      split_ifs
      · push_cast
        omega
      · omega
    · rw [unloadLoop, if_neg hd, ih, List.countP_cons_of_neg (by simpa using hd)]

theorem unload_served (s : State) (k : Fin 10) :
    (unloadElevator s.currentFloor s).2.served k = s.served k +
      if floorOf k = s.currentFloor then
        (s.onboard.countP (·.destinationFloor = s.currentFloor) : Int) else 0 := by
  rw [unloadElevator, if_neg (not_not.2 rfl)]
  exact unloadLoop_served _ _ s k

/-- Somebody for this floor makes `onboard` shorter. -/
theorem unload_length_lt {s : State} {p : Passenger} (hp : p ∈ s.onboard)
    (hd : p.destinationFloor = s.currentFloor) :
    (unloadElevator s.currentFloor s).2.onboard.length < s.onboard.length := by
  rw [(unload_spec s).1]
  exact List.length_filter_lt_length_iff_exists.2 ⟨p, hp, by simp [hd]⟩

/-! ## What loading does -/

/-- The part of a queue that `load_elevator` takes, from a load of `weight` and `units`: those
served on the spot, and those that board until the first that does not fit. -/
def taken (weight units : Int) : List Passenger → List Passenger
  | [] => []
  | p :: ps =>
    if p.state = .equal then p :: taken weight units ps
    else if weight + p.weightUnits ≤ maxWeight ∧ units + p.spaceUnits ≤ maxUnits then
      p :: taken (weight + p.weightUnits) (units + p.spaceUnits) ps
    else []

theorem queue_update_head {s t : State} {floor : Int} {p : Passenger} {rest q : List Passenger}
    (hq : s.queue floor = p :: rest)
    (ht : t.floors = putQueue s.floors floor ((s.queue floor).erase p)) :
    Function.update t.queue floor q = Function.update s.queue floor q := by
  have hqueue : t.queue = Function.update s.queue floor rest := by
    rw [← queue_erase_head hq, ← ht]
    rfl
  rw [hqueue, Function.update_idem]

theorem unloadings_board (s : State) (floor : Int) (p : Passenger) :
    (s.board floor p).unloadings = s.unloadings := by
  show Delivery.delivered (acts (s.log ++ _)) = _
  rw [acts_snoc]
  exact (Delivery.delivered_snoc _ _).trans (List.append_nil _)

theorem unloadings_serveHere (s : State) (floor : Int) (p : Passenger) :
    (s.serveHere floor p).unloadings = s.unloadings := by
  show Delivery.delivered (acts (s.log ++ _)) = _
  rw [acts_snoc]
  exact (Delivery.delivered_snoc _ _).trans (List.append_nil _)

theorem loadLoop_spec {floor : Int} (ps : List Passenger) {s : State}
    (hq : s.queue floor = ps) :
    (loadLoop floor ps s).2.onboard =
        s.onboard ++ (taken s.currentWeight s.currentUnits ps).filter (·.state ≠ .equal) ∧
      (loadLoop floor ps s).2.queue = Function.update s.queue floor
        (ps.drop (taken s.currentWeight s.currentUnits ps).length) ∧
      (loadLoop floor ps s).2.unloadings = s.unloadings ∧
      (loadLoop floor ps s).2.totalServed =
        s.totalServed + (taken s.currentWeight s.currentUnits ps).countP (·.state = .equal) := by
  induction ps generalizing s with
  | nil =>
    refine ⟨(List.append_nil _).symm, ?_, rfl, (add_zero _).symm⟩
    rw [List.drop_nil, ← hq, Function.update_eq_self, hq]
    rfl
  | cons p ps ih =>
    by_cases he : p.state = .equal
    · obtain ⟨h1, h2, h3, h4⟩ := ih (queue_serveHere hq)
      rw [loadLoop, if_pos he, taken, if_pos he]
      refine ⟨h1.trans (by simp [he, State.serveHere]),
        h2.trans ((queue_update_head hq rfl).trans (by simp [State.serveHere])),
        h3.trans (unloadings_serveHere s floor p), h4.trans ?_⟩
      rw [List.countP_cons_of_pos (by simpa using he)]
      simp only [State.serveHere]
      push_cast
      omega
    · by_cases hfits : s.currentWeight + p.weightUnits ≤ maxWeight ∧
          s.currentUnits + p.spaceUnits ≤ maxUnits
      · obtain ⟨h1, h2, h3, h4⟩ := ih (queue_board hq)
        have hfits' : Fits s p := hfits
        rw [loadLoop, if_neg he, if_pos hfits', taken, if_neg he, if_pos hfits]
        refine ⟨h1.trans (by simp [he, State.board]),
          h2.trans ((queue_update_head hq rfl).trans (by simp [State.board])),
          h3.trans (unloadings_board s floor p), h4.trans ?_⟩
        rw [List.countP_cons_of_neg (by simpa using he)]
        rfl
      · have hfits' : ¬ Fits s p := hfits
        rw [loadLoop, if_neg he, if_neg hfits', taken, if_neg he, if_neg hfits]
        refine ⟨(List.append_nil _).symm, ?_, rfl, (add_zero _).symm⟩
        rw [List.length_nil, List.drop_zero, ← hq, Function.update_eq_self]

/-- The passengers `load_elevator` would take from the queue of the current floor. -/
def takenHere (s : State) : List Passenger :=
  taken s.currentWeight s.currentUnits (s.queue s.currentFloor)

theorem loadElevator_empty {s : State} (hq : s.queue s.currentFloor = []) :
    loadElevator s.currentFloor s = (-1, { s with log := s.log ++ [.opened s.currentFloor] }) := by
  rw [loadElevator, if_neg (not_not.2 rfl)]
  exact if_pos hq

theorem loadElevator_queue {s : State} (hq : s.queue s.currentFloor ≠ []) :
    loadElevator s.currentFloor s = loadLoop s.currentFloor (s.queue s.currentFloor)
      { s with log := s.log ++ [.opened s.currentFloor] } := by
  rw [loadElevator, if_neg (not_not.2 rfl)]
  exact if_neg hq

/-- `load_elevator` at the current floor takes the part `taken` of its queue. -/
theorem load_spec (s : State) :
    (loadElevator s.currentFloor s).2.onboard =
        s.onboard ++ (takenHere s).filter (·.state ≠ .equal) ∧
      (loadElevator s.currentFloor s).2.queue = Function.update s.queue s.currentFloor
        ((s.queue s.currentFloor).drop (takenHere s).length) ∧
      (loadElevator s.currentFloor s).2.unloadings = s.unloadings ∧
      (loadElevator s.currentFloor s).2.totalServed =
        s.totalServed + (takenHere s).countP (·.state = .equal) := by
  have hopened : ({ s with log := s.log ++ [.opened s.currentFloor] } : State).unloadings =
      s.unloadings := by
    show Delivery.delivered (acts (s.log ++ _)) = _
    rw [acts_snoc]
    exact congrArg _ (List.append_nil _)
  by_cases hq : s.queue s.currentFloor = []
  · rw [loadElevator_empty hq, takenHere, hq, hopened, List.drop_nil, ← hq, Function.update_eq_self,
      hq]
    exact ⟨(List.append_nil _).symm, rfl, rfl, (add_zero _).symm⟩
  · obtain ⟨h1, h2, h3, h4⟩ := loadLoop_spec (s.queue s.currentFloor)
      (s := { s with log := s.log ++ [.opened s.currentFloor] }) rfl
    rw [loadElevator_queue hq]
    exact ⟨h1, h2, h3.trans hopened, h4⟩

theorem loadLoop_served (floor : Int) (ps : List Passenger) (s : State) (k : Fin 10) :
    (loadLoop floor ps s).2.served k = s.served k +
      if floorOf k = floor then
        ((taken s.currentWeight s.currentUnits ps).countP (·.state = .equal) : Int) else 0 := by
  induction ps generalizing s with
  | nil => simp [loadLoop, taken]
  | cons p ps ih =>
    by_cases he : p.state = .equal
    · rw [loadLoop, if_pos he, ih, taken, if_pos he, List.countP_cons_of_pos (by simpa using he)]
      simp only [State.serveHere, bump_apply]
      split_ifs
      · push_cast
        omega
      · omega
    · by_cases hfits : s.currentWeight + p.weightUnits ≤ maxWeight ∧
          s.currentUnits + p.spaceUnits ≤ maxUnits
      · have hfits' : Fits s p := hfits
        rw [loadLoop, if_neg he, if_pos hfits', ih, taken, if_neg he, if_pos hfits,
          List.countP_cons_of_neg (by simpa using he)]
        rfl
      · have hfits' : ¬ Fits s p := hfits
        rw [loadLoop, if_neg he, if_neg hfits', taken, if_neg he, if_neg hfits]
        simp

theorem load_served (s : State) (k : Fin 10) :
    (loadElevator s.currentFloor s).2.served k = s.served k +
      if floorOf k = s.currentFloor then ((takenHere s).countP (·.state = .equal) : Int)
      else 0 := by
  by_cases hq : s.queue s.currentFloor = []
  · rw [loadElevator_empty hq, takenHere, hq]
    simp [taken]
  · rw [loadElevator_queue hq]
    exact loadLoop_served _ _ { s with log := s.log ++ [.opened s.currentFloor] } k

/-! ## What `min_onboard` returns -/

/-- The loop keeps its best pair, or takes that of somebody on the list, and nobody is closer. -/
theorem minOnboardLoop_spec (diff : Passenger → Int) (ps : List Passenger) (best : Int × Int) :
    (minOnboardLoop diff ps best = best ∨
      ∃ p ∈ ps, minOnboardLoop diff ps best = (diff p, p.destinationFloor)) ∧
    (minOnboardLoop diff ps best).1 ≤ best.1 ∧
    ∀ p ∈ ps, (minOnboardLoop diff ps best).1 ≤ diff p := by
  induction ps generalizing best with
  | nil => exact ⟨.inl rfl, le_rfl, fun p hp => absurd hp List.not_mem_nil⟩
  | cons p ps ih =>
    simp only [minOnboardLoop]
    split_ifs with hlt
    · obtain ⟨hfrom, hle, hall⟩ := ih (diff p, p.destinationFloor)
      refine ⟨.inr ?_, hle.trans hlt.le, fun q hq => ?_⟩
      · rcases hfrom with heq | ⟨q, hq, heq⟩
        · exact ⟨p, List.mem_cons_self, heq⟩
        · exact ⟨q, List.mem_cons_of_mem _ hq, heq⟩
      · rcases List.mem_cons.1 hq with rfl | hq
        · exact hle
        · exact hall q hq
    · obtain ⟨hfrom, hle, hall⟩ := ih best
      refine ⟨?_, hle, fun q hq => ?_⟩
      · rcases hfrom with heq | ⟨q, hq, heq⟩
        · exact .inl heq
        · exact .inr ⟨q, List.mem_cons_of_mem _ hq, heq⟩
      · rcases List.mem_cons.1 hq with rfl | hq
        · exact hle.trans (not_lt.1 hlt)
        · exact hall q hq

/-- Somebody closer than the bound makes the loop return the destination of somebody closest. -/
theorem minOnboardLoop_closest (diff : Passenger → Int) {ps : List Passenger} (bound floor : Int)
    {p : Passenger} (hp : p ∈ ps) (hlt : diff p < bound) :
    ∃ q ∈ ps, (minOnboardLoop diff ps (bound, floor)).2 = q.destinationFloor ∧
      ∀ r ∈ ps, diff q ≤ diff r := by
  obtain ⟨hfrom, -, hall⟩ := minOnboardLoop_spec diff ps (bound, floor)
  rcases hfrom with heq | ⟨q, hq, heq⟩
  · have hle := hall p hp
    rw [heq] at hle
    exact absurd hlt (not_lt.2 hle)
  · rw [heq] at hall
    exact ⟨q, hq, by rw [heq], hall⟩

/-- The floor `g` is not before `f` in the direction of the offload loop. -/
def NotBefore (direction : Status) (f g : Int) : Prop :=
  (direction = .up → f ≤ g) ∧ (direction = .down → g ≤ f)

/-- With a direction recorded, `min_onboard` returns the first destination in that direction of
those on board. -/
theorem minOnboard_first {s : State} (hfloor : 1 ≤ s.currentFloor ∧ s.currentFloor ≤ 10)
    (hdir : s.previousState = .up ∨ s.previousState = .down) {p : Passenger} (hp : p ∈ s.onboard)
    (hdest : 1 ≤ p.destinationFloor ∧ p.destinationFloor ≤ 10) :
    ∃ q ∈ s.onboard, minOnboard s = q.destinationFloor ∧
      ∀ r ∈ s.onboard, NotBefore s.previousState q.destinationFloor r.destinationFloor := by
  unfold minOnboard
  rcases hdir with hdir | hdir
  · rw [if_pos hdir]
    obtain ⟨q, hq, hmin, hall⟩ := minOnboardLoop_closest
      (fun p => p.destinationFloor - s.currentFloor) 10 0 hp (by omega)
    refine ⟨q, hq, hmin, ?_⟩
    intro r hr
    have hle := hall r hr
    exact ⟨fun _ => by omega, fun h => absurd (hdir.symm.trans h) (by decide)⟩
  · rw [if_neg (by simp [hdir]), if_pos hdir]
    obtain ⟨q, hq, hmin, hall⟩ := minOnboardLoop_closest
      (fun p => s.currentFloor - p.destinationFloor) 10 0 hp (by omega)
    refine ⟨q, hq, hmin, ?_⟩
    intro r hr
    have hle := hall r hr
    exact ⟨fun h => absurd (hdir.symm.trans h) (by decide), fun _ => by omega⟩

/-- With a direction recorded, `min_onboard` returns the destination of somebody on board. -/
theorem minOnboard_mem {s : State} (hfloor : 1 ≤ s.currentFloor ∧ s.currentFloor ≤ 10)
    (hdir : s.previousState = .up ∨ s.previousState = .down) {p : Passenger} (hp : p ∈ s.onboard)
    (hdest : 1 ≤ p.destinationFloor ∧ p.destinationFloor ≤ 10) :
    ∃ q ∈ s.onboard, minOnboard s = q.destinationFloor := by
  obtain ⟨q, hq, hmin, -⟩ := minOnboard_first hfloor hdir hp hdest
  exact ⟨q, hq, hmin⟩

theorem minOnboard_of_none {s : State} (hup : s.previousState ≠ .up)
    (hdown : s.previousState ≠ .down) : minOnboard s = -1 := by
  rw [minOnboard, if_neg hup, if_neg hdown]

end KernelElevator
