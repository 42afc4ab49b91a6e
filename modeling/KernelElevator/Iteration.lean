import KernelElevator.LoopHead

/-!
# Whole iterations

What an iteration of the scheduler's `while` does from one loop head to the next, every lock
granted. A service stop is three steps, each with its specification: `Unloads`, up to `ssleep(1)`;
`Loads`, up to the move; `Climbs`, to the loop head one floor up, or from 10 at 1. The `OFFLINE`
branch empties the elevator if it returns at all. The `IDLE` branch ends `LOADING` at the highest
floor where somebody waits, or finds no work.
-/

namespace KernelElevator

open Machine

/-! ## The three steps of a service stop -/

structure Unloads (s t : State) : Prop where
  pc : t.pc = .loadSleep
  floor : t.currentFloor = s.currentFloor
  onboard : t.onboard = s.onboard.filter (·.destinationFloor ≠ s.currentFloor)
  queue : t.queue = s.queue
  unloadings : t.unloadings = s.unloadings ++ s.onboard.filter (·.destinationFloor = s.currentFloor)
  total : t.totalServed = s.totalServed + s.onboard.countP (·.destinationFloor = s.currentFloor)

structure Loads (s t : State) : Prop where
  pc : t.pc = .upMove (nextUp s.currentFloor)
  state : t.state = .up
  floor : t.currentFloor = s.currentFloor
  onboard : t.onboard = s.onboard ++ (takenHere s).filter (·.state ≠ .equal)
  queue : t.queue = Function.update s.queue s.currentFloor
    ((s.queue s.currentFloor).drop (takenHere s).length)
  unloadings : t.unloadings = s.unloadings
  total : t.totalServed = s.totalServed + (takenHere s).countP (·.state = .equal)

structure Climbs (floor : Int) (s t : State) : Prop where
  pc : t.pc = .top
  state : t.state = if s.onboard = [] then .idle else .up
  floor : t.currentFloor = floor
  onboard : t.onboard = s.onboard
  queue : t.queue = s.queue
  unloadings : t.unloadings = s.unloadings
  total : t.totalServed = s.totalServed

theorem schedule_unloads {s : State} (hpc : s.pc = .top) (hoff : s.state ≠ .offline)
    (hidle : s.state ≠ .idle) : Unloads s (schedule granted s) := by
  obtain ⟨hon, hfloors, hunloadings, htotal⟩ :=
    unload_spec ((s.lock .service granted).setState .loading)
  rw [schedule_service granted hpc hoff hidle]
  exact ⟨rfl, unloadElevator_currentFloor _ _, hon, congrArg getQueue hfloors, hunloadings, htotal⟩

theorem schedule_loads {s : State} (hpc : s.pc = .loadSleep) : Loads s (schedule granted s) := by
  obtain ⟨hon, hqueue, hunloadings, htotal⟩ := load_spec s
  have hfloor := loadElevator_currentFloor s.currentFloor s
  have hup : (((loadElevator s.currentFloor s).2.setState .up).unlock .service).state = .up := rfl
  rw [schedule_loadSleep granted hpc, loadAndGo, upPart, if_pos hup]
  dsimp only
  rw [if_pos (show granted .up = true from rfl), moveElevator_nextUp]
  refine ⟨?_, rfl, hfloor, hon, hqueue, hunloadings, htotal⟩
  show Pc.upMove (nextUp (loadElevator s.currentFloor s).2.currentFloor) = _
  rw [hfloor]

theorem schedule_climbs {s : State} {floor : Int} (hpc : s.pc = .upMove floor)
    (hstate : s.state = .up) : Climbs floor s (schedule granted s) := by
  have hup : ((arrive floor s).unlock .up).state = .up := hstate
  rw [schedule_upMove granted hpc, downPart, if_neg (by simp [hup]), endService]
  have hempty : ((arrive floor s).unlock .up).onboard = s.onboard := rfl
  rw [hempty]
  by_cases hon : s.onboard = []
  · rw [if_pos hon]
    exact ⟨rfl, by rw [if_pos hon]; rfl, rfl, rfl, rfl, rfl, rfl⟩
  · rw [if_neg hon]
    exact ⟨rfl, by rw [if_neg hon]; exact hstate, rfl, rfl, rfl, rfl, rfl⟩

/-! ## The relation -/

theorem Returns.pc {s t : State} (h : Returns s t) : t.pc = .top := by
  induction h with
  | top h => exact h
  | mid _ _ ih => exact ih

theorem Returns.unique {s t u : State} (h : Returns s t) (h' : Returns s u) : t = u := by
  induction h with
  | top h =>
    cases h' with
    | top => rfl
    | mid hne => exact absurd h hne
  | mid hne _ ih =>
    cases h' with
    | top h => exact absurd h hne
    | mid _ h' => exact ih h'

/-- An iteration is some number of steps of the thread. -/
theorem Returns.run {s t : State} (h : Returns s t) :
    ∃ n, t = Machine.run step (List.replicate n (.sched granted)) s := by
  induction h with
  | top => exact ⟨1, rfl⟩
  | mid _ _ ih =>
    obtain ⟨n, rfl⟩ := ih
    exact ⟨n + 1, rfl⟩

theorem Returns.fixed {s t : State} (h : Returns s t) : t.fixed = s.fixed := by
  induction h with
  | top => exact schedule_fixed _ _
  | mid _ _ ih => exact ih.trans (schedule_fixed _ _)

theorem Returns.started {s t : State} (h : Returns s t) : t.started = s.started :=
  congrArg Fixed.started h.fixed

/-- Every state of a sequential run is one of an interleaved run, with the scheduler at the loop
head. -/
theorem SeqRun.after {ops : List Op} {s : State} (h : SeqRun ops s) :
    s.pc = .top ∧ ∃ ls, s = after ls := by
  induction h with
  | nil => exact ⟨rfl, [], rfl⟩
  | snoc _ hop ih =>
    obtain ⟨hpc, ls, rfl⟩ := ih
    cases hop with
    | iteration h =>
      obtain ⟨n, rfl⟩ := h.run
      exact ⟨h.pc, ls ++ List.replicate n (.sched granted), (after_append ls _).symm⟩
    | call c =>
      exact ⟨(call_pc c _).trans hpc, ls ++ [Label.call c], (after_snoc ls (.call c)).symm⟩

/-! ## The three kinds of iteration -/

/-- A service stop, from loop head to loop head. `u` is the state before loading. -/
structure ServiceStop (s u t : State) : Prop where
  returns : Returns s t
  floor : t.currentFloor = nextUp s.currentFloor
  state : t.state = if t.onboard = [] then .idle else .up
  unloads : Unloads s u
  onboard : t.onboard = u.onboard ++ (takenHere u).filter (·.state ≠ .equal)
  queue : t.queue = Function.update s.queue s.currentFloor
    ((s.queue s.currentFloor).drop (takenHere u).length)
  unloadings : t.unloadings = u.unloadings
  total : t.totalServed = u.totalServed + (takenHere u).countP (·.state = .equal)

theorem exists_serviceStop {s : State} (hpc : s.pc = .top) (hoff : s.state ≠ .offline)
    (hidle : s.state ≠ .idle) : ∃ t, ServiceStop s (schedule granted s) t := by
  have hunload := schedule_unloads hpc hoff hidle
  have hload := schedule_loads hunload.pc
  have hclimb := schedule_climbs hload.pc hload.state
  refine ⟨_, ⟨.mid ?_ (.mid ?_ (.top hclimb.pc)), ?_, ?_, hunload, ?_, ?_, ?_, ?_⟩⟩
  · rw [hunload.pc]
    simp
  · rw [hload.pc]
    simp
  · rw [hclimb.floor, hunload.floor]
  · rw [hclimb.onboard]
    exact hclimb.state
  · exact hclimb.onboard.trans hload.onboard
  · rw [hclimb.queue, hload.queue, hunload.floor, hunload.queue]
  · exact hclimb.unloadings.trans hload.unloadings
  · exact hclimb.total.trans hload.total

/-- An iteration that starts neither `OFFLINE` nor `IDLE` is a service stop. -/
theorem Returns.serviceStop {s t : State} (h : Returns s t) (hpc : s.pc = .top)
    (hoff : s.state ≠ .offline) (hidle : s.state ≠ .idle) :
    ServiceStop s (schedule granted s) t := by
  obtain ⟨u, hu⟩ := exists_serviceStop hpc hoff hidle
  exact h.unique hu.returns ▸ hu

/-- What the `IDLE` scan, with the indices `is` still to look at, comes to: the elevator is
`LOADING` at the last of the floors where somebody waits, or nobody waits and nothing happened. -/
structure Scanned (is : List (Fin 10)) (s t : State) : Prop where
  cargo : t.cargo = s.cargo
  outcome :
    (∃ pre i post, is = pre ++ i :: post ∧ s.floors i ≠ [] ∧ (∀ j ∈ post, s.floors j = []) ∧
      t.state = .loading ∧ t.currentFloor = floorOf i) ∨
    ((∀ i ∈ is, s.floors i = []) ∧ t.state = s.state ∧ t.currentFloor = s.currentFloor)

theorem floors_of_cargo {s t : State} (h : t.cargo = s.cargo) : t.floors = s.floors :=
  congrArg Cargo.floors h

theorem unloadings_of_cargo {s t : State} (h : t.cargo = s.cargo) : t.unloadings = s.unloadings :=
  congrArg (fun c : Cargo => Delivery.delivered (acts c.log)) h

/-- The scan goes on, `LOADING` at the floor of index `i`, in the state `r`. -/
theorem Scanned.cons {s r t : State} {i : Fin 10} {is : List (Fin 10)} (h : Scanned is r t)
    (hcargo : r.cargo = s.cargo) (hstate : r.state = .loading)
    (hfloor : r.currentFloor = floorOf i) (hi : s.floors i ≠ []) : Scanned (i :: is) s t := by
  refine ⟨h.cargo.trans hcargo, .inl ?_⟩
  have houtcome := h.outcome
  rw [floors_of_cargo hcargo] at houtcome
  rcases houtcome with ⟨pre, j, post, rfl, hlast⟩ | ⟨hnone, hsame, hat⟩
  · exact ⟨i :: pre, j, post, rfl, hlast⟩
  · exact ⟨[], i, is, rfl, hi, hnone, hsame.trans hstate, hat.trans hfloor⟩

/-- Nobody waits at the floor of index `i`. -/
theorem Scanned.skip {s t : State} {i : Fin 10} {is : List (Fin 10)} (h : Scanned is s t)
    (hi : s.floors i = []) : Scanned (i :: is) s t := by
  refine ⟨h.cargo, ?_⟩
  rcases h.outcome with ⟨pre, j, post, rfl, hlast⟩ | ⟨hnone, hsame⟩
  · exact .inl ⟨i :: pre, j, post, rfl, hlast⟩
  · exact .inr ⟨List.forall_mem_cons.2 ⟨hi, hnone⟩, hsame⟩

/-- The scan is at the loop head in the state `t`, or will return there. -/
def ScanReturns (s t : State) : Prop := s = t ∧ t.pc = .top ∨ s.pc ≠ .top ∧ Returns s t

theorem ScanReturns.of_schedule {s t : State} (h : ScanReturns (schedule granted s) t) :
    Returns s t := by
  rcases h with ⟨rfl, hpc⟩ | ⟨hpc, hret⟩
  · exact .top hpc
  · exact .mid hpc hret

/-- From anywhere, the scan is completed. -/
theorem exists_scanned {s : State} (hacc : Accounting s) (is : List (Fin 10)) :
    ∃ t, Scanned is s t ∧ ScanReturns (idleScan is s) t := by
  induction is generalizing s with
  | nil => exact ⟨s.goto .top, ⟨rfl, .inr ⟨by simp, rfl, rfl⟩⟩, .inl ⟨rfl, rfl⟩⟩
  | cons i is ih =>
    cases hq : s.floors i with
    | nil =>
      obtain ⟨t, hscan, hret⟩ := ih hacc
      exact ⟨t, hscan.skip hq, by simpa only [idleScan, hq] using hret⟩
    | cons p rest =>
      have hne : s.floors i ≠ [] := by simp [hq]
      have hfloor : p.startFloor = floorOf i := (hacc.queued i p (hq ▸ List.mem_cons_self)).2
      cases hm : moveElevator p.startFloor s with
      | some m =>
        obtain ⟨-, rfl⟩ := moveElevator_eq_some hm
        obtain ⟨t, hscan, hret⟩ := ih (s := (arrive p.startFloor (({ s with
          nextFloor := p.startFloor } : State).goto (.idleMove is p.startFloor))).setState .loading)
          { hacc with }
        refine ⟨t, hscan.cons rfl rfl hfloor hne, .inr ?_⟩
        simp only [idleScan, hq, hm]
        exact ⟨by simp, ScanReturns.of_schedule hret⟩
      | none =>
        obtain ⟨t, hscan, hret⟩ := ih (s := s.setState .loading) { hacc with }
        have hat := moveElevator_eq_none hm
        refine ⟨t, hscan.cons rfl rfl (hat.symm.trans hfloor) hne, ?_⟩
        simpa only [idleScan, hq, hm] using hret

/-- An iteration that starts `IDLE` serves nobody; it ends `LOADING` at the highest floor where
somebody waits, or stays `IDLE` if nobody does. -/
structure IdleScan (s t : State) : Prop where
  returns : Returns s t
  cargo : t.cargo = s.cargo
  outcome : (∃ i, s.floors i ≠ [] ∧ (∀ j, i < j → s.floors j = []) ∧ t.state = .loading ∧
      t.currentFloor = floorOf i) ∨ ((∀ i, s.floors i = []) ∧ t.state = .idle)

theorem exists_idleScan {s : State} (hacc : Accounting s) (hpc : s.pc = .top)
    (hidle : s.state = .idle) : ∃ t, IdleScan s t := by
  obtain ⟨t, ⟨hcargo, houtcome⟩, hret⟩ := exists_scanned hacc (List.finRange 10)
  rw [← schedule_idle granted hpc hidle] at hret
  refine ⟨t, ScanReturns.of_schedule hret, hcargo, ?_⟩
  rcases houtcome with ⟨pre, i, post, his, hi, hpost, hlast⟩ | ⟨hnone, hsame, -⟩
  · refine .inl ⟨i, hi, ?_, hlast⟩
    intro j hij
    have hsorted : (pre ++ i :: post).Pairwise (· < ·) := his ▸ List.pairwise_lt_finRange 10
    have hj : j ∈ pre ++ i :: post := his ▸ List.mem_finRange j
    rcases List.mem_append.1 hj with hj | hj
    · have hji := (List.pairwise_append.1 hsorted).2.2 j hj i List.mem_cons_self
      exact absurd hij (lt_asymm hji)
    · rcases List.mem_cons.1 hj with rfl | hj
      · exact absurd hij (lt_irrefl j)
      · exact hpost j hj
  · exact .inr ⟨fun i => hnone i (List.mem_finRange i), hsame.trans hidle⟩

/-- An iteration that starts `IDLE` is a scan. -/
theorem Returns.idleScan {s t : State} (h : Returns s t) (hacc : Accounting s) (hpc : s.pc = .top)
    (hidle : s.state = .idle) : IdleScan s t := by
  obtain ⟨u, hu⟩ := exists_idleScan hacc hpc hidle
  exact h.unique hu.returns ▸ hu

/-- In the `OFFLINE` branch, its loop or its end. -/
def Offloading (s : State) : Prop :=
  s.state = .offline ∧ (s.pc = .top ∨ s.pc = .drain ∨ ∃ floor, s.pc = .drainMove floor)

theorem offloading_drainPass {s : State} (hstate : s.state = .offline) :
    Offloading (drainPass s) ∧ ((drainPass s).pc = .top → (drainPass s).onboard = []) := by
  unfold drainPass
  split_ifs with hon
  · exact ⟨⟨hstate, .inl rfl⟩, fun _ => hon⟩
  · split
    · rename_i hm
      obtain ⟨-, rfl⟩ := moveElevator_eq_some hm
      exact ⟨⟨hstate, .inr (.inr ⟨_, rfl⟩)⟩, by simp⟩
    · exact ⟨⟨(unloadElevator_state _ s).trans hstate, .inr (.inl rfl)⟩, by simp⟩

theorem offloading_schedule {s : State} (h : Offloading s) :
    Offloading (schedule granted s) ∧
      ((schedule granted s).pc = .top → (schedule granted s).onboard = []) := by
  obtain ⟨hstate, hpc | hpc | ⟨floor, hpc⟩⟩ := h
  · rw [schedule_offline granted hpc hstate]
    exact offloading_drainPass (s := s.lock .offline granted) hstate
  · rw [schedule_drain granted hpc]
    exact offloading_drainPass hstate
  · rw [schedule_drainMove granted hpc]
    exact ⟨⟨(unloadElevator_state _ _).trans hstate, .inr (.inl rfl)⟩, by simp [drainArrive]⟩

/-- An iteration that starts `OFFLINE`, if it ends, ends `OFFLINE` with nobody on board. -/
theorem Returns.offload {s t : State} (h : Returns s t) (hs : Offloading s) :
    t.state = .offline ∧ t.onboard = [] := by
  induction h with
  | top hpc =>
    obtain ⟨hoff, hempty⟩ := offloading_schedule hs
    exact ⟨hoff.1, hempty hpc⟩
  | mid _ _ ih => exact ih (offloading_schedule hs).1

/-! ## Running sequentially -/

/-- The iteration from `s`, in at most `fuel` steps of the thread. -/
def finishIteration : Nat → State → Option State
  | 0, _ => none
  | fuel + 1, s =>
    if (schedule granted s).pc = .top then some (schedule granted s)
    else finishIteration fuel (schedule granted s)

theorem returns_of_finishIteration {fuel : Nat} {s t : State}
    (h : finishIteration fuel s = some t) : Returns s t := by
  induction fuel generalizing s with
  | zero => simp [finishIteration] at h
  | succ fuel ih =>
    unfold finishIteration at h
    split_ifs at h with hpc
    · exact Option.some.inj h ▸ .top hpc
    · exact .mid hpc (ih h)

/-- The operation, its iteration in at most `fuel` steps. -/
def Op.exec (fuel : Nat) : Op → State → Option State
  | .iteration => finishIteration fuel
  | .call c => fun s => some (c.exec s).2

theorem opStep_of_exec {fuel : Nat} {op : Op} {s t : State} (h : op.exec fuel s = some t) :
    OpStep op s t := by
  cases op with
  | iteration => exact .iteration (returns_of_finishIteration h)
  | call c => exact Option.some.inj h ▸ .call c s

/-- The state after a sequential run. -/
def seqAfter (fuel : Nat) (ops : List Op) : Option State :=
  ops.foldlM (fun s op => op.exec fuel s) elevatorInit

theorem seqRun_of_seqAfter {fuel : Nat} {ops : List Op} {s : State}
    (h : seqAfter fuel ops = some s) : SeqRun ops s := by
  induction ops using List.reverseRecOn generalizing s with
  | nil => exact Option.some.inj h ▸ .nil
  | append_singleton ops op ih =>
    rw [seqAfter, List.foldlM_append] at h
    obtain ⟨r, hr, hop⟩ := Option.bind_eq_some_iff.1 h
    simp only [List.foldlM_cons, List.foldlM_nil, bind_pure] at hop
    exact (ih hr).snoc (opStep_of_exec hop)

end KernelElevator
