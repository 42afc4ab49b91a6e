import KernelElevator.Records

/-!
# Which records leak

`list_del` in `load_elevator` and `unload_elevator` takes a passenger off its list and drops the
record, and `delete_passenger` does not look at `onboard`. So a record is lost when its passenger
is served, on the spot or by `unload_elevator`, and when its passenger is on board at
`elevator_exit`; `records_kept_iff` says that nothing else is lost. No record is freed twice.
-/

namespace KernelElevator

open Machine

/-! ## Who is served by a step -/

/-- The floor for which the scheduler's next step calls `unload_elevator`, if it does. -/
def unloadFloor (locks : Locks) (s : State) : Option Int :=
  match s.pc with
  | .top =>
    if s.state = .offline then
      if locks .offline = true ∧ minOnboard s = s.currentFloor then some s.currentFloor else none
    else if s.state = .idle then none
    else if locks .service = true then some s.currentFloor
    else none
  | .drain => if minOnboard s = s.currentFloor then some s.currentFloor else none
  | .drainMove floor => some floor
  | _ => none

/-- The first passenger of the queue who is already there is reached: those before it fit. -/
def ReachesEqual (weight units : Int) (q : List Passenger) : Prop :=
  ∃ pre p post, q = pre ++ p :: post ∧ p.state = .equal ∧ (∀ r ∈ pre, r.state ≠ .equal) ∧
    weight + (pre.map Passenger.weightUnits).sum ≤ maxWeight ∧
    units + (pre.map Passenger.spaceUnits).sum ≤ maxUnits

/-- Nobody on board gets off at the floor of the next `unload_elevator`, and the next
`load_elevator` reaches nobody who is already there. -/
def ServesNobody (s : State) : Label → Prop
  | .call _ => True
  | .sched locks =>
    (∀ floor ∈ unloadFloor locks s, ∀ p ∈ s.onboard, p.destinationFloor ≠ floor) ∧
    (s.pc = .loadSleep →
      ¬ ReachesEqual s.currentWeight s.currentUnits (s.queue s.currentFloor))

/-- A first passenger who has a way to go is not the one reached. -/
theorem reachesEqual_cons {weight units : Int} {p : Passenger} {ps : List Passenger}
    (he : p.state ≠ .equal) : ReachesEqual weight units (p :: ps) ↔
      ReachesEqual (weight + p.weightUnits) (units + p.spaceUnits) ps := by
  constructor
  · intro h
    obtain ⟨pre, r, post, hq, hr, hpre, hw, hu⟩ := h
    cases pre with
    | nil =>
      obtain ⟨rfl, -⟩ := List.cons.inj hq
      exact absurd hr he
    | cons p' pre =>
      obtain ⟨rfl, rfl⟩ := List.cons.inj hq
      rw [List.map_cons, List.sum_cons] at hw hu
      refine ⟨pre, r, post, rfl, hr, fun r hr => hpre r (List.mem_cons_of_mem _ hr), ?_, ?_⟩
      · omega
      · omega
  · intro h
    obtain ⟨pre, r, post, rfl, hr, hpre, hw, hu⟩ := h
    refine ⟨p :: pre, r, post, rfl, hr, List.forall_mem_cons.2 ⟨he, hpre⟩, ?_, ?_⟩
    · rw [List.map_cons, List.sum_cons]
      omega
    · rw [List.map_cons, List.sum_cons]
      omega

/-- Behind a load beyond capacity nobody is reached. -/
theorem not_reachesEqual {weight units : Int} {q : List Passenger}
    (hfull : ¬ (weight ≤ maxWeight ∧ units ≤ maxUnits)) (hwf : ∀ p ∈ q, p.WellFormed) :
    ¬ ReachesEqual weight units q := by
  intro h
  obtain ⟨pre, r, post, rfl, -, -, hw, hu⟩ := h
  have hpre : ∀ p ∈ pre, p.WellFormed := fun p hp => hwf p (List.mem_append_left _ hp)
  have h1 := length_le_weigh fun p hp => (hpre p hp).units_bounds.1
  have h2 := length_le_weigh fun p hp => (hpre p hp).units_bounds.2.2.1
  simp only [Delivery.weigh] at h1 h2
  exact hfull ⟨by omega, by omega⟩

theorem reachesEqual_iff {weight units : Int} {q : List Passenger} (hw : weight ≤ maxWeight)
    (hu : units ≤ maxUnits) (hwf : ∀ p ∈ q, p.WellFormed) :
    ReachesEqual weight units q ↔ ∃ p ∈ taken weight units q, p.state = .equal := by
  induction q generalizing weight units with
  | nil => simp [ReachesEqual, taken]
  | cons p ps ih =>
    obtain ⟨-, hwf'⟩ := List.forall_mem_cons.1 hwf
    by_cases he : p.state = .equal
    · have hreach : ReachesEqual weight units (p :: ps) :=
        ⟨[], p, ps, rfl, he, by simp, by simpa using hw, by simpa using hu⟩
      rw [taken, if_pos he]
      exact iff_of_true hreach ⟨p, List.mem_cons_self, he⟩
    · rw [reachesEqual_cons he, taken, if_neg he]
      by_cases hfits : weight + p.weightUnits ≤ maxWeight ∧ units + p.spaceUnits ≤ maxUnits
      · rw [if_pos hfits, ih hfits.1 hfits.2 hwf']
        simp [he]
      · rw [if_neg hfits]
        exact iff_of_false (not_reachesEqual hfits hwf') (by simp)

/-! ## `total_served` counts them -/

theorem drainPass_total (s : State) : (drainPass s).totalServed = s.totalServed +
    ((if minOnboard s = s.currentFloor then some s.currentFloor else none).elim 0
      fun floor => s.onboard.countP (·.destinationFloor = floor) : Nat) := by
  by_cases hon : s.onboard = []
  · rw [drainPass, if_pos hon]
    split_ifs <;> simp [hon, State.goto, State.unlock]
  · by_cases hat : minOnboard s = s.currentFloor
    · rw [drainPass, if_neg hon, moveElevator, if_neg (not_not.2 hat), if_pos hat]
      exact (unload_spec s).2.2.2
    · rw [drainPass, if_neg hon, moveElevator, if_pos hat, if_neg hat]
      exact (add_zero _).symm

theorem Steers.total {s t : State} (h : Steers s t) : t.totalServed = s.totalServed :=
  congrArg Cargo.totalServed h.cargo

/-- How many a step of the scheduler serves. -/
theorem schedule_total (locks : Locks) (s : State) : (schedule locks s).totalServed =
    s.totalServed +
      ((unloadFloor locks s).elim 0 fun floor =>
        s.onboard.countP (·.destinationFloor = floor) : Nat) +
      (if s.pc = .loadSleep then (takenHere s).countP (·.state = .equal) else 0 : Nat) := by
  unfold unloadFloor
  have hstep := scheduled locks s
  generalize schedule locks s = t at hstep ⊢
  cases hstep with
  | offline hpc hoff hlock =>
    simp only [hpc, hoff, hlock, if_true, true_and, reduceCtorEq, if_false, Nat.cast_zero, add_zero]
    exact drainPass_total (s.lock .offline locks)
  | offlineRefused hpc hoff hlock =>
    simp only [hpc, hoff, hlock, if_true, reduceCtorEq, false_and, if_false, Option.elim_none,
      Nat.cast_zero, add_zero]
    rfl
  | idle hpc hidle =>
    simp only [hpc, hidle, if_true, reduceCtorEq, if_false, Option.elim_none, Nat.cast_zero,
      add_zero]
    exact (idleScan_steers _ s).total
  | service hpc hoff hidle hlock =>
    simp only [hpc, hoff, hidle, hlock, if_true, reduceCtorEq, if_false, Nat.cast_zero, add_zero]
    exact (unload_spec ((s.lock .service locks).setState .loading)).2.2.2
  | serviceRefused hpc hoff hidle hlock =>
    simp only [hpc, hoff, hidle, hlock, reduceCtorEq, if_false, Bool.false_eq_true,
      Option.elim_none, Nat.cast_zero, add_zero]
    exact (upPart_steers locks _).total
  | drain hpc =>
    simp only [hpc, reduceCtorEq, if_false, Nat.cast_zero, add_zero]
    exact drainPass_total s
  | drainMove floor hpc =>
    simp only [hpc, reduceCtorEq, if_false, Nat.cast_zero, add_zero]
    exact (unload_spec (arrive floor s)).2.2.2
  | idleMove is floor hpc =>
    simp only [hpc, reduceCtorEq, if_false, Option.elim_none, Nat.cast_zero, add_zero]
    exact (idleScan_steers is _).total
  | loadSleep hpc =>
    simp only [hpc, if_true, Option.elim_none, Nat.cast_zero, add_zero]
    exact (upPart_steers locks _).total.trans (load_spec s).2.2.2
  | upMove floor hpc =>
    simp only [hpc, reduceCtorEq, if_false, Option.elim_none, Nat.cast_zero, add_zero]
    exact (downPart_steers locks _).total
  | downMove floor hpc =>
    simp only [hpc, reduceCtorEq, if_false, Option.elim_none, Nat.cast_zero, add_zero]
    exact (endService_steers _).total

theorem call_total (c : Call) (s : State) : (c.exec s).2.totalServed = s.totalServed :=
  call_view Cargo.totalServed (fun _ _ => rfl) c s

theorem le_total_step (l : Label) (s : State) : s.totalServed ≤ (step l s).totalServed := by
  cases l with
  | sched locks =>
    show _ ≤ (schedule locks s).totalServed
    rw [schedule_total]
    omega
  | call c => exact (call_total c s).ge

/-- A step serves somebody unless it serves nobody. -/
theorem servesNobody_iff {s : State} (hacc : Accounting s) (l : Label) :
    ServesNobody s l ↔ (step l s).totalServed = s.totalServed := by
  cases l with
  | call c =>
    constructor
    · intro _
      exact call_total c s
    · intro _
      trivial
  | sched locks =>
    have hwf : ∀ p ∈ s.queue s.currentFloor, p.WellFormed := fun p hp => (hacc.of_queue hp).1
    have hunload : (unloadFloor locks s).elim 0
        (fun floor => s.onboard.countP (·.destinationFloor = floor)) = 0 ↔
        ∀ floor ∈ unloadFloor locks s, ∀ p ∈ s.onboard, p.destinationFloor ≠ floor := by
      cases unloadFloor locks s <;> simp [List.countP_eq_zero]
    have hload : (if s.pc = .loadSleep then (takenHere s).countP (·.state = .equal) else 0) = 0 ↔
        (s.pc = .loadSleep →
          ¬ ReachesEqual s.currentWeight s.currentUnits (s.queue s.currentFloor)) := by
      rw [reachesEqual_iff hacc.weight_le hacc.units_le hwf]
      split_ifs with hpc
      · simp [hpc, takenHere, List.countP_eq_zero]
      · simp [hpc]
    show _ ∧ _ ↔ (schedule locks s).totalServed = _
    rw [schedule_total, ← hunload, ← hload]
    omega

/-! ## Live and linked -/

/-- The live records are exactly those on the eleven lists. -/
def LiveLinked (s : State) : Prop :=
  ∀ id, id ∈ s.live ↔ ∃ p, ((∃ k, p ∈ s.floors k) ∨ p ∈ s.onboard) ∧ p.id = id

/-- Somebody accepted is on a list or served. -/
theorem Serves.linked_or_done {s : State} (h : Serves s) {p : Passenger} (hp : p ∈ s.accepted) :
    ((∃ k, p ∈ s.floors k) ∨ p ∈ s.onboard) ∨ p ∈ s.done := by
  have hone := h.count_eq_one hp
  by_contra hnone
  obtain ⟨⟨hfloor, hon⟩, hdone⟩ := (not_or.1 hnone).imp_left not_or.1
  have hqueue : p ∉ s.queue p.startFloor := by
    intro hq
    obtain ⟨k, -, hk⟩ := mem_getQueue hq
    exact hfloor ⟨k, hk⟩
  rw [← List.count_eq_zero] at hqueue hon hdone
  omega

theorem Serves.accepted_of_linked {s : State} (h : Serves s) {p : Passenger}
    (hp : (∃ k, p ∈ s.floors k) ∨ p ∈ s.onboard) : p ∈ s.accepted := by
  rcases hp with ⟨k, hk⟩ | hon
  · exact h.accepted_of_floor hk
  · exact h.accepted_of_onboard hon

theorem Serves.total_eq_zero {s : State} (h : Serves s) : s.totalServed = 0 ↔ s.done = [] := by
  rw [h.total, Nat.cast_eq_zero, List.length_eq_zero_iff]

/-- The record of somebody served stays live and is on no list. -/
theorem liveLinked_iff {s : State} (h : Serves s) (hledger : Ledger s) :
    LiveLinked s ↔ s.totalServed = 0 := by
  rw [h.total_eq_zero]
  constructor
  · intro hlinked
    rw [List.eq_nil_iff_forall_not_mem]
    intro p hp
    have hacc := h.accepted_of_done hp
    obtain ⟨q, hq, hid⟩ := (hlinked p.id).1 (hledger.mem_live.2 ⟨p, hacc, rfl⟩)
    obtain rfl := hledger.id_inj (h.accepted_of_linked hq) hacc hid
    rcases hq with ⟨k, hk⟩ | hon
    · exact h.not_queued_of_done hp k hk
    · exact h.not_onboard_of_done hp hon
  · intro hdone id
    rw [hledger.mem_live]
    constructor
    · intro h
      obtain ⟨p, hp, hid⟩ := h
      refine ⟨p, (h.linked_or_done hp).resolve_right ?_, hid⟩
      simp [hdone]
    · intro h
      obtain ⟨p, hp, hid⟩ := h
      exact ⟨p, h.accepted_of_linked hp, hid⟩

theorem total_nonneg (ls : List Label) : 0 ≤ (after ls).totalServed := by
  rw [(serves_after ls).total]
  exact Int.natCast_nonneg _

/-- Nobody has been served if and only if no step served anybody. -/
theorem total_eq_zero_iff (ls : List Label) :
    (after ls).totalServed = 0 ↔ Along step ServesNobody ls elevatorInit := by
  induction ls using List.reverseRecOn with
  | nil => exact ⟨fun _ => trivial, fun _ => rfl⟩
  | append_singleton ls l ih =>
    have hnonneg := total_nonneg ls
    have hle := le_total_step l (after ls)
    have hstep := servesNobody_iff (accounting_after ls) l
    rw [after_snoc, along_append, ← ih]
    constructor
    · intro hzero
      exact ⟨by omega, hstep.2 (by omega), trivial⟩
    · intro h
      obtain ⟨hzero, hnobody, -⟩ := h
      rw [hstep.1 hnobody, hzero]

/-! ## After `elevator_exit` -/

def freedId : Event → Option Nat
  | .freed id => some id
  | _ => none

/-- The records freed, in order. -/
def State.freedIds (s : State) : List Nat := s.log.filterMap freedId

theorem nodup_waiting {s : State} (h : Serves s) : (waiting s).Nodup := by
  refine List.nodup_flatMap.2 ⟨?_, ?_⟩
  · intro k _
    rw [List.nodup_iff_count_le_one]
    intro p
    by_cases hp : p ∈ s.floors k
    · have hone := h.count_eq_one (h.accepted_of_floor hp)
      rw [(h.accounting.queued k p hp).2, State.queue, getQueue_floorOf] at hone
      omega
    · rw [List.count_eq_zero.2 hp]
      exact Nat.zero_le 1
  · refine (List.nodup_finRange 10).imp ?_
    intro j k hne p hj hk
    have hsame := (h.accounting.queued j p hj).2.symm.trans (h.accounting.queued k p hk).2
    exact hne (floorOf_inj hsame)

theorem mem_waiting {s : State} {p : Passenger} : p ∈ waiting s ↔ ∃ k, p ∈ s.floors k := by
  simp [waiting]

theorem nodup_waiting_ids {s : State} (h : Serves s) (hledger : Ledger s) :
    ((waiting s).map Passenger.id).Nodup := by
  refine (nodup_waiting h).map_on ?_
  intro p hp q hq hid
  obtain ⟨j, hj⟩ := mem_waiting.1 hp
  obtain ⟨k, hk⟩ := mem_waiting.1 hq
  exact hledger.id_inj (h.accepted_of_floor hj) (h.accepted_of_floor hk) hid

/-- `elevator_exit` frees no record twice. -/
theorem nodup_freedIds {s : State} (h : Serves s) (hledger : Ledger s) :
    (elevatorExit s).freedIds.Nodup := by
  have hnone : s.log.filterMap freedId = [] := by
    rw [List.filterMap_eq_nil_iff]
    intro e he
    cases e with
    | freed id => exact absurd he (hledger.unfreed id)
    | _ => rfl
  have hfreed : (elevatorExit s).freedIds = (waiting s).map Passenger.id := by
    rw [State.freedIds, elevatorExit, deletePassenger_spec, List.filterMap_append, hnone,
      List.nil_append, List.filterMap_map]
    exact congrFun (List.filterMap_eq_map (f := Passenger.id)) (waiting s)
  rw [hfreed]
  exact nodup_waiting_ids h hledger

/-- The record of somebody accepted is freed if and only if its passenger is waiting. -/
theorem id_mem_waiting_iff {s : State} (h : Serves s) (hledger : Ledger s) {p : Passenger}
    (hp : p ∈ s.accepted) : p.id ∈ (waiting s).map Passenger.id ↔ ∃ k, p ∈ s.floors k := by
  rw [List.mem_map, ← mem_waiting]
  constructor
  · intro hmem
    obtain ⟨q, hq, hid⟩ := hmem
    obtain ⟨k, hk⟩ := mem_waiting.1 hq
    exact hledger.id_inj (h.accepted_of_floor hk) hp hid ▸ hq
  · intro hmem
    exact ⟨p, hmem, rfl⟩

/-- `elevator_exit` leaves the records of those accepted who are not waiting. -/
theorem mem_exit_live {s : State} (hledger : Ledger s) {id : Nat} :
    id ∈ (elevatorExit s).live ↔ id ∈ s.live ∧ id ∉ (waiting s).map Passenger.id := by
  have hnd : s.live.Nodup := by
    rw [hledger.live]
    exact List.nodup_range
  rw [elevatorExit, deletePassenger_spec]
  exact hnd.mem_sdiff_iff

/-- `elevator_exit` leaves no live record if and only if everybody accepted is waiting. -/
theorem exit_live_iff {s : State} (h : Serves s) (hledger : Ledger s) :
    (elevatorExit s).live = [] ↔ s.totalServed = 0 ∧ s.onboard = [] := by
  rw [List.eq_nil_iff_forall_not_mem, h.total_eq_zero]
  simp only [mem_exit_live hledger, not_and_not_right]
  constructor
  · intro hall
    have hfloor : ∀ p ∈ s.accepted, ∃ k, p ∈ s.floors k := fun p hp =>
      (id_mem_waiting_iff h hledger hp).1 (hall p.id (hledger.mem_live.2 ⟨p, hp, rfl⟩))
    refine ⟨List.eq_nil_iff_forall_not_mem.2 ?_, List.eq_nil_iff_forall_not_mem.2 ?_⟩
    · intro p hp
      obtain ⟨k, hk⟩ := hfloor p (h.accepted_of_done hp)
      exact h.not_queued_of_done hp k hk
    · intro p hp
      obtain ⟨k, hk⟩ := hfloor p (h.accepted_of_onboard hp)
      exact h.not_queued_of_onboard hp k hk
  · intro hempty id hid
    obtain ⟨hdone, hon⟩ := hempty
    obtain ⟨p, hp, rfl⟩ := hledger.mem_live.1 hid
    rw [id_mem_waiting_iff h hledger hp]
    rcases h.linked_or_done hp with (hk | hride) | hserved
    · exact hk
    · simp [hon] at hride
    · simp [hdone] at hserved

/-- No record of the run leaks: the live ones are on a list at every moment, and if the module is
removed at the end, `elevator_exit` leaves none and frees none twice. -/
def RecordsKept (ls : List Label) : Prop :=
  (∀ ks, ks <+: ls → LiveLinked (after ks)) ∧
  ((after ls).pc = .top →
    (elevatorExit (after ls)).live = [] ∧ (elevatorExit (after ls)).freedIds.Nodup)

/-- **Records are kept if and only if nobody is ever served, and nobody is on board at the end.** -/
theorem records_kept_iff (ls : List Label) : RecordsKept ls ↔
    Along step ServesNobody ls elevatorInit ∧
      ((after ls).pc = .top → (after ls).onboard = []) := by
  rw [← total_eq_zero_iff]
  constructor
  · intro hkept
    obtain ⟨hlinked, hexit⟩ := hkept
    refine ⟨(liveLinked_iff (serves_after ls) (ledger_after ls)).1 (hlinked ls List.prefix_rfl), ?_⟩
    intro hpc
    exact ((exit_live_iff (serves_after ls) (ledger_after ls)).1 (hexit hpc).1).2
  · intro hnone
    obtain ⟨hzero, hon⟩ := hnone
    refine ⟨?_, ?_⟩
    · intro ks hks
      obtain ⟨rest, rfl⟩ := hks
      have hnobody := along_append.1 ((total_eq_zero_iff _).1 hzero)
      exact (liveLinked_iff (serves_after ks) (ledger_after ks)).2
        ((total_eq_zero_iff ks).2 hnobody.1)
    · intro hpc
      exact ⟨(exit_live_iff (serves_after ls) (ledger_after ls)).2 ⟨hzero, hon hpc⟩,
        nodup_freedIds (serves_after ls) (ledger_after ls)⟩

/-- An adult asks for a ride from floor 1 to floor 1, and is served there. -/
def servedOnTheSpot : List Label :=
  [.call (.request adult 1 1 true), .call .start, .sched granted, .sched granted, .sched granted]

theorem servedOnTheSpot_leaks : ¬ RecordsKept servedOnTheSpot := by
  intro hkept
  have hlinked := hkept.1 servedOnTheSpot List.prefix_rfl
  have hzero := (liveLinked_iff (serves_after _) (ledger_after _)).1 hlinked
  exact absurd hzero (by decide)

end KernelElevator
