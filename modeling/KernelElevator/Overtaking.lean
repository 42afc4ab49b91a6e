import KernelElevator.Completion

/-!
# Overtaking

The elevator is no FIFO over the building: it sweeps, it goes to the highest occupied floor when
idle, and it serves everybody who is already there on the spot. How many later passengers does it
let off before somebody who heads a queue gets in? There is no bound (`no_bound`): each time the
elevator goes idle, a request from a higher floor takes it away again, and at one stop it serves any
number of passengers who are already there. But between two *setbacks*, an idle iteration or a stop
at the passenger's floor without room, it lets off at most 100 (`overtaking_bounded`), by the
potential of ten passengers for every stop to the passenger's floor.
-/

namespace KernelElevator

/-! ## Waiting at the head of a queue -/

/-- `p` is at the head of its floor's queue. -/
def IsHead (p : Passenger) (s : State) : Prop := (s.queue p.startFloor).head? = some p

instance (p : Passenger) (s : State) : Decidable (IsHead p s) := inferInstanceAs (Decidable (_ = _))

/-- One for an iteration that starts `IDLE` or stops at the floor of `p`. -/
def setback (p : Passenger) (op : Op) (s : State) : Nat :=
  if op = .iteration ∧ (s.state = .idle ∨ s.currentFloor = p.startFloor) then 1 else 0

/-- A stretch of a sequential run with `m` setbacks in which the elevator is running, no stop
succeeds and `p` stays at the head of its queue. -/
inductive Waits (p : Passenger) : Nat → State → State → Prop
  | refl {s : State} : s.started = true → IsHead p s → Waits p 0 s s
  | snoc {m : Nat} {s t u : State} {op : Op} : Waits p m s t → OpStep op t u →
      u.started = true → IsHead p u → Waits p (m + setback p op t) s u

theorem Waits.started {p : Passenger} {m : Nat} {s t : State} (h : Waits p m s t) :
    t.started = true := by
  cases h with
  | refl hstarted _ => exact hstarted
  | snoc _ _ hstarted _ => exact hstarted

theorem Waits.isHead {p : Passenger} {m : Nat} {s t : State} (h : Waits p m s t) : IsHead p t := by
  cases h with
  | refl _ hhead => exact hhead
  | snoc _ _ _ hhead => exact hhead

theorem Waits.seqRun {p : Passenger} {m : Nat} {ops : List Op} {s t : State} (h : Waits p m s t)
    (hrun : SeqRun ops s) : ∃ ops', SeqRun ops' t := by
  induction h with
  | refl => exact ⟨ops, hrun⟩
  | snoc _ hop _ _ ih =>
    obtain ⟨ops', hrun'⟩ := ih hrun
    exact ⟨_, hrun'.snoc hop⟩

theorem Waits.after {p : Passenger} {m : Nat} {ops : List Op} {s t : State} (h : Waits p m s t)
    (hrun : SeqRun ops s) : t.pc = .top ∧ ∃ ls, t = after ls := by
  obtain ⟨ops', hrun'⟩ := h.seqRun hrun
  exact hrun'.after

/-- How many of those accepted after `p` have been served. -/
def servedAfter (p : Passenger) (s : State) : Nat := s.done.countP (p.id < ·.id)

/-- How many of them `unload_elevator` has let off. -/
def ridersAfter (p : Passenger) (s : State) : Nat := s.unloadings.countP (p.id < ·.id)

/-- In a stretch with `m` setbacks, `count` grows by at most `bound m`. -/
def Bounds (count : Passenger → State → Nat) (bound : Nat → Nat) : Prop :=
  ∀ ops s t p m, SeqRun ops s → Waits p m s t → count p t ≤ count p s + bound m

/-- At most `bound` passengers issued later are served while somebody heads its queue. -/
def NoStarvation (bound : Nat) : Prop := Bounds servedAfter fun _ => bound

/-! ## The potential -/

/-- Ten for every stop to the floor of `p`, and the riders let off so far. -/
def potential (p : Passenger) (s : State) : Nat :=
  ridersAfter p s + 10 * ahead s.currentFloor p.startFloor

theorem call_unloadings (c : Call) (s : State) : (c.exec s).2.unloadings = s.unloadings := by
  apply call_view fun cargo => Delivery.delivered (acts cargo.log)
  intro s p
  show Delivery.delivered (acts (s.log ++ _)) = Delivery.delivered (acts s.log)
  simp [actOf, Delivery.deliveryOf]

/-- A service stop lets off at most ten. -/
theorem ServiceStop.ridersAfter_le {s u t : State} (h : ServiceStop s u t) (hacc : Accounting s)
    (p : Passenger) : ridersAfter p t ≤ ridersAfter p s + 10 := by
  have hlen := hacc.length_le
  have hunits := hacc.units_le
  have hfilter := List.length_filter_le (·.destinationFloor = s.currentFloor) s.onboard
  have hcount := List.countP_le_length (p := fun q : Passenger => decide (p.id < q.id))
    (l := s.onboard.filter (·.destinationFloor = s.currentFloor))
  rw [ridersAfter, h.unloadings, h.unloads.unloadings, List.countP_append, ← ridersAfter]
  simp only [maxUnits] at hunits
  omega

theorem potential_call {p : Passenger} (c : Call) {s : State} (hs : s.started = true)
    (ht : (c.exec s).2.started = true) : potential p (c.exec s).2 = potential p s := by
  rcases call_cases c s with hc | ⟨-, hclear, -⟩ | ⟨-, -, hc⟩
  · have hfloor : (c.exec s).2.currentFloor = s.currentFloor := congrArg Controls.currentFloor hc
    rw [potential, ridersAfter, call_unloadings, hfloor]
    rfl
  · simp [hs] at hclear
  · rw [hc] at ht
    exact absurd ht (by simp)

/-- A scan lets nobody off. -/
theorem IdleScan.potential_le {s t : State} (h : IdleScan s t) (p : Passenger) :
    potential p t ≤ potential p s + 100 := by
  have hsame := unloadings_of_cargo h.cargo
  have hahead := ahead_lt t.currentFloor p.startFloor
  rw [potential, potential, ridersAfter, ridersAfter, hsame]
  omega

/-- **One operation** raises the potential by at most 100, and not at all without a setback. -/
theorem potential_step {p : Passenger} {ops : List Op} {s t : State} {op : Op}
    (hrun : SeqRun ops s) (hop : OpStep op s t) (hs : s.started = true) (ht : t.started = true)
    (hhead : IsHead p s) : potential p t ≤ potential p s + 100 * setback p op s := by
  obtain ⟨hpc, ls, rfl⟩ := hrun.after
  have hacc := accounting_after ls
  have hoff := (poised_after ls).running hs
  cases hop with
  | call c =>
    rw [potential_call c hs ht]
    exact Nat.le_add_right _ _
  | iteration hret =>
    by_cases hidle : (after ls).state = .idle
    · have hone : setback p .iteration (after ls) = 1 := if_pos ⟨rfl, .inl hidle⟩
      rw [hone]
      exact (hret.idleScan hacc hpc hidle).potential_le p
    · have hstop := hret.serviceStop hpc hoff hidle
      have hriders := hstop.ridersAfter_le hacc p
      by_cases hat : (after ls).currentFloor = p.startFloor
      · have hahead := ahead_lt t.currentFloor p.startFloor
        have hone : setback p .iteration (after ls) = 1 := if_pos ⟨rfl, .inr hat⟩
        rw [potential, potential, hone]
        omega
      · -- The sweep comes one stop nearer.
        have hp : p ∈ (after ls).queue p.startFloor := List.mem_of_mem_head? hhead
        have hnext := ahead_nextUp ((placed_after ls).isFloor hpc hoff)
          (hacc.of_queue hp).1.start hat
        rw [← hstop.floor] at hnext
        rw [potential, potential]
        omega

/-- **Overtaking is bounded by the setbacks.** While `p` heads its queue, at most 100 passengers
issued later are let off, and 100 more for every setback. -/
theorem overtaking_bounded {ops : List Op} {s t : State} {p : Passenger} {m : Nat}
    (hrun : SeqRun ops s) (h : Waits p m s t) :
    ridersAfter p t ≤ ridersAfter p s + 100 * (m + 1) := by
  have hpotential : potential p t ≤ potential p s + 100 * m := by
    induction h with
    | refl => exact Nat.le_add_right _ _
    | snoc hwait hop hstarted _ ih =>
      obtain ⟨ops', hrun'⟩ := hwait.seqRun hrun
      have hstep := potential_step hrun' hop hwait.started hstarted hwait.isHead
      have hle := ih hrun
      omega
  have hahead := ahead_lt s.currentFloor p.startFloor
  rw [potential, potential] at hpotential
  omega

/-! ## There is no bound -/

theorem Waits.iteration {p : Passenger} {m : Nat} {s t u : State} (h : Waits p m s t)
    (hret : Returns t u) (hhead : IsHead p u) : Waits p (m + setback p .iteration t) s u :=
  h.snoc (.iteration hret) (hret.started.trans h.started) hhead

theorem Waits.request {p : Passenger} {m : Nat} {s t : State} (h : Waits p m s t)
    (type start dest : Int) (hhead : IsHead p (issueRequest type start dest true t).2) :
    Waits p m s (issueRequest type start dest true t).2 := by
  have hstarted := congrArg Controls.started (issueRequest_controls type start dest true t)
  exact h.snoc (.call (.request type start dest true) t) (hstarted.trans h.started) hhead

/-- The adult who waits at floor 1. -/
def waitingAdult : Passenger where
  id := 0
  weightUnits := 2
  spaceUnits := 1
  startFloor := 1
  destinationFloor := 2
  type := adult
  state := .up

/-- The adult who asks for a ride from floor 9 to floor 10. -/
def topRider (id : Nat) : Passenger where
  id := id
  weightUnits := 2
  spaceUnits := 1
  startFloor := 9
  destinationFloor := 10
  type := adult
  state := .up

/-- The adult waits at floor 1 and `nine` at floor 9, and `riding` are on board. -/
structure Scene (state : Status) (riding nine : List Passenger) (s : State) : Prop where
  state : s.state = state
  onboard : s.onboard = riding
  queue : s.queue = Function.update (Function.update (fun _ => []) 1 [waitingAdult]) 9 nine

theorem Scene.isHead {state : Status} {riding nine : List Passenger} {s : State}
    (h : Scene state riding nine s) : IsHead waitingAdult s := by
  rw [IsHead, h.queue]
  rfl

/-- An adult joins the queue of its floor. -/
theorem request_adult {start dest : Int} (hs : IsFloor start) (hd : IsFloor dest) (s : State) :
    (issueRequest adult start dest true s).2.queue = Function.update s.queue start
      (s.queue start ++ [⟨s.records, 2, 1, start, dest, adult, directionOf start dest⟩]) := by
  obtain ⟨hs1, hs2⟩ := hs
  obtain ⟨hd1, hd2⟩ := hd
  rw [issueRequest, if_neg (by decide), if_neg (by omega), if_neg (by omega)]
  exact getQueue_putQueue s.floors ⟨hs1, hs2⟩ _

theorem Scene.request {s : State} (h : Scene .idle [] [] s) :
    Scene .idle [] [topRider s.records] (issueRequest adult 9 10 true s).2 := by
  refine ⟨h.state, h.onboard, ?_⟩
  rw [request_adult (by decide) (by decide), h.queue, Function.update_self, Function.update_idem]
  rfl

/-- The scan passes floor 1 and settles at floor 9. -/
theorem Scene.scan {s : State} {q : Passenger} (h : Scene .idle [] [q] s) (hacc : Accounting s)
    (hpc : s.pc = .top) : ∃ t, Returns s t ∧ Scene .loading [] [q] t ∧ t.currentFloor = 9 ∧
      t.unloadings = s.unloadings := by
  have hfloors : ∀ i, s.floors i =
      Function.update (Function.update (fun _ => []) 1 [waitingAdult]) 9 [q] (floorOf i) := by
    intro i
    rw [← h.queue, State.queue, getQueue_floorOf]
  obtain ⟨t, hret, hcargo, houtcome⟩ := exists_idleScan hacc hpc h.state
  have hqueue : t.queue = s.queue := congrArg getQueue (floors_of_cargo hcargo)
  have hnine : s.floors 8 = [q] := hfloors 8
  rcases houtcome with ⟨i, hi, hlast, hstate, hat⟩ | ⟨hnone, -⟩
  · have hge : 8 ≤ i := by
      by_contra hlt
      rw [hlast 8 (not_le.1 hlt)] at hnine
      cases hnine
    have hne : i ≠ 9 := by
      rintro rfl
      exact hi (hfloors 9)
    obtain rfl : i = 8 := by omega
    exact ⟨t, hret, ⟨hstate, (congrArg Cargo.onboard hcargo).trans h.onboard, hqueue.trans h.queue⟩,
      hat, unloadings_of_cargo hcargo⟩
  · rw [hnone 8] at hnine
    cases hnine

theorem taken_nil (weight units : Int) : taken weight units [] = [] := rfl

/-- The stop at floor 9 takes the rider on board. -/
theorem Scene.pickUp {s : State} {id : Nat} (h : Scene .loading [] [topRider id] s)
    (hacc : Accounting s) (hpc : s.pc = .top) (hat : s.currentFloor = 9) :
    ∃ t, Returns s t ∧ Scene .up [topRider id] [] t ∧ t.currentFloor = 10 ∧
      t.unloadings = s.unloadings := by
  obtain ⟨t, hstop⟩ := exists_serviceStop hpc (by simp [h.state]) (by simp [h.state])
  have hempty : (schedule granted s).onboard = [] := by
    rw [hstop.unloads.onboard, h.onboard]
    rfl
  have hqueue : (schedule granted s).queue (schedule granted s).currentFloor = [topRider id] := by
    rw [hstop.unloads.queue, hstop.unloads.floor, hat, h.queue]
    rfl
  have hacc' : Accounting (schedule granted s) := accounting_step (.sched granted) hacc
  have hfits : Fits (schedule granted s) (topRider id) :=
    hacc'.fits_of_empty hempty (hacc'.of_queue (hqueue ▸ List.mem_cons_self)).1
  have htaken : takenHere (schedule granted s) = [topRider id] := by
    rw [takenHere, hqueue, taken, if_neg (by simp [topRider]), taken_nil]
    exact if_pos hfits
  have hon : t.onboard = [topRider id] := by
    rw [hstop.onboard, hempty, htaken]
    rfl
  refine ⟨t, hstop.returns, ⟨?_, hon, ?_⟩, ?_, ?_⟩
  · rw [hstop.state, hon, if_neg (by simp)]
  · rw [hstop.queue, hat, h.queue, htaken, Function.update_idem]
    rfl
  · rw [hstop.floor, hat]
    rfl
  · rw [hstop.unloadings, hstop.unloads.unloadings, h.onboard]
    exact List.append_nil _

/-- The stop at floor 10 lets the rider off, and leaves the elevator empty and idle. -/
theorem Scene.letOff {s : State} {id : Nat} (h : Scene .up [topRider id] [] s) (hpc : s.pc = .top)
    (hat : s.currentFloor = 10) : ∃ t, Returns s t ∧ Scene .idle [] [] t ∧
      t.unloadings = s.unloadings ++ [topRider id] := by
  obtain ⟨t, hstop⟩ := exists_serviceStop hpc (by simp [h.state]) (by simp [h.state])
  have hempty : (schedule granted s).onboard = [] := by
    rw [hstop.unloads.onboard, h.onboard, hat]
    rfl
  have hqueue : s.queue 10 = [] := by
    rw [h.queue]
    rfl
  have htaken : takenHere (schedule granted s) = [] := by
    rw [takenHere, hstop.unloads.queue, hstop.unloads.floor, hat, hqueue, taken_nil]
  have hon : t.onboard = [] := by
    rw [hstop.onboard, hempty, htaken]
    rfl
  refine ⟨t, hstop.returns, ⟨?_, hon, ?_⟩, ?_⟩
  · rw [hstop.state, if_pos hon]
  · rw [hstop.queue, hat, htaken, List.length_nil, List.drop_zero, Function.update_eq_self]
    exact h.queue
  · rw [hstop.unloadings, hstop.unloads.unloadings, h.onboard, hat]
    rfl

/-- A request at floor 9 takes the idle elevator away from floor 1, and it comes back idle. -/
theorem overtaken_once {ops : List Op} {s t : State} {m : Nat} (hrun : SeqRun ops s)
    (h : Waits waitingAdult m s t) (ht : Scene .idle [] [] t) :
    ∃ m' u, Waits waitingAdult m' s u ∧ Scene .idle [] [] u ∧
      u.unloadings = t.unloadings ++ [topRider t.records] := by
  have hat : ∀ {m u}, Waits waitingAdult m s u → Accounting u ∧ u.pc = .top := by
    intro m u hwait
    obtain ⟨hpc, ls, rfl⟩ := hwait.after hrun
    exact ⟨accounting_after ls, hpc⟩
  have h1 := h.request adult 9 10 ht.request.isHead
  obtain ⟨t2, hret, ht2, hnine, hunl2⟩ := ht.request.scan (hat h1).1 (hat h1).2
  have h2 := h1.iteration hret ht2.isHead
  obtain ⟨t3, hret, ht3, hten, hunl3⟩ := ht2.pickUp (hat h2).1 (hat h2).2 hnine
  have h3 := h2.iteration hret ht3.isHead
  obtain ⟨t4, hret, ht4, hunl4⟩ := ht3.letOff (hat h3).2 hten
  refine ⟨_, t4, h3.iteration hret ht4.isHead, ht4, ?_⟩
  rw [hunl4, hunl3, hunl2]
  exact congrArg (· ++ _) (call_unloadings (.request adult 9 10 true) t)

def adultWaits : State := (startElevator (issueRequest adult 1 2 true elevatorInit).2).2

theorem seqRun_adultWaits : SeqRun [.call (.request adult 1 2 true), .call .start] adultWaits :=
  (SeqRun.nil.snoc (.call (.request adult 1 2 true) _)).snoc (.call .start _)

theorem scene_adultWaits : Scene .idle [] [] adultWaits := by
  refine ⟨rfl, rfl, ?_⟩
  have hempty : getQueue elevatorInit.floors = fun _ => [] := by
    funext floor
    cases hk : slot floor <;> simp [getQueue, hk, elevatorInit]
  show getQueue (putQueue elevatorInit.floors 1 [waitingAdult]) = _
  rw [getQueue_putQueue _ (by decide), hempty]
  exact (Function.update_eq_self 9 _).symm

/-- The adult is overtaken as often as requests come from floor 9. -/
theorem overtaken (n : Nat) : ∃ m t, Waits waitingAdult m adultWaits t ∧ Scene .idle [] [] t ∧
    t.unloadings.length = n := by
  induction n with
  | zero => exact ⟨0, adultWaits, .refl rfl scene_adultWaits.isHead, scene_adultWaits, rfl⟩
  | succ n ih =>
    obtain ⟨m, t, hwait, ht, hlength⟩ := ih
    obtain ⟨m', u, hwait', hu, hunl⟩ := overtaken_once seqRun_adultWaits hwait ht
    refine ⟨m', u, hwait', hu, ?_⟩
    rw [hunl, List.length_append, hlength]
    rfl

/-- The elevator stands at floor 3, where `n` passengers are at their destination. -/
structure Crowd (n : Nat) (s : State) : Prop where
  state : s.state = .loading
  floor : s.currentFloor = 3
  onboard : s.onboard = []
  head : IsHead waitingAdult s
  length : (s.queue 3).length = n
  equal : ∀ q ∈ s.queue 3, q.state = .equal
  total : s.totalServed = 0

theorem Crowd.request {n : Nat} {s : State} (h : Crowd n s) :
    Crowd (n + 1) (issueRequest adult 3 3 true s).2 := by
  have hqueue := request_adult (show IsFloor 3 by decide) (show IsFloor 3 by decide) s
  refine ⟨h.state, h.floor, h.onboard, ?_, ?_, ?_, h.total⟩
  · rw [IsHead, hqueue, Function.update_of_ne (by decide)]
    exact h.head
  · rw [hqueue, Function.update_self, List.length_append, h.length]
    rfl
  · rw [hqueue, Function.update_self]
    intro q hq
    rcases List.mem_append.1 hq with hq | hq
    · exact h.equal q hq
    · rw [List.mem_singleton.1 hq]
      rfl

theorem taken_of_equal {weight units : Int} {q : List Passenger}
    (h : ∀ p ∈ q, p.state = .equal) : taken weight units q = q := by
  induction q with
  | nil => rfl
  | cons p q ih =>
    obtain ⟨hp, hq⟩ := List.forall_mem_cons.1 h
    rw [taken, if_pos hp, ih hq]

/-- One stop serves them all, and the adult still waits. -/
theorem Crowd.served {n : Nat} {s : State} (h : Crowd n s) (hpc : s.pc = .top) :
    ∃ t, Returns s t ∧ IsHead waitingAdult t ∧ t.totalServed = n := by
  obtain ⟨t, hstop⟩ := exists_serviceStop hpc (by simp [h.state]) (by simp [h.state])
  have htaken : takenHere (schedule granted s) = s.queue 3 := by
    rw [takenHere, hstop.unloads.queue, hstop.unloads.floor, h.floor]
    exact taken_of_equal h.equal
  have hcount : (s.queue 3).countP (·.state = .equal) = n := by
    rw [List.countP_eq_length.2 (by simpa using h.equal), h.length]
  refine ⟨t, hstop.returns, ?_, ?_⟩
  · rw [IsHead, hstop.queue, h.floor, Function.update_of_ne (by decide)]
    exact h.head
  · rw [hstop.total, hstop.unloads.total, h.total, h.onboard, htaken, hcount]
    simp

def thirdFloor : List Op :=
  [.call (.request adult 1 2 true), .call (.request adult 3 3 true), .call .start, .iteration]

def atThird : State := (seqAfter 12 thirdFloor).get (by decide)

theorem seqRun_thirdFloor : SeqRun thirdFloor atThird :=
  seqRun_of_seqAfter (Option.some_get _).symm

theorem crowd_atThird : Crowd 1 atThird :=
  ⟨by decide, by decide, by decide, by decide, by decide, by decide, by decide⟩

theorem crowded (n : Nat) : ∃ t, Waits waitingAdult 0 atThird t ∧ Crowd (n + 1) t := by
  induction n with
  | zero => exact ⟨atThird, .refl (by decide) crowd_atThird.head, crowd_atThird⟩
  | succ n ih =>
    obtain ⟨t, hwait, ht⟩ := ih
    exact ⟨_, hwait.request adult 3 3 ht.request.head, ht.request⟩

theorem served_on_the_spot (n : Nat) : ∃ t, Waits waitingAdult 0 atThird t ∧
    t.totalServed = n + 1 := by
  obtain ⟨s, hwait, hs⟩ := crowded n
  obtain ⟨t, hret, hhead, htotal⟩ := hs.served (hwait.after seqRun_thirdFloor).1
  have hnone : setback waitingAdult .iteration s = 0 :=
    if_neg (by simp [hs.state, hs.floor, waitingAdult])
  have hwait' := hwait.iteration hret hhead
  rw [hnone] at hwait'
  exact ⟨t, hwait', by simpa using htotal⟩

/-- Everybody served while the adult waits was accepted after it. -/
theorem later_of_done {s : State} (hs : ∃ ls, s = after ls) (hhead : IsHead waitingAdult s) :
    ∀ q ∈ s.done, waitingAdult.id < q.id := by
  obtain ⟨ls, rfl⟩ := hs
  intro q hq
  by_contra hle
  have hserves := serves_after ls
  have hp : waitingAdult ∈ (after ls).queue 1 := List.mem_of_mem_head? hhead
  have hid : q.id = waitingAdult.id := Nat.eq_zero_of_not_pos hle
  have hsame := (ledger_after ls).id_inj (hserves.accepted_of_done hq)
    (hserves.accepted_of_queue hp) hid
  rw [hsame] at hq
  exact hserves.not_queued_of_done hq 0 hp

theorem servedAfter_eq {s : State} (hs : ∃ ls, s = after ls) (hhead : IsHead waitingAdult s) :
    (servedAfter waitingAdult s : Int) = s.totalServed := by
  have hlater := later_of_done hs hhead
  obtain ⟨ls, rfl⟩ := hs
  rw [(serves_after ls).total, servedAfter, List.countP_eq_length.2 (by simpa using hlater)]

theorem ridersAfter_eq {s : State} (hs : ∃ ls, s = after ls) (hhead : IsHead waitingAdult s) :
    ridersAfter waitingAdult s = s.unloadings.length := by
  apply List.countP_eq_length.2
  intro q hq
  simpa using later_of_done hs hhead q (Delivery.delivered_subset_done _ hq)

theorem riders_not_bounded (bound : Nat) : ¬ Bounds ridersAfter fun _ => bound := by
  intro h
  obtain ⟨m, t, hwait, ht, hlength⟩ := overtaken (bound + 1)
  have hle := h _ _ _ _ _ seqRun_adultWaits hwait
  have hzero : ridersAfter waitingAdult adultWaits = 0 := rfl
  rw [ridersAfter_eq (hwait.after seqRun_adultWaits).2 ht.isHead, hlength, hzero] at hle
  dsimp only at hle
  omega

theorem served_not_bounded (bound : Nat) : ¬ Bounds servedAfter fun m => bound * (m + 1) := by
  intro h
  obtain ⟨t, hwait, htotal⟩ := served_on_the_spot bound
  have hle := h _ _ _ _ _ seqRun_thirdFloor hwait
  have heq := servedAfter_eq (hwait.after seqRun_thirdFloor).2 hwait.isHead
  have hzero : servedAfter waitingAdult atThird = 0 := by decide
  rw [hzero] at hle
  dsimp only at hle
  omega

theorem NoStarvation.bounds {bound : Nat} (h : NoStarvation bound) :
    Bounds servedAfter fun m => bound * (m + 1) := by
  intro ops s t p m hrun hwait
  have hle : servedAfter p t ≤ servedAfter p s + bound := h ops s t p m hrun hwait
  have hmul : bound ≤ bound * (m + 1) := Nat.le_mul_of_pos_right bound (Nat.succ_pos m)
  dsimp only
  omega

/-- **There is no bound.** Riders alone overtake without bound, with setbacks; and without any
setback, those who are already there. -/
theorem no_bound : (¬ ∃ bound, NoStarvation bound) ∧
    (¬ ∃ bound, Bounds ridersAfter fun _ => bound) ∧
    ¬ ∃ bound, Bounds servedAfter fun m => bound * (m + 1) := by
  refine ⟨?_, ?_, ?_⟩
  · intro hbound
    obtain ⟨bound, h⟩ := hbound
    exact served_not_bounded bound h.bounds
  · intro hbound
    obtain ⟨bound, h⟩ := hbound
    exact riders_not_bounded bound h
  · intro hbound
    obtain ⟨bound, h⟩ := hbound
    exact served_not_bounded bound h

/-! ## A stretch without setbacks -/

/-- While the adult waits at floor 1, somebody rides from floor 3 to floor 4. -/
def passingBy : List Op :=
  [.call (.request adult 1 2 true), .call (.request adult 3 4 true), .call .start, .iteration]

def beforeRide : State := (seqAfter 12 passingBy).get (by decide)
def inRide : State := (finishIteration 12 beforeRide).get (by decide)
def afterRide : State := (finishIteration 12 inRide).get (by decide)

theorem seqRun_passingBy : SeqRun passingBy beforeRide :=
  seqRun_of_seqAfter (Option.some_get _).symm

theorem waits_afterRide : Waits waitingAdult 0 beforeRide afterRide := by
  have hboard : Returns beforeRide inRide := returns_of_finishIteration (Option.some_get _).symm
  have hleave : Returns inRide afterRide := returns_of_finishIteration (Option.some_get _).symm
  have hstart : Waits waitingAdult 0 beforeRide beforeRide := .refl (by decide) (by decide)
  exact (hstart.iteration hboard (by decide)).iteration hleave (by decide)

theorem afterRide_overtaken : ridersAfter waitingAdult afterRide = 1 ∧
    ridersAfter waitingAdult afterRide ≤ ridersAfter waitingAdult beforeRide + 100 :=
  ⟨by decide, overtaking_bounded seqRun_passingBy waits_afterRide⟩

end KernelElevator
