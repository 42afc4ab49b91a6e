import KernelElevator.Scheduler

/-!
# What a step can do

Every step of every run is a sequence of *effects*: somebody is admitted, boards, is served where
it stands, or is let off, under the conditions the code checks; a floor is opened; or nothing
happens to the passengers. `step_effects` says so once, and the invariants of the module are
proved effect by effect. The parts of the scheduler that only choose where to go (`Steers`) are one
such step, which leaves the floor alone as well.
-/

namespace KernelElevator

open Relation (ReflTransGen)

/-- What `add_passenger` writes into a record. -/
structure Passenger.WellFormed (p : Passenger) : Prop where
  units : unitsOf p.type = some (p.weightUnits, p.spaceUnits)
  start : 1 ≤ p.startFloor ∧ p.startFloor ≤ 10
  destination : 1 ≤ p.destinationFloor ∧ p.destinationFloor ≤ 10
  state : p.state = directionOf p.startFloor p.destinationFloor

theorem directionOf_eq_equal {a b : Int} : directionOf a b = .equal ↔ a = b := by
  unfold directionOf
  split_ifs <;> simp <;> omega

inductive Effect : State → State → Prop
  /-- The passengers, their records and the counters stay as they are. -/
  | control (s : State) (previousState state : Status) (currentFloor nextFloor : Int)
      (started : Bool) (pc : Pc) (mutexLog : List MutexOp) :
      Effect s { s with
        previousState := previousState, state := state, currentFloor := currentFloor,
        nextFloor := nextFloor, started := started, pc := pc, mutexLog := mutexLog }
  | opened (s : State) : Effect s { s with log := s.log ++ [.opened s.currentFloor] }
  | admitted (s : State) (p : Passenger) : p.id = s.records → p.WellFormed →
      Effect s (s.allocate.link p)
  | boarded (s : State) (p : Passenger) (rest : List Passenger) :
      s.queue s.currentFloor = p :: rest → p.state ≠ .equal → Fits s p →
      Effect s (s.board s.currentFloor p)
  | servedHere (s : State) (p : Passenger) (rest : List Passenger) :
      s.queue s.currentFloor = p :: rest → p.state = .equal →
      Effect s (s.serveHere s.currentFloor p)
  | letOff (s : State) (p : Passenger) :
      p ∈ s.onboard → p.destinationFloor = s.currentFloor →
      Effect s (s.letOff s.currentFloor p)

/-- A sequence of effects. -/
abbrev Effects : State → State → Prop := ReflTransGen Effect

/-! ## Loading and unloading -/

theorem queue_serveHere {s : State} {floor : Int} {p : Passenger} {rest : List Passenger}
    (hq : s.queue floor = p :: rest) : (s.serveHere floor p).queue floor = rest := by
  have hf := bounds_of_getQueue s.floors (by rw [← State.queue, hq]; simp)
  simp [State.queue, State.serveHere, getQueue_putQueue _ hf] at hq ⊢
  simp [hq]

theorem queue_board {s : State} {floor : Int} {p : Passenger} {rest : List Passenger}
    (hq : s.queue floor = p :: rest) : (s.board floor p).queue floor = rest := by
  have hf := bounds_of_getQueue s.floors (by rw [← State.queue, hq]; simp)
  simp [State.queue, State.board, getQueue_putQueue _ hf] at hq ⊢
  simp [hq]

theorem loadLoop_effects {floor : Int} (ps : List Passenger) {s : State}
    (hf : s.currentFloor = floor) (hq : s.queue floor = ps) :
    Effects s (loadLoop floor ps s).2 := by
  induction ps generalizing s with
  | nil => exact .refl
  | cons p ps ih =>
    simp only [loadLoop]
    subst hf
    split_ifs with he hfits
    · exact .head (.servedHere s p ps hq he) (ih rfl (queue_serveHere hq))
    · exact .head (.boarded s p ps hq he hfits) (ih rfl (queue_board hq))
    · exact .refl

theorem loadElevator_effects (floor : Int) (s : State) : Effects s (loadElevator floor s).2 := by
  unfold loadElevator
  split_ifs with hf
  · exact .refl
  · have hf : s.currentFloor = floor := (not_not.1 hf).symm
    subst hf
    refine .head (.opened s) ?_
    dsimp only
    split_ifs
    · exact .refl
    · exact loadLoop_effects _ rfl rfl

/-- The traversal has kept `kept`, nobody of whom is for this floor, and still holds `ps`. -/
theorem unloadLoop_effects {floor : Int} (ps : List Passenger) {kept : List Passenger} {s : State}
    (hf : s.currentFloor = floor) (hon : s.onboard = kept ++ ps)
    (hkept : ∀ q ∈ kept, q.destinationFloor ≠ floor) : Effects s (unloadLoop floor ps s) := by
  induction ps generalizing s kept with
  | nil => exact .refl
  | cons p ps ih =>
    simp only [unloadLoop]
    subst hf
    split_ifs with hd
    · have hp : p ∉ kept := fun hmem => hkept p hmem hd
      refine .head (.letOff s p (by simp [hon]) hd) (ih rfl ?_ hkept)
      simp [State.letOff, hon, List.erase_append_right _ hp]
    · refine @ih (kept ++ [p]) s rfl (by simp [hon]) fun q hq => ?_
      rcases List.mem_append.1 hq with hq | hq
      · exact hkept q hq
      · rw [List.mem_singleton.1 hq]; exact hd

theorem unloadElevator_effects (floor : Int) (s : State) :
    Effects s (unloadElevator floor s).2 := by
  unfold unloadElevator
  split_ifs with hf
  · exact .refl
  · exact unloadLoop_effects s.onboard (not_not.1 hf) (List.nil_append _).symm (by simp)

/-! ## System calls -/

theorem exists_unitsOf {type : Int} (h : 1 ≤ type ∧ type ≤ 4) :
    ∃ units, unitsOf type = some units := by
  have hrange : type = 1 ∨ type = 2 ∨ type = 3 ∨ type = 4 := by omega
  rcases hrange with rfl | rfl | rfl | rfl <;> exact ⟨_, rfl⟩

/-- A request changes nothing, or a well-formed passenger joins its queue. -/
theorem issueRequest_cases (t a b : Int) (kmalloc : Bool) (s : State) :
    (issueRequest t a b kmalloc s).2 = s ∨
    ∃ p : Passenger, p.id = s.records ∧ p.WellFormed ∧
      (issueRequest t a b kmalloc s).2 = s.allocate.link p := by
  unfold issueRequest
  split_ifs with ht ha hb
  · exact .inl rfl
  · exact .inl rfl
  · exact .inl rfl
  cases kmalloc with
  | false => exact .inl rfl
  | true =>
    -- The type has been checked, so `add_passenger` knows it.
    obtain ⟨⟨weight, space⟩, hunits⟩ := exists_unitsOf (show 1 ≤ t ∧ t ≤ 4 by omega)
    refine .inr ⟨⟨s.records, weight, space, a, b, t, directionOf a b⟩, rfl,
      ⟨hunits, by simpa using by omega, by simpa using by omega, rfl⟩, ?_⟩
    simp only [addPassenger, hunits, if_true]

theorem issueRequest_effects (t a b : Int) (kmalloc : Bool) (s : State) :
    Effects s (issueRequest t a b kmalloc s).2 := by
  rcases issueRequest_cases t a b kmalloc s with hsame | ⟨p, hid, hp, hlink⟩
  · rw [hsame]
  · rw [hlink]
    exact .single (.admitted s p hid hp)

theorem call_effects (c : Call) (s : State) : Effects s (c.exec s).2 := by
  cases c with
  | start =>
    simp only [Call.exec, startElevator]
    split_ifs
    · exact .refl
    · exact .single (.control s ..)
  | stop =>
    simp only [Call.exec, stopElevator]
    split_ifs
    · exact .single (.control s ..)
    · exact .single (.control s ..)
    · exact .refl
  | request t a b kmalloc => exact issueRequest_effects t a b kmalloc s

/-! ## The scheduler -/

/-- All that the scheduler writes to decide where to go: neither its floor nor the passengers. -/
inductive Steers (s : State) : State → Prop
  | mk (state : Status) (nextFloor : Int) (pc : Pc) (mutexLog : List MutexOp) : Steers s
      { s with state := state, nextFloor := nextFloor, pc := pc, mutexLog := mutexLog }

namespace Steers

variable {s t u : State}

theorem refl (s : State) : Steers s s := .mk ..

theorem trans (h : Steers s t) (h' : Steers t u) : Steers s u := by
  cases h with
  | mk =>
    cases h' with
    | mk => exact .mk ..

theorem goto (h : Steers s t) (pc : Pc) : Steers s (t.goto pc) := h.trans (.mk ..)

theorem lock (h : Steers s t) (site : LockSite) (locks : Locks) : Steers s (t.lock site locks) :=
  h.trans (.mk ..)

theorem unlock (h : Steers s t) (site : LockSite) : Steers s (t.unlock site) := h.trans (.mk ..)

theorem setState (h : Steers s t) (status : Status) : Steers s (t.setState status) :=
  h.trans (.mk ..)

theorem move {floor : Int} (h : Steers s t) (hm : moveElevator floor t = some u) :
    Steers s u := by
  obtain ⟨-, rfl⟩ := moveElevator_eq_some hm
  exact h.trans (.mk ..)

theorem currentFloor (h : Steers s t) : t.currentFloor = s.currentFloor := by
  cases h with
  | mk => rfl

theorem effects (h : Steers s t) : Effects s t := by
  cases h with
  | mk => exact .single (.control s ..)

end Steers

theorem idleScan_steers (is : List (Fin 10)) (s : State) : Steers s (idleScan is s) := by
  induction is generalizing s with
  | nil => exact (Steers.refl s).goto _
  | cons i is ih =>
    unfold idleScan
    split
    · exact ih s
    · split
      · rename_i hm
        exact ((Steers.refl s).move hm).goto _
      · exact ((Steers.refl s).setState _).trans (ih _)

theorem endService_steers (s : State) : Steers s (endService s) := by
  by_cases hon : s.onboard = []
  · rw [endService, if_pos hon]
    exact ((Steers.refl s).setState _).goto _
  · rw [endService, if_neg hon]
    exact (Steers.refl s).goto _

theorem downPart_steers (locks : Locks) (s : State) : Steers s (downPart locks s) := by
  have hlock : Steers s (s.lock .down locks) := (Steers.refl s).lock _ _
  unfold downPart
  dsimp only
  split_ifs
  · exact ((hlock.setState _).unlock _).trans (endService_steers _)
  · split
    · rename_i hm
      exact (hlock.move hm).goto _
    · exact (hlock.unlock _).trans (endService_steers _)
  · exact hlock.trans (endService_steers _)
  · exact endService_steers s

theorem upPart_steers (locks : Locks) (s : State) : Steers s (upPart locks s) := by
  have hlock : Steers s (s.lock .up locks) := (Steers.refl s).lock _ _
  unfold upPart
  split_ifs
  · dsimp only
    split
    · rename_i hm
      exact (hlock.move hm).goto _
    · exact (hlock.unlock _).trans (downPart_steers _ _)
  · exact (hlock.unlock _).trans (downPart_steers _ _)
  · exact downPart_steers _ s

/-- A pass of the offload loop steers, unless the elevator is where `min_onboard` says. -/
theorem drainPass_cases (s : State) : Steers s (drainPass s) ∨
    drainPass s = (unloadElevator s.currentFloor s).2.goto .drain := by
  unfold drainPass
  split_ifs
  · exact .inl (((Steers.refl s).unlock _).goto _)
  · split
    · rename_i hm
      exact .inl (((Steers.refl s).move hm).goto _)
    · exact .inr rfl

theorem Effects.trans {s t u : State} (h : Effects s t) (h' : Effects t u) : Effects s u :=
  ReflTransGen.trans h h'

theorem Effects.goto {s t : State} (h : Effects s t) (pc : Pc) : Effects s (t.goto pc) :=
  h.tail (.control t ..)

theorem arrive_effects (floor : Int) (s : State) : Effects s (arrive floor s) :=
  .single (.control s ..)

theorem drainPass_effects (s : State) : Effects s (drainPass s) := by
  rcases drainPass_cases s with hsteers | hunload
  · exact hsteers.effects
  · rw [hunload]
    exact (unloadElevator_effects _ s).goto _

theorem schedule_effects (locks : Locks) (s : State) : Effects s (schedule locks s) := by
  have hstep := scheduled locks s
  generalize schedule locks s = t at hstep ⊢
  have hrefl := Steers.refl s
  cases hstep with
  | offline => exact (hrefl.lock _ _).effects.trans (drainPass_effects _)
  | offlineRefused => exact (((hrefl.lock _ _).unlock _).goto _).effects
  | idle => exact (idleScan_steers _ s).effects
  | service =>
    exact (((hrefl.lock _ _).setState _).effects.trans (unloadElevator_effects _ _)).goto _
  | serviceRefused => exact (((hrefl.lock _ _).unlock _).trans (upPart_steers _ _)).effects
  | drain => exact drainPass_effects s
  | drainMove floor =>
    exact ((arrive_effects floor s).trans (unloadElevator_effects _ _)).goto _
  | idleMove is floor =>
    have hsteers := ((Steers.refl (arrive floor s)).setState .loading).trans (idleScan_steers is _)
    exact (arrive_effects floor s).trans hsteers.effects
  | loadSleep =>
    have hload := loadElevator_effects s.currentFloor s
    have hsteers : Steers (loadElevator s.currentFloor s).2 (loadAndGo locks s) :=
      (((Steers.refl _).setState .up).unlock .service).trans (upPart_steers _ _)
    exact hload.trans hsteers.effects
  | upMove floor =>
    have hsteers := ((Steers.refl (arrive floor s)).unlock .up).trans (downPart_steers locks _)
    exact (arrive_effects floor s).trans hsteers.effects
  | downMove floor =>
    have hsteers := ((Steers.refl (arrive floor s)).unlock .down).trans (endService_steers _)
    exact (arrive_effects floor s).trans hsteers.effects

/-- **Every step is a sequence of effects.** -/
theorem step_effects (l : Label) (s : State) : Effects s (step l s) := by
  cases l with
  | sched locks => exact schedule_effects locks s
  | call c => exact call_effects c s

section Invariants

variable {I : State → Prop} (heff : ∀ s s', Effect s s' → I s → I s')
include heff

theorem of_effects {s t : State} (h : Effects s t) (hs : I s) : I t := by
  induction h with
  | refl => exact hs
  | tail _ h ih => exact heff _ _ h ih

/-- What every effect keeps, every step keeps. -/
theorem step_of_effect (l : Label) {s : State} (hs : I s) : I (step l s) :=
  of_effects heff (step_effects l s) hs

/-- What every effect keeps, every run keeps. -/
theorem run_of_effect (ls : List Label) {s : State} (hs : I s) : I (Machine.run step ls s) := by
  apply Machine.run_invariant _ ls hs
  intro l s hs
  exact step_of_effect heff l hs

end Invariants

end KernelElevator
