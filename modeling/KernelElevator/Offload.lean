import KernelElevator.Position

/-!
# The offload loop

The loop of the `OFFLINE` branch moves to the floor `min_onboard` returns and unloads there, until
nobody is on board. `min_onboard` needs a recorded direction. With one, every pass lets somebody
off and the loop ends, whatever is called in between (`Draining`, with the variant `toGo`); without
one it answers -1 and the loop never ends. `stop_elevator` records a direction only if it finds the
state `UP` or `DOWN`, so a stop during `ssleep(1)` of a service stop records none.
-/

namespace KernelElevator

open Machine

/-- The `OFFLINE` branch, run next, finds somebody on board and calls `min_onboard`. -/
def CallsMinOnboard (locks : Locks) (s : State) : Prop :=
  s.onboard ≠ [] ∧ (s.pc = .drain ∨ s.pc = .top ∧ s.state = .offline ∧ locks .offline = true)

instance (locks : Locks) (s : State) : Decidable (CallsMinOnboard locks s) :=
  inferInstanceAs (Decidable (_ ∧ _))

/-- The end of the pass that starts at `s`, with `calls` coming during its move if there is one. -/
def passFrom (locks locks' : Locks) (calls : List Call) (s : State) : State :=
  if (schedule locks s).pc = .drain then schedule locks s
  else schedule locks' (run step (calls.map .call) (schedule locks s))

/-- What the loop is to do from the pass that starts at `s`. -/
structure Offloads (locks : Locks) (s : State) : Prop where
  destination : ∃ p ∈ s.onboard, minOnboard s = p.destinationFloor
  floor : IsFloor s.currentFloor
  /-- The pass ends at the floor `min_onboard` returned, with fewer people on board. -/
  removes : ∀ locks' calls, (passFrom locks locks' calls s).pc = .drain ∧
    (passFrom locks locks' calls s).currentFloor = minOnboard s ∧
    (passFrom locks locks' calls s).onboard.length < s.onboard.length
  /-- As long as the loop runs the elevator is in the building. -/
  stays : ∀ ls, (∀ ms, ms <+: ls → (run step ms (schedule locks s)).pc ≠ .top) →
    IsFloor (run step ls (schedule locks s)).currentFloor
  /-- The loop ends, within two steps of the thread for each passenger. -/
  ends : ∀ ls : List Label, 2 * s.onboard.length ≤ ls.countP Label.isSched →
    ∃ ms, ms <+: ls ∧ (run step ms (schedule locks s)).pc = .top

/-! ## Draining -/

/-- The loop is running and has a direction. -/
structure Draining (s : State) : Prop where
  accounting : Accounting s
  direction : s.previousState = .up ∨ s.previousState = .down
  state : s.state = .offline ∨ s.state = .idle
  floor : IsFloor s.currentFloor
  pc : s.pc = .drain ∨ ∃ p ∈ s.onboard, s.pc = .drainMove p.destinationFloor

/-- The variant: two steps for each passenger, one fewer in the middle of a pass. -/
def toGo (s : State) : Nat :=
  if s.pc = .drain then 2 * s.onboard.length else 2 * s.onboard.length - 1

/-- Unloading where somebody gets off ends a pass. -/
theorem draining_unload {s : State} (hacc : Accounting s)
    (hdir : s.previousState = .up ∨ s.previousState = .down)
    (hstate : s.state = .offline ∨ s.state = .idle) {p : Passenger} (hp : p ∈ s.onboard)
    (hd : p.destinationFloor = s.currentFloor) :
    Draining ((unloadElevator s.currentFloor s).2.goto .drain) ∧
      toGo ((unloadElevator s.currentFloor s).2.goto .drain) < 2 * s.onboard.length - 1 := by
  have hlt := unload_length_lt hp hd
  refine ⟨⟨?_, ?_, ?_, ?_, .inl rfl⟩, ?_⟩
  · exact accounting_effects ((unloadElevator_effects _ s).goto _) hacc
  · show (unloadElevator _ s).2.previousState = _ ∨ (unloadElevator _ s).2.previousState = _
    rwa [unloadElevator_previousState]
  · show (unloadElevator _ s).2.state = _ ∨ (unloadElevator _ s).2.state = _
    rwa [unloadElevator_state]
  · show IsFloor (unloadElevator _ s).2.currentFloor
    rw [unloadElevator_currentFloor, ← hd]
    exact (hacc.riding p hp).1.destination
  · show 2 * (unloadElevator s.currentFloor s).2.onboard.length < _
    omega

theorem drainPass_some {s : State} (hon : s.onboard ≠ []) (hne : minOnboard s ≠ s.currentFloor) :
    drainPass s =
      { s with nextFloor := minOnboard s, pc := .drainMove (minOnboard s) } := by
  simp only [drainPass, if_neg hon, moveElevator, if_pos hne]
  rfl

theorem drainPass_none {s : State} (hon : s.onboard ≠ []) (heq : minOnboard s = s.currentFloor) :
    drainPass s = (unloadElevator s.currentFloor s).2.goto .drain := by
  simp only [drainPass, if_neg hon, moveElevator, if_neg (not_not.2 heq)]

/-- A pass with a direction keeps the loop draining and lowers the variant. -/
theorem draining_drainPass {s : State} (hacc : Accounting s)
    (hdir : s.previousState = .up ∨ s.previousState = .down)
    (hstate : s.state = .offline ∨ s.state = .idle) (hfloor : IsFloor s.currentFloor)
    (hon : s.onboard ≠ []) :
    Draining (drainPass s) ∧ toGo (drainPass s) < 2 * s.onboard.length := by
  obtain ⟨p, hp⟩ := List.exists_mem_of_ne_nil _ hon
  obtain ⟨q, hq, hmin⟩ := minOnboard_mem hfloor hdir hp (hacc.riding p hp).1.destination
  have hlen := List.length_pos_of_mem hp
  by_cases heq : minOnboard s = s.currentFloor
  · obtain ⟨hdrain, hlt⟩ := draining_unload hacc hdir hstate hq (hmin.symm.trans heq)
    rw [drainPass_none hon heq]
    exact ⟨hdrain, by omega⟩
  · rw [drainPass_some hon heq]
    refine ⟨⟨?_, hdir, hstate, hfloor, .inr ⟨q, hq, by rw [hmin]⟩⟩, ?_⟩
    · exact { hacc with }
    · show (if _ then _ else 2 * s.onboard.length - 1) < _
      rw [if_neg (by simp)]
      omega

/-- A step of the thread ends the loop or lowers the variant. -/
theorem draining_schedule {s : State} (h : Draining s) (locks : Locks) :
    (schedule locks s).pc = .top ∨
      (Draining (schedule locks s) ∧ toGo (schedule locks s) < toGo s) := by
  rcases h.pc with hpc | ⟨p, hp, hpc⟩
  · rw [schedule_drain locks hpc]
    by_cases hon : s.onboard = []
    · left
      rw [drainPass, if_pos hon]
      rfl
    · right
      rw [toGo.eq_def s, if_pos hpc]
      exact draining_drainPass h.accounting h.direction h.state h.floor hon
  · right
    have hacc : Accounting (arrive p.destinationFloor s) := { h.accounting with }
    have htoGo : toGo s = 2 * s.onboard.length - 1 := by simp [toGo, hpc]
    rw [schedule_drainMove locks hpc, htoGo]
    exact draining_unload hacc h.direction h.state hp rfl

theorem draining_call {s : State} (h : Draining s) (c : Call) :
    Draining (c.exec s).2 ∧ toGo (c.exec s).2 = toGo s := by
  have hacc : Accounting (c.exec s).2 := accounting_step (.call c) h.accounting
  have hon := call_onboard c s
  obtain ⟨-, hdir, hstate, hfloor, hpc⟩ := h
  rcases call_cases c s with hc | ⟨-, -, hc⟩ | ⟨-, -, hc⟩
  · simp only [State.controls, Controls.mk.injEq] at hc
    obtain ⟨hcprev, hcstate, hcfloor, -, -, hcpc⟩ := hc
    refine ⟨⟨hacc, ?_, ?_, ?_, ?_⟩, ?_⟩
    · rwa [hcprev]
    · rwa [hcstate]
    · rwa [hcfloor]
    · rwa [hcpc, hon]
    · rw [toGo, toGo, hcpc, hon]
  · rw [hc] at hacc ⊢
    exact ⟨⟨hacc, hdir, .inr rfl, isFloor_one, hpc⟩, rfl⟩
  · have hnone : ¬ (s.state = .up ∨ s.state = .down) := by
      rcases hstate with hs | hs <;> simp [hs]
    rw [hc, if_neg hnone] at hacc ⊢
    exact ⟨⟨hacc, hdir, .inl rfl, hfloor, hpc⟩, rfl⟩

/-- A pass, started at the loop head or in the loop, is `drainPass`. -/
theorem CallsMinOnboard.schedule_eq {locks : Locks} {s : State} (h : CallsMinOnboard locks s) :
    ∃ mutexLog, schedule locks s = drainPass { s with mutexLog := mutexLog } := by
  obtain ⟨-, hpc | ⟨hpc, hstate, hlock⟩⟩ := h
  · exact ⟨s.mutexLog, schedule_drain locks hpc⟩
  · refine ⟨(s.lock .offline locks).mutexLog, ?_⟩
    rw [schedule_offline locks hpc hstate, offlineBranch, if_pos hlock]
    rfl

/-- Calls leave a move of the loop and the passengers on board alone. -/
theorem calls_frame (calls : List Call) (s : State) :
    (run step (calls.map .call) s).pc = s.pc ∧
      (run step (calls.map .call) s).onboard = s.onboard := by
  induction calls generalizing s with
  | nil => exact ⟨rfl, rfl⟩
  | cons c calls ih =>
    obtain ⟨hpc, hon⟩ := ih (c.exec s).2
    exact ⟨hpc.trans (call_pc c s), hon.trans (call_onboard c s)⟩

theorem drainArrive_spec {s : State} {p : Passenger} (hp : p ∈ s.onboard) :
    (drainArrive p.destinationFloor s).pc = .drain ∧
      (drainArrive p.destinationFloor s).currentFloor = p.destinationFloor ∧
      (drainArrive p.destinationFloor s).onboard.length < s.onboard.length := by
  refine ⟨rfl, ?_, ?_⟩
  · show (unloadElevator _ _).2.currentFloor = _
    rw [unloadElevator_currentFloor]
    rfl
  · exact unload_length_lt (s := arrive p.destinationFloor s) hp rfl

/-- Whoever `min_onboard` picked is let off by the pass. -/
theorem passFrom_spec {locks : Locks} {s : State} (h : CallsMinOnboard locks s) {p : Passenger}
    (hp : p ∈ s.onboard) (hmin : minOnboard s = p.destinationFloor) (locks' : Locks)
    (calls : List Call) :
    (passFrom locks locks' calls s).pc = .drain ∧
      (passFrom locks locks' calls s).currentFloor = minOnboard s ∧
      (passFrom locks locks' calls s).onboard.length < s.onboard.length := by
  obtain ⟨mutexLog, heq⟩ := h.schedule_eq
  have hmin' : minOnboard { s with mutexLog := mutexLog } = minOnboard s := rfl
  by_cases hat : minOnboard s = s.currentFloor
  · have hpass := drainPass_none (s := { s with mutexLog := mutexLog }) h.1 hat
    rw [← heq] at hpass
    rw [passFrom, hpass, if_pos (State.goto_pc _ _)]
    refine ⟨rfl, ?_, ?_⟩
    · show (unloadElevator _ _).2.currentFloor = _
      rw [unloadElevator_currentFloor, hat]
    · exact unload_length_lt (s := { s with mutexLog := mutexLog }) hp (hmin.symm.trans hat)
  · have hpass := drainPass_some (s := { s with mutexLog := mutexLog }) h.1 hat
    rw [← heq, hmin'] at hpass
    have hpc := (calls_frame calls (schedule locks s)).1.trans (congrArg State.pc hpass)
    have hon := (calls_frame calls (schedule locks s)).2.trans (congrArg State.onboard hpass)
    rw [passFrom, if_neg (by simp [hpass])]
    generalize run step (calls.map .call) (schedule locks s) = t at hpc hon ⊢
    rw [schedule_drainMove locks' hpc, hmin, ← show t.onboard = s.onboard from hon]
    exact drainArrive_spec (hon ▸ hp)

/-! ## Whole runs of the loop -/

/-- As long as the loop runs the elevator is in the building. -/
theorem Draining.isFloor_run {s : State} (h : Draining s) {ls : List Label}
    (hloop : ∀ ms, ms <+: ls → (run step ms s).pc ≠ .top) :
    IsFloor (run step ls s).currentFloor := by
  have hstep : ∀ l t, Draining t → (step l t).pc = .top ∨ Draining (step l t) := by
    intro l t ht
    cases l with
    | sched locks => exact (draining_schedule ht locks).imp_right And.left
    | call c => exact .inr (draining_call ht c).1
  rcases run_until (fun t => t.pc = .top) hstep ls h with ⟨ms, hms, htop⟩ | hend
  · exact absurd htop (hloop ms hms)
  · exact hend.floor

theorem Draining.ends {s : State} (h : Draining s) {ls : List Label}
    (hcount : toGo s < ls.countP Label.isSched) :
    ∃ ms, ms <+: ls ∧ (run step ms s).pc = .top := by
  apply exists_prefix_of_variant (fun t => t.pc = .top) (I := Draining) (μ := toGo)
    Label.isSched _ _ ls h hcount
  · intro l t ht hl
    cases l with
    | sched locks => exact draining_schedule ht locks
    | call c => exact absurd hl (by simp [Label.isSched])
  · intro l t ht hl
    cases l with
    | sched locks => exact absurd hl (by simp [Label.isSched])
    | call c => exact (draining_call ht c).imp_right le_of_eq

/-! ## The loop ends if and only if a direction is recorded -/

/-- With a direction, the loop does its work. -/
theorem offloads_of_direction {locks : Locks} {s : State} (hacc : Accounting s)
    (hplaced : Placed s) (h : CallsMinOnboard locks s)
    (hdir : s.previousState = .up ∨ s.previousState = .down) : Offloads locks s := by
  obtain ⟨mutexLog, heq⟩ := h.schedule_eq
  have hin : InBuilding s := by
    rcases hplaced with hasleep | hin | hwedged
    · exact absurd hasleep.onboard h.1
    · exact hin
    · exact absurd hdir (not_or.2 ⟨hwedged.notUp, hwedged.notDown⟩)
  have hstate : s.state = .offline ∨ s.state = .idle := by
    rcases h.2 with hpc | ⟨-, hoff, -⟩
    · exact hin.loop (hpc ▸ trivial)
    · exact .inl hoff
  obtain ⟨p, hp⟩ := List.exists_mem_of_ne_nil _ h.1
  obtain ⟨q, hq, hmin⟩ := minOnboard_mem hin.floor hdir hp (hacc.riding p hp).1.destination
  have hfirst : Draining (schedule locks s) ∧ toGo (schedule locks s) < 2 * s.onboard.length := by
    rw [heq]
    exact draining_drainPass (s := { s with mutexLog := mutexLog }) { hacc with } hdir hstate
      hin.floor h.1
  refine ⟨⟨q, hq, hmin⟩, hin.floor, passFrom_spec h hq hmin, ?_, ?_⟩
  · intro ls hloop
    exact hfirst.1.isFloor_run hloop
  · intro ls hcount
    exact hfirst.1.ends (hfirst.2.trans_le hcount)

/-- Somebody boards for floor 5; the elevator is stopped during the `ssleep(1)` at floor 2, started
again, and stopped once more: the loop gets -1 from `min_onboard`. -/
def unrecordedStop : List Label :=
  [.call (.request adult 1 5 true), .call .start, .sched granted, .sched granted, .sched granted,
    .sched granted, .sched granted, .call .stop, .sched granted, .sched granted, .call .start,
    .call .stop]

theorem unrecordedStop_wedges :
    CallsMinOnboard granted (after unrecordedStop) ∧ minOnboard (after unrecordedStop) = -1 ∧
      ¬ Offloads granted (after unrecordedStop) := by
  have hmin : minOnboard (after unrecordedStop) = -1 := by decide
  refine ⟨by decide, hmin, fun hoff => ?_⟩
  obtain ⟨p, hp, hd⟩ := hoff.destination
  have hpos := ((accounting_after unrecordedStop).riding p hp).1.destination.1
  omega

/-- **The offload loop does its work if and only if a direction is recorded.** -/
theorem offloads_iff (ls : List Label) (locks : Locks) (h : CallsMinOnboard locks (after ls)) :
    Offloads locks (after ls) ↔
      (after ls).previousState = .up ∨ (after ls).previousState = .down := by
  constructor
  · intro hoff
    by_contra hdir
    obtain ⟨hup, hdown⟩ := not_or.1 hdir
    obtain ⟨p, hp, hmin⟩ := hoff.destination
    have hpos := ((accounting_after ls).riding p hp).1.destination.1
    rw [minOnboard_of_none hup hdown] at hmin
    omega
  · exact offloads_of_direction (accounting_after ls) (placed_after ls) h

/-- The same ride, stopped between two iterations, while the state is `UP`. -/
theorem recordedStop_offloads :
    Offloads granted (after [.call (.request adult 1 5 true), .call .start, .sched granted,
      .sched granted, .sched granted, .sched granted, .call .stop]) :=
  (offloads_iff _ granted (by decide)).2 (by decide)

end KernelElevator
