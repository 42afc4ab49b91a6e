import KernelElevator.Frames

/-!
# Where the elevator can be

`current_floor` is 0 until the first start, and -1 once the offload loop has called `min_onboard`
without a recorded direction; otherwise it is in the building. `Placed` is the invariant behind
this: the elevator has not been started (`Asleep`), or is in the building and so is the floor it
is heading for (`InBuilding`), or spins in the offload loop forever (`Wedged`).
-/

namespace KernelElevator

/-- The floor is in the building. -/
def IsFloor (floor : Int) : Prop := 1 ≤ floor ∧ floor ≤ 10

instance (floor : Int) : Decidable (IsFloor floor) := inferInstanceAs (Decidable (_ ∧ _))

theorem isFloor_one : IsFloor 1 := ⟨le_rfl, by decide⟩

/-- The scheduler is in the loop of the `OFFLINE` branch. -/
def Pc.InLoop : Pc → Prop
  | .drain => True
  | .drainMove _ => True
  | _ => False

/-- A move in progress leads to a floor of the building. -/
def Pc.HeadsIn : Pc → Prop
  | .drainMove floor => IsFloor floor
  | .idleMove _ floor => IsFloor floor
  | .upMove floor => IsFloor floor
  | .downMove floor => IsFloor floor
  | _ => True

structure Asleep (s : State) : Prop where
  floor : s.currentFloor = 0
  onboard : s.onboard = []
  state : s.state = .offline
  pc : s.pc = .top

structure InBuilding (s : State) : Prop where
  floor : IsFloor s.currentFloor
  heads : s.pc.HeadsIn
  loop : s.pc.InLoop → s.state = .offline ∨ s.state = .idle

structure Wedged (s : State) : Prop where
  onboard : s.onboard ≠ []
  notUp : s.previousState ≠ .up
  notDown : s.previousState ≠ .down
  state : s.state = .offline ∨ s.state = .idle
  pc : s.pc = .drain ∨ s.pc = .drainMove (-1)

def Placed (s : State) : Prop := Asleep s ∨ InBuilding s ∨ Wedged s

theorem Placed.congr {s t : State} (h : Placed s) (hc : t.controls = s.controls)
    (hon : t.onboard = s.onboard) : Placed t := by
  simp only [State.controls, Controls.mk.injEq] at hc
  obtain ⟨hprev, hstate, hfloor, -, -, hpc⟩ := hc
  rcases h with h | h | h
  · exact .inl ⟨hfloor.trans h.floor, hon.trans h.onboard, hstate.trans h.state, hpc.trans h.pc⟩
  · exact .inr (.inl ⟨hfloor ▸ h.floor, hpc ▸ h.heads, hpc ▸ hstate ▸ h.loop⟩)
  · exact .inr (.inr ⟨hon ▸ h.onboard, hprev ▸ h.notUp, hprev ▸ h.notDown, hstate ▸ h.state,
      hpc ▸ h.pc⟩)

theorem Wedged.direction {s : State} (h : Wedged s) : ¬ (s.state = .up ∨ s.state = .down) := by
  rcases h.state with hs | hs <;> simp [hs]

theorem placed_call {s : State} (h : Placed s) (c : Call) : Placed (c.exec s).2 := by
  rcases call_cases c s with hc | ⟨-, -, hc⟩ | ⟨-, hstarted, hc⟩
  · exact h.congr hc (call_onboard c s)
  · rw [hc]
    rcases h with h | h | h
    · exact .inr (.inl ⟨isFloor_one, by simp [h.pc, Pc.HeadsIn], fun _ => .inr rfl⟩)
    · exact .inr (.inl ⟨isFloor_one, h.heads, fun _ => .inr rfl⟩)
    · exact .inr (.inr ⟨h.onboard, h.notUp, h.notDown, .inr rfl, h.pc⟩)
  · rw [hc]
    rcases h with h | h | h
    · exact .inl ⟨h.floor, h.onboard, rfl, h.pc⟩
    · exact .inr (.inl ⟨h.floor, h.heads, fun _ => .inl rfl⟩)
    · rw [if_neg h.direction]
      exact .inr (.inr ⟨h.onboard, h.notUp, h.notDown, .inl rfl, h.pc⟩)

/-! ## The scheduler -/

theorem inBuilding_endService {s : State} (h : IsFloor s.currentFloor) :
    InBuilding (endService s) where
  floor := by
    rw [(endService_steers s).currentFloor]
    exact h
  heads := trivial
  loop := fun hloop => hloop.elim

theorem inBuilding_downPart {s : State} (locks : Locks) (h : IsFloor s.currentFloor) :
    InBuilding (downPart locks s) := by
  unfold downPart
  dsimp only
  split_ifs with _ _ hone
  · exact inBuilding_endService h
  · split
    · rename_i hm
      obtain ⟨-, rfl⟩ := moveElevator_eq_some hm
      refine ⟨h, ?_, fun hloop => hloop.elim⟩
      have hne : s.currentFloor ≠ 1 := hone
      show IsFloor (s.currentFloor - 1)
      simp only [IsFloor] at h ⊢
      omega
    · exact inBuilding_endService h
  · exact inBuilding_endService h
  · exact inBuilding_endService h

theorem isFloor_nextUp {floor : Int} (h : IsFloor floor) : IsFloor (nextUp floor) := by
  simp only [IsFloor, nextUp] at h ⊢
  split_ifs <;> omega

theorem inBuilding_upPart {s : State} (locks : Locks) (h : IsFloor s.currentFloor) :
    InBuilding (upPart locks s) := by
  unfold upPart
  dsimp only
  split_ifs
  · split
    · rename_i hm
      obtain ⟨-, rfl⟩ := moveElevator_eq_some hm
      exact ⟨h, isFloor_nextUp h, fun hloop => hloop.elim⟩
    · exact inBuilding_downPart locks h
  · exact inBuilding_downPart locks h
  · exact inBuilding_downPart locks h

theorem inBuilding_idleScan {s : State} (hstart : ∀ k, ∀ p ∈ s.floors k, IsFloor p.startFloor)
    (h : IsFloor s.currentFloor) (is : List (Fin 10)) : InBuilding (idleScan is s) := by
  induction is generalizing s with
  | nil => exact ⟨h, trivial, fun hloop => hloop.elim⟩
  | cons i is ih =>
    unfold idleScan
    split
    · exact ih hstart h
    · rename_i p rest hq
      split
      · rename_i hm
        obtain ⟨-, rfl⟩ := moveElevator_eq_some hm
        exact ⟨h, hstart i p (hq ▸ List.mem_cons_self), fun hloop => hloop.elim⟩
      · exact ih hstart h

theorem Accounting.isFloor_start {s : State} (h : Accounting s) :
    ∀ k, ∀ p ∈ s.floors k, IsFloor p.startFloor :=
  fun k p hp => (h.queued k p hp).1.start

/-- Nobody on board gets off at a floor that is none. -/
theorem unload_eq_of_not_isFloor {s : State} (h : Accounting s) (hf : ¬ IsFloor s.currentFloor) :
    (unloadElevator s.currentFloor s).2.onboard = s.onboard := by
  rw [(unload_spec s).1, List.filter_eq_self]
  intro p hp
  have hd := (h.riding p hp).1.destination
  simp only [ne_eq, decide_eq_true_eq]
  intro heq
  exact hf (heq ▸ hd)

theorem placed_unload {s : State} (hf : IsFloor s.currentFloor)
    (hstate : s.state = .offline ∨ s.state = .idle) :
    Placed ((unloadElevator s.currentFloor s).2.goto .drain) := by
  refine .inr (.inl ⟨?_, trivial, ?_⟩)
  · show IsFloor (unloadElevator _ s).2.currentFloor
    rwa [unloadElevator_currentFloor]
  · intro _
    show (unloadElevator _ s).2.state = _ ∨ (unloadElevator _ s).2.state = _
    rwa [unloadElevator_state]

theorem placed_drainPass {s : State} (hacc : Accounting s) (hf : IsFloor s.currentFloor)
    (hstate : s.state = .offline ∨ s.state = .idle) : Placed (drainPass s) := by
  unfold drainPass
  split_ifs with hon
  · exact .inr (.inl ⟨hf, trivial, fun hloop => hloop.elim⟩)
  · split
    · rename_i hm
      obtain ⟨-, rfl⟩ := moveElevator_eq_some hm
      by_cases hdir : s.previousState = .up ∨ s.previousState = .down
      · obtain ⟨p, hp⟩ := List.exists_mem_of_ne_nil _ hon
        obtain ⟨q, hq, hmin⟩ := minOnboard_mem hf hdir hp (hacc.riding p hp).1.destination
        refine .inr (.inl ⟨hf, ?_, fun _ => hstate⟩)
        show IsFloor (minOnboard s)
        exact hmin ▸ (hacc.riding q hq).1.destination
      · rw [not_or] at hdir
        rw [minOnboard_of_none hdir.1 hdir.2]
        exact .inr (.inr ⟨hon, hdir.1, hdir.2, hstate, .inr rfl⟩)
    · exact placed_unload hf hstate

/-- At floor -1 nobody gets off, and the loop goes round. -/
theorem wedged_unload {s : State} (hacc : Accounting s) (h : Wedged s)
    (hf : s.currentFloor = -1) : Wedged ((unloadElevator s.currentFloor s).2.goto .drain) where
  onboard := by
    show (unloadElevator s.currentFloor s).2.onboard ≠ []
    rw [unload_eq_of_not_isFloor hacc (by rw [hf]; exact fun h => absurd h.1 (by decide))]
    exact h.onboard
  notUp := by
    show (unloadElevator s.currentFloor s).2.previousState ≠ _
    rw [unloadElevator_previousState]
    exact h.notUp
  notDown := by
    show (unloadElevator s.currentFloor s).2.previousState ≠ _
    rw [unloadElevator_previousState]
    exact h.notDown
  state := by
    show (unloadElevator s.currentFloor s).2.state = _ ∨
      (unloadElevator s.currentFloor s).2.state = _
    rw [unloadElevator_state]
    exact h.state
  pc := .inl rfl

theorem wedged_schedule {s : State} (hacc : Accounting s) (h : Wedged s) (locks : Locks) :
    Wedged (schedule locks s) := by
  rcases h.pc with hpc | hpc
  · simp only [schedule, hpc, drainPass, if_neg h.onboard, minOnboard_of_none h.notUp h.notDown]
    split
    · rename_i hm
      obtain ⟨-, rfl⟩ := moveElevator_eq_some hm
      exact ⟨h.onboard, h.notUp, h.notDown, h.state, .inr rfl⟩
    · rename_i hm
      exact wedged_unload hacc h (moveElevator_eq_none hm).symm
  · simp only [schedule, hpc, drainArrive]
    exact wedged_unload (accounting_effect (.control s ..) hacc)
      (show Wedged (arrive (-1) s) from ⟨h.onboard, h.notUp, h.notDown, h.state, .inr hpc⟩) rfl

theorem asleep_schedule {s : State} (h : Asleep s) (locks : Locks) :
    Asleep (schedule locks s) := by
  have hon : (s.lock .offline locks).onboard = [] := h.onboard
  simp only [schedule, h.pc, if_pos h.state, offlineBranch, drainPass, if_pos hon]
  split_ifs
  · exact ⟨h.floor, h.onboard, h.state, rfl⟩
  · exact ⟨h.floor, h.onboard, h.state, rfl⟩

theorem placed_schedule {s : State} (hacc : Accounting s) (h : Placed s) (locks : Locks) :
    Placed (schedule locks s) := by
  rcases h with h | h | h
  · exact .inl (asleep_schedule h locks)
  swap
  · exact .inr (.inr (wedged_schedule hacc h locks))
  obtain ⟨hf, hheads, hloop⟩ := h
  have hstep := scheduled locks s
  generalize schedule locks s = t at hstep ⊢
  cases hstep with
  | offline hpc hoff =>
    exact placed_drainPass (accounting_effect (.control s ..) hacc) hf (.inl hoff)
  | offlineRefused => exact .inr (.inl ⟨hf, trivial, fun hloop => hloop.elim⟩)
  | idle => exact .inr (.inl (inBuilding_idleScan hacc.isFloor_start hf _))
  | service =>
    refine .inr (.inl ⟨?_, trivial, fun hloop => hloop.elim⟩)
    show IsFloor (unloadElevator _ _).2.currentFloor
    rw [unloadElevator_currentFloor]
    exact hf
  | serviceRefused => exact .inr (.inl (inBuilding_upPart locks hf))
  | drain hpc => exact placed_drainPass hacc hf (hloop (hpc ▸ trivial))
  | drainMove floor hpc =>
    rw [hpc] at hheads hloop
    exact placed_unload hheads (hloop trivial)
  | idleMove is floor hpc =>
    rw [hpc] at hheads
    exact .inr (.inl (inBuilding_idleScan (s := (arrive floor s).setState .loading)
      hacc.isFloor_start hheads is))
  | loadSleep =>
    refine .inr (.inl (inBuilding_upPart locks ?_))
    show IsFloor (loadElevator _ _).2.currentFloor
    rw [loadElevator_currentFloor]
    exact hf
  | upMove floor hpc =>
    rw [hpc] at hheads
    exact .inr (.inl (inBuilding_downPart locks hheads))
  | downMove floor hpc =>
    rw [hpc] at hheads
    exact .inr (.inl (inBuilding_endService hheads))

theorem placed_init : Placed elevatorInit := .inl ⟨rfl, rfl, rfl, rfl⟩

theorem placed_step {s : State} (hacc : Accounting s) (h : Placed s) (l : Label) :
    Placed (step l s) := by
  cases l with
  | sched locks => exact placed_schedule hacc h locks
  | call c => exact placed_call h c

/-- Every state of every run is placed. -/
theorem placed_after (ls : List Label) : Placed (after ls) :=
  after_invariant accounting_after placed_init (fun l _ hacc h => placed_step hacc h l) ls

/-- At the loop head and not `OFFLINE`, the elevator is in the building. -/
theorem Placed.isFloor {s : State} (h : Placed s) (hpc : s.pc = .top)
    (hstate : s.state ≠ .offline) : IsFloor s.currentFloor := by
  rcases h with h | h | h
  · exact absurd h.state hstate
  · exact h.floor
  · rcases h.pc with hloop | hloop <;> simp [hpc] at hloop

end KernelElevator
