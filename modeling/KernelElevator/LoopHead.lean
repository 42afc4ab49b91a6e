import KernelElevator.Position

/-!
# The loop head

`Poised` is what every run guarantees of the scheduler's loop head: the state is `UP` only with
somebody on board, `LOADING` only where somebody waits, and never `DOWN`; no elevator that is
started is `OFFLINE`.
-/

namespace KernelElevator

structure Poised (s : State) : Prop where
  notDown : s.state ≠ .down
  running : s.started = true → s.state ≠ .offline
  up : s.pc = .top → s.state = .up → s.onboard ≠ []
  loading : s.pc = .top → s.state = .loading → s.queue s.currentFloor ≠ []
  idleMove : ∀ is floor, s.pc = .idleMove is floor → s.queue floor ≠ []
  upMove : ∀ floor, s.pc = .upMove floor → s.state ≠ .loading
  downMove : ∀ floor, s.pc ≠ .downMove floor

/-- At the loop head. -/
theorem poised_top {s : State} (hpc : s.pc = .top) (hdown : s.state ≠ .down)
    (hrun : s.started = true → s.state ≠ .offline) (hup : s.state = .up → s.onboard ≠ [])
    (hload : s.state = .loading → s.queue s.currentFloor ≠ []) : Poised s where
  notDown := hdown
  running := hrun
  up := fun _ => hup
  loading := fun _ => hload
  idleMove := by simp [hpc]
  upMove := by simp [hpc]
  downMove := by simp [hpc]

/-- `OFFLINE` or `IDLE` at the loop head. -/
theorem poised_rest {s : State} (hpc : s.pc = .top) (hstate : s.state = .offline ∨ s.state = .idle)
    (hrun : s.started = true → s.state ≠ .offline) : Poised s := by
  apply poised_top hpc _ hrun <;> rcases hstate with h | h <;> simp [h]

theorem poised_init : Poised elevatorInit := poised_rest rfl (.inl rfl) (by simp [elevatorInit])

theorem nextUp_ne (floor : Int) : nextUp floor ≠ floor := by
  unfold nextUp
  split_ifs <;> omega

theorem moveElevator_nextUp (s : State) : moveElevator (nextUp s.currentFloor) s =
    some { s with nextFloor := nextUp s.currentFloor } := by
  rw [moveElevator, if_pos (nextUp_ne _)]

section Parts

variable {s : State} (locks : Locks) (hdown : s.state ≠ .down)
  (hrun : s.started = true → s.state ≠ .offline)
include hdown hrun

theorem poised_endService (hload : s.state = .loading → s.queue s.currentFloor ≠ []) :
    Poised (endService s) := by
  by_cases hon : s.onboard = []
  · rw [endService, if_pos hon]
    exact poised_rest rfl (.inr rfl) (by simp [State.goto, State.setState])
  · rw [endService, if_neg hon]
    exact poised_top rfl hdown hrun (fun _ => hon) hload

theorem poised_downPart (hload : s.state = .loading → s.queue s.currentFloor ≠ []) :
    Poised (downPart locks s) := by
  rw [downPart, if_neg hdown]
  exact poised_endService hdown hrun hload

theorem poised_upPart (hload : s.state = .loading → s.queue s.currentFloor ≠ []) :
    Poised (upPart locks s) := by
  unfold upPart
  dsimp only
  split_ifs with hup
  · rw [moveElevator_nextUp]
    exact ⟨hdown, hrun, by simp, by simp, by simp, fun _ _ => by simp [State.goto, State.lock, hup],
      by simp⟩
  · exact poised_downPart locks (s := (s.lock .up locks).unlock .up) hdown hrun hload
  · exact poised_downPart locks hdown hrun hload

end Parts

/-- The queue that holds the passenger is that of its floor. -/
theorem Accounting.queue_start {s : State} (h : Accounting s) {i : Fin 10} {p : Passenger}
    {rest : List Passenger} (hq : s.floors i = p :: rest) :
    s.queue p.startFloor = s.floors i := by
  have hp := (h.queued i p (hq ▸ List.mem_cons_self)).2
  rw [hp, State.queue, getQueue_floorOf]

theorem poised_idleScan {s : State} (hacc : Accounting s) (hdown : s.state ≠ .down)
    (hrun : s.started = true → s.state ≠ .offline) (hup : s.state ≠ .up)
    (hload : s.state = .loading → s.queue s.currentFloor ≠ []) (is : List (Fin 10)) :
    Poised (idleScan is s) := by
  induction is generalizing s with
  | nil => exact poised_top rfl hdown hrun (fun h => absurd h hup) hload
  | cons i is ih =>
    unfold idleScan
    split
    · exact ih hacc hdown hrun hup hload
    · rename_i p rest hq
      have hqueue : s.queue p.startFloor ≠ [] := by
        rw [hacc.queue_start hq, hq]
        exact List.cons_ne_nil p rest
      split
      · rename_i hm
        obtain ⟨-, rfl⟩ := moveElevator_eq_some hm
        refine ⟨hdown, hrun, by simp, by simp, ?_, by simp, by simp⟩
        intro rest' floor hpc
        obtain ⟨-, rfl⟩ := Pc.idleMove.inj hpc
        exact hqueue
      · rename_i hm
        have hat := moveElevator_eq_none hm
        exact ih (s := s.setState .loading) { hacc with } (by simp) (by simp) (by simp)
          fun _ => hat ▸ hqueue

/-- In the offload loop and in `ssleep(1)` the loop head is not in question. -/
theorem poised_of_pc {s : State} (hdown : s.state ≠ .down)
    (hrun : s.started = true → s.state ≠ .offline)
    (hpc : s.pc = .drain ∨ s.pc = .loadSleep ∨ ∃ floor, s.pc = .drainMove floor) : Poised s := by
  rcases hpc with hpc | hpc | ⟨floor, hpc⟩ <;>
    exact ⟨hdown, hrun, by simp [hpc], by simp [hpc], by simp [hpc], by simp [hpc], by simp [hpc]⟩

theorem poised_unload {s : State} (hdown : s.state ≠ .down)
    (hrun : s.started = true → s.state ≠ .offline) {pc : Pc} (hpc : pc = .drain ∨ pc = .loadSleep) :
    Poised ((unloadElevator s.currentFloor s).2.goto pc) := by
  apply poised_of_pc
  · show (unloadElevator _ s).2.state ≠ _
    rwa [unloadElevator_state]
  · show (unloadElevator _ s).2.started = true → (unloadElevator _ s).2.state ≠ _
    rwa [unloadElevator_state, unloadElevator_started]
  · exact hpc.imp_right Or.inl

theorem poised_drainPass {s : State} (hrun : s.started = true → s.state ≠ .offline)
    (hstate : s.state = .offline ∨ s.state = .idle) : Poised (drainPass s) := by
  have hdown : s.state ≠ .down := by rcases hstate with h | h <;> simp [h]
  unfold drainPass
  split_ifs with hon
  · exact poised_rest rfl hstate hrun
  · split
    · rename_i hm
      obtain ⟨-, rfl⟩ := moveElevator_eq_some hm
      exact poised_of_pc hdown hrun (.inr (.inr ⟨_, rfl⟩))
    · exact poised_unload hdown hrun (.inl rfl)

theorem Placed.loop {s : State} (h : Placed s) (hpc : s.pc.InLoop) :
    s.state = .offline ∨ s.state = .idle := by
  rcases h with h | h | h
  · exact .inl h.state
  · exact h.loop hpc
  · exact h.state

theorem poised_schedule {s : State} (hacc : Accounting s) (hplaced : Placed s) (h : Poised s)
    (locks : Locks) : Poised (schedule locks s) := by
  obtain ⟨hdown, hrun, hup, hload, hmove, hupMove, hdownMove⟩ := h
  have hstep := scheduled locks s
  generalize schedule locks s = t at hstep ⊢
  cases hstep with
  | offline hpc hoff => exact poised_drainPass (s := s.lock .offline locks) hrun (.inl hoff)
  | offlineRefused hpc hoff => exact poised_rest rfl (.inl hoff) hrun
  | idle hpc hidle =>
    exact poised_idleScan hacc hdown hrun (by simp [hidle]) (by simp [hidle]) _
  | service =>
    exact poised_unload (s := (s.lock .service locks).setState .loading) (by simp) (by simp)
      (.inr rfl)
  | serviceRefused hpc =>
    exact poised_upPart locks (s := (s.lock .service locks).unlock .service) hdown hrun (hload hpc)
  | drain hpc => exact poised_drainPass hrun (hplaced.loop (hpc ▸ trivial))
  | drainMove floor => exact poised_unload (s := arrive floor s) hdown hrun (.inl rfl)
  | idleMove is floor hpc =>
    refine poised_idleScan (s := (arrive floor s).setState .loading) { hacc with } ?_ ?_ ?_ ?_ is
    · simp
    · simp
    · simp
    · intro _
      exact hmove is floor hpc
  | loadSleep =>
    exact poised_upPart locks (by simp [State.unlock, State.setState])
      (by simp [State.unlock, State.setState]) (by simp [State.unlock, State.setState])
  | upMove floor hpc =>
    refine poised_downPart locks (s := (arrive floor s).unlock .up) hdown hrun ?_
    intro hstate
    exact absurd hstate (hupMove floor hpc)
  | downMove floor hpc => exact absurd hpc (hdownMove floor)

theorem poised_call {s : State} (h : Poised s) (c : Call) : Poised (c.exec s).2 := by
  obtain ⟨hdown, hrun, hup, hload, hmove, hupMove, hdownMove⟩ := h
  have hon := call_onboard c s
  have hqueue : ∀ floor, s.queue floor ≠ [] → (c.exec s).2.queue floor ≠ [] := by
    intro floor hne hnil
    exact hne (List.prefix_nil.1 (hnil ▸ call_queue c s floor))
  rcases call_cases c s with hc | ⟨-, -, hc⟩ | ⟨-, -, hc⟩
  · simp only [State.controls, Controls.mk.injEq] at hc
    obtain ⟨-, hstate, hfloor, -, hstarted, hpc⟩ := hc
    refine ⟨hstate ▸ hdown, ?_, ?_, ?_, ?_, ?_, hpc ▸ hdownMove⟩
    · rw [hstarted, hstate]
      exact hrun
    · rw [hpc, hstate, hon]
      exact hup
    · rw [hpc, hstate, hfloor]
      intro htop hloading
      exact hqueue _ (hload htop hloading)
    · rw [hpc]
      intro is floor hidle
      exact hqueue floor (hmove is floor hidle)
    · rw [hpc, hstate]
      exact hupMove
  · rw [hc]
    exact ⟨by simp, by simp, by simp, by simp, hmove, by simp, hdownMove⟩
  · rw [hc]
    exact ⟨by simp, by simp, by simp, by simp, hmove, by simp, hdownMove⟩

/-- **Every state of every run is poised.** -/
theorem poised_after (ls : List Label) : Poised (after ls) := by
  apply after_invariant (J := fun s => Accounting s ∧ Placed s) _ poised_init _ ls
  · intro ls
    exact ⟨accounting_after ls, placed_after ls⟩
  · intro l s hs h
    cases l with
    | sched locks => exact poised_schedule hs.1 hs.2 h locks
    | call c => exact poised_call h c

end KernelElevator
