import KernelElevator.Frames

/-!
# When a stop is kept

`stop_elevator` writes `OFFLINE` and clears `started` at any moment; the scheduler writes the state
at five places of its own, without a look at `started`. A stop is kept if it comes at the loop
head, in the offload loop, or in the move that ends a service stop with somebody on board. It is
lost if the scheduler wakes with `started` clear from a move of the `IDLE` scan, which writes
`LOADING`; from `ssleep(1)` of a service stop, after which it loads and writes `UP`; or from the
move with nobody on board, which writes `IDLE`.
-/

namespace KernelElevator

open Machine

/-- Run from here, the scheduler does not overwrite `OFFLINE`: it is at the loop head, in the
offload loop, or at the end of a move with somebody on board. -/
def State.keepsOffline (s : State) : Bool :=
  match s.pc with
  | .top => true
  | .drain => true
  | .drainMove _ => true
  | .upMove _ => decide (s.onboard ≠ [])
  | .downMove _ => decide (s.onboard ≠ [])
  | .idleMove _ _ => false
  | .loadSleep => false

/-- A stop survives the step. -/
def StopSafe (s : State) : Label → Prop
  | .call _ => True
  | .sched _ => s.started = true ∨ s.keepsOffline = true

instance (s : State) : (l : Label) → Decidable (StopSafe s l)
  | .call _ => isTrue trivial
  | .sched _ => inferInstanceAs (Decidable (_ ∨ _))

/-- A stop has returned 0 and no start has returned 0 since. -/
def StopInEffect (ls : List Label) : Prop :=
  ∃ pre post, ls = pre ++ .call .stop :: post ∧ (stopElevator (after pre)).1 = 0 ∧
    ∀ mid, mid ++ [.call .start] <+: post →
      (startElevator (after (pre ++ .call .stop :: mid))).1 ≠ 0

/-- No stop is lost in the run: while one is in effect, nobody boards and the state is `OFFLINE`
whenever the scheduler is at the loop head, where `started` is never clear in another state. -/
def StopKept (ls : List Label) : Prop :=
  ∀ ks, ks <+: ls →
    (StopInEffect ks →
      ((after ks).pc = .top → (after ks).state = .offline) ∧
      ∀ l, ks ++ [l] <+: ls → (after (ks ++ [l])).boardings = (after ks).boardings) ∧
    ¬ ((after ks).pc = .top ∧ (after ks).started = false ∧ (after ks).state ≠ .offline)

/-! ## Who writes what -/

/-- While a stop is in effect `started` is clear. -/
theorem StopInEffect.started {ls : List Label} (h : StopInEffect ls) :
    (after ls).started = false := by
  obtain ⟨pre, post, rfl, hstop, hstart⟩ := h
  induction post using List.reverseRecOn with
  | nil =>
    rw [after_snoc]
    show (stopElevator (after pre)).2.started = false
    rw [stopElevator, if_pos (stopElevator_zero.1 hstop)]
  | append_singleton post l ih =>
    have hclear := ih fun mid hmid => hstart mid (hmid.trans (List.prefix_append _ _))
    rw [← List.cons_append, ← List.append_assoc, after_snoc]
    cases l with
    | sched locks => exact (schedule_started locks _).trans hclear
    | call c =>
      rcases call_cases c (after (pre ++ .call .stop :: post)) with hc | ⟨rfl, -, -⟩ | ⟨-, -, hc⟩
      · exact (congrArg Controls.started hc).trans hclear
      · exact absurd (startElevator_zero.2 hclear) (hstart post List.prefix_rfl)
      · exact congrArg State.started hc

theorem unloadElevator_boardings (floor : Int) (s : State) :
    (unloadElevator floor s).2.boardings = s.boardings := by
  apply unloadElevator_view
  intro floor p s
  show Delivery.boarded (acts (s.log ++ _)) = Delivery.boarded (acts s.log)
  simp [actOf, Delivery.boardingOf]

theorem call_boardings (c : Call) (s : State) : (c.exec s).2.boardings = s.boardings := by
  apply call_view fun cargo => Delivery.boarded (acts cargo.log)
  intro s p
  show Delivery.boarded (acts (s.log ++ _)) = Delivery.boarded (acts s.log)
  simp [actOf, Delivery.boardingOf]

/-! ## One step -/

theorem drainPass_stopped (s : State) :
    (drainPass s).state = s.state ∧ (drainPass s).boardings = s.boardings := by
  unfold drainPass
  split_ifs
  · exact ⟨rfl, rfl⟩
  · split
    · rename_i hm
      obtain ⟨-, rfl⟩ := moveElevator_eq_some hm
      exact ⟨rfl, rfl⟩
    · exact ⟨unloadElevator_state _ s, unloadElevator_boardings _ s⟩

theorem endService_stopped {s : State} (hon : s.onboard ≠ []) :
    (endService s).state = s.state ∧ (endService s).boardings = s.boardings := by
  rw [endService, if_neg hon]
  exact ⟨rfl, rfl⟩

/-- A safe step of the scheduler finds `OFFLINE` and leaves it, and nobody boards. -/
theorem schedule_stopped {s : State} (locks : Locks) (hstarted : s.started = false)
    (hstate : s.state = .offline) (hsafe : StopSafe s (.sched locks)) :
    (schedule locks s).state = .offline ∧ (schedule locks s).boardings = s.boardings := by
  have hsafe := hsafe.resolve_left (by simp [hstarted])
  unfold State.keepsOffline at hsafe
  rw [← hstate]
  have hstep := scheduled locks s
  generalize schedule locks s = t at hstep ⊢
  cases hstep with
  | offline => exact drainPass_stopped (s.lock .offline locks)
  | offlineRefused => exact ⟨rfl, rfl⟩
  | idle hpc hidle => exact absurd (hstate.symm.trans hidle) (by simp)
  | service hpc hoff => exact absurd hstate hoff
  | serviceRefused hpc hoff => exact absurd hstate hoff
  | drain => exact drainPass_stopped s
  | drainMove floor => exact ⟨unloadElevator_state _ _, unloadElevator_boardings _ _⟩
  | upMove floor hpc =>
    rw [hpc] at hsafe
    rw [downPart, if_neg]
    · exact endService_stopped (s := (arrive floor s).unlock .up) (of_decide_eq_true hsafe)
    · show s.state ≠ .down
      simp [hstate]
  | downMove floor hpc =>
    rw [hpc] at hsafe
    exact endService_stopped (s := (arrive floor s).unlock .down) (of_decide_eq_true hsafe)
  | idleMove is floor hpc => simp [hpc] at hsafe
  | loadSleep hpc => simp [hpc] at hsafe

/-- `started` is clear in the state `OFFLINE` only. -/
def OfflineIfStopped (s : State) : Prop := s.started = false → s.state = .offline

theorem offlineIfStopped_step (l : Label) {s : State} (h : OfflineIfStopped s)
    (hsafe : StopSafe s l) : OfflineIfStopped (step l s) := by
  intro hstarted
  cases l with
  | sched locks =>
    have hclear : s.started = false := (schedule_started locks s).symm.trans hstarted
    exact (schedule_stopped locks hclear (h hclear) hsafe).1
  | call c =>
    rcases call_cases c s with hc | ⟨-, -, hc⟩ | ⟨-, -, hc⟩
    · exact (congrArg Controls.state hc).trans
        (h ((congrArg Controls.started hc).symm.trans hstarted))
    · rw [show step (.call c) s = _ from hc] at hstarted
      exact absurd hstarted (by simp)
    · exact congrArg State.state hc

/-! ## Whole runs -/

/-- **A stop is kept in every run whose steps are all safe.** -/
theorem stop_kept (ls : List Label) (hsafe : Along step StopSafe ls elevatorInit) :
    StopKept ls := by
  have hoffline : ∀ ks, ks <+: ls → OfflineIfStopped (after ks) := by
    intro ks hks
    obtain ⟨rest, rfl⟩ := hks
    refine run_guarded (fun l s hs hl => offlineIfStopped_step l hs hl) (fun _ => rfl)
      (along_append.1 hsafe).1
  intro ks hks
  refine ⟨?_, fun ⟨_, hstarted, hstate⟩ => hstate (hoffline ks hks hstarted)⟩
  intro heffect
  have hstarted := heffect.started
  have hstate := hoffline ks hks hstarted
  refine ⟨fun _ => hstate, ?_⟩
  intro l hl
  obtain ⟨rest, rfl⟩ := hl
  have hsafe := (along_append.1 (along_append.1 hsafe).1).2.1
  rw [after_snoc]
  cases l with
  | sched locks => exact (schedule_stopped locks hstarted hstate hsafe).2
  | call c => exact call_boardings c _

/-- Somebody waits at floor 1; the elevator is stopped during the `ssleep(1)` of its stop there,
takes the passenger on board and goes on. -/
def stopWhileLoading : List Label :=
  [.call (.request adult 1 2 true), .call .start, .sched granted, .sched granted, .call .stop]

theorem stopWhileLoading_lost : ¬ StopKept (stopWhileLoading ++ [.sched granted]) := by
  intro hkept
  have heffect : StopInEffect stopWhileLoading :=
    ⟨stopWhileLoading.dropLast, [], rfl, by decide, fun mid hmid => by simp at hmid⟩
  have hsame := ((hkept stopWhileLoading (List.prefix_append _ _)).1 heffect).2 (.sched granted)
    List.prefix_rfl
  exact absurd hsame (by decide)

/-- The same passenger, with the stop during the move from floor 1 to floor 2. -/
theorem stopWhileMoving_kept : StopKept [.call (.request adult 1 5 true), .call .start,
    .sched granted, .sched granted, .sched granted, .call .stop, .sched granted, .sched granted,
    .sched granted, .sched granted] :=
  stop_kept _ (by decide)

end KernelElevator
