import KernelElevator.Offload
import KernelElevator.LoopHead
import KernelElevator.Leaks

/-!
# Taking the module out

`elevator_exit` waits in `kthread_stop` until the scheduler is at its loop head, while the system
calls still reach the module: it takes back the pointers last. What it does after that is in
`Leaving`.

* `Guided` — the offload loop has a direction and somewhere to go, or spins forever (`Wedged`).
* `toTop` — how many steps come at most before the one to the loop head; each takes one off.
* `reaches_top_iff` — the scheduler comes to its loop head within 21 steps, whatever is called in
  the meantime, unless it is in the offload loop without a direction; then it never does.
-/

namespace KernelElevator

open Machine

/-! ## Waiting for the scheduler -/

/-- The offload loop, unless it is wedged, has a direction and goes to a destination of somebody on
board. -/
def Guided (s : State) : Prop :=
  Wedged s ∨
    (s.pc = .drain → s.onboard ≠ [] → s.previousState = .up ∨ s.previousState = .down) ∧
    ∀ floor, s.pc = .drainMove floor →
      (s.previousState = .up ∨ s.previousState = .down) ∧
        ∃ p ∈ s.onboard, p.destinationFloor = floor

theorem guided_of_not_inLoop {s : State} (h : ¬ s.pc.InLoop) : Guided s := by
  refine .inr ⟨?_, ?_⟩
  · intro hpc
    exact absurd (by rw [hpc]; trivial) h
  · intro floor hpc
    exact absurd (by rw [hpc]; trivial) h

theorem guided_drainPass {s : State} (hacc : Accounting s) (hf : IsFloor s.currentFloor)
    (hstate : s.state = .offline ∨ s.state = .idle) : Guided (drainPass s) := by
  by_cases hon : s.onboard = []
  · rw [drainPass, if_pos hon]
    exact guided_of_not_inLoop id
  · by_cases hdir : s.previousState = .up ∨ s.previousState = .down
    · obtain ⟨p, hp⟩ := List.exists_mem_of_ne_nil _ hon
      obtain ⟨q, hq, hmin⟩ := minOnboard_mem hf hdir hp (hacc.riding p hp).1.destination
      right
      by_cases heq : minOnboard s = s.currentFloor
      · rw [drainPass_none hon heq]
        refine ⟨fun _ _ => ?_, by simp⟩
        show (unloadElevator _ s).2.previousState = _ ∨ (unloadElevator _ s).2.previousState = _
        rwa [unloadElevator_previousState]
      · rw [drainPass_some hon heq]
        refine ⟨by simp, ?_⟩
        intro floor hpc
        obtain rfl := Pc.drainMove.inj hpc
        exact ⟨hdir, q, hq, hmin.symm⟩
    · obtain ⟨hup, hdown⟩ := not_or.1 hdir
      have hmin := minOnboard_of_none hup hdown
      have hne : minOnboard s ≠ s.currentFloor := by
        have hpos := hf.1
        omega
      rw [drainPass_some hon hne, hmin]
      exact .inl ⟨hon, hup, hdown, hstate, .inr rfl⟩

theorem downPart_pc (locks : Locks) (s : State) : (downPart locks s).pc = .top ∨
    s.state = .down ∧ ∃ floor, (downPart locks s).pc = .downMove floor := by
  unfold downPart
  dsimp only
  split_ifs with hdown
  · exact .inl rfl
  · split
    · exact .inr ⟨hdown, _, rfl⟩
    · exact .inl rfl
  · exact .inl rfl
  · exact .inl rfl

theorem upPart_pc (locks : Locks) (s : State) : (upPart locks s).pc = .top ∨
    (∃ floor, (upPart locks s).pc = .upMove floor) ∨
    ∃ floor, (upPart locks s).pc = .downMove floor := by
  have hdown : ∀ t, (downPart locks t).pc = .top ∨
      ∃ floor, (downPart locks t).pc = .downMove floor := by
    intro t
    exact (downPart_pc locks t).imp_right And.right
  unfold upPart
  dsimp only
  split_ifs
  · split
    · exact .inr (.inl ⟨_, rfl⟩)
    · exact (hdown _).imp_right .inr
  · exact (hdown _).imp_right .inr
  · exact (hdown _).imp_right .inr

theorem upPart_not_inLoop (locks : Locks) (s : State) : ¬ (upPart locks s).pc.InLoop := by
  rcases upPart_pc locks s with hpc | ⟨floor, hpc⟩ | ⟨floor, hpc⟩ <;> rw [hpc] <;> exact id

theorem downPart_not_inLoop (locks : Locks) (s : State) : ¬ (downPart locks s).pc.InLoop := by
  rcases downPart_pc locks s with hpc | ⟨-, floor, hpc⟩ <;> rw [hpc] <;> exact id

/-- The scan goes to sleep with fewer floors to look at, or is at its end. -/
theorem idleScan_pc (is : List (Fin 10)) (s : State) : (idleScan is s).pc = .top ∨
    ∃ js floor, (idleScan is s).pc = .idleMove js floor ∧ js.length < is.length := by
  induction is generalizing s with
  | nil => exact .inl rfl
  | cons i is ih =>
    unfold idleScan
    split
    · refine (ih s).imp_right ?_
      intro h
      obtain ⟨js, floor, hpc, hlt⟩ := h
      exact ⟨js, floor, hpc, Nat.lt_succ_of_lt hlt⟩
    · split
      · exact .inr ⟨is, _, rfl, Nat.lt_succ_self _⟩
      · refine (ih _).imp_right ?_
        intro h
        obtain ⟨js, floor, hpc, hlt⟩ := h
        exact ⟨js, floor, hpc, Nat.lt_succ_of_lt hlt⟩

theorem idleScan_not_inLoop (is : List (Fin 10)) (s : State) : ¬ (idleScan is s).pc.InLoop := by
  rcases idleScan_pc is s with hpc | ⟨js, floor, hpc, -⟩
  · rw [hpc]
    exact id
  · rw [hpc]
    exact id

theorem guided_schedule {s : State} (hacc : Accounting s) (hplaced : Placed s) (h : Guided s)
    (locks : Locks) : Guided (schedule locks s) := by
  rcases h with hwedged | ⟨hdrain, hmove⟩
  · exact .inl (wedged_schedule hacc hwedged locks)
  have hin : s.pc.InLoop → InBuilding s ∨ Wedged s := by
    intro hloop
    rcases hplaced with hasleep | hin | hwedged
    · rw [hasleep.pc] at hloop
      exact hloop.elim
    · exact .inl hin
    · exact .inr hwedged
  have hstep := scheduled locks s
  generalize hnext : schedule locks s = t at hstep ⊢
  cases hstep with
  | offline hpc hoff hlock =>
    by_cases hon : s.onboard = []
    · have hon' : (s.lock .offline locks).onboard = [] := hon
      rw [drainPass, if_pos hon']
      exact guided_of_not_inLoop id
    · rcases hplaced with hasleep | hin' | hwedged
      · exact absurd hasleep.onboard hon
      · exact guided_drainPass (accounting_effect (.control s ..) hacc) hin'.floor (.inl hoff)
      · exact hnext ▸ .inl (wedged_schedule hacc hwedged locks)
  | offlineRefused => exact guided_of_not_inLoop id
  | idle => exact guided_of_not_inLoop (idleScan_not_inLoop _ _)
  | service => exact guided_of_not_inLoop id
  | serviceRefused => exact guided_of_not_inLoop (upPart_not_inLoop locks _)
  | drain hpc =>
    rcases hin (by rw [hpc]; trivial) with hin' | hwedged
    · exact guided_drainPass hacc hin'.floor (hin'.loop (by rw [hpc]; trivial))
    · exact hnext ▸ .inl (wedged_schedule hacc hwedged locks)
  | drainMove floor hpc =>
    right
    refine ⟨fun _ _ => ?_, by simp [drainArrive]⟩
    show (unloadElevator _ _).2.previousState = _ ∨ (unloadElevator _ _).2.previousState = _
    rw [unloadElevator_previousState]
    exact (hmove floor hpc).1
  | idleMove is => exact guided_of_not_inLoop (idleScan_not_inLoop is _)
  | loadSleep => exact guided_of_not_inLoop (upPart_not_inLoop locks _)
  | upMove => exact guided_of_not_inLoop (downPart_not_inLoop locks _)
  | downMove => exact guided_of_not_inLoop id

theorem wedged_call {s : State} (h : Wedged s) (c : Call) : Wedged (c.exec s).2 := by
  have hon := call_onboard c s
  rcases call_cases c s with hc | ⟨-, -, hc⟩ | ⟨-, -, hc⟩
  · simp only [State.controls, Controls.mk.injEq] at hc
    obtain ⟨hprev, hstate, -, -, -, hpc⟩ := hc
    refine ⟨?_, ?_, ?_, ?_, ?_⟩
    · rw [hon]
      exact h.onboard
    · rw [hprev]
      exact h.notUp
    · rw [hprev]
      exact h.notDown
    · rw [hstate]
      exact h.state
    · rw [hpc]
      exact h.pc
  · rw [hc]
    exact ⟨h.onboard, h.notUp, h.notDown, .inr rfl, h.pc⟩
  · rw [hc, if_neg h.direction]
    exact ⟨h.onboard, h.notUp, h.notDown, .inl rfl, h.pc⟩

theorem guided_call {s : State} (h : Guided s) (c : Call) : Guided (c.exec s).2 := by
  rcases h with hwedged | ⟨hdrain, hmove⟩
  · exact .inl (wedged_call hwedged c)
  have hon := call_onboard c s
  have hpc := call_pc c s
  have hdir : s.previousState = .up ∨ s.previousState = .down →
      (c.exec s).2.previousState = .up ∨ (c.exec s).2.previousState = .down := by
    intro hprev
    rcases call_cases c s with hc | ⟨-, -, hc⟩ | ⟨-, -, hc⟩
    · rw [show (c.exec s).2.previousState = s.previousState from congrArg Controls.previousState hc]
      exact hprev
    · rw [hc]
      exact hprev
    · rw [hc]
      by_cases hstate : s.state = .up ∨ s.state = .down
      · rw [if_pos hstate]
        exact hstate
      · rw [if_neg hstate]
        exact hprev
  right
  rw [hpc, hon]
  refine ⟨fun hat hne => hdir (hdrain hat hne), ?_⟩
  intro floor hat
  obtain ⟨hprev, hdest⟩ := hmove floor hat
  exact ⟨hdir hprev, hdest⟩

theorem guided_after (ls : List Label) : Guided (after ls) := by
  have hplaced : ∀ ls, Accounting (after ls) ∧ Placed (after ls) :=
    fun ls => ⟨accounting_after ls, placed_after ls⟩
  refine after_invariant (J := fun s => Accounting s ∧ Placed s) hplaced (guided_of_not_inLoop id)
    ?_ ls
  intro l s hs h
  cases l with
  | sched locks => exact guided_schedule hs.1 hs.2 h locks
  | call c => exact guided_call h c

/-- A wedged loop runs forever. -/
theorem wedged_run {s : State} (hs : ∃ base, s = after base) (h : Wedged s) (ls : List Label) :
    Wedged (run step ls s) := by
  obtain ⟨base, rfl⟩ := hs
  induction ls using List.reverseRecOn with
  | nil => exact h
  | append_singleton ls l ih =>
    rw [run_append, run_cons, run_nil]
    cases l with
    | sched locks =>
      refine wedged_schedule ?_ ih locks
      rw [← after_append]
      exact accounting_after _
    | call c => exact wedged_call ih c

/-- The steps of the thread before the one that brings it to the loop head. -/
def toTop (s : State) : Nat :=
  match s.pc with
  | .top => 0
  | .drain => toGo s
  | .drainMove _ => toGo s
  | .idleMove is _ => is.length
  | .loadSleep => 1
  | .upMove _ => 0
  | .downMove _ => 0

theorem toTop_of_inLoop {s : State} (h : s.pc.InLoop) : toTop s = toGo s := by
  cases hpc : s.pc with
  | drain => simp [toTop, hpc]
  | drainMove floor => simp [toTop, hpc]
  | _ =>
    rw [hpc] at h
    exact h.elim

theorem Draining.inLoop {s : State} (h : Draining s) : s.pc.InLoop := by
  rcases h.pc with hpc | ⟨p, -, hpc⟩
  · rw [hpc]
    trivial
  · rw [hpc]
    trivial

/-- In the loop, with somebody on board and not wedged. -/
theorem draining_of_guided {s : State} (hacc : Accounting s) (hplaced : Placed s)
    (hguided : Guided s) (hwedged : ¬ Wedged s) (hloop : s.pc.InLoop) (hon : s.onboard ≠ []) :
    Draining s := by
  obtain ⟨hdrain, hmove⟩ := hguided.resolve_left hwedged
  have hin : InBuilding s := by
    rcases hplaced with hasleep | hin | hw
    · exact absurd hasleep.onboard hon
    · exact hin
    · exact absurd hw hwedged
  have hstate := hin.loop hloop
  cases hpc : s.pc with
  | drain => exact ⟨hacc, hdrain hpc hon, hstate, hin.floor, .inl hpc⟩
  | drainMove floor =>
    obtain ⟨hdir, p, hp, rfl⟩ := hmove floor hpc
    exact ⟨hacc, hdir, hstate, hin.floor, .inr ⟨p, hp, hpc⟩⟩
  | _ =>
    rw [hpc] at hloop
    exact hloop.elim

theorem not_wedged_of_not_inLoop {s : State} (h : ¬ s.pc.InLoop) : ¬ Wedged s := by
  intro hw
  rcases hw.pc with hpc | hpc
  · exact h (by rw [hpc]; trivial)
  · exact h (by rw [hpc]; trivial)

/-- **One step of the thread** comes to the loop head, or nearer to it. -/
theorem toTop_schedule {s : State} (hs : ∃ ls, s = after ls) (hwedged : ¬ Wedged s)
    (htop : s.pc ≠ .top) (locks : Locks) : (schedule locks s).pc = .top ∨
      ((schedule locks s).pc ≠ .top ∧ ¬ Wedged (schedule locks s)) ∧
        toTop (schedule locks s) < toTop s := by
  obtain ⟨ls, rfl⟩ := hs
  have hacc := accounting_after ls
  by_cases hend : (schedule locks (after ls)).pc = .top
  · exact .inl hend
  right
  by_cases hloop : (after ls).pc.InLoop
  · have hon : (after ls).onboard ≠ [] := by
      intro hon
      cases hpc : (after ls).pc with
      | drain =>
        rw [schedule_drain locks hpc, drainPass, if_pos hon] at hend
        exact hend rfl
      | drainMove floor =>
        obtain ⟨-, p, hp, -⟩ := ((guided_after ls).resolve_left hwedged).2 floor hpc
        simp [hon] at hp
      | _ =>
        rw [hpc] at hloop
        exact hloop
    have hdrain := draining_of_guided hacc (placed_after ls) (guided_after ls) hwedged hloop hon
    obtain ⟨hnext, hlt⟩ := (draining_schedule hdrain locks).resolve_left hend
    refine ⟨⟨hend, fun hw => ?_⟩, ?_⟩
    · exact hnext.direction.elim hw.notUp hw.notDown
    · rwa [toTop_of_inLoop hnext.inLoop, toTop_of_inLoop hloop]
  · cases hpc : (after ls).pc with
    | top => exact absurd hpc htop
    | drain => exact absurd (by rw [hpc]; trivial) hloop
    | drainMove floor => exact absurd (by rw [hpc]; trivial) hloop
    | idleMove is floor =>
      rw [schedule_idleMove locks hpc, idleArrive] at hend ⊢
      obtain ⟨js, g, hjs, hlt⟩ := (idleScan_pc is _).resolve_left hend
      refine ⟨⟨hend, not_wedged_of_not_inLoop (idleScan_not_inLoop is _)⟩, ?_⟩
      simp only [toTop, hjs, hpc]
      exact hlt
    | loadSleep =>
      rw [schedule_loadSleep locks hpc, loadAndGo] at hend ⊢
      refine ⟨⟨hend, not_wedged_of_not_inLoop (upPart_not_inLoop locks _)⟩, ?_⟩
      rcases (upPart_pc locks _).resolve_left hend with ⟨g, hg⟩ | ⟨g, hg⟩
      · simp [toTop, hg, hpc]
      · simp [toTop, hg, hpc]
    | upMove floor =>
      rw [schedule_upMove locks hpc] at hend
      exact absurd ((downPart_pc locks _).resolve_left hend).1 (poised_after ls).notDown
    | downMove floor => exact absurd hpc ((poised_after ls).downMove floor)

/-- A call does not wedge the loop, and takes it no further away. -/
theorem toTop_call {s : State} (hs : ∃ ls, s = after ls) (hwedged : ¬ Wedged s) (c : Call) :
    ¬ Wedged (c.exec s).2 ∧ toTop (c.exec s).2 = toTop s := by
  have hpc := call_pc c s
  have hon := call_onboard c s
  refine ⟨fun hw => ?_, ?_⟩
  · have hloop : s.pc.InLoop := by
      by_contra hnot
      exact not_wedged_of_not_inLoop (by rwa [hpc]) hw
    obtain ⟨ls, rfl⟩ := hs
    have hdrain := draining_of_guided (accounting_after ls) (placed_after ls) (guided_after ls)
      hwedged hloop (hon ▸ hw.onboard)
    exact (draining_call hdrain c).1.direction.elim hw.notUp hw.notDown
  · rw [toTop, toTop, hpc, toGo, toGo, hpc, hon]

/-- The scan has at most nine floors still to look at. -/
theorem idleMove_length (ls : List Label) :
    ∀ is floor, (after ls).pc = .idleMove is floor → is.length < 10 := by
  refine after_invariant accounting_after (I := fun s => ∀ is floor, s.pc = .idleMove is floor →
    is.length < 10) (by simp [elevatorInit]) ?_ ls
  intro l s _ hs is floor hpc
  cases l with
  | call c => exact hs is floor ((call_pc c s).symm.trans hpc)
  | sched locks =>
    have hstep := scheduled locks s
    have hnext : (schedule locks s).pc = .idleMove is floor := hpc
    have hdrain : ∀ t, (drainPass t).pc ≠ .idleMove is floor := by
      intro t
      unfold drainPass
      split_ifs
      · simp
      · split <;> simp
    have hup : ∀ t, (upPart locks t).pc ≠ .idleMove is floor := by
      intro t
      rcases upPart_pc locks t with h | ⟨g, h⟩ | ⟨g, h⟩ <;> simp [h]
    have hdown : ∀ t, (downPart locks t).pc ≠ .idleMove is floor := by
      intro t
      rcases downPart_pc locks t with h | ⟨-, g, h⟩ <;> simp [h]
    have hscan : ∀ js t, (idleScan js t).pc = .idleMove is floor → is.length < js.length := by
      intro js t ht
      rcases idleScan_pc js t with h | ⟨ks, g, h, hlt⟩
      · simp [ht] at h
      · obtain ⟨rfl, -⟩ := Pc.idleMove.inj (ht.symm.trans h)
        exact hlt
    generalize schedule locks s = t at hstep hnext
    cases hstep with
    | offline => exact absurd hnext (hdrain _)
    | offlineRefused => cases hnext
    | idle =>
      have hlt := hscan _ _ hnext
      rwa [List.length_finRange] at hlt
    | service => cases hnext
    | serviceRefused => exact absurd hnext (hup _)
    | drain => exact absurd hnext (hdrain _)
    | drainMove => cases hnext
    | idleMove js g hjs => exact (hscan js _ hnext).trans (hs js g hjs)
    | loadSleep => exact absurd hnext (hup _)
    | upMove => exact absurd hnext (hdown _)
    | downMove => cases hnext

theorem toTop_le (ls : List Label) : toTop (after ls) ≤ 20 := by
  have hlen : (after ls).onboard.length ≤ 10 := by
    have hle := (accounting_after ls).length_le
    have hunits := (accounting_after ls).units_le
    simp only [maxUnits] at hunits
    omega
  have hgo : toGo (after ls) ≤ 20 := by
    unfold toGo
    split_ifs <;> omega
  unfold toTop
  split
  · exact Nat.zero_le _
  · exact hgo
  · exact hgo
  · rename_i is floor hpc
    have hlt := idleMove_length ls is floor hpc
    omega
  · decide
  · exact Nat.zero_le _
  · exact Nat.zero_le _

/-- **`kthread_stop` returns unless the offload loop is wedged.** From every state of every run,
whatever is called in the meantime, the scheduler is at its loop head after at most 21 steps; but
never if it is in the offload loop with somebody on board and no direction recorded. -/
theorem reaches_top_iff (ls : List Label) :
    (∀ ms, 21 ≤ ms.countP Label.isSched → ∃ pre, pre <+: ms ∧ (after (ls ++ pre)).pc = .top) ↔
      ¬ Wedged (after ls) := by
  constructor
  · intro hreturns hwedged
    obtain ⟨pre, -, htop⟩ := hreturns (List.replicate 21 (.sched granted)) (by decide)
    have hstuck := wedged_run ⟨ls, rfl⟩ hwedged pre
    rw [← after_append] at hstuck
    rcases hstuck.pc with hpc | hpc
    · simp [htop] at hpc
    · simp [htop] at hpc
  · intro hwedged ms hcount
    by_cases htop : (after ls).pc = .top
    · exact ⟨[], List.nil_prefix, by simpa using htop⟩
    have hle := toTop_le ls
    have htick : ∀ l t, ((∃ base, t = after base) ∧ t.pc ≠ .top ∧ ¬ Wedged t) →
        l.isSched = true → (step l t).pc = .top ∨
          (((∃ base, step l t = after base) ∧ (step l t).pc ≠ .top ∧ ¬ Wedged (step l t)) ∧
            toTop (step l t) < toTop t) := by
      intro l t ht hl
      obtain ⟨⟨base, rfl⟩, hne, hw⟩ := ht
      cases l with
      | sched locks =>
        refine (toTop_schedule ⟨base, rfl⟩ hw hne locks).imp_right ?_
        intro h
        exact ⟨⟨⟨base ++ [.sched locks], (after_snoc base _).symm⟩, h.1⟩, h.2⟩
      | call c => exact absurd hl (by simp [Label.isSched])
    have hother : ∀ l t, ((∃ base, t = after base) ∧ t.pc ≠ .top ∧ ¬ Wedged t) →
        l.isSched = false →
        ((∃ base, step l t = after base) ∧ (step l t).pc ≠ .top ∧ ¬ Wedged (step l t)) ∧
          toTop (step l t) ≤ toTop t := by
      intro l t ht hl
      obtain ⟨⟨base, rfl⟩, hne, hw⟩ := ht
      cases l with
      | sched locks => exact absurd hl (by simp [Label.isSched])
      | call c =>
        obtain ⟨hw', hsame⟩ := toTop_call ⟨base, rfl⟩ hw c
        refine ⟨⟨⟨base ++ [.call c], (after_snoc base _).symm⟩, ?_, hw'⟩, hsame.le⟩
        exact fun hpc => hne ((call_pc c (after base)).symm.trans hpc)
    obtain ⟨pre, hpre, hend⟩ := exists_prefix_of_variant (fun t => t.pc = .top) Label.isSched
      htick hother ms ⟨⟨ls, rfl⟩, htop, hwedged⟩ (by omega)
    refine ⟨pre, hpre, ?_⟩
    rw [after_append]
    exact hend

end KernelElevator
