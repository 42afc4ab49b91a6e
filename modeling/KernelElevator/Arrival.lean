import KernelElevator.Clock

/-!
# Arrival times

On the sweep a stop and the move to the next floor take 3 seconds, and the way back from the top
floor 19. So the ride of everybody on board of a running elevator has a length that is known
beforehand, and that no request changes.

* `toFloor` — the seconds until the sweep stops at a floor.
* `arrives_in` — everybody on board gets off after exactly that time.
* `served_in_time` — left to itself, the elevator serves `n` passengers within `117 * n` seconds.
-/

namespace KernelElevator

open Machine

/-! ## The timetable -/

/-- The seconds from the loop head at `floor` to the loop head at `target`. -/
def toFloor (floor target : Int) : Nat :=
  (if floor ≤ target then 3 * (target - floor)
    else 3 * (10 - floor) + 19 + 3 * (target - 1)).toNat

@[simp] theorem toFloor_self (floor : Int) : toFloor floor floor = 0 := by simp [toFloor]

theorem toFloor_nextUp {floor target : Int} (hf : IsFloor floor) (ht : IsFloor target)
    (hne : floor ≠ target) :
    1 + moveSleep floor (nextUp floor) + toFloor (nextUp floor) target = toFloor floor target := by
  simp only [IsFloor] at hf ht
  simp only [toFloor, nextUp, moveSleep_eq]
  split_ifs <;> omega

theorem toFloor_le {floor target : Int} (hf : IsFloor floor) (ht : IsFloor target) :
    toFloor floor target ≤ 43 := by
  simp only [IsFloor] at hf ht
  simp only [toFloor]
  split_ifs <;> omega

/-! ## Riding -/

/-- The passenger is on board of a running elevator, which has not just unloaded at its
destination. -/
structure Aboard (p : Passenger) (s : State) : Prop where
  reached : ∃ ls, s = after ls
  onboard : p ∈ s.onboard
  floor : IsFloor s.currentFloor
  phase : (s.pc = .top ∧ (s.state = .loading ∨ s.state = .up)) ∨
    s.currentFloor ≠ p.destinationFloor ∧
      (s.pc = .loadSleep ∨ s.pc = .upMove (nextUp s.currentFloor) ∧ s.state = .up)

theorem Aboard.destination {p : Passenger} {s : State} (h : Aboard p s) :
    IsFloor p.destinationFloor := by
  obtain ⟨ls, rfl⟩ := h.reached
  exact ((accounting_after ls).riding p h.onboard).1.destination

/-- The seconds still to sleep before the destination, when the sleep in progress is paid for. -/
def secondsLeft (p : Passenger) (s : State) : Nat :=
  match s.pc with
  | .loadSleep => toFloor s.currentFloor p.destinationFloor - 1
  | .upMove floor => toFloor floor p.destinationFloor
  | _ => toFloor s.currentFloor p.destinationFloor

/-- The steps of the thread before the one that unloads at the destination. -/
def stepsLeft (p : Passenger) (s : State) : Nat :=
  match s.pc with
  | .loadSleep => 3 * ahead s.currentFloor p.destinationFloor - 1
  | .upMove floor => 3 * ahead floor p.destinationFloor + 1
  | _ => 3 * ahead s.currentFloor p.destinationFloor

theorem after_step {s : State} (h : ∃ ls, s = after ls) (l : Label) :
    ∃ ls, step l s = after ls := by
  obtain ⟨ls, rfl⟩ := h
  exact ⟨ls ++ [l], (after_snoc ls l).symm⟩

/-- **One step of the thread** lets the passenger off with no time left, or takes its share of
it. -/
theorem aboard_schedule {p : Passenger} {s : State} (h : Aboard p s) :
    (Delivered p (schedule granted s) ∧ secondsLeft p s = 0) ∨
      (Aboard p (schedule granted s) ∧ stepsLeft p (schedule granted s) < stepsLeft p s ∧
        sleepSeconds (schedule granted s) + secondsLeft p (schedule granted s) =
          secondsLeft p s) := by
  have hd := h.destination
  have hf := h.floor
  have hreached := after_step h.reached (.sched granted)
  rcases h.phase with ⟨hpc, hstate⟩ | ⟨hne, hpc | ⟨hpc, hstate⟩⟩
  · have hunload : Unloads s (schedule granted s) := by
      apply schedule_unloads hpc <;> rcases hstate with h | h <;> simp [h]
    by_cases hat : s.currentFloor = p.destinationFloor
    · left
      refine ⟨?_, by simp [secondsLeft, hpc, hat]⟩
      obtain ⟨ls, hls⟩ := hreached
      have hserves := serves_after ls
      rw [← hls] at hserves
      apply hserves.delivered
      show p ∈ (schedule granted s).unloadings
      rw [hunload.unloadings]
      exact List.mem_append_right _ (List.mem_filter.2 ⟨h.onboard, by simpa using hat.symm⟩)
    · right
      have hnext := toFloor_nextUp hf hd hat
      have hahead := ahead_nextUp hf hd hat
      refine ⟨⟨hreached, ?_, ?_, .inr ⟨?_, .inl hunload.pc⟩⟩, ?_, ?_⟩
      · rw [hunload.onboard]
        exact List.mem_filter.2 ⟨h.onboard, by simpa using fun heq => hat heq.symm⟩
      · rwa [hunload.floor]
      · rwa [hunload.floor]
      · simp only [stepsLeft, hunload.pc, hunload.floor, hpc]
        omega
      · simp only [sleepSeconds, secondsLeft, hunload.pc, hunload.floor, hpc]
        omega
  · have hload := schedule_loads hpc
    have hnext := toFloor_nextUp hf hd hne
    have hahead := ahead_nextUp hf hd hne
    right
    refine ⟨⟨hreached, ?_, ?_, .inr ⟨?_, .inr ⟨?_, hload.state⟩⟩⟩, ?_, ?_⟩
    · rw [hload.onboard]
      exact List.mem_append_left _ h.onboard
    · rwa [hload.floor]
    · rwa [hload.floor]
    · rw [hload.floor]
      exact hload.pc
    · simp only [stepsLeft, hload.pc, hpc]
      omega
    · simp only [sleepSeconds, secondsLeft, hload.pc, hload.floor, hpc]
      omega
  · have hclimb := schedule_climbs hpc hstate
    have hon : s.onboard ≠ [] := List.ne_nil_of_mem h.onboard
    right
    refine ⟨⟨hreached, ?_, ?_, .inl ⟨hclimb.pc, .inr ?_⟩⟩, ?_, ?_⟩
    · rw [hclimb.onboard]
      exact h.onboard
    · rw [hclimb.floor]
      exact isFloor_nextUp hf
    · rw [hclimb.state, if_neg hon]
    · simp only [stepsLeft, hclimb.pc, hclimb.floor, hpc]
      omega
    · simp only [sleepSeconds, secondsLeft, hclimb.pc, hclimb.floor, hpc]
      omega

/-- A request is not noticed. -/
theorem aboard_request {p : Passenger} {s : State} (h : Aboard p s) (t a b : Int) (kmalloc : Bool) :
    Aboard p (issueRequest t a b kmalloc s).2 ∧
      stepsLeft p (issueRequest t a b kmalloc s).2 = stepsLeft p s ∧
      secondsLeft p (issueRequest t a b kmalloc s).2 = secondsLeft p s := by
  have hcontrols := issueRequest_controls t a b kmalloc s
  have hon : (issueRequest t a b kmalloc s).2.onboard = s.onboard :=
    call_onboard (.request t a b kmalloc) s
  have hreached := after_step h.reached (.call (.request t a b kmalloc))
  simp only [State.controls, Controls.mk.injEq] at hcontrols
  obtain ⟨-, hstate, hfloor, -, -, hpc⟩ := hcontrols
  refine ⟨⟨hreached, ?_, ?_, ?_⟩, ?_, ?_⟩
  · rw [hon]
    exact h.onboard
  · rw [hfloor]
    exact h.floor
  · rw [hpc, hstate, hfloor]
    exact h.phase
  · rw [stepsLeft, stepsLeft, hpc, hfloor]
  · rw [secondsLeft, secondsLeft, hpc, hfloor]

/-- **Everybody arrives on time.** Whatever is requested in the meantime, everybody on board of a
running elevator stays there until the seconds to its destination have passed, no more and no fewer,
and is let off by the next step of the thread. -/
theorem arrives_in {ops : List Op} {s : State} (hrun : SeqRun ops s)
    (hstate : s.state = .loading ∨ s.state = .up) {p : Passenger} (hp : p ∈ s.onboard)
    {ls : List Label} (hls : ∀ l ∈ ls, l.Quiet) (hcount : 3 * 10 ≤ ls.countP Label.isSched) :
    ∃ ms l, ms ++ [l] <+: ls ∧ (∀ ks, ks <+: ms → p ∈ (run step ks s).onboard) ∧
      Delivered p (step l (run step ms s)) ∧
      total step Label.seconds ms s = toFloor s.currentFloor p.destinationFloor ∧
      toFloor s.currentFloor p.destinationFloor ≤ 43 := by
  obtain ⟨hpc, base, rfl⟩ := hrun.after
  have hfloor : IsFloor (after base).currentFloor := by
    refine (placed_after base).isFloor hpc ?_
    rcases hstate with h | h <;> simp [h]
  have haboard : Aboard p (after base) := ⟨⟨base, rfl⟩, hp, hfloor, .inl ⟨hpc, hstate⟩⟩
  have hsteps : stepsLeft p (after base) < ls.countP Label.isSched := by
    have hlt := ahead_lt (after base).currentFloor p.destinationFloor
    simp only [stepsLeft, hpc]
    omega
  have hseconds : secondsLeft p (after base) =
      toFloor (after base).currentFloor p.destinationFloor := by
    simp [secondsLeft, hpc]
  have htick : ∀ l t, Aboard p t → l.Quiet → l.isSched = true →
      (Delivered p (step l t) ∧ secondsLeft p t = 0) ∨ (Aboard p (step l t) ∧
        stepsLeft p (step l t) < stepsLeft p t ∧
        l.seconds t + secondsLeft p (step l t) = secondsLeft p t) := by
    intro l t ht hl htick
    cases l with
    | sched locks =>
      obtain rfl : locks = granted := hl
      exact aboard_schedule ht
    | call c => exact absurd htick (by simp [Label.isSched])
  have hother : ∀ l t, Aboard p t → l.Quiet → l.isSched = false → Aboard p (step l t) ∧
      stepsLeft p (step l t) ≤ stepsLeft p t ∧
      l.seconds t + secondsLeft p (step l t) = secondsLeft p t := by
    intro l t ht hl htick
    rcases l with locks | ⟨_ | _ | ⟨type, a, b, kmalloc⟩⟩
    · exact absurd htick (by simp [Label.isSched])
    · exact hl.elim
    · exact hl.elim
    · obtain ⟨haboard, hsteps, hseconds⟩ := aboard_request ht type a b kmalloc
      exact ⟨haboard, hsteps.le, (Nat.zero_add _).trans hseconds⟩
  obtain ⟨ms, l, hpre, hon, hdone, htotal⟩ := exists_goal_of_potential Label.seconds (Delivered p)
    Label.isSched htick hother hls haboard hsteps
  exact ⟨ms, l, hpre, fun ks hks => (hon ks hks).onboard, hdone, htotal.trans hseconds,
    toFloor_le hfloor haboard.destination⟩

/-- The adult for floor 5 is on board at floor 2: in 9 seconds it gets off. -/
theorem rider_arrives : ∃ ms l, ms ++ [l] <+: List.replicate 30 (.sched granted) ∧
    (∀ ks, ks <+: ms → rider ∈ (run step ks pickedUp).onboard) ∧
    Delivered rider (step l (run step ms pickedUp)) ∧
    total step Label.seconds ms pickedUp = 9 := by
  have hquiet : ∀ l ∈ List.replicate 30 (Label.sched granted), l.Quiet := by
    intro l hl
    exact List.eq_of_mem_replicate hl ▸ rfl
  obtain ⟨ms, l, hpre, hon, hdone, htotal, -⟩ :=
    arrives_in seqRun_pickUp (.inr (by decide)) (p := rider) (by decide) hquiet (by decide)
  exact ⟨ms, l, hpre, hon, hdone, htotal.trans (by decide)⟩

/-! ## Serving everybody -/

/-- At most `bound` iterations and `seconds` later somebody has been served, and the elevator is
still running. -/
def ServesBy (bound seconds : Nat) (s : State) : Prop :=
  ∃ k ≤ bound, ∃ n ≤ seconds, ∃ t, PaidSteps Takes k s t n ∧ Running t ∧
    s.totalServed < t.totalServed

theorem ServesBy.mono {bound seconds bound' seconds' : Nat} {s : State}
    (h : ServesBy bound seconds s) (hb : bound ≤ bound') (hs : seconds ≤ seconds') :
    ServesBy bound' seconds' s := by
  obtain ⟨k, hk, n, hn, t, ht⟩ := h
  exact ⟨k, hk.trans hb, n, hn.trans hs, t, ht⟩

theorem returns_of_paidSteps {k n : Nat} {s t : State} (h : PaidSteps Takes k s t n) :
    Steps Returns k s t := by
  induction h with
  | zero s => exact .zero s
  | succ hst _ ih => exact .succ hst.returns ih

/-- An iteration that is not the last. -/
theorem ServesBy.cons {s t : State} {m bound seconds : Nat} (hst : Takes s t m)
    (hle : s.totalServed ≤ t.totalServed) (ht : ServesBy bound seconds t) :
    ServesBy (bound + 1) (m + seconds) s := by
  obtain ⟨k, hk, n, hn, u, hsteps, hu, hlt⟩ := ht
  exact ⟨k + 1, by omega, m + n, by omega, u, .succ hst hsteps, hu, hle.trans_lt hlt⟩

/-- A service stop, on the clock. -/
theorem Running.stops {s : State} (h : Running s) (hidle : s.state ≠ .idle) :
    ∃ t, ServiceStop s (schedule granted s) t ∧ Running t ∧
      Takes s t (1 + moveSleep s.currentFloor (nextUp s.currentFloor)) := by
  have hoff : s.state ≠ .offline := by
    rcases h.state with hs | hs | ⟨hs, -⟩ <;> simp [hs]
  obtain ⟨t, hstop, ht⟩ := h.serviceStop hidle
  obtain ⟨u, hu⟩ := takes_service h.pc hoff hidle
  obtain rfl := hstop.returns.unique hu.returns
  exact ⟨t, hstop, ht, hu⟩

theorem stop_le (floor : Int) : 1 + moveSleep floor (nextUp floor) ≤ 19 := by
  rw [moveSleep_eq, nextUp]
  split_ifs <;> omega

/-- Somebody on board is let off by the stop at its destination. -/
theorem servesBy_of_onboard {s : State} (h : Running s) {p : Passenger} (hp : p ∈ s.onboard) :
    ServesBy (ahead s.currentFloor p.destinationFloor + 1)
      (toFloor s.currentFloor p.destinationFloor + 19) s := by
  have hd := (h.serves.accounting.riding p hp).1.destination
  obtain ⟨t, hstop, ht, htakes⟩ := h.stops (h.not_idle hp)
  induction hn : ahead s.currentFloor p.destinationFloor generalizing s t with
  | zero =>
    have hat : s.currentFloor = p.destinationFloor := by
      have hsweep := sweep_ahead h.isFloor hd
      rwa [hn] at hsweep
    have hcount : 0 < s.onboard.countP (·.destinationFloor = s.currentFloor) :=
      List.countP_pos_iff.2 ⟨p, hp, by simp [hat]⟩
    have hle := stop_le s.currentFloor
    refine ⟨1, le_rfl, _, by omega, t, .one htakes, ht, ?_⟩
    rw [hstop.total, hstop.unloads.total]
    omega
  | succ n ih =>
    have hne : s.currentFloor ≠ p.destinationFloor := by
      intro hat
      rw [hat, ahead_self] at hn
      cases hn
    have hahead := ahead_nextUp h.isFloor hd hne
    have htime := toFloor_nextUp h.isFloor hd hne
    rw [← hstop.floor] at hahead
    have hp' : p ∈ t.onboard := by
      rw [hstop.onboard, hstop.unloads.onboard]
      exact List.mem_append_left _ (List.mem_filter.2 ⟨hp, by simpa using hne.symm⟩)
    obtain ⟨u, hstop', hu, htakes'⟩ := ht.stops (ht.not_idle hp')
    have hrest := ih ht hp' u hstop' hu htakes' (by omega)
    refine (ServesBy.cons htakes hstop.total_le hrest).mono le_rfl ?_
    rw [hstop.floor]
    omega

theorem servesBy_of_loading {s : State} (h : Running s) (hstate : s.state = .loading) :
    ServesBy 11 81 s := by
  obtain ⟨t, hstop, ht, htakes⟩ := h.stops (by simp [hstate])
  have hacc : Accounting (schedule granted s) :=
    accounting_step (.sched granted) h.serves.accounting
  have hle := stop_le s.currentFloor
  rcases hstop.serves_or_boards hacc (h.poised.loading h.pc hstate) with hserved | hon
  · exact ⟨1, by omega, _, by omega, t, .one htakes, ht, hserved⟩
  · obtain ⟨p, hp⟩ := List.exists_mem_of_ne_nil _ hon
    have hd := (ht.serves.accounting.riding p hp).1.destination
    have hlt := ahead_lt t.currentFloor p.destinationFloor
    have htime := toFloor_le ht.isFloor hd
    exact (ServesBy.cons htakes hstop.total_le (servesBy_of_onboard ht hp)).mono (by omega)
      (by omega)

/-- **Somebody is served within twelve iterations and 117 seconds.** -/
theorem servesBy_twelve {s : State} (h : Running s) (hpending : 0 < pending s) :
    ServesBy 12 117 s := by
  rcases h.state with hstate | hstate | ⟨hstate, hon⟩
  · exact (servesBy_of_loading h hstate).mono (by omega) (by omega)
  · obtain ⟨p, hp⟩ := List.exists_mem_of_ne_nil _ (h.poised.up h.pc hstate)
    have hd := (h.serves.accounting.riding p hp).1.destination
    have hlt := ahead_lt s.currentFloor p.destinationFloor
    have htime := toFloor_le h.isFloor hd
    exact (servesBy_of_onboard h hp).mono (by omega) (by omega)
  · obtain ⟨t, hscan⟩ := exists_idleScan h.serves.accounting h.pc hstate
    obtain ⟨u, n, hu, htour⟩ := takes_idle h.serves.accounting h.pc hstate
    obtain rfl := hscan.returns.unique hu.returns
    have hle : n ≤ 36 := htour.le h.isFloor fun f hf => bounds_of_getQueue s.floors hf
    rcases hscan.outcome with ⟨i, -, -, hloading, -⟩ | ⟨hnone, -⟩
    · have ht : Running t :=
        ⟨(reached_of_returns hscan.returns h.reached).1, hscan.returns.pc, .inl hloading⟩
      have hsame : t.totalServed = s.totalServed := congrArg Cargo.totalServed hscan.cargo
      exact (ServesBy.cons hu hsame.ge (servesBy_of_loading ht hloading)).mono le_rfl (by omega)
    · exact absurd (pending_eq_zero.2 ⟨hnone, hon⟩) hpending.ne'

/-- **Everybody is served in time.** Left to itself, a running elevator with `n` passengers waiting
or on board has served them all after at most `12 * n` iterations, in which it sleeps at most
`117 * n` seconds. -/
theorem served_in_time {ops : List Op} {s : State} (hrun : SeqRun ops s)
    (hstate : s.state = .loading ∨ s.state = .up ∨ s.state = .idle ∧ s.onboard = []) :
    ∃ k ≤ 12 * pending s, ∃ n ≤ 117 * pending s, ∃ t, PaidSteps Takes k s t n ∧
      (∀ i, t.floors i = []) ∧ t.onboard = [] ∧ t.totalServed = s.totalServed + pending s := by
  obtain ⟨hpc, ls, rfl⟩ := hrun.after
  have hprogress : ∀ s, Running s → 0 < pending s →
      ∃ k ≤ 12, ∃ n ≤ 117, ∃ t, PaidSteps Takes k s t n ∧ Running t ∧ pending t < pending s := by
    intro s hs hpos
    obtain ⟨k, hk, n, hn, t, hsteps, ht, hlt⟩ := servesBy_twelve hs hpos
    have hsum := (reached_of_steps (returns_of_paidSteps hsteps) hs.reached).2
    exact ⟨k, hk, n, hn, t, hsteps, ht, by omega⟩
  obtain ⟨k, hk, n, hn, t, hsteps, -, hzero⟩ :=
    exists_paidSteps_of_progress hprogress ⟨⟨ls, rfl⟩, hpc, hstate⟩
  have hsum := (reached_of_steps (returns_of_paidSteps hsteps) ⟨ls, rfl⟩).2
  obtain ⟨hfloors, hon⟩ := pending_eq_zero.1 hzero
  exact ⟨k, hk, n, hn, t, hsteps, hfloors, hon, by omega⟩

theorem morning_in_time : ∃ k ≤ 12 * pending dawn, ∃ n ≤ 117 * pending dawn, ∃ t,
    PaidSteps Takes k dawn t n ∧ (∀ i, t.floors i = []) ∧ t.onboard = [] ∧
    t.totalServed = dawn.totalServed + pending dawn :=
  served_in_time seqRun_morning (.inr (.inr ⟨by decide, by decide⟩))

end KernelElevator
