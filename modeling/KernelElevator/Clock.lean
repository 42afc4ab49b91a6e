import KernelElevator.Completion
import KernelElevator.Drain
import KernelElevator.Library.Cost
import Mathlib.Order.Bounds.Basic

/-!
# How long the elevator takes

`move_elevator` sleeps two seconds for each floor, and a service stop one second between unloading
and loading; nothing else of the scheduler sleeps. The clock here counts the seconds that the thread
asks `ssleep` for.

* `Takes s t n` — the iteration from `s` ends in `t`, and sleeps `n` seconds.
* `SweepTime` — one tour of a set of floors, from the lowest to the highest.
* `iteration_takes` — an iteration is a tour of the destinations on board, a tour of the floors
  where somebody waits, or a service stop, and never sleeps more than 36 seconds.
-/

namespace KernelElevator

open Machine

/-! ## Sleeping -/

/-- What `move_elevator(floor)`, called at `currentFloor`, passes to `ssleep`. -/
def moveSleep (currentFloor floor : Int) : Nat :=
  let x := currentFloor - floor
  let x := if x < 0 then x * -1 else x
  (2 * x).toNat

theorem moveSleep_eq (currentFloor floor : Int) :
    moveSleep currentFloor floor = 2 * (currentFloor - floor).natAbs := by
  unfold moveSleep
  dsimp only
  split_ifs <;> omega

@[simp] theorem moveSleep_self (floor : Int) : moveSleep floor floor = 0 := by simp [moveSleep_eq]

/-- The sleep that the thread has just come to. -/
def sleepSeconds (s : State) : Nat :=
  match s.pc with
  | .top => 0
  | .drain => 0
  | .loadSleep => 1
  | .drainMove floor => moveSleep s.currentFloor floor
  | .idleMove _ floor => moveSleep s.currentFloor floor
  | .upMove floor => moveSleep s.currentFloor floor
  | .downMove floor => moveSleep s.currentFloor floor

/-- The sleep at the end of a step. -/
def Label.seconds (l : Label) (s : State) : Nat :=
  match l with
  | .sched locks => sleepSeconds (schedule locks s)
  | .call _ => 0

/-! ## Iterations -/

/-- `Returns`, with the seconds slept. -/
inductive Takes : State → State → Nat → Prop
  | top {s : State} : (schedule granted s).pc = .top → Takes s (schedule granted s) 0
  | mid {s t : State} {n : Nat} : (schedule granted s).pc ≠ .top → Takes (schedule granted s) t n →
      Takes s t (sleepSeconds (schedule granted s) + n)

theorem Takes.returns {s t : State} {n : Nat} (h : Takes s t n) : Returns s t := by
  induction h with
  | top hpc => exact .top hpc
  | mid hpc _ ih => exact .mid hpc ih

theorem Takes.unique {s t u : State} {m n : Nat} (h : Takes s t m) (h' : Takes s u n) :
    t = u ∧ m = n := by
  induction h generalizing n with
  | top hpc =>
    cases h' with
    | top => exact ⟨rfl, rfl⟩
    | mid hne => exact absurd hpc hne
  | mid hne _ ih =>
    cases h' with
    | top hpc => exact absurd hpc hne
    | mid _ h' =>
      obtain ⟨rfl, rfl⟩ := ih h'
      exact ⟨rfl, rfl⟩

/-- The clock of an iteration is that of its steps. -/
theorem Takes.total {s t : State} {n : Nat} (h : Takes s t n) :
    ∃ k, t = run step (List.replicate k (.sched granted)) s ∧
      n = Machine.total step Label.seconds (List.replicate k (.sched granted)) s := by
  induction h with
  | @top s hpc =>
    have hzero : sleepSeconds (schedule granted s) = 0 := by simp [sleepSeconds, hpc]
    exact ⟨1, rfl, hzero.symm⟩
  | @mid s t n _ _ ih =>
    obtain ⟨k, ht, hn⟩ := ih
    refine ⟨k + 1, ht, ?_⟩
    rw [List.replicate_succ, total_cons, hn]
    rfl

/-- The thread has come to `r`, and `n` seconds later to the loop head in `t`. -/
def Finishes (r t : State) (n : Nat) : Prop :=
  (r.pc = .top ∧ t = r ∧ n = 0) ∨ (r.pc ≠ .top ∧ ∃ m, Takes r t m ∧ n = sleepSeconds r + m)

theorem Finishes.takes {s t : State} {n : Nat} (h : Finishes (schedule granted s) t n) :
    Takes s t n := by
  rcases h with ⟨hpc, rfl, rfl⟩ | ⟨hpc, m, hm, rfl⟩
  · exact .top hpc
  · exact .mid hpc hm

/-! ## Tours -/

/-- The seconds it takes to go from `floor` to each floor of the list. -/
def pathSeconds : Int → List Int → Nat
  | _, [] => 0
  | floor, f :: fs => moveSleep floor f + pathSeconds f fs

/-- Going to the lowest floor of `F` and up to the highest. -/
def SweepTime (floor : Int) (F : Set Int) (n : Nat) : Prop :=
  (F = ∅ ∧ n = 0) ∨
    ∃ lo hi, IsLeast F lo ∧ IsGreatest F hi ∧ n = moveSleep floor lo + 2 * (hi - lo).toNat

/-- An ascending path is as long as from its first floor to its last one. -/
theorem pathSeconds_ascending (floor : Int) {f : Int} {fs : List Int}
    (h : (f :: fs).Pairwise (· < ·)) :
    ∃ hi, IsGreatest {g | g ∈ f :: fs} hi ∧
      pathSeconds floor (f :: fs) = moveSleep floor f + 2 * (hi - f).toNat := by
  induction fs generalizing floor f with
  | nil => exact ⟨f, ⟨by simp, by simp [upperBounds]⟩, by simp [pathSeconds]⟩
  | cons g gs ih =>
    obtain ⟨hfirst, hrest⟩ := List.pairwise_cons.1 h
    obtain ⟨hi, ⟨hmem, hle⟩, hpath⟩ := ih f hrest
    have hlt : f < g := hfirst g List.mem_cons_self
    have hge : g ≤ hi := hle List.mem_cons_self
    refine ⟨hi, ⟨List.mem_cons_of_mem f hmem, ?_⟩, ?_⟩
    · intro x hx
      rcases List.mem_cons.1 hx with rfl | hx
      · exact (hlt.trans_le hge).le
      · exact hle hx
    · rw [pathSeconds, hpath, moveSleep_eq f g]
      omega

theorem sweepTime_path {floor : Int} {fs : List Int} (h : fs.Pairwise (· < ·)) :
    SweepTime floor {g | g ∈ fs} (pathSeconds floor fs) := by
  cases fs with
  | nil => exact .inl ⟨by simp, rfl⟩
  | cons f fs =>
    obtain ⟨hi, hgreatest, hpath⟩ := pathSeconds_ascending floor h
    refine .inr ⟨f, hi, ⟨List.mem_cons_self, ?_⟩, hgreatest, hpath⟩
    intro x hx
    rcases List.mem_cons.1 hx with rfl | hx
    · exact le_rfl
    · exact ((List.pairwise_cons.1 h).1 x hx).le

/-- A tour of floors of the building, from one of them. -/
theorem SweepTime.le {floor : Int} {F : Set Int} {n : Nat} (h : SweepTime floor F n)
    (hfloor : IsFloor floor) (hF : ∀ f ∈ F, IsFloor f) : n ≤ 36 := by
  rcases h with ⟨-, rfl⟩ | ⟨lo, hi, hlo, hhi, rfl⟩
  · exact Nat.zero_le _
  · have h1 := hF lo hlo.1
    have h2 := hF hi hhi.1
    rw [moveSleep_eq]
    simp only [IsFloor] at hfloor h1 h2
    omega

/-! ## The three kinds of iteration -/

theorem takes_service {s : State} (hpc : s.pc = .top) (hoff : s.state ≠ .offline)
    (hidle : s.state ≠ .idle) :
    ∃ t, Takes s t (1 + moveSleep s.currentFloor (nextUp s.currentFloor)) := by
  have hunload := schedule_unloads hpc hoff hidle
  have hload := schedule_loads hunload.pc
  have hclimb := schedule_climbs hload.pc hload.state
  have htakes : Takes s _ _ :=
    .mid (by simp [hunload.pc]) (.mid (by simp [hload.pc]) (.top hclimb.pc))
  have hsleep : sleepSeconds (schedule granted s) = 1 := by simp [sleepSeconds, hunload.pc]
  have hsleep' : sleepSeconds (schedule granted (schedule granted s)) =
      moveSleep s.currentFloor (nextUp s.currentFloor) := by
    simp only [sleepSeconds, hload.pc, hload.floor, hunload.floor]
  rw [hsleep, hsleep', Nat.add_zero] at htakes
  exact ⟨_, htakes⟩

/-- The floors among those of index `is` where somebody waits. -/
def waitingAt (floors : Fin 10 → List Passenger) (is : List (Fin 10)) : List Int :=
  (is.filter (floors · ≠ [])).map floorOf

theorem waitingAt_skip {floors : Fin 10 → List Passenger} {i : Fin 10} (is : List (Fin 10))
    (h : floors i = []) : waitingAt floors (i :: is) = waitingAt floors is := by
  simp [waitingAt, h]

theorem waitingAt_cons {floors : Fin 10 → List Passenger} {i : Fin 10} (is : List (Fin 10))
    (h : floors i ≠ []) : waitingAt floors (i :: is) = floorOf i :: waitingAt floors is := by
  simp [waitingAt, h]

/-- The scan goes to each floor where somebody waits. -/
theorem exists_finishes {s : State} (hacc : Accounting s) (is : List (Fin 10)) :
    ∃ t, Finishes (idleScan is s) t (pathSeconds s.currentFloor (waitingAt s.floors is)) := by
  induction is generalizing s with
  | nil => exact ⟨_, .inl ⟨rfl, rfl, rfl⟩⟩
  | cons i is ih =>
    cases hq : s.floors i with
    | nil =>
      obtain ⟨t, ht⟩ := ih hacc
      rw [waitingAt_skip is hq]
      exact ⟨t, by simpa only [idleScan, hq] using ht⟩
    | cons p rest =>
      have hfloor : p.startFloor = floorOf i := (hacc.queued i p (hq ▸ List.mem_cons_self)).2
      rw [waitingAt_cons is (by simp [hq]), pathSeconds, ← hfloor]
      cases hm : moveElevator p.startFloor s with
      | some m =>
        obtain ⟨-, rfl⟩ := moveElevator_eq_some hm
        obtain ⟨t, ht⟩ := ih (s := (arrive p.startFloor (({ s with
          nextFloor := p.startFloor } : State).goto (.idleMove is p.startFloor))).setState .loading)
          { hacc with }
        refine ⟨t, .inr ?_⟩
        simp only [idleScan, hq, hm]
        refine ⟨by simp, _, Finishes.takes ht, ?_⟩
        rfl
      | none =>
        obtain ⟨t, ht⟩ := ih (s := s.setState .loading) { hacc with }
        have hat := moveElevator_eq_none hm
        refine ⟨t, ?_⟩
        rw [hat, moveSleep_self, Nat.zero_add]
        simp only [idleScan, hq, hm]
        exact ht

theorem takes_idle {s : State} (hacc : Accounting s) (hpc : s.pc = .top) (hidle : s.state = .idle) :
    ∃ t n, Takes s t n ∧ SweepTime s.currentFloor {f | s.queue f ≠ []} n := by
  obtain ⟨t, ht⟩ := exists_finishes hacc (List.finRange 10)
  rw [← schedule_idle granted hpc hidle] at ht
  refine ⟨t, _, ht.takes, ?_⟩
  have hfloors : {f | s.queue f ≠ []} = {f | f ∈ waitingAt s.floors (List.finRange 10)} := by
    ext f
    simp only [Set.mem_ofPred_eq, waitingAt, List.mem_map, List.mem_filter, List.mem_finRange,
      true_and, decide_eq_true_eq]
    constructor
    · intro hf
      obtain ⟨k, hk⟩ := slot_eq_some (bounds_of_getQueue s.floors hf)
      obtain rfl := floorOf_of_slot hk
      exact ⟨k, by simpa [State.queue] using hf, rfl⟩
    · intro h
      obtain ⟨k, hk, rfl⟩ := h
      simpa [State.queue] using hk
  rw [hfloors]
  apply sweepTime_path
  refine List.Pairwise.map floorOf ?_ ((List.pairwise_lt_finRange 10).filter _)
  intro i j hij
  simp only [floorOf]
  omega

/-- Where the elevator is, or will be at the end of the sleep. -/
def headedFor (s : State) : Int :=
  match s.pc with
  | .drainMove floor => floor
  | _ => s.currentFloor

/-- A step of the `OFFLINE` branch: the thread wakes and unloads, or makes a pass as far as it gets
without sleeping. -/
theorem offloading_cases {s : State} (h : Offloading s) :
    (∃ floor, s.pc = .drainMove floor ∧ schedule granted s = drainArrive floor s) ∨
    headedFor s = s.currentFloor ∧
      ∃ mutexLog, schedule granted s = drainPass { s with mutexLog := mutexLog } := by
  obtain ⟨hstate, hpc | hpc | ⟨floor, hpc⟩⟩ := h
  · right
    refine ⟨by simp [headedFor, hpc], (s.lock .offline granted).mutexLog, ?_⟩
    rw [schedule_offline granted hpc hstate, offlineBranch,
      if_pos (show granted .offline = true from rfl)]
    rfl
  · exact .inr ⟨by simp [headedFor, hpc], s.mutexLog, schedule_drain granted hpc⟩
  · exact .inl ⟨floor, hpc, schedule_drainMove granted hpc⟩

/-- A pass ends where the elevator was, or goes to sleep on the way to somewhere else. -/
theorem drainPass_headedFor (s : State) :
    ((drainPass s).pc = .drain → (drainPass s).currentFloor = s.currentFloor) ∧
      ((drainPass s).pc ≠ .drain → (drainPass s).pc ≠ .top →
        sleepSeconds (drainPass s) = moveSleep s.currentFloor (headedFor (drainPass s)) ∧
        (drainPass s).pc = .drainMove (headedFor (drainPass s))) := by
  unfold drainPass
  split_ifs with hon
  · exact ⟨by simp, fun _ htop => absurd rfl htop⟩
  · split
    · rename_i hm
      obtain ⟨-, rfl⟩ := moveElevator_eq_some hm
      exact ⟨by simp, fun _ _ => ⟨rfl, rfl⟩⟩
    · exact ⟨fun _ => unloadElevator_currentFloor _ s, fun hdrain => absurd rfl hdrain⟩

/-- The next pass ends at the floor of the move in progress. -/
theorem Passes.of_move {s t : State} {fs : List Int} (h : Passes s fs t) {floor : Int}
    (hpc : s.pc = .drainMove floor) : ∃ gs, fs = floor :: gs := by
  have hstep := schedule_drainMove granted hpc
  have hfloor : (drainArrive floor s).currentFloor = floor :=
    unloadElevator_currentFloor _ (arrive floor s)
  cases h with
  | done htop => simp [hstep, drainArrive] at htop
  | pass =>
    rw [hstep, hfloor]
    exact ⟨_, rfl⟩
  | move _ hdrain => exact absurd (by rw [hstep]; rfl) hdrain

/-- The loop goes to each floor that one of its passes ends at. -/
theorem Passes.takes {s t : State} {fs : List Int} (h : Passes s fs t) (hs : Offloading s) :
    Takes s t (pathSeconds (headedFor s) fs) := by
  induction h with
  | done hpc => exact .top hpc
  | @pass s t fs hpc hrest ih =>
    have htakes := ih (offloading_schedule hs).1
    have hsleep : sleepSeconds (schedule granted s) = 0 := by simp [sleepSeconds, hpc]
    have hhere : headedFor (schedule granted s) = (schedule granted s).currentFloor := by
      simp [headedFor, hpc]
    have hat : headedFor s = (schedule granted s).currentFloor := by
      rcases offloading_cases hs with ⟨floor, hmove, hstep⟩ | ⟨hnow, mutexLog, hstep⟩
      · rw [hstep]
        simp only [headedFor, hmove]
        exact (unloadElevator_currentFloor _ (arrive floor s)).symm
      · rw [hstep] at hpc ⊢
        exact hnow.trans ((drainPass_headedFor { s with mutexLog := mutexLog }).1 hpc).symm
    rw [hhere] at htakes
    rw [pathSeconds, hat, moveSleep_self, ← hsleep]
    exact .mid (by simp [hpc]) htakes
  | @move s t fs htop hdrain hrest ih =>
    have htakes := ih (offloading_schedule hs).1
    rcases offloading_cases hs with ⟨floor, -, hstep⟩ | ⟨hnow, mutexLog, hstep⟩
    · exact absurd (by rw [hstep]; rfl) hdrain
    · obtain ⟨hsleep, hpc⟩ := (drainPass_headedFor { s with mutexLog := mutexLog }).2
        (by rwa [← hstep]) (by rwa [← hstep])
      rw [← hstep] at hsleep hpc
      obtain ⟨gs, rfl⟩ := hrest.of_move hpc
      rw [pathSeconds, moveSleep_self, Nat.zero_add] at htakes
      rw [pathSeconds, hnow, ← hsleep]
      exact .mid htop htakes

/-- A stopped elevator with somebody on board has `UP` recorded. -/
theorem SeqRun.stopped {ops : List Op} {s : State} (hrun : SeqRun ops s)
    (hstate : s.state = .offline) (hon : s.onboard ≠ []) : Stopped s ∧ s.previousState = .up := by
  have hup := (recorded hrun).previousState hon (by simp [hstate])
  obtain ⟨hpc, ls, rfl⟩ := hrun.after
  have hacc := accounting_after ls
  refine ⟨⟨hpc, hstate, .inl hup, ?_, fun p hp => (hacc.riding p hp).1.destination, hacc.counted⟩,
    hup⟩
  rcases placed_after ls with hasleep | hin | hwedged
  · exact absurd hasleep.onboard hon
  · exact hin.floor
  · exact absurd hup hwedged.notUp

theorem takes_offline {s : State} (h : Stopped s) (hup : s.previousState = .up) :
    ∃ t n, Takes s t n ∧
      SweepTime s.currentFloor {f | ∃ p ∈ s.onboard, p.destinationFloor = f} n := by
  obtain ⟨fs, t, ht⟩ := exists_delivers h.unloading
  have hhere : headedFor s = s.currentFloor := by simp [headedFor, h.pc]
  have hvisits : {f | ∃ p ∈ s.onboard, p.destinationFloor = f} = {f | f ∈ fs} := by
    ext f
    exact (ht.visits f).symm
  refine ⟨t, _, ht.passes.takes ⟨h.state, .inl h.pc⟩, ?_⟩
  rw [hvisits, hhere]
  exact sweepTime_path (ht.up hup)

/-- Nobody on board of a stopped elevator: the thread comes back at once. -/
theorem takes_offline_empty {s : State} (hpc : s.pc = .top) (hstate : s.state = .offline)
    (hon : s.onboard = []) : ∃ t, Takes s t 0 := by
  refine ⟨_, .top ?_⟩
  have hon' : (s.lock .offline granted).onboard = [] := hon
  rw [schedule_offline granted hpc hstate, offlineBranch,
    if_pos (show granted .offline = true from rfl), drainPass, if_pos hon']
  rfl

/-- **How long an iteration takes.** In a sequential run each iteration ends. That of a stopped
elevator tours the destinations of those on board, that of an idle one the floors where somebody
waits, each from the lowest to the highest; any other is a service stop, of 3 seconds, or of 19 at
the top floor. -/
theorem iteration_takes {ops : List Op} {s : State} (hrun : SeqRun ops s) :
    ∃ t n, Takes s t n ∧
      (s.state = .offline →
        SweepTime s.currentFloor {f | ∃ p ∈ s.onboard, p.destinationFloor = f} n) ∧
      (s.state = .idle → SweepTime s.currentFloor {f | s.queue f ≠ []} n) ∧
      (s.state ≠ .offline → s.state ≠ .idle → n = if s.currentFloor = 10 then 19 else 3) ∧
      n ≤ 36 := by
  obtain ⟨hpc, ls, rfl⟩ := hrun.after
  have hacc := accounting_after ls
  by_cases hoff : (after ls).state = .offline
  · have hdest : ∀ f ∈ {f | ∃ p ∈ (after ls).onboard, p.destinationFloor = f}, IsFloor f := by
      intro f hf
      obtain ⟨p, hp, rfl⟩ := hf
      exact (hacc.riding p hp).1.destination
    have hends : ∃ t n, Takes (after ls) t n ∧ SweepTime (after ls).currentFloor
        {f | ∃ p ∈ (after ls).onboard, p.destinationFloor = f} n ∧ n ≤ 36 := by
      by_cases hon : (after ls).onboard = []
      · obtain ⟨t, ht⟩ := takes_offline_empty hpc hoff hon
        exact ⟨t, 0, ht, .inl ⟨by simp [hon], rfl⟩, Nat.zero_le _⟩
      · obtain ⟨hstopped, hup⟩ := hrun.stopped hoff hon
        obtain ⟨t, n, ht, htour⟩ := takes_offline hstopped hup
        exact ⟨t, n, ht, htour, htour.le hstopped.floor hdest⟩
    obtain ⟨t, n, ht, htour, hle⟩ := hends
    exact ⟨t, n, ht, fun _ => htour, by simp [hoff], by simp [hoff], hle⟩
  · have hfloor : IsFloor (after ls).currentFloor := (placed_after ls).isFloor hpc hoff
    by_cases hidle : (after ls).state = .idle
    · obtain ⟨t, n, ht, htour⟩ := takes_idle hacc hpc hidle
      refine ⟨t, n, ht, by simp [hidle], fun _ => htour, by simp [hidle], htour.le hfloor ?_⟩
      intro f hf
      exact bounds_of_getQueue (after ls).floors hf
    · obtain ⟨t, ht⟩ := takes_service hpc hoff hidle
      have hstop : 1 + moveSleep (after ls).currentFloor (nextUp (after ls).currentFloor) =
          if (after ls).currentFloor = 10 then 19 else 3 := by
        simp only [IsFloor] at hfloor
        rw [moveSleep_eq, nextUp]
        split_ifs <;> omega
      rw [hstop] at ht
      refine ⟨t, _, ht, by simp [hoff], by simp [hidle], fun _ _ => rfl, ?_⟩
      split_ifs <;> omega

/-- The idle elevator of three passengers, at floors 1, 3 and 7. -/
theorem morning_takes : ∃ t n, Takes dawn t n ∧
    SweepTime dawn.currentFloor {f | dawn.queue f ≠ []} n ∧ n ≤ 36 := by
  obtain ⟨t, n, ht, -, htour, -, hle⟩ := iteration_takes seqRun_morning
  exact ⟨t, n, ht, htour (by decide), hle⟩

end KernelElevator
