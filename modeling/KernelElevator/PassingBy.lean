import KernelElevator.Iteration

/-!
# Passing by

In a sequential run the elevator comes to a floor at the end of a move up, or in the `IDLE` scan.
Where somebody waits, and fits, the next stop is due to take that passenger. The scan does not stop:
it looks at all ten floors, and moves on to the next one where somebody waits.

* `Sequential` — calls come between whole iterations, and every lock is granted.
* `OneAtIdle` — the scan starts with at most one floor to go to.
* `Due` — the passenger is about to be taken.
* `passes_nobody_by` — if every scan starts so, nobody is passed by.
-/

namespace KernelElevator

open Machine

/-! ## Sequential runs, step by step -/

/-- Calls come at the loop head only, and every lock is granted. -/
def Sequential (s : State) : Label → Prop
  | .sched locks => locks = granted
  | .call _ => s.pc = .top

/-- The runs of whole iterations are runs of this kind. -/
theorem SeqRun.sequential {ops : List Op} {s : State} (h : SeqRun ops s) :
    ∃ ls, Along step Sequential ls elevatorInit ∧ s = KernelElevator.after ls := by
  induction h with
  | nil => exact ⟨[], trivial, rfl⟩
  | snoc hrun hop ih =>
    obtain ⟨ls, hls, rfl⟩ := ih
    cases hop with
    | iteration h =>
      obtain ⟨n, rfl⟩ := h.run
      refine ⟨ls ++ List.replicate n (.sched granted), along_append.2 ⟨hls, ?_⟩,
        (after_append ls _).symm⟩
      rw [along_iff_forall]
      intro pre l hpre
      have hl : l ∈ List.replicate n (Label.sched granted) := hpre.subset (by simp)
      rw [List.eq_of_mem_replicate hl]
      rfl
    | call c =>
      have htop : Sequential (run step ls elevatorInit) (.call c) := hrun.after.1
      refine ⟨ls ++ [Label.call c], ?_, (after_snoc ls (.call c)).symm⟩
      exact along_append.2 ⟨hls, htop, trivial⟩

/-- At most one floor has somebody waiting. -/
def OneFloor (s : State) : Prop := ∀ i j, s.floors i ≠ [] → s.floors j ≠ [] → i = j

/-- When the scheduler comes to the loop head `IDLE`, at most one floor has somebody waiting. -/
def OneAtIdle (s : State) (l : Label) : Prop :=
  l.isSched = true → s.pc = .top → s.state = .idle → OneFloor s

/-! ## Nobody is passed by -/

/-- `move_elevator` is about to set `current_floor`, in the `IDLE` branch or in the service
branch. -/
def Arriving (s : State) (floor : Int) : Prop :=
  (∃ is, s.pc = .idleMove is floor) ∨ s.pc = .upMove floor

/-- There is room for the passenger, or no need of any. -/
def Room (s : State) (p : Passenger) : Prop := p.state = .equal ∨ Fits s p

/-- `load_elevator` has taken the passenger at this floor, since `s`. -/
def TakenSince (s : State) (floor : Int) (p : Passenger) (t : State) : Prop :=
  ∃ new, t.log = s.log ++ new ∧ (.boarded floor p ∈ new ∨ .servedHere floor p ∈ new)

/-- Whenever the elevator comes to a floor where somebody waits first in line for whom there is
room, and is not stopped, that passenger is taken there before the elevator is anywhere else, and
within three more steps of the scheduler. -/
def PassesNobodyBy (ls : List Label) : Prop :=
  ∀ pre locks mid floor p rest, pre ++ .sched locks :: mid <+: ls → Arriving (after pre) floor →
    (after pre).queue floor = p :: rest → Room (after pre) p → .call .stop ∉ mid →
    TakenSince (after pre) floor p (after (pre ++ .sched locks :: mid)) ∨
      ((after (pre ++ .sched locks :: mid)).currentFloor = floor ∧ mid.countP Label.isSched < 3)

/-! ## The pieces of a stop -/

theorem Room.mono {s t : State} {p : Passenger} (h : Room s p)
    (hweight : t.currentWeight ≤ s.currentWeight) (hunits : t.currentUnits ≤ s.currentUnits) :
    Room t p := by
  rcases h with heq | ⟨hw, hu⟩
  · exact .inl heq
  · refine .inr ⟨?_, ?_⟩
    · omega
    · omega

/-- Letting people off makes room. -/
theorem unload_room {s : State} (hacc : Accounting s) {p : Passenger} (h : Room s p)
    (floor : Int) : Room (unloadElevator floor s).2 p := by
  have hloop (ps : List Passenger) (s : State)
      (hps : ∀ q ∈ ps, 0 ≤ q.weightUnits ∧ 0 ≤ q.spaceUnits) :
      (unloadLoop floor ps s).currentWeight ≤ s.currentWeight ∧
        (unloadLoop floor ps s).currentUnits ≤ s.currentUnits := by
    induction ps generalizing s with
    | nil => exact ⟨le_refl _, le_refl _⟩
    | cons q ps ih =>
      have hq := hps q List.mem_cons_self
      have hps : ∀ q ∈ ps, 0 ≤ q.weightUnits ∧ 0 ≤ q.spaceUnits :=
        fun q hq => hps q (List.mem_cons_of_mem _ hq)
      by_cases hd : q.destinationFloor = floor
      · have hrest := ih (s.letOff floor q) hps
        simp only [State.letOff] at hrest
        rw [unloadLoop, if_pos hd]
        simp only [State.letOff]
        omega
      · rw [unloadLoop, if_neg hd]
        exact ih s hps
  by_cases hf : s.currentFloor ≠ floor
  · rw [unloadElevator, if_pos hf]
    exact h
  · rw [unloadElevator, if_neg hf]
    have hless := hloop s.onboard s fun q hq => by
      have hbounds := (hacc.riding q hq).1.units_bounds
      omega
    exact h.mono hless.1 hless.2

theorem loadLoop_log (floor : Int) (ps : List Passenger) (s : State) :
    s.log <+: (loadLoop floor ps s).2.log := by
  induction ps generalizing s with
  | nil => exact List.prefix_refl _
  | cons p ps ih =>
    unfold loadLoop
    split_ifs
    · exact (List.prefix_append s.log _).trans (ih (s.serveHere floor p))
    · exact (List.prefix_append s.log _).trans (ih (s.board floor p))
    · exact List.prefix_refl _

/-- `load_elevator` takes the first in line. -/
theorem load_takes {s : State} {p : Passenger} {rest : List Passenger}
    (hq : s.queue s.currentFloor = p :: rest) (hroom : Room s p) :
    TakenSince s s.currentFloor p (loadElevator s.currentFloor s).2 := by
  have hload : loadElevator s.currentFloor s = loadLoop s.currentFloor (p :: rest)
      { s with log := s.log ++ [.opened s.currentFloor] } := by
    rw [← hq]
    exact loadElevator_queue (by rw [hq]; exact List.cons_ne_nil p rest)
  rw [hload]
  by_cases heq : p.state = .equal
  · rw [loadLoop, if_pos heq]
    obtain ⟨more, hmore⟩ := loadLoop_log s.currentFloor rest (State.serveHere s.currentFloor p
      { s with log := s.log ++ [.opened s.currentFloor] })
    refine ⟨[.opened s.currentFloor, .servedHere s.currentFloor p] ++ more, ?_, .inr (by simp)⟩
    rw [← hmore]
    simp [State.serveHere]
  · have hfits : Fits { s with log := s.log ++ [.opened s.currentFloor] } p :=
      hroom.resolve_left heq
    rw [loadLoop, if_neg heq, if_pos hfits]
    obtain ⟨more, hmore⟩ := loadLoop_log s.currentFloor rest (State.board s.currentFloor p
      { s with log := s.log ++ [.opened s.currentFloor] })
    refine ⟨[.opened s.currentFloor, .boarded s.currentFloor p] ++ more, ?_, .inl (by simp)⟩
    rw [← hmore]
    simp [State.board]

/-! ## The scan -/

theorem idleScan_empty {is : List (Fin 10)} {s : State} (h : ∀ i ∈ is, s.floors i = []) :
    idleScan is s = s.goto .top := by
  induction is with
  | nil => rfl
  | cons i is ih =>
    have hi : s.floors i = [] := h i List.mem_cons_self
    simp only [idleScan, hi]
    exact ih fun j hj => h j (List.mem_cons_of_mem _ hj)

/-- A scan with one floor to go to is over once it is there. -/
theorem idleScan_one {is : List (Fin 10)} {s : State} (hnodup : is.Nodup) (h : OneFloor s) :
    (idleScan is s).pc = .top ∨
      ∃ rest floor, (idleScan is s).pc = .idleMove rest floor ∧
        (∀ i ∈ rest, (idleScan is s).floors i = []) := by
  induction is with
  | nil => exact .inl rfl
  | cons i is ih =>
    have hnot := (List.nodup_cons.1 hnodup).1
    cases hq : s.floors i with
    | nil =>
      simp only [idleScan, hq]
      exact ih (List.nodup_cons.1 hnodup).2
    | cons p rest =>
      -- The others are empty.
      have hempty : ∀ j ∈ is, s.floors j = [] := by
        intro j hj
        by_contra hne
        have heq := h i j (by simp [hq]) hne
        exact hnot (heq ▸ hj)
      cases hmove : moveElevator p.startFloor s with
      | some t =>
        obtain ⟨-, rfl⟩ := moveElevator_eq_some hmove
        simp only [idleScan, hq, hmove]
        exact .inr ⟨is, p.startFloor, rfl, hempty⟩
      | none =>
        simp only [idleScan, hq, hmove]
        rw [idleScan_empty (s := s.setState .loading) hempty]
        exact .inl rfl

/-- The scan at the only floor where somebody waits. -/
theorem idleScan_here {is : List (Fin 10)} {s : State} (hacc : Accounting s) (hnodup : is.Nodup)
    (h : OneFloor s) {k : Fin 10} (hk : k ∈ is) (hne : s.floors k ≠ [])
    (hat : s.currentFloor = floorOf k) : idleScan is s = (s.setState .loading).goto .top := by
  induction is with
  | nil => exact absurd hk List.not_mem_nil
  | cons i is ih =>
    obtain ⟨hnot, hnodup⟩ := List.nodup_cons.1 hnodup
    cases hq : s.floors i with
    | nil =>
      have hik : k ≠ i := by
        rintro rfl
        exact hne hq
      simp only [idleScan, hq]
      exact ih hnodup ((List.mem_cons.1 hk).resolve_left hik)
    | cons p rest =>
      obtain rfl : i = k := h i k (by simp [hq]) hne
      have hstart : p.startFloor = floorOf i := (hacc.queued i p (hq ▸ List.mem_cons_self)).2
      have hmove : moveElevator p.startFloor s = none := by
        rw [moveElevator, if_neg (by simp [hstart, hat])]
      have hempty : ∀ j ∈ is, (s.setState .loading).floors j = [] := by
        intro j hj
        by_contra hne'
        exact hnot (h i j hne hne' ▸ hj)
      simp only [idleScan, hq, hmove]
      exact idleScan_empty hempty

/-! ## Where the scheduler can be -/

/-- What holds in the sequential runs whose scans start with one floor at most. -/
structure Orderly (s : State) : Prop where
  branch : (s.started = true ∧ ¬ s.pc.InLoop) ∨ Offloading s
  scanning : ∀ is floor, s.pc = .idleMove is floor → ∀ i ∈ is, s.floors i = []
  climbing : ∀ floor, s.pc = .upMove floor → s.state = .up

section Orderly

variable {s : State}

theorem orderly_top (hpc : s.pc = .top) (h : s.started = true ∨ Offloading s) : Orderly s :=
  ⟨h.imp_left fun hstarted => ⟨hstarted, by simp [hpc, Pc.InLoop]⟩, by simp [hpc], by simp [hpc]⟩

theorem orderly_init : Orderly elevatorInit := orderly_top rfl (.inr ⟨rfl, .inl rfl⟩)

theorem Offloading.orderly (h : Offloading s) : Orderly s := by
  refine ⟨.inr h, ?_, ?_⟩
  · intro is floor hpc
    rcases h.2 with hpc' | hpc' | ⟨_, hpc'⟩ <;> simp [hpc'] at hpc
  · intro floor hpc
    rcases h.2 with hpc' | hpc' | ⟨_, hpc'⟩ <;> simp [hpc'] at hpc

/-- Outside the `OFFLINE` branch the elevator has been started. -/
theorem Orderly.started (h : Orderly s) (hout : ¬ Offloading s) : s.started = true :=
  (h.branch.resolve_right hout).1

theorem orderly_call (h : Orderly s) (hpc : s.pc = .top) (c : Call) : Orderly (c.exec s).2 := by
  have hpc' : (c.exec s).2.pc = .top := (call_pc c s).trans hpc
  refine orderly_top hpc' ?_
  rcases call_cases c s with hsame | ⟨-, -, hstart⟩ | ⟨-, -, hstop⟩
  · have hstarted : (c.exec s).2.started = s.started := congrArg Controls.started hsame
    have hstate : (c.exec s).2.state = s.state := congrArg Controls.state hsame
    rw [hstarted]
    exact h.branch.imp And.left fun hoff => ⟨hstate.trans hoff.1, .inl hpc'⟩
  · rw [hstart]
    exact .inl rfl
  · refine .inr ⟨?_, .inl hpc'⟩
    rw [hstop]

theorem orderly_schedule (h : Orderly s) (hone : s.pc = .top → s.state = .idle → OneFloor s) :
    Orderly (schedule granted s) := by
  by_cases hoff : Offloading s
  · exact (offloading_schedule hoff).1.orderly
  have hloop : ¬ s.pc.InLoop := (h.branch.resolve_right hoff).2
  have hstarted : (schedule granted s).started = true :=
    (schedule_started granted s).trans (h.started hoff)
  cases hpc : s.pc with
  | top =>
    have hnot : s.state ≠ .offline := fun hstate => hoff ⟨hstate, .inl hpc⟩
    by_cases hidle : s.state = .idle
    · have hscan := schedule_idle granted hpc hidle
      rcases idleScan_one (List.nodup_finRange 10) (hone hpc hidle) with htop | ⟨is, f, hmove, hno⟩
      · exact orderly_top (hscan ▸ htop) (.inl hstarted)
      · rw [← hscan] at hmove hno
        refine ⟨.inl ⟨hstarted, by simp [hmove, Pc.InLoop]⟩, ?_, by simp [hmove]⟩
        intro is' floor hpc'
        obtain ⟨rfl, -⟩ := Pc.idleMove.inj (hmove.symm.trans hpc')
        exact hno
    · have hsleep := (schedule_unloads hpc hnot hidle).pc
      exact ⟨.inl ⟨hstarted, by simp [hsleep, Pc.InLoop]⟩, by simp [hsleep], by simp [hsleep]⟩
  | drain => exact absurd (by simp [hpc, Pc.InLoop]) hloop
  | drainMove floor => exact absurd (by simp [hpc, Pc.InLoop]) hloop
  | idleMove is floor =>
    have harrive : schedule granted s = ((arrive floor s).setState .loading).goto .top := by
      rw [schedule_idleMove granted hpc]
      exact idleScan_empty (s := (arrive floor s).setState .loading) (h.scanning is floor hpc)
    exact orderly_top (harrive ▸ rfl) (.inl hstarted)
  | loadSleep =>
    have hload := schedule_loads hpc
    exact ⟨.inl ⟨hstarted, by simp [hload.pc, Pc.InLoop]⟩, by simp [hload.pc],
      fun _ _ => hload.state⟩
  | upMove floor =>
    exact orderly_top (schedule_climbs hpc (h.climbing floor hpc)).pc (.inl hstarted)
  | downMove floor =>
    have htop : (schedule granted s).pc = .top := by
      rw [schedule_downMove granted hpc]
      rfl
    exact orderly_top htop (.inl hstarted)

theorem orderly_step {l : Label} (h : Orderly s) (hseq : Sequential s l) (hone : OneAtIdle s l) :
    Orderly (step l s) := by
  cases l with
  | sched locks =>
    obtain rfl : locks = granted := hseq
    exact orderly_schedule h (hone rfl)
  | call c => exact orderly_call h hseq c

end Orderly

/-! ## Who is due to be taken -/

/-- The elevator is at the floor, where the passenger is first in line and has room, and the next
thing that it does is to stop there. -/
structure Due (floor : Int) (p : Passenger) (s : State) : Prop where
  started : s.started = true
  here : s.currentFloor = floor
  queue : ∃ rest, s.queue floor = p :: rest
  room : Room s p
  place : s.pc = .loadSleep ∨ (s.pc = .top ∧ s.state ≠ .offline)

/-- How many steps of the scheduler it takes. -/
def stepsToLoad (s : State) : Nat :=
  if s.pc = .loadSleep then 1 else if s.state = .idle then 3 else 2

theorem stepsToLoad_pos (s : State) : 1 ≤ stepsToLoad s ∧ stepsToLoad s ≤ 3 := by
  unfold stepsToLoad
  split_ifs <;> decide

section Due

variable {floor : Int} {p : Passenger} {s : State}

theorem due_call (h : Due floor p s) {c : Call} (hstop : c ≠ .stop) :
    Due floor p (c.exec s).2 ∧ stepsToLoad (c.exec s).2 = stepsToLoad s := by
  have hsame : (c.exec s).2.controls = s.controls := by
    rcases call_cases c s with hsame | ⟨-, hnot, -⟩ | ⟨rfl, -, -⟩
    · exact hsame
    · exact absurd (hnot.symm.trans h.started) (by decide)
    · exact absurd rfl hstop
  have hroom : Room (c.exec s).2 p := by
    have hload :=
      call_view (fun c : Cargo => (c.currentWeight, c.currentUnits)) (fun _ _ => rfl) c s
    obtain ⟨hweight, hunits⟩ := Prod.mk.inj hload
    exact h.room.mono (le_of_eq hweight) (le_of_eq hunits)
  obtain ⟨rest, hrest⟩ := h.queue
  obtain ⟨more, hmore⟩ := call_queue c s floor
  simp only [State.controls, Controls.mk.injEq] at hsame
  obtain ⟨-, hstate, hfloor, -, hstarted, hpc'⟩ := hsame
  refine ⟨⟨hstarted.trans h.started, hfloor.trans h.here, ⟨rest ++ more, ?_⟩, hroom, ?_⟩, ?_⟩
  · rw [← hmore, hrest]
    rfl
  · rw [hpc', hstate]
    exact h.place
  · rw [stepsToLoad, hpc', hstate, stepsToLoad]

/-- The scan of an elevator that is where it has to go. -/
theorem due_idle (hacc : Accounting s) (h : Due floor p s) (hpc : s.pc = .top)
    (hidle : s.state = .idle) (hone : OneFloor s) : Due floor p (schedule granted s) ∧
      (schedule granted s).state = .loading ∧ (schedule granted s).pc = .top := by
  obtain ⟨rest, hrest⟩ := h.queue
  have hp : p ∈ getQueue s.floors floor := by
    show p ∈ s.queue floor
    rw [hrest]
    exact List.mem_cons_self
  obtain ⟨k, hk, hmem⟩ := mem_getQueue hp
  have hscan : schedule granted s = (s.setState .loading).goto .top := by
    rw [schedule_idle granted hpc hidle]
    exact idleScan_here hacc (List.nodup_finRange 10) hone (List.mem_finRange k)
      (List.ne_nil_of_mem hmem) (h.here.trans hk)
  rw [hscan]
  exact ⟨⟨h.started, h.here, h.queue, h.room, .inr ⟨rfl, by simp [State.goto]⟩⟩, rfl, rfl⟩

/-- Up to `ssleep(1)`. -/
theorem due_service (hacc : Accounting s) (h : Due floor p s) (hpc : s.pc = .top)
    (hoff : s.state ≠ .offline) (hidle : s.state ≠ .idle) : Due floor p (schedule granted s) ∧
      (schedule granted s).pc = .loadSleep := by
  have hunload := schedule_unloads hpc hoff hidle
  have hroom : Room (schedule granted s) p := by
    rw [schedule_service granted hpc hoff hidle]
    have hroom : Room ((s.lock .service granted).setState .loading) p := h.room
    exact unload_room (s := (s.lock .service granted).setState .loading) { hacc with } hroom _
  refine ⟨⟨?_, hunload.floor.trans h.here, ?_, hroom, .inl hunload.pc⟩, hunload.pc⟩
  · exact (schedule_started granted s).trans h.started
  · rw [hunload.queue]
    exact h.queue

/-- After `ssleep(1)`. -/
theorem due_load (h : Due floor p s) (hpc : s.pc = .loadSleep) :
    TakenSince s floor p (schedule granted s) := by
  obtain ⟨rest, hrest⟩ := h.queue
  rw [← h.here] at hrest ⊢
  obtain ⟨new, hlog, hnew⟩ := load_takes hrest h.room
  refine ⟨new, ?_, hnew⟩
  rw [← hlog, schedule_loadSleep granted hpc, loadAndGo]
  exact congrArg Cargo.log (upPart_steers granted _).cargo

/-- A passenger who is due stays so, one step closer with each step of the scheduler, until it is
taken. -/
theorem due_step (hacc : Accounting s) (h : Due floor p s) {l : Label} (hseq : Sequential s l)
    (hone : OneAtIdle s l) (hstop : l ≠ .call .stop) :
    TakenSince s floor p (step l s) ∨ (Due floor p (step l s) ∧
      stepsToLoad (step l s) + [l].countP Label.isSched ≤ stepsToLoad s) := by
  cases l with
  | call c =>
    obtain ⟨hdue, hsteps⟩ := due_call h fun heq => hstop (congrArg Label.call heq)
    exact .inr ⟨hdue, le_of_eq hsteps⟩
  | sched locks =>
    obtain rfl : locks = granted := hseq
    rcases h.place with hpc | ⟨hpc, hoff⟩
    · exact .inl (due_load h hpc)
    · refine .inr ?_
      by_cases hidle : s.state = .idle
      · obtain ⟨hdue, hstate, htop⟩ := due_idle hacc h hpc hidle (hone rfl hpc hidle)
        refine ⟨hdue, ?_⟩
        show stepsToLoad (schedule granted s) + 1 ≤ stepsToLoad s
        simp [stepsToLoad, hstate, htop, hpc, hidle]
      · obtain ⟨hdue, hsleep⟩ := due_service hacc h hpc hoff hidle
        refine ⟨hdue, ?_⟩
        show stepsToLoad (schedule granted s) + 1 ≤ stepsToLoad s
        simp [stepsToLoad, hsleep, hpc, hidle]

/-- Whoever is first in line where the elevator arrives, and has room, is due. -/
theorem due_arrival (hord : Orderly s) (harr : Arriving s floor) {rest : List Passenger}
    (hq : s.queue floor = p :: rest) (hroom : Room s p) : Due floor p (schedule granted s) := by
  have hout : ¬ Offloading s := by
    rintro ⟨-, hpc | hpc | ⟨_, hpc⟩⟩ <;> rcases harr with ⟨is, hpc'⟩ | hpc' <;> simp [hpc] at hpc'
  have hstarted : (schedule granted s).started = true :=
    (schedule_started granted s).trans (hord.started hout)
  rcases harr with ⟨is, hpc⟩ | hpc
  · have harrive : schedule granted s = ((arrive floor s).setState .loading).goto .top := by
      rw [schedule_idleMove granted hpc]
      exact idleScan_empty (s := (arrive floor s).setState .loading) (hord.scanning is floor hpc)
    rw [harrive] at hstarted ⊢
    exact ⟨hstarted, rfl, ⟨rest, hq⟩, hroom, .inr ⟨rfl, by simp [State.goto]⟩⟩
  · have hclimb := schedule_climbs hpc (hord.climbing floor hpc)
    have hcargo : (schedule granted s).cargo = s.cargo := by
      rw [schedule_upMove granted hpc]
      exact (downPart_steers granted _).cargo
    have hweight : (schedule granted s).currentWeight = s.currentWeight :=
      congrArg Cargo.currentWeight hcargo
    have hunits : (schedule granted s).currentUnits = s.currentUnits :=
      congrArg Cargo.currentUnits hcargo
    refine ⟨hstarted, hclimb.floor, ⟨rest, ?_⟩, hroom.mono (le_of_eq hweight) (le_of_eq hunits),
      .inr ⟨hclimb.pc, ?_⟩⟩
    · rw [hclimb.queue]
      exact hq
    · rw [hclimb.state]
      split_ifs <;> decide

end Due

/-! ## Runs -/

section Runs

variable {ls : List Label}

theorem orderly_after (hseq : Along step Sequential ls elevatorInit)
    (hone : Along step OneAtIdle ls elevatorInit) : Orderly (after ls) :=
  run_guarded (G := fun s l => Sequential s l ∧ OneAtIdle s l)
    (fun _ _ h hl => orderly_step h hl.1 hl.2) orderly_init (along_and.2 ⟨hseq, hone⟩)

theorem along_initial {G : State → Label → Prop} {pre : List Label}
    (h : Along step G ls elevatorInit) (hpre : pre <+: ls) : Along step G pre elevatorInit := by
  obtain ⟨post, rfl⟩ := hpre
  exact (along_append.1 h).1

theorem TakenSince.trans_left {s t u : State} {floor : Int} {p : Passenger}
    (h : TakenSince t floor p u) (hlog : s.log <+: t.log) : TakenSince s floor p u := by
  obtain ⟨new, hu, hnew⟩ := h
  obtain ⟨more, hmore⟩ := hlog
  refine ⟨more ++ new, ?_, hnew.imp (List.mem_append_right _) (List.mem_append_right _)⟩
  rw [hu, ← hmore, List.append_assoc]

theorem TakenSince.trans_right {s t u : State} {floor : Int} {p : Passenger}
    (h : TakenSince s floor p t) (hlog : t.log <+: u.log) : TakenSince s floor p u := by
  obtain ⟨new, ht, hnew⟩ := h
  obtain ⟨more, hmore⟩ := hlog
  refine ⟨new ++ more, ?_, hnew.imp (List.mem_append_left _) (List.mem_append_left _)⟩
  rw [← hmore, ht, List.append_assoc]

/-- Since the arrival, the passenger has been taken or is due. -/
theorem taken_or_due (hseq : Along step Sequential ls elevatorInit)
    (hone : Along step OneAtIdle ls elevatorInit) {pre mid : List Label} {locks : Locks}
    {floor : Int} {p : Passenger} {rest : List Passenger} (hpre : pre ++ .sched locks :: mid <+: ls)
    (harr : Arriving (after pre) floor) (hq : (after pre).queue floor = p :: rest)
    (hroom : Room (after pre) p) (hstop : .call .stop ∉ mid) :
    TakenSince (after pre) floor p (after (pre ++ .sched locks :: mid)) ∨
      (Due floor p (after (pre ++ .sched locks :: mid)) ∧
        stepsToLoad (after (pre ++ .sched locks :: mid)) + mid.countP Label.isSched ≤ 3) := by
  induction mid using List.reverseRecOn with
  | nil =>
    have hgranted : locks = granted := along_iff_forall.1 hseq pre _ hpre
    have hord : Orderly (after pre) := by
      have hsub : pre <+: ls := (List.prefix_append pre _).trans hpre
      exact orderly_after (along_initial hseq hsub) (along_initial hone hsub)
    rw [after_snoc, hgranted]
    have hdue := due_arrival hord harr hq hroom
    exact .inr ⟨hdue, (stepsToLoad_pos _).2⟩
  | append_singleton mid l ih =>
    have hsplit :
        pre ++ Label.sched locks :: (mid ++ [l]) = (pre ++ .sched locks :: mid) ++ [l] := by
      simp
    rw [hsplit] at hpre ⊢
    have hstop' : .call .stop ∉ mid := fun hmem => hstop (List.mem_append_left _ hmem)
    have hl : l ≠ .call .stop := fun heq => hstop (by simp [heq])
    have hsub : pre ++ .sched locks :: mid <+: ls := (List.prefix_append _ [l]).trans hpre
    rcases ih hsub hstop' with htaken | ⟨hdue, hsteps⟩
    · exact .inl (htaken.trans_right (log_grows _ [l]))
    · have hguard : Sequential _ l ∧ OneAtIdle _ l :=
        ⟨along_iff_forall.1 hseq _ l hpre, along_iff_forall.1 hone _ l hpre⟩
      rw [after_snoc, List.countP_append]
      rcases due_step (accounting_after _) hdue hguard.1 hguard.2 hl with htaken | ⟨hdue', hless⟩
      · exact .inl (htaken.trans_left (log_grows pre _))
      · exact .inr ⟨hdue', by omega⟩

/-- **Nobody is passed by** in a sequential run in which the scheduler, whenever it comes to its
loop head `IDLE`, finds at most one floor where somebody waits. -/
theorem passes_nobody_by (hseq : Along step Sequential ls elevatorInit)
    (hone : Along step OneAtIdle ls elevatorInit) : PassesNobodyBy ls := by
  intro pre locks mid floor p rest hpre harr hq hroom hstop
  rcases taken_or_due hseq hone hpre harr hq hroom hstop with htaken | ⟨hdue, hsteps⟩
  · exact .inl htaken
  · have hpos := (stepsToLoad_pos (after (pre ++ .sched locks :: mid))).1
    exact .inr ⟨hdue.here, by omega⟩

end Runs

instance (s : State) : Decidable (OneFloor s) := inferInstanceAs (Decidable (∀ _ _, _))

instance (s : State) (l : Label) : Decidable (OneAtIdle s l) :=
  inferInstanceAs (Decidable (_ → _ → _ → _))

/-- Somebody waits at floor 3, and somebody else calls at floor 5 while the elevator stops there. -/
def oneByOne : List Label :=
  [.call (.request adult 3 7 true), .call .start, .sched granted, .sched granted,
    .call (.request adult 5 7 true), .sched granted, .sched granted]

theorem oneByOne_passes_nobody : PassesNobodyBy oneByOne :=
  passes_nobody_by ⟨rfl, rfl, rfl, rfl, rfl, rfl, rfl, trivial⟩ (by decide)

/-- Somebody waits at floor 3 and somebody at floor 5 when the scan starts. -/
def twoWaiting : List Label :=
  [.call (.request adult 3 7 true), .call (.request adult 5 7 true), .call .start, .sched granted,
    .sched granted, .sched granted]

/-- The elevator comes to floor 3 and goes on to floor 5. -/
theorem twoWaiting_passes_by :
    Along step Sequential twoWaiting elevatorInit ∧ ¬ PassesNobodyBy twoWaiting := by
  refine ⟨⟨rfl, rfl, rfl, rfl, rfl, rfl, trivial⟩, ?_⟩
  intro h
  have hnot := h (twoWaiting.take 4) granted [.sched granted] 3 ⟨0, 2, 1, 3, 7, adult, .up⟩ []
    (List.prefix_refl _) (.inl ⟨_, rfl⟩) (by decide) (.inr (by decide)) (by simp)
  rcases hnot with ⟨new, hlog, hnew⟩ | ⟨hfloor, -⟩
  · have hsame : (after (twoWaiting.take 4 ++ .sched granted :: [.sched granted])).log =
        (after (twoWaiting.take 4)).log := by decide
    have hnone : new = [] := List.self_eq_append_right.1 (hsame.symm.trans hlog)
    simp [hnone] at hnew
  · exact absurd hfloor (by decide)

end KernelElevator
