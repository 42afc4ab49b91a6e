import KernelElevator.Exit
import KernelElevator.Requests

/-!
# Leaving

`elevator_exit` takes back the pointers to the system calls last, after `delete_passenger` has
cleared the floors. Here the statements of `elevator_exit`, and in `delete_passenger` the floors,
are steps, and system calls may come in between. `kthread_stop` waits for the scheduler, which
leaves when it is next at its loop head.

* `leaves_undisturbed` — without calls in between this is `elevatorExit`.
* `OnTime` — no request is accepted on a floor that has been cleared.
* `leaves_exactly` — the records that are left, and when the queues are empty.
-/

namespace KernelElevator.Leaving

open Machine

/-! ## The steps -/

/-- The next statement of `elevator_exit`. -/
inductive Position where
  | kthreadStop
  /-- The first loop of `delete_passenger`, with the floors still to clear. -/
  | moveFloors (rest : List (Fin 10))
  /-- The second one. -/
  | freeAll
  | mutexDestroy
  | removeProcEntry
  | stubStartElevator
  | stubStopElevator
  | stubIssueRequest
  | returned
  deriving DecidableEq, Repr

structure Module where
  position : Position
  /-- The scheduler thread runs. -/
  thread : Bool
  memory : State
  /-- The variables of `delete_passenger`. -/
  moveList : List Passenger
  count : Int
  proc : Bool
  stubStartElevator : Bool
  stubStopElevator : Bool
  stubIssueRequest : Bool
  /-- Whose records have been freed; a history that no code reads. -/
  freed : List Passenger

/-- `rmmod` calls `elevator_exit`. -/
def entered (s : State) : Module where
  position := .kthreadStop
  thread := true
  memory := s
  moveList := []
  count := 0
  proc := true
  stubStartElevator := true
  stubStopElevator := true
  stubIssueRequest := true
  freed := []

namespace Module

def goto (position : Position) (m : Module) : Module := { m with position := position }

/-- A statement of `elevator_exit`. `kthread_stop` waits for the thread. -/
def exit (m : Module) : Module :=
  match m.position with
  | .kthreadStop => if m.thread then m else m.goto (.moveFloors (List.finRange 10))
  | .moveFloors [] => m.goto .freeAll
  | .moveFloors (k :: ks) =>
    let (memory, moveList, count) := moveFloor k (m.memory.floors k) (m.memory, m.moveList, m.count)
    { m with memory := memory, moveList := moveList, count := count }.goto (.moveFloors ks)
  | .freeAll =>
    { m with
      memory := KernelElevator.freeAll m.moveList m.memory
      moveList := []
      freed := m.moveList }.goto .mutexDestroy
  | .mutexDestroy => m.goto .removeProcEntry
  | .removeProcEntry => { m with proc := false }.goto .stubStartElevator
  | .stubStartElevator => { m with stubStartElevator := false }.goto .stubStopElevator
  | .stubStopElevator => { m with stubStopElevator := false }.goto .stubIssueRequest
  | .stubIssueRequest => { m with stubIssueRequest := false }.goto .returned
  | .returned => m

/-- A step of the scheduler, which is to stop. -/
def sched (locks : Locks) (m : Module) : Module :=
  if m.thread then
    if m.memory.pc = .top then { m with thread := false }
    else { m with memory := schedule locks m.memory }
  else m

/-- The pointer of a system call is still set. -/
def stub (m : Module) : Call → Bool
  | .start => m.stubStartElevator
  | .stop => m.stubStopElevator
  | .request .. => m.stubIssueRequest

/-- A system call. Without the pointer it returns an error. -/
def call (c : Call) (m : Module) : Module :=
  if m.stub c then { m with memory := (c.exec m.memory).2 } else m

/-- `delete_passenger` has been at the floor. -/
def Cleared (m : Module) (k : Fin 10) : Prop :=
  match m.position with
  | .kthreadStop => False
  | .moveFloors rest => k ∉ rest
  | _ => True

end Module

inductive Label where
  | exit
  | sched (locks : Locks)
  | call (c : Call)

def step : Label → Module → Module
  | .exit => Module.exit
  | .sched locks => Module.sched locks
  | .call c => Module.call c

/-- A request that is accepted is for a floor that has not been cleared. -/
def OnTime (m : Module) : Label → Prop
  | .call (.request type start dest kmalloc) =>
    m.stubIssueRequest = true → kmalloc = true → ValidRequest type start dest →
      ∀ k, floorOf k = start → ¬ m.Cleared k
  | _ => True

/-! ## Without calls -/

theorem run_moveFloors (ks : List (Fin 10)) (m : Module) :
    run step (List.replicate ks.length .exit) (m.goto (.moveFloors ks)) =
      { m with
        memory := (moveFloors ks (m.memory, m.moveList, m.count)).1
        moveList := (moveFloors ks (m.memory, m.moveList, m.count)).2.1
        count := (moveFloors ks (m.memory, m.moveList, m.count)).2.2 }.goto (.moveFloors []) := by
  induction ks generalizing m with
  | nil => rfl
  | cons k ks ih =>
    rw [List.length_cons, List.replicate_succ, run_cons]
    exact ih { m with
      memory := (moveFloor k (m.memory.floors k) (m.memory, m.moveList, m.count)).1
      moveList := (moveFloor k (m.memory.floors k) (m.memory, m.moveList, m.count)).2.1
      count := (moveFloor k (m.memory.floors k) (m.memory, m.moveList, m.count)).2.2 }

/-- The rest of `elevator_exit`, from the first loop of `delete_passenger` on. -/
theorem run_exit (ks : List (Fin 10)) (m : Module) :
    (run step (List.replicate (ks.length + 7) .exit) (m.goto (.moveFloors ks))).memory =
        freeAll (moveFloors ks (m.memory, m.moveList, m.count)).2.1
          (moveFloors ks (m.memory, m.moveList, m.count)).1 ∧
      (run step (List.replicate (ks.length + 7) .exit) (m.goto (.moveFloors ks))).position =
        .returned := by
  rw [List.replicate_add, run_append, run_moveFloors]
  exact ⟨rfl, rfl⟩

theorem run_kthreadStop {s : State} (hpc : s.pc = .top) (locks : Locks) :
    run step [.sched locks, .exit] (entered s) =
      { entered s with thread := false }.goto (.moveFloors (List.finRange 10)) := by
  simp only [run_cons, run_nil, step, Module.sched, entered, hpc, if_true]
  rfl

theorem elevatorExit_eq (s : State) : elevatorExit s =
    freeAll (moveFloors (List.finRange 10) (s, [], 0)).2.1
      (moveFloors (List.finRange 10) (s, [], 0)).1 := by
  unfold elevatorExit deletePassenger
  generalize moveFloors (List.finRange 10) (s, [], 0) = r
  rfl

/-- **`elevator_exit`, undisturbed, clears the floors and frees their passengers.** -/
theorem leaves_undisturbed {s : State} (hpc : s.pc = .top) (locks : Locks) :
    (run step ([.sched locks, .exit] ++ List.replicate 17 .exit) (entered s)).memory =
        elevatorExit s ∧
      (run step ([.sched locks, .exit] ++ List.replicate 17 .exit) (entered s)).position =
        .returned := by
  have hlength : (List.finRange 10).length + 7 = 17 := by rw [List.length_finRange]
  obtain ⟨hmemory, hpos⟩ := run_exit (List.finRange 10) { entered s with thread := false }
  rw [hlength] at hmemory hpos
  rw [run_append, run_kthreadStop hpc, elevatorExit_eq]
  generalize List.finRange 10 = ks at hmemory hpos ⊢
  exact ⟨hmemory, hpos⟩

/-! ## Queues that change -/

theorem count_flatMap_update {ks : List (Fin 10)} (hks : ks.Nodup) {k : Fin 10} (hk : k ∈ ks)
    (floors : Fin 10 → List Passenger) (q : List Passenger) (p : Passenger) :
    (ks.flatMap (Function.update floors k q)).count p + (floors k).count p =
      (ks.flatMap floors).count p + q.count p := by
  induction ks with
  | nil => exact absurd hk List.not_mem_nil
  | cons j ks ih =>
    obtain ⟨hj, hks⟩ := List.nodup_cons.1 hks
    rw [List.flatMap_cons, List.flatMap_cons, List.count_append, List.count_append]
    by_cases hjk : j = k
    · subst hjk
      have hrest : ks.flatMap (Function.update floors j q) = ks.flatMap floors := by
        refine List.flatMap_congr fun i hi => Function.update_of_ne ?_ _ _
        rintro rfl
        exact hj hi
      rw [hrest, Function.update_self]
      omega
    · have hmem : k ∈ ks := (List.mem_cons.1 hk).resolve_left fun h => hjk h.symm
      have hcount := ih hks hmem
      rw [Function.update_of_ne hjk]
      omega

/-- One queue is replaced by another. -/
theorem count_waiting {s t : State} {k : Fin 10} {q : List Passenger}
    (ht : t.floors = Function.update s.floors k q) (p : Passenger) :
    (waiting t).count p + (s.floors k).count p = (waiting s).count p + q.count p := by
  rw [waiting, ht]
  exact count_flatMap_update (List.nodup_finRange 10) (List.mem_finRange k) s.floors q p

theorem floors_link {s : State} {p : Passenger} {k : Fin 10} (hk : p.startFloor = floorOf k) :
    (s.allocate.link p).floors = Function.update s.floors k (s.floors k ++ [p]) := by
  show putQueue s.floors p.startFloor (s.queue p.startFloor ++ [p]) = _
  rw [hk, putQueue, slot_floorOf, State.queue, getQueue_floorOf]

theorem log_link (s : State) (p : Passenger) :
    (s.allocate.link p).accepted = s.accepted ++ [p] ∧ (s.allocate.link p).done = s.done := by
  refine ⟨?_, ?_⟩
  · show Delivery.arrived (acts (s.log ++ _)) = _
    rw [acts_snoc]
    exact Delivery.arrived_snoc _ _
  · show Delivery.done (acts (s.log ++ _)) = _
    rw [acts_snoc]
    exact (Delivery.done_snoc _ _).trans (List.append_nil _)

/-- On the passengers and records, a call does nothing, or it is a valid request and links a new
passenger. -/
theorem call_links (c : Call) (s : State) :
    ((c.exec s).2.cargo = s.cargo ∧
      ∀ type start dest, c = .request type start dest true → ¬ ValidRequest type start dest) ∨
    ∃ (start : Int) (p : Passenger), (∃ type dest, c = .request type start dest true ∧
      ValidRequest type start dest) ∧ p.id = s.records ∧ p.startFloor = start ∧
      (c.exec s).2 = s.allocate.link p := by
  cases c with
  | start =>
    simp only [Call.exec, startElevator]
    split_ifs <;> exact .inl ⟨rfl, by simp⟩
  | stop =>
    simp only [Call.exec, stopElevator]
    split_ifs <;> exact .inl ⟨rfl, by simp⟩
  | request type start dest kmalloc =>
    by_cases hvalid : ValidRequest type start dest
    · cases kmalloc with
      | false =>
        left
        rw [Call.exec, issueRequest_no_memory s hvalid]
        exact ⟨rfl, by simp⟩
      | true =>
        right
        obtain ⟨⟨weight, space⟩, hunits⟩ := exists_unitsOf hvalid.type
        rw [Call.exec, issueRequest_valid s hvalid]
        simp only [addPassenger, hunits, if_true]
        exact ⟨start, _, ⟨type, dest, rfl, hvalid⟩, rfl, rfl, rfl⟩
    · left
      rw [Call.exec, issueRequest_invalid s hvalid]
      refine ⟨rfl, ?_⟩
      intro type' start' dest' heq
      cases heq
      exact hvalid

/-! ## What becomes of the records -/

/-- Everybody accepted is waiting, on `move_list`, freed, on board or served, once; and the live
records are those of everybody but the freed. -/
structure Kept (m : Module) : Prop where
  ids : m.memory.accepted.map Passenger.id = List.range m.memory.records
  accepted : ∀ p, m.memory.accepted.count p =
    (waiting m.memory).count p + m.moveList.count p + m.freed.count p + m.memory.onboard.count p +
      m.memory.done.count p
  live : m.memory.live.Perm ((waiting m.memory ++ m.moveList ++
    (m.memory.onboard ++ m.memory.done)).map Passenger.id)

theorem Kept.congr {m n : Module} (h : Kept m) (hmemory : n.memory.cargo = m.memory.cargo)
    (hlist : n.moveList = m.moveList) (hfreed : n.freed = m.freed) : Kept n := by
  have hwaiting : waiting n.memory = waiting m.memory :=
    congrArg (fun c : Cargo => (List.finRange 10).flatMap c.floors) hmemory
  have haccepted : n.memory.accepted = m.memory.accepted :=
    congrArg (fun c : Cargo => Delivery.arrived (acts c.log)) hmemory
  have hdone : n.memory.done = m.memory.done :=
    congrArg (fun c : Cargo => Delivery.done (acts c.log)) hmemory
  have honboard : n.memory.onboard = m.memory.onboard := congrArg Cargo.onboard hmemory
  refine ⟨?_, ?_, ?_⟩
  · rw [haccepted, h.ids]
    exact congrArg (fun c : Cargo => List.range c.records) hmemory.symm
  · rw [haccepted, hwaiting, hlist, hfreed, honboard, hdone]
    exact h.accepted
  · have hlive : n.memory.live = m.memory.live := congrArg Cargo.live hmemory
    rw [hwaiting, hlist, honboard, hdone, hlive]
    exact h.live

theorem count_accepted {s : State} (h : Serves s) (p : Passenger) : s.accepted.count p =
    (waiting s).count p + s.onboard.count p + s.done.count p := by
  have hS : ∀ f q, Delivery.Act.arrive f q ∈ acts s.log →
      f ∈ Finset.univ.map ⟨floorOf, floorOf_injective⟩ := by
    intro f q hq
    obtain ⟨k, hk⟩ := slot_eq_some (h.starts f q hq)
    exact Finset.mem_map.2 ⟨k, Finset.mem_univ k, floorOf_of_slot hk⟩
  have hcount := h.history.count_arrived hS p
  have hqueue : ∀ k, s.site.queue (floorOf k) = s.floors k := getQueue_floorOf s.floors
  simp only [Finset.sum_map, Function.Embedding.coeFn_mk, hqueue] at hcount
  rw [waiting, List.count_flatMap, ← List.ofFn_eq_map, List.sum_ofFn]
  exact hcount

theorem kept_entered (ls : List KernelElevator.Label) : Kept (entered (after ls)) := by
  have hserves := serves_after ls
  have hledger := ledger_after ls
  have hcount := count_accepted hserves
  refine ⟨hledger.ids, ?_, ?_⟩
  · intro p
    have hnone : ([] : List Passenger).count p = 0 := rfl
    show (after ls).accepted.count p = (waiting (after ls)).count p + [].count p + [].count p +
      (after ls).onboard.count p + (after ls).done.count p
    rw [hcount p, hnone]
    omega
  · show (after ls).live.Perm _
    rw [hledger.live, ← hledger.ids]
    apply List.Perm.map
    rw [List.perm_iff_count]
    intro p
    rw [hcount p]
    simp only [entered, List.append_nil, List.count_append]
    omega

theorem Kept.nodup {m : Module} (h : Kept m) : (m.memory.accepted.map Passenger.id).Nodup := by
  rw [h.ids]
  exact List.nodup_range

theorem kept_link {m n : Module} (h : Kept m) {p : Passenger} (hid : p.id = m.memory.records)
    {k : Fin 10} (hk : p.startFloor = floorOf k) (hmemory : n.memory = m.memory.allocate.link p)
    (hlist : n.moveList = m.moveList) (hfreed : n.freed = m.freed) : Kept n := by
  obtain ⟨haccepted, hdone⟩ := log_link m.memory p
  have hwaiting : ∀ q, (waiting (m.memory.allocate.link p)).count q =
      (waiting m.memory).count q + [p].count q := by
    intro q
    have hcount := count_waiting (floors_link (s := m.memory) hk) q
    rw [List.count_append] at hcount
    omega
  have honboard : (m.memory.allocate.link p).onboard = m.memory.onboard := rfl
  refine ⟨?_, ?_, ?_⟩
  · rw [hmemory, haccepted, List.map_append, h.ids, List.map_singleton, hid]
    exact List.range_succ.symm
  · intro q
    have hcount := h.accepted q
    rw [hmemory, haccepted, hdone, honboard, hlist, hfreed, hwaiting, List.count_append]
    omega
  · have hperm : (waiting (m.memory.allocate.link p)).Perm (waiting m.memory ++ [p]) := by
      rw [List.perm_iff_count]
      intro q
      rw [hwaiting, List.count_append]
    have hlive : (m.memory.allocate.link p).live = m.memory.live ++ [p].map Passenger.id := by
      rw [List.map_singleton, hid]
      rfl
    rw [hmemory, hlive, hlist, hdone, honboard]
    refine (h.live.append_right _).trans ?_
    rw [← List.map_append]
    apply List.Perm.map
    rw [List.perm_iff_count]
    intro q
    have hcount := List.perm_iff_count.1 hperm q
    simp only [List.count_append] at hcount ⊢
    omega

theorem kept_call {m : Module} (h : Kept m) (c : Call) : Kept (m.call c) := by
  unfold Module.call
  split_ifs with hstub
  · rcases call_links c m.memory with ⟨hsame, -⟩ | ⟨start, p, ⟨_, _, -, hvalid⟩, hid, rfl, hlink⟩
    · exact h.congr hsame rfl rfl
    · obtain ⟨k, hk⟩ := slot_eq_some hvalid.start
      exact kept_link h hid (floorOf_of_slot hk).symm hlink rfl rfl
  · exact h

/-- A floor is cleared. -/
theorem kept_moveFloor {m n : Module} (h : Kept m) (k : Fin 10)
    (hmemory : n.memory = { m.memory with floors := Function.update m.memory.floors k [] })
    (hlist : n.moveList = m.moveList ++ m.memory.floors k) (hfreed : n.freed = m.freed) :
    Kept n := by
  have hwaiting : ∀ q, (waiting n.memory).count q + (m.memory.floors k).count q =
      (waiting m.memory).count q := by
    intro q
    exact count_waiting (show n.memory.floors = _ by rw [hmemory]) q
  have haccepted : n.memory.accepted = m.memory.accepted := by
    rw [hmemory]
    rfl
  have hdone : n.memory.done = m.memory.done := by
    rw [hmemory]
    rfl
  have honboard : n.memory.onboard = m.memory.onboard := by rw [hmemory]
  refine ⟨?_, ?_, ?_⟩
  · rw [haccepted, h.ids, hmemory]
  · intro q
    have hcount := h.accepted q
    have hq := hwaiting q
    rw [haccepted, hdone, honboard, hlist, hfreed, List.count_append]
    omega
  · have hlive : n.memory.live = m.memory.live := by rw [hmemory]
    rw [hlive]
    refine h.live.trans (List.Perm.map _ ?_)
    rw [List.perm_iff_count]
    intro q
    have hq := hwaiting q
    rw [hdone, honboard, hlist]
    simp only [List.count_append]
    omega

theorem acts_freed (log : List Event) (ps : List Passenger) :
    acts (log ++ ps.map fun p => Event.freed p.id) = acts log := by
  have hnone : acts (ps.map fun p => Event.freed p.id) = [] := by
    rw [acts, List.filterMap_eq_nil_iff]
    intro e he
    obtain ⟨p, -, rfl⟩ := List.mem_map.1 he
    rfl
  rw [acts, List.filterMap_append, ← acts, ← acts, hnone, List.append_nil]

/-- The records on `move_list` are freed. -/
theorem kept_freeAll {m n : Module} (h : Kept m) (hnone : m.freed = [])
    (hmemory : n.memory = freeAll m.moveList m.memory) (hlist : n.moveList = [])
    (hfreed : n.freed = m.moveList) : Kept n := by
  rw [freeAll_spec] at hmemory
  have haccepted : n.memory.accepted = m.memory.accepted := by
    rw [State.accepted, hmemory]
    exact congrArg _ (acts_freed _ _)
  have hdone : n.memory.done = m.memory.done := by
    rw [State.done, hmemory]
    exact congrArg _ (acts_freed _ _)
  have hwaiting : waiting n.memory = waiting m.memory := by
    rw [hmemory]
    rfl
  have honboard : n.memory.onboard = m.memory.onboard := by rw [hmemory]
  refine ⟨?_, ?_, ?_⟩
  · rw [haccepted, h.ids, hmemory]
  · intro q
    have hcount := h.accepted q
    rw [hnone] at hcount
    rw [haccepted, hdone, hwaiting, honboard, hlist, hfreed]
    omega
  · have hlive : n.memory.live = m.memory.live.diff (m.moveList.map Passenger.id) := by rw [hmemory]
    rw [hlive, hdone, hwaiting, honboard, hlist, List.append_nil]
    refine (h.live.diff_right _).trans ?_
    rw [List.perm_iff_count]
    intro id
    simp only [List.count_diff, List.map_append, List.count_append]
    omega

/-! ## The run of `elevator_exit` -/

/-- The floors are not yet all cleared, and nobody has been freed. -/
def Position.clearing : Position → Bool
  | .kthreadStop => true
  | .moveFloors _ => true
  | .freeAll => true
  | _ => false

/-- What holds while `elevator_exit` runs. -/
structure Inv (m : Module) : Prop where
  kept : Kept m
  /-- Until `kthread_stop` has returned, this is a run of the module. -/
  run : m.position = .kthreadStop → (∃ ls, m.memory = after ls) ∧ m.moveList = []
  thread : m.position ≠ .kthreadStop → m.thread = false
  freed : m.position.clearing = true → m.freed = []
  moved : m.position.clearing = false → m.moveList = []

theorem inv_entered (ls : List KernelElevator.Label) : Inv (entered (after ls)) where
  kept := kept_entered ls
  run := fun _ => ⟨⟨ls, rfl⟩, rfl⟩
  thread := fun h => absurd rfl h
  freed := fun _ => rfl
  moved := fun h => absurd h (by simp [entered, Position.clearing])

theorem inv_exit {m : Module} (h : Inv m) : Inv m.exit := by
  obtain ⟨hkept, hrun, hthread, hfreed, hmoved⟩ := h
  unfold Module.exit
  split
  · rename_i hpos
    split_ifs with hon
    · exact ⟨hkept, hrun, hthread, hfreed, hmoved⟩
    · exact ⟨hkept.congr rfl rfl rfl, by simp [Module.goto],
        fun _ => by simpa [Module.goto] using hon, fun _ => hfreed (by rw [hpos]; rfl),
        by simp [Module.goto, Position.clearing]⟩
  · rename_i hpos
    exact ⟨hkept.congr rfl rfl rfl, by simp [Module.goto], fun _ => hthread (by simp [hpos]),
      fun _ => hfreed (by rw [hpos]; rfl), by simp [Module.goto, Position.clearing]⟩
  · rename_i k ks hpos
    rw [moveFloor_spec k _ m.memory m.moveList m.count rfl]
    exact ⟨kept_moveFloor hkept k rfl rfl rfl, by simp [Module.goto],
      fun _ => hthread (by simp [hpos]), fun _ => hfreed (by rw [hpos]; rfl),
      by simp [Module.goto, Position.clearing]⟩
  · rename_i hpos
    exact ⟨kept_freeAll hkept (hfreed (by rw [hpos]; rfl)) rfl rfl rfl, by simp [Module.goto],
      fun _ => hthread (by simp [hpos]), by simp [Module.goto, Position.clearing], fun _ => rfl⟩
  all_goals
    rename_i hpos
    exact ⟨hkept.congr rfl rfl rfl, by simp [Module.goto, hpos], fun _ => hthread (by simp [hpos]),
      by simp [Module.goto, Position.clearing, hpos], fun _ => hmoved (by rw [hpos]; rfl)⟩

theorem inv_sched {m : Module} (h : Inv m) (locks : Locks) : Inv (m.sched locks) := by
  unfold Module.sched
  split_ifs with hon htop
  · exact ⟨h.kept.congr rfl rfl rfl, h.run, fun _ => rfl, h.freed, h.moved⟩
  · have hpos : m.position = .kthreadStop := by
      by_contra hne
      exact absurd hon (by simp [h.thread hne])
    obtain ⟨⟨ls, hls⟩, hlist⟩ := h.run hpos
    have hnext : schedule locks m.memory = after (ls ++ [.sched locks]) := by
      rw [after_snoc, hls]
      rfl
    have hfreed : m.freed = [] := h.freed (by rw [hpos]; rfl)
    refine ⟨?_, fun _ => ⟨⟨_, hnext⟩, hlist⟩, h.thread, h.freed, h.moved⟩
    have hkept := kept_entered (ls ++ [.sched locks])
    rw [← hnext] at hkept
    exact hkept.congr rfl hlist hfreed
  · exact h

theorem inv_call {m : Module} (h : Inv m) (c : Call) : Inv (m.call c) := by
  have hkept := kept_call h.kept c
  unfold Module.call at hkept ⊢
  split_ifs at hkept ⊢ with hstub
  · refine ⟨hkept, ?_, h.thread, h.freed, h.moved⟩
    intro hpos
    obtain ⟨⟨ls, hls⟩, hlist⟩ := h.run hpos
    refine ⟨⟨ls ++ [.call c], ?_⟩, hlist⟩
    rw [after_snoc, hls]
    rfl
  · exact h

theorem inv_step {m : Module} (h : Inv m) (l : Label) : Inv (step l m) := by
  cases l with
  | exit => exact inv_exit h
  | sched locks => exact inv_sched h locks
  | call c => exact inv_call h c

/-! ## Who is left in the queues -/

/-- Nobody waits on a floor that has been cleared. -/
def Clean (m : Module) : Prop := ∀ k, m.Cleared k → m.memory.floors k = []

/-- `elevator_exit` takes nobody off a floor already cleared, and leaves nobody on one that it
clears. -/
theorem cleared_exit (m : Module) (k : Fin 10) :
    (m.Cleared k → m.exit.Cleared k ∧ m.exit.memory.floors k = m.memory.floors k) ∧
      (m.exit.Cleared k → m.Cleared k ∨ m.exit.memory.floors k = []) := by
  cases hpos : m.position with
  | kthreadStop =>
    refine ⟨fun h => ?_, fun h => ?_⟩
    · rw [Module.Cleared, hpos] at h
      exact h.elim
    · simp only [Module.exit, hpos] at h
      split_ifs at h
      · exact .inl h
      · exact absurd (List.mem_finRange k) h
  | moveFloors rest =>
    cases rest with
    | nil =>
      simp only [Module.exit, hpos, Module.Cleared]
      exact ⟨fun _ => ⟨trivial, rfl⟩, fun _ => .inl List.not_mem_nil⟩
    | cons j js =>
      simp only [Module.exit, hpos, Module.Cleared]
      rw [moveFloor_spec j _ m.memory m.moveList m.count rfl]
      refine ⟨fun h => ?_, fun h => ?_⟩
      · obtain ⟨hne, hrest⟩ := not_or.1 (mt List.mem_cons.2 h)
        exact ⟨hrest, Function.update_of_ne hne _ _⟩
      · by_cases hkj : k = j
        · subst hkj
          exact .inr (Function.update_self ..)
        · exact .inl fun hmem => (List.mem_cons.1 hmem).elim hkj h
  | freeAll =>
    have hfloors : m.exit.memory.floors = m.memory.floors := by
      simp only [Module.exit, hpos, Module.goto, freeAll_spec]
    rw [hfloors, Module.Cleared, hpos]
    refine ⟨fun _ => ⟨?_, rfl⟩, fun _ => .inl trivial⟩
    simp only [Module.exit, hpos, Module.goto, Module.Cleared]
  | _ =>
    simp only [Module.exit, hpos, Module.goto, Module.Cleared]
    exact ⟨fun _ => ⟨trivial, trivial⟩, fun _ => .inl trivial⟩

theorem clean_exit (m : Module) : Clean m.exit ↔ Clean m := by
  constructor
  · intro h k hk
    obtain ⟨hcleared, hsame⟩ := (cleared_exit m k).1 hk
    rw [← hsame]
    exact h k hcleared
  · intro h k hk
    rcases (cleared_exit m k).2 hk with hcleared | hnone
    · rw [((cleared_exit m k).1 hcleared).2]
      exact h k hcleared
    · exact hnone

/-- The scheduler runs only as long as no floor has been cleared. -/
theorem clean_sched {m : Module} (h : Inv m) (locks : Locks) : Clean (m.sched locks) ↔ Clean m := by
  unfold Module.sched
  split_ifs with hon htop
  · exact Iff.rfl
  · have hpos : m.position = .kthreadStop := by
      by_contra hne
      exact absurd hon (by simp [h.thread hne])
    have hnone : ∀ k, ¬ m.Cleared k := by
      intro k
      rw [Module.Cleared, hpos]
      exact id
    exact iff_of_true (fun k hk => absurd hk (hnone k)) (fun k hk => absurd hk (hnone k))
  · exact Iff.rfl

/-- A request is late just when it makes a clean floor dirty. -/
theorem clean_call (m : Module) (c : Call) :
    Clean (m.call c) ↔ Clean m ∧ OnTime m (.call c) := by
  have hcleared : ∀ k, (m.call c).Cleared k ↔ m.Cleared k := by
    intro k
    unfold Module.call
    split_ifs <;> exact Iff.rfl
  by_cases hstub : m.stub c = true
  · have hmemory : (m.call c).memory = (c.exec m.memory).2 := by rw [Module.call, if_pos hstub]
    rcases call_links c m.memory with ⟨hsame, hinvalid⟩ | ⟨start, p, ⟨type, dest, rfl, hvalid⟩, -,
      rfl, hlink⟩
    · have hfloors : (m.call c).memory.floors = m.memory.floors := by
        rw [hmemory]
        exact congrArg Cargo.floors hsame
      have hclean : Clean (m.call c) ↔ Clean m := by simp only [Clean, hcleared, hfloors]
      have hontime : OnTime m (.call c) := by
        cases c with
        | request type start dest kmalloc =>
          intro _ hkmalloc hvalid
          exact absurd hvalid (hinvalid type start dest (by rw [hkmalloc]))
        | _ => trivial
      rw [hclean, and_iff_left hontime]
    · obtain ⟨k, hk⟩ := slot_eq_some hvalid.start
      have hk := floorOf_of_slot hk
      have hfloors : (m.call (.request type p.startFloor dest true)).memory.floors =
          Function.update m.memory.floors k (m.memory.floors k ++ [p]) := by
        rw [hmemory, hlink]
        exact floors_link hk.symm
      have hontime : OnTime m (.call (.request type p.startFloor dest true)) ↔ ¬ m.Cleared k := by
        constructor
        · intro h
          exact h hstub rfl hvalid k hk
        · intro h _ _ _ j hj
          rwa [floorOf_inj (hj.trans hk.symm)]
      rw [hontime]
      simp only [Clean, hcleared, hfloors]
      constructor
      · intro h
        have hnot : ¬ m.Cleared k := by
          intro hcl
          simpa using h k hcl
        refine ⟨fun j hj => ?_, hnot⟩
        have hne : j ≠ k := by
          rintro rfl
          exact hnot hj
        rw [← h j hj, Function.update_of_ne hne]
      · intro h j hj
        have hne : j ≠ k := by
          rintro rfl
          exact h.2 hj
        rw [Function.update_of_ne hne]
        exact h.1 j hj
  · have hsame : m.call c = m := by rw [Module.call, if_neg hstub]
    have hontime : OnTime m (.call c) := by
      cases c with
      | request => exact fun hset => absurd hset hstub
      | _ => trivial
    rw [hsame, and_iff_left hontime]

theorem clean_step {m : Module} (h : Inv m) (l : Label) :
    Clean (step l m) ↔ Clean m ∧ OnTime m l := by
  cases l with
  | exit => exact (clean_exit m).trans (and_iff_left trivial).symm
  | sched locks => exact (clean_sched h locks).trans (and_iff_left trivial).symm
  | call c => exact clean_call m c

theorem clean_run {m : Module} (h : Inv m) (ls : List Label) :
    Clean (run step ls m) ↔ Clean m ∧ Along step OnTime ls m := by
  induction ls generalizing m with
  | nil => exact (and_iff_left trivial).symm
  | cons l ls ih =>
    rw [run_cons, ih (inv_step h l), clean_step h l, Along, and_assoc]

/-- **What unloading leaves behind.** However system calls come in between the statements of
`elevator_exit`, when it returns each record freed has been freed once, and those still live are the
records of everybody served, on board, or accepted on a floor already cleared; there are none of the
last kind if and only if no request was late. -/
theorem leaves_exactly (base : List KernelElevator.Label) (ls : List Label)
    (hreturned : (run step ls (entered (after base))).position = .returned) :
    let m := run step ls (entered (after base))
    (m.freed.map Passenger.id).Nodup ∧ (∀ p ∈ m.freed, p.id ∉ m.memory.live) ∧
    m.memory.live.Perm
      ((waiting m.memory ++ (m.memory.onboard ++ m.memory.done)).map Passenger.id) ∧
    ((∀ k, m.memory.floors k = []) ↔ Along step OnTime ls (entered (after base))) := by
  have hinv : Inv (run step ls (entered (after base))) :=
    run_invariant (I := Inv) (fun l m h => inv_step h l) ls (inv_entered base)
  have hclean := clean_run (inv_entered base) ls
  generalize run step ls (entered (after base)) = m at hreturned hinv hclean ⊢
  have hmoved : m.moveList = [] := hinv.moved (by rw [hreturned]; rfl)
  have hlive := hinv.kept.live
  rw [hmoved, List.append_nil] at hlive
  have hperm : m.memory.accepted.Perm
      (m.freed ++ (waiting m.memory ++ (m.memory.onboard ++ m.memory.done))) := by
    rw [List.perm_iff_count]
    intro p
    have hcount := hinv.kept.accepted p
    rw [hmoved] at hcount
    simp only [List.count_append, List.count_nil] at hcount ⊢
    omega
  have hnodup := (hperm.map Passenger.id).nodup_iff.1 hinv.kept.nodup
  rw [List.map_append] at hnodup
  obtain ⟨hfreed, -, hdisjoint⟩ := List.nodup_append.1 hnodup
  refine ⟨hfreed, ?_, hlive, ?_⟩
  · intro p hp hmem
    exact hdisjoint p.id (List.mem_map_of_mem hp) p.id (hlive.mem_iff.1 hmem) rfl
  · have hstart : Clean (entered (after base)) := fun k hk => hk.elim
    rw [and_iff_right hstart] at hclean
    rw [← hclean]
    refine ⟨fun h k _ => h k, fun h k => h k ?_⟩
    rw [Module.Cleared, hreturned]
    trivial

/-- An adult asks for a ride from floor 1 once the first three floors have been cleared. -/
def lateRequest : List Label :=
  [.exit, .sched granted] ++ List.replicate 4 .exit ++ [.call (.request adult 1 5 true)] ++
    List.replicate 14 .exit

theorem lateRequest_left : ¬ Along step OnTime lateRequest (entered (after [])) := by
  obtain ⟨-, -, -, hleft⟩ := leaves_exactly [] lateRequest (by decide +kernel)
  rw [← hleft]
  intro h
  exact absurd (h 0) (by decide +kernel)

end KernelElevator.Leaving
