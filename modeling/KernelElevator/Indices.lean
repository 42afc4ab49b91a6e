import KernelElevator.Position

/-!
# Floors are in range

`floors` and `served` are indexed by `floor - 1`, and `current_floor` is not always a floor: it is 0
before the first start, and -1 in an offload loop without a direction. No access is made then.
`load_elevator` runs in the service branch only, where the elevator is in the building;
`unload_elevator` and `add_passenger` index by a floor that a passenger's record holds.

* `Event.access` — the floor of the access an event stands for.
* `loadElevator_access`, `unloadElevator_access` — it is the floor the function was called for.
* `indices_in_range` — it is in the building, in every run.
-/

namespace KernelElevator

/-- The `floor` of the access to `floors[floor-1]` or `served[floor-1]` behind an event. -/
def Event.access : Event → Option Int
  | .linked p => some p.startFloor
  | .opened floor => some floor
  | .boarded floor _ => some floor
  | .servedHere floor _ => some floor
  | .unloaded floor _ => some floor
  | .freed _ => none

/-- The access is within the arrays. -/
def Event.InRange (e : Event) : Prop := ∀ floor ∈ e.access, IsFloor floor

theorem Event.inRange_of_access {e : Event} {floor : Int} (h : e.access = some floor)
    (hf : IsFloor floor) : e.InRange := by
  intro g hg
  rw [h] at hg
  exact Option.some.inj hg ▸ hf

/-! ## The functions access the floor they are called for -/

theorem loadLoop_access {floor : Int} (ps : List Passenger) {s : State}
    (hf : s.currentFloor = floor) : ∃ es, (loadLoop floor ps s).2.log = s.log ++ es ∧
      ∀ e ∈ es, e.access = some floor := by
  induction ps generalizing s with
  | nil => exact ⟨[], (List.append_nil _).symm, by simp⟩
  | cons p ps ih =>
    by_cases he : p.state = .equal
    · obtain ⟨es, hlog, hes⟩ := ih (s := s.serveHere floor p) hf
      rw [loadLoop, if_pos he]
      refine ⟨.servedHere s.currentFloor p :: es, hlog.trans (List.append_assoc _ _ _), ?_⟩
      exact List.forall_mem_cons.2 ⟨congrArg some hf, hes⟩
    · rw [loadLoop, if_neg he]
      by_cases hfits : Fits s p
      · obtain ⟨es, hlog, hes⟩ := ih (s := s.board floor p) hf
        rw [if_pos hfits]
        refine ⟨.boarded s.currentFloor p :: es, hlog.trans (List.append_assoc _ _ _), ?_⟩
        exact List.forall_mem_cons.2 ⟨congrArg some hf, hes⟩
      · rw [if_neg hfits]
        exact ⟨[], (List.append_nil _).symm, by simp⟩

theorem loadElevator_access (floor : Int) (s : State) :
    ∃ es, (loadElevator floor s).2.log = s.log ++ es ∧ ∀ e ∈ es, e.access = some floor := by
  by_cases hf : floor = s.currentFloor
  · rw [loadElevator, if_neg (not_not.2 hf)]
    dsimp only
    split_ifs
    · exact ⟨[.opened floor], rfl, by simp [Event.access]⟩
    · obtain ⟨es, hlog, hes⟩ := loadLoop_access _ (s := { s with log := s.log ++ [.opened floor] })
        hf.symm
      refine ⟨.opened floor :: es, hlog.trans (List.append_assoc _ _ _), ?_⟩
      exact List.forall_mem_cons.2 ⟨rfl, hes⟩
  · rw [loadElevator, if_pos hf]
    exact ⟨[], (List.append_nil _).symm, by simp⟩

/-- And somebody in the list gets off there. -/
theorem unloadLoop_access {floor : Int} (ps : List Passenger) {s : State}
    (hf : s.currentFloor = floor) : ∃ es, (unloadLoop floor ps s).log = s.log ++ es ∧
      ∀ e ∈ es, e.access = some floor ∧ ∃ p ∈ ps, p.destinationFloor = floor := by
  induction ps generalizing s with
  | nil => exact ⟨[], (List.append_nil _).symm, by simp⟩
  | cons p ps ih =>
    by_cases hd : p.destinationFloor = floor
    · obtain ⟨es, hlog, hes⟩ := ih (s := s.letOff floor p) hf
      rw [unloadLoop, if_pos hd]
      refine ⟨.unloaded s.currentFloor p :: es, hlog.trans (List.append_assoc _ _ _), ?_⟩
      refine List.forall_mem_cons.2 ⟨⟨congrArg some hf, p, List.mem_cons_self, hd⟩, ?_⟩
      intro e he
      exact ⟨(hes e he).1, p, List.mem_cons_self, hd⟩
    · obtain ⟨es, hlog, hes⟩ := ih hf
      rw [unloadLoop, if_neg hd]
      refine ⟨es, hlog, ?_⟩
      intro e he
      obtain ⟨haccess, q, hq, hd⟩ := hes e he
      exact ⟨haccess, q, List.mem_cons_of_mem p hq, hd⟩

theorem unloadElevator_access (floor : Int) (s : State) :
    ∃ es, (unloadElevator floor s).2.log = s.log ++ es ∧
      ∀ e ∈ es, e.access = some floor ∧ ∃ p ∈ s.onboard, p.destinationFloor = floor := by
  by_cases hf : s.currentFloor = floor
  · rw [unloadElevator, if_neg (not_not.2 hf)]
    exact unloadLoop_access s.onboard hf
  · rw [unloadElevator, if_pos hf]
    exact ⟨[], (List.append_nil _).symm, by simp⟩

/-! ## Step by step -/

/-- Every access made so far was within the arrays. -/
def LogInRange (s : State) : Prop := ∀ e ∈ s.log, e.InRange

theorem LogInRange.append {s t : State} (h : LogInRange s) {es : List Event}
    (hlog : t.log = s.log ++ es) (hes : ∀ e ∈ es, e.InRange) : LogInRange t := by
  intro e he
  rw [hlog] at he
  exact (List.mem_append.1 he).elim (h e) (hes e)

theorem LogInRange.steers {s t : State} (h : LogInRange s) (hsteers : Steers s t) :
    LogInRange t := by
  have hlog : t.log = s.log := congrArg Cargo.log hsteers.cargo
  exact h.append (hlog.trans (List.append_nil _).symm) (by simp)

theorem logInRange_unload {s : State} (hacc : Accounting s) (h : LogInRange s) (floor : Int) :
    LogInRange (unloadElevator floor s).2 := by
  obtain ⟨es, hlog, hes⟩ := unloadElevator_access floor s
  refine h.append hlog ?_
  intro e he
  obtain ⟨haccess, p, hp, hd⟩ := hes e he
  exact e.inRange_of_access haccess (hd ▸ (hacc.riding p hp).1.destination)

theorem logInRange_load {s : State} (h : LogInRange s) {floor : Int} (hf : IsFloor floor) :
    LogInRange (loadElevator floor s).2 := by
  obtain ⟨es, hlog, hes⟩ := loadElevator_access floor s
  refine h.append hlog ?_
  intro e he
  exact e.inRange_of_access (hes e he) hf

theorem logInRange_drainPass {s : State} (hacc : Accounting s) (h : LogInRange s) :
    LogInRange (drainPass s) := by
  rcases drainPass_cases s with hsteers | hunload
  · exact h.steers hsteers
  · rw [hunload]
    exact logInRange_unload hacc h _

/-- The service branch is being executed: about to unload, or at one of its sleeps. -/
def InService (s : State) : Prop :=
  s.pc = .top ∧ s.state ≠ .offline ∧ s.state ≠ .idle ∨ s.pc = .loadSleep ∨
    ∃ floor, s.pc = .upMove floor ∨ s.pc = .downMove floor

theorem Placed.isFloor_of_inService {s : State} (h : Placed s) (hservice : InService s) :
    IsFloor s.currentFloor := by
  rcases h with hasleep | hin | hwedged
  · rcases hservice with ⟨-, hoff, -⟩ | hpc | ⟨floor, hpc | hpc⟩
    · exact absurd hasleep.state hoff
    all_goals simp [hasleep.pc] at hpc
  · exact hin.floor
  · rcases hservice with ⟨hpc, -⟩ | hpc | ⟨floor, hpc | hpc⟩ <;>
      rcases hwedged.pc with hloop | hloop <;> simp [hpc] at hloop

theorem logInRange_schedule {s : State} (hacc : Accounting s) (hplaced : Placed s)
    (h : LogInRange s) (locks : Locks) : LogInRange (schedule locks s) := by
  have hstep := scheduled locks s
  generalize schedule locks s = t at hstep ⊢
  cases hstep with
  | offline => exact logInRange_drainPass (s := s.lock .offline locks) { hacc with } h
  | offlineRefused => exact h
  | idle => exact h.steers (idleScan_steers _ s)
  | service =>
    exact logInRange_unload (s := (s.lock .service locks).setState .loading) { hacc with } h _
  | serviceRefused =>
    exact LogInRange.steers (s := (s.lock .service locks).unlock .service) h (upPart_steers locks _)
  | drain => exact logInRange_drainPass hacc h
  | drainMove floor => exact logInRange_unload (s := arrive floor s) { hacc with } h _
  | idleMove is floor =>
    exact LogInRange.steers (s := (arrive floor s).setState .loading) h (idleScan_steers is _)
  | loadSleep hpc =>
    have hload := logInRange_load h (hplaced.isFloor_of_inService (.inr (.inl hpc)))
    exact LogInRange.steers (s := ((loadElevator s.currentFloor s).2.setState .up).unlock .service)
      hload (upPart_steers locks _)
  | upMove floor =>
    exact LogInRange.steers (s := (arrive floor s).unlock .up) h (downPart_steers locks _)
  | downMove floor =>
    exact LogInRange.steers (s := (arrive floor s).unlock .down) h (endService_steers _)

theorem logInRange_call {s : State} (h : LogInRange s) (c : Call) : LogInRange (c.exec s).2 := by
  rcases call_cargo c s with hsame | ⟨p, hp, hadd⟩
  · have hlog : (c.exec s).2.log = s.log := congrArg Cargo.log hsame
    exact h.append (hlog.trans (List.append_nil _).symm) (by simp)
  · have hlog : (c.exec s).2.log = s.log ++ [.linked p] := congrArg Cargo.log hadd
    refine h.append hlog ?_
    intro e he
    rw [List.mem_singleton.1 he]
    exact Event.inRange_of_access rfl hp.start

/-- **Floor indices are in range.** In every run every access that `add_passenger`, `load_elevator`
and `unload_elevator` make to `floors[floor-1]` and `served[floor-1]` has a floor of the building,
and the elevator is in the building whenever the service branch is executed. -/
theorem indices_in_range (ls : List Label) :
    (∀ e ∈ (after ls).log, ∀ floor ∈ e.access, 1 ≤ floor ∧ floor ≤ 10) ∧
    (InService (after ls) → 1 ≤ (after ls).currentFloor ∧ (after ls).currentFloor ≤ 10) := by
  refine ⟨?_, (placed_after ls).isFloor_of_inService⟩
  apply after_invariant (I := LogInRange) (J := fun s => Accounting s ∧ Placed s)
  · intro ls
    exact ⟨accounting_after ls, placed_after ls⟩
  · simp [LogInRange, elevatorInit]
  · intro l s hs h
    cases l with
    | sched locks => exact logInRange_schedule hs.1 hs.2 h locks
    | call c => exact logInRange_call h c

end KernelElevator
