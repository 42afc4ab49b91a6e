import KernelElevator.Iteration
import KernelElevator.Offload
import Mathlib.Data.List.Dedup

/-!
# The offload loop, pass by pass

One uninterrupted iteration of a stopped elevator. Going up, `min_onboard` picks the lowest
destination of all on board, above or below the elevator, since its difference is signed; going
down, the highest. So each pass removes a whole floor's passengers, the floors come in order, and
none comes twice.

* `Passes s fs t` — the loop, entered in `s`, ends in `t` after passes that end at the floors `fs`.
* `exists_delivers` — it empties the elevator in one pass for each destination.
* `offload_complete` — so does every iteration of a stopped elevator in a sequential run.
-/

namespace KernelElevator

open Delivery (weigh_nil)

/-! ## A pass -/

/-- The uninterrupted iteration from `s` ends in `t`, and its passes end at the floors `fs`. -/
inductive Passes : State → List Int → State → Prop
  | done {s : State} : (schedule granted s).pc = .top → Passes s [] (schedule granted s)
  /-- The thread is back at the test of the loop. -/
  | pass {s t : State} {fs : List Int} : (schedule granted s).pc = .drain →
      Passes (schedule granted s) fs t → Passes s ((schedule granted s).currentFloor :: fs) t
  /-- The thread sleeps, in the middle of a pass. -/
  | move {s t : State} {fs : List Int} : (schedule granted s).pc ≠ .top →
      (schedule granted s).pc ≠ .drain → Passes (schedule granted s) fs t → Passes s fs t

theorem Passes.returns {s t : State} {fs : List Int} (h : Passes s fs t) : Returns s t := by
  induction h with
  | done hpc => exact .top hpc
  | pass hpc _ ih => exact .mid (by simp [hpc]) ih
  | move hpc _ _ ih => exact .mid hpc ih

/-- What one pass that ends at floor `f` makes of `s`. -/
structure Pass (f : Int) (s u : State) : Prop where
  pc : u.pc = .drain
  currentFloor : u.currentFloor = f
  previousState : u.previousState = s.previousState
  onboard : u.onboard = s.onboard.filter (·.destinationFloor ≠ f)
  floors : u.floors = s.floors
  served : ∀ k, u.served k = s.served k +
    if floorOf k = f then (s.onboard.countP (·.destinationFloor = f) : Int) else 0
  totalServed : u.totalServed = s.totalServed + s.onboard.countP (·.destinationFloor = f)
  counted : Counted s → Counted u

theorem unload_counted (floor : Int) {s : State} (h : Counted s) :
    Counted (unloadElevator floor s).2 :=
  of_effects (fun _ _ => counted_effect) (unloadElevator_effects floor s) h

/-- The pass ends by unloading in `v`, which differs from `s` in what the move writes. -/
theorem pass_unload {s v : State} (hcargo : v.cargo = s.cargo)
    (hprev : v.previousState = s.previousState) :
    Pass v.currentFloor s ((unloadElevator v.currentFloor v).2.goto .drain) := by
  obtain ⟨hon, hfloors, -, htotal⟩ := unload_spec v
  have hserved := unload_served v
  simp only [State.cargo, Cargo.mk.injEq] at hcargo
  obtain ⟨hweight, hunits, hon', hodd, htotal', hfloors', hserved', -⟩ := hcargo
  rw [hon'] at hon htotal hserved
  refine ⟨rfl, unloadElevator_currentFloor _ v, ?_, hon, hfloors.trans hfloors', ?_, ?_, ?_⟩
  · exact (unloadElevator_previousState _ v).trans hprev
  · intro k
    rw [← hserved']
    exact hserved k
  · rw [← htotal']
    exact htotal
  · intro hs
    have hv : Counted v := by
      refine ⟨?_, ?_, ?_⟩
      · rw [hweight, hon', hs.weight]
      · rw [hunits, hon', hs.units]
      · rw [hodd, hon', hs.oddChildren]
    have hu := unload_counted v.currentFloor hv
    exact ⟨hu.weight, hu.units, hu.oddChildren⟩

/-- With somebody on board, the loop makes a pass to the floor that `min_onboard` returns. -/
theorem exists_pass {s : State} (h : CallsMinOnboard granted s) :
    ∃ u, Pass (minOnboard s) s u ∧ ∀ fs t, Passes u fs t → Passes s (minOnboard s :: fs) t := by
  obtain ⟨mutexLog, heq⟩ := h.schedule_eq
  by_cases hat : minOnboard s = s.currentFloor
  · have hpass := heq.trans (drainPass_none (s := { s with mutexLog := mutexLog }) h.1 hat)
    have hspec := pass_unload (s := s) (v := { s with mutexLog := mutexLog }) rfl rfl
    rw [← hpass] at hspec
    refine ⟨schedule granted s, by rw [hat]; exact hspec, ?_⟩
    intro fs t hpasses
    have hfloor : (schedule granted s).currentFloor = minOnboard s := by
      rw [hat]
      exact hspec.currentFloor
    exact hfloor ▸ .pass hspec.pc hpasses
  · have hmove := heq.trans (drainPass_some (s := { s with mutexLog := mutexLog }) h.1 hat)
    have hmin : minOnboard { s with mutexLog := mutexLog } = minOnboard s := rfl
    rw [hmin] at hmove
    have hpc : (schedule granted s).pc = .drainMove (minOnboard s) := congrArg State.pc hmove
    have harrive : schedule granted (schedule granted s) =
        drainArrive (minOnboard s) (schedule granted s) := schedule_drainMove granted hpc
    have hspec := pass_unload (s := s) (v := arrive (minOnboard s) (schedule granted s))
      (by rw [hmove]; rfl) (by rw [hmove]; rfl)
    refine ⟨schedule granted (schedule granted s), by rw [harrive]; exact hspec, ?_⟩
    intro fs t hpasses
    have hend : (schedule granted (schedule granted s)).pc = .drain := by rw [harrive]; rfl
    have hfloor : (schedule granted (schedule granted s)).currentFloor = minOnboard s := by
      rw [harrive]
      exact hspec.currentFloor
    refine .move (by simp [hpc]) (by simp [hpc]) ?_
    exact hfloor ▸ .pass hend hpasses

/-! ## All passes -/

/-- The loop can start, or go on, and will find its way. -/
structure Unloading (s : State) : Prop where
  loop : s.pc = .drain ∨ s.pc = .top ∧ s.state = .offline
  direction : s.previousState = .up ∨ s.previousState = .down
  floor : IsFloor s.currentFloor
  destinations : ∀ p ∈ s.onboard, IsFloor p.destinationFloor
  counted : Counted s

/-- The iteration from `s` ends in `t`, after passes that end at the floors `fs`, and delivers
everybody. -/
structure Delivers (s : State) (fs : List Int) (t : State) : Prop where
  passes : Passes s fs t
  up : s.previousState = .up → fs.Pairwise (· < ·)
  down : s.previousState = .down → fs.Pairwise (· > ·)
  visits : ∀ f, f ∈ fs ↔ ∃ p ∈ s.onboard, p.destinationFloor = f
  /-- One pass for each destination. -/
  count : fs.length = (s.onboard.map (·.destinationFloor)).dedup.length
  onboard : t.onboard = []
  counters : t.currentWeight = 0 ∧ t.currentUnits = 0 ∧ t.oddChildren = 0
  floors : t.floors = s.floors
  served : ∀ k, t.served k = s.served k + s.onboard.countP (·.destinationFloor = floorOf k)
  totalServed : t.totalServed = s.totalServed + s.onboard.length

/-- A list without repetitions of the destinations is as long as the list of them without its
repetitions. -/
theorem length_of_visits {ps : List Passenger} {fs : List Int} (hnodup : fs.Nodup)
    (hvisits : ∀ f, f ∈ fs ↔ ∃ p ∈ ps, p.destinationFloor = f) :
    fs.length = (ps.map (·.destinationFloor)).dedup.length := by
  apply List.Perm.length_eq
  rw [List.perm_ext_iff_of_nodup hnodup (List.nodup_dedup _)]
  intro f
  simp [hvisits f]

/-- Those for floor `g` are still there after a pass to floor `f`, or have got off. -/
theorem countP_destination (ps : List Passenger) (f g : Int) :
    ps.countP (·.destinationFloor = g) =
      (ps.filter (·.destinationFloor ≠ f)).countP (·.destinationFloor = g) +
        if g = f then ps.countP (·.destinationFloor = f) else 0 := by
  induction ps with
  | nil => simp
  | cons p ps ih =>
    simp only [List.countP_cons, List.filter_cons] at ih ⊢
    by_cases hg : g = f
    · subst hg
      by_cases hp : p.destinationFloor = g <;> simp_all
    · by_cases hp : p.destinationFloor = f
      · have hne : p.destinationFloor ≠ g := by omega
        simp_all
      · simp_all [List.countP_cons]

theorem length_destination (ps : List Passenger) (f : Int) :
    ps.length = (ps.filter (·.destinationFloor ≠ f)).length +
      ps.countP (·.destinationFloor = f) := by
  rw [List.countP_eq_length_filter]
  have h := List.length_eq_length_filter_add (l := ps) (fun p => p.destinationFloor = f)
  simp only [decide_not] at h ⊢
  omega

theorem Unloading.callsMinOnboard {s : State} (h : Unloading s) (hon : s.onboard ≠ []) :
    CallsMinOnboard granted s := by
  refine ⟨hon, ?_⟩
  rcases h.loop with hpc | ⟨hpc, hstate⟩
  · exact .inl hpc
  · exact .inr ⟨hpc, hstate, rfl⟩

theorem Unloading.pass {s u : State} {f : Int} (h : Unloading s) (hpass : Pass f s u)
    (hf : IsFloor f) : Unloading u where
  loop := .inl hpass.pc
  direction := by
    rw [hpass.previousState]
    exact h.direction
  floor := by
    rw [hpass.currentFloor]
    exact hf
  destinations := by
    intro p hp
    rw [hpass.onboard] at hp
    exact h.destinations p (List.mem_of_mem_filter hp)
  counted := hpass.counted h.counted

/-- With nobody on board the loop ends. -/
theorem delivers_nobody {s : State} (h : Unloading s) (hon : s.onboard = []) :
    ∃ t, Delivers s [] t := by
  obtain ⟨hweight, hunits, hodd⟩ := h.counted
  rw [hon, weigh_nil] at hweight hunits
  rw [hon, children, weigh_nil] at hodd
  have hschedule :
      ∃ mutexLog, schedule granted s = { s with pc := .top, mutexLog := mutexLog } := by
    rcases h.loop with hpc | ⟨hpc, hstate⟩
    · rw [schedule_drain granted hpc, drainPass, if_pos hon]
      exact ⟨_, rfl⟩
    · have hon' : (s.lock .offline granted).onboard = [] := hon
      rw [schedule_offline granted hpc hstate, offlineBranch,
        if_pos (show granted .offline = true from rfl), drainPass, if_pos hon']
      exact ⟨_, rfl⟩
  obtain ⟨mutexLog, heq⟩ := hschedule
  refine ⟨_, .done (by rw [heq]), fun _ => .nil, fun _ => .nil, ?_, ?_, ?_, ?_, ?_, ?_, ?_⟩
  all_goals simp [heq, hon, hweight, hunits, hodd]

/-- A pass first, and the rest of the loop. -/
theorem Delivers.cons {s u t : State} {f : Int} {fs : List Int} (h : Delivers u fs t)
    (hdir : s.previousState = .up ∨ s.previousState = .down)
    (hpass : Pass f s u) (hpasses : Passes s (f :: fs) t)
    (hmem : ∃ p ∈ s.onboard, p.destinationFloor = f)
    (hfirst : ∀ p ∈ s.onboard, NotBefore s.previousState f p.destinationFloor) :
    Delivers s (f :: fs) t := by
  have hlater : ∀ g ∈ fs, g ≠ f ∧ NotBefore s.previousState f g := by
    intro g hg
    obtain ⟨p, hp, rfl⟩ := (h.visits g).1 hg
    rw [hpass.onboard] at hp
    obtain ⟨hp, hne⟩ := List.mem_filter.1 hp
    exact ⟨by simpa using hne, hfirst p hp⟩
  have hup : s.previousState = .up → (f :: fs).Pairwise (· < ·) := by
    intro hprev
    refine List.pairwise_cons.2 ⟨?_, h.up (hpass.previousState.trans hprev)⟩
    intro g hg
    obtain ⟨hne, hle⟩ := hlater g hg
    exact lt_of_le_of_ne (hle.1 hprev) hne.symm
  have hdown : s.previousState = .down → (f :: fs).Pairwise (· > ·) := by
    intro hprev
    refine List.pairwise_cons.2 ⟨?_, h.down (hpass.previousState.trans hprev)⟩
    intro g hg
    obtain ⟨hne, hle⟩ := hlater g hg
    exact lt_of_le_of_ne (hle.2 hprev) hne
  have hnodup : (f :: fs).Nodup := by
    rcases hdir with hprev | hprev
    · exact (hup hprev).imp fun hlt => hlt.ne
    · exact (hdown hprev).imp fun hgt => hgt.ne'
  have hvisits : ∀ g, g ∈ f :: fs ↔ ∃ p ∈ s.onboard, p.destinationFloor = g := by
    intro g
    rw [List.mem_cons, h.visits g, hpass.onboard]
    constructor
    · intro hg
      rcases hg with rfl | ⟨p, hp, hd⟩
      · exact hmem
      · exact ⟨p, List.mem_of_mem_filter hp, hd⟩
    · intro hg
      obtain ⟨p, hp, rfl⟩ := hg
      by_cases hd : p.destinationFloor = f
      · exact .inl hd
      · exact .inr ⟨p, List.mem_filter.2 ⟨hp, by simpa using hd⟩, rfl⟩
  refine ⟨hpasses, hup, hdown, hvisits, length_of_visits hnodup hvisits, h.onboard, h.counters,
    h.floors.trans hpass.floors, ?_, ?_⟩
  · intro k
    have hcount := countP_destination s.onboard f (floorOf k)
    rw [h.served k, hpass.served k, hpass.onboard, hcount]
    split_ifs <;> push_cast <;> omega
  · have hlength := length_destination s.onboard f
    rw [h.totalServed, hpass.totalServed, hpass.onboard]
    omega

/-- **The loop empties the elevator**, by induction on the number of those on board. -/
theorem exists_delivers {s : State} (h : Unloading s) : ∃ fs t, Delivers s fs t := by
  induction hn : s.onboard.length using Nat.strongRecOn generalizing s with
  | ind n ih =>
    by_cases hon : s.onboard = []
    · obtain ⟨t, ht⟩ := delivers_nobody h hon
      exact ⟨[], t, ht⟩
    · obtain ⟨p, hp⟩ := List.exists_mem_of_ne_nil _ hon
      obtain ⟨q, hq, hmin, hfirst⟩ := minOnboard_first h.floor h.direction hp (h.destinations p hp)
      obtain ⟨u, hpass, hpasses⟩ := exists_pass (h.callsMinOnboard hon)
      rw [hmin] at hpass hpasses
      have hlt : u.onboard.length < n := by
        rw [hpass.onboard, ← hn]
        exact List.length_filter_lt_length_iff_exists.2 ⟨q, hq, by simp⟩
      obtain ⟨fs, t, ht⟩ := ih _ hlt (h.pass hpass (h.destinations q hq)) rfl
      exact ⟨_, t, ht.cons h.direction hpass (hpasses fs t ht.passes) ⟨q, hq, rfl⟩ hfirst⟩

/-! ## Stopped elevators -/

/-- The next iteration finds the elevator stopped, in the building, with a direction recorded. -/
structure Stopped (s : State) : Prop where
  pc : s.pc = .top
  state : s.state = .offline
  direction : s.previousState = .up ∨ s.previousState = .down
  floor : IsFloor s.currentFloor
  destinations : ∀ p ∈ s.onboard, IsFloor p.destinationFloor
  counted : Counted s

theorem Stopped.unloading {s : State} (h : Stopped s) : Unloading s :=
  ⟨.inr ⟨h.pc, h.state⟩, h.direction, h.floor, h.destinations, h.counted⟩

/-- Whoever is on board is going up, or was when the elevator was last stopped. -/
structure Recorded (s : State) : Prop where
  notDown : s.previousState ≠ .down
  offline : s.started = false → s.state = .offline
  up : s.onboard ≠ [] → s.state = .up ∨ s.previousState = .up

theorem Recorded.previousState {s : State} (h : Recorded s) (hon : s.onboard ≠ [])
    (hstate : s.state ≠ .up) : s.previousState = .up :=
  (h.up hon).resolve_left hstate

theorem recorded_iteration {s t : State} (hacc : Accounting s) (hpc : s.pc = .top)
    (h : Recorded s) (hret : Returns s t) : Recorded t := by
  have hprev : t.previousState = s.previousState := congrArg Fixed.previousState hret.fixed
  have hdown : t.previousState ≠ .down := by
    rw [hprev]
    exact h.notDown
  by_cases hoff : s.state = .offline
  · obtain ⟨hstate, hon⟩ := hret.offload ⟨hoff, .inl hpc⟩
    exact ⟨hdown, fun _ => hstate, fun hne => absurd hon hne⟩
  · have hclear : t.started = false → t.state = .offline := by
      intro hstarted
      rw [hret.started] at hstarted
      exact absurd (h.offline hstarted) hoff
    refine ⟨hdown, hclear, ?_⟩
    intro hon
    by_cases hidle : s.state = .idle
    · have hcargo : t.onboard = s.onboard :=
        congrArg Cargo.onboard (hret.idleScan hacc hpc hidle).cargo
      rw [hcargo] at hon
      exact .inr (hprev.trans (h.previousState hon (by simp [hidle])))
    · have hstate := (hret.serviceStop hpc hoff hidle).state
      rw [if_neg hon] at hstate
      exact .inl hstate

theorem recorded_call {s : State} (hpoised : Poised s) (h : Recorded s) (c : Call) :
    Recorded (c.exec s).2 := by
  have hon := call_onboard c s
  rcases call_cases c s with hc | ⟨-, hclear, hc⟩ | ⟨-, -, hc⟩
  · simp only [State.controls, Controls.mk.injEq] at hc
    obtain ⟨hprev, hstate, -, -, hstarted, -⟩ := hc
    constructor
    · rw [hprev]
      exact h.notDown
    · rw [hstarted, hstate]
      exact h.offline
    · rw [hon, hstate, hprev]
      exact h.up
  · rw [hc]
    refine ⟨h.notDown, by simp, ?_⟩
    intro hon
    exact .inr (h.previousState hon (by simp [h.offline hclear]))
  · rw [hc]
    by_cases hup : s.state = .up
    · rw [if_pos (.inl hup)]
      exact ⟨by simp [hup], fun _ => rfl, fun _ => .inr hup⟩
    · rw [if_neg (by simp [hup, hpoised.notDown])]
      refine ⟨h.notDown, fun _ => rfl, ?_⟩
      intro hon
      exact .inr (h.previousState hon hup)

theorem recorded {ops : List Op} {s : State} (hrun : SeqRun ops s) : Recorded s := by
  induction hrun with
  | nil => exact ⟨by decide, fun _ => rfl, fun hon => absurd rfl hon⟩
  | snoc hrun hop ih =>
    obtain ⟨hpc, ls, rfl⟩ := hrun.after
    cases hop with
    | iteration hret => exact recorded_iteration (accounting_after ls) hpc ih hret
    | call c => exact recorded_call (poised_after ls) ih c

/-- **Offloading on stop is complete.** An iteration of a stopped elevator with a direction recorded
ends, after one pass for each destination, in the order of the direction, and delivers everybody;
and in a sequential run a stopped elevator with somebody on board has `UP` recorded. -/
theorem offload_complete :
    (∀ s, Stopped s → ∃ fs t, Returns s t ∧ Delivers s fs t) ∧
    ∀ ops s, SeqRun ops s → s.state = .offline → s.onboard ≠ [] →
      Stopped s ∧ s.previousState = .up := by
  refine ⟨?_, ?_⟩
  · intro s hs
    obtain ⟨fs, t, ht⟩ := exists_delivers hs.unloading
    exact ⟨fs, t, ht.passes.returns, ht⟩
  · intro ops s hrun hstate hon
    have hup := (recorded hrun).previousState hon (by simp [hstate])
    obtain ⟨hpc, ls, rfl⟩ := hrun.after
    have hacc := accounting_after ls
    refine ⟨⟨hpc, hstate, .inl hup, ?_, ?_, hacc.counted⟩, hup⟩
    · rcases placed_after ls with hasleep | hin | hwedged
      · exact absurd hasleep.onboard hon
      · exact hin.floor
      · exact absurd hup hwedged.notUp
    · intro p hp
      exact (hacc.riding p hp).1.destination

/-- Two passengers to floor 5 and one to floor 3 are on board when the elevator is stopped. -/
def busyStop : List Op :=
  [.call (.request adult 1 5 true), .call (.request child 1 3 true),
    .call (.request rs 1 5 true), .call .start, .iteration, .iteration, .call .stop]

theorem busyStop_complete :
    ∃ s, s.onboard.length = 3 ∧ ∃ fs t, Returns s t ∧ Delivers s fs t := by
  have hrun := seqRun_of_seqAfter
    (Option.some_get (show (seqAfter 12 busyStop).isSome = true by decide)).symm
  have hstopped := (offload_complete.2 _ _ hrun (by decide) (by decide)).1
  exact ⟨_, by decide, offload_complete.1 _ hstopped⟩

end KernelElevator
