import KernelElevator.Bookkeeping

/-!
# Where the elevator can be between statements

`current_floor` is read again and again, by statements between which `start_elevator` may write it.
Here this is followed point by point. Before the first start the elevator is at floor 0 (`Fresh`),
and the scheduler gets no further than its tests; in the offload loop it may be anywhere, but then
there are passengers on board, and an index is only ever the floor that one of them wants to go to.
From the service branch on it is in the building, and since the state is never `DOWN` nothing counts
down from a floor that has just become 1.

* `Fresh` — no start has written `current_floor`.
* `Stands` — where the elevator is, for each point of the scheduler.
* `indices_between_statements` — every index is in range.
-/

namespace KernelElevator.Preemption

open Machine
open Switching (startStatement stopStatement)

/-- No start has come to write `current_floor`, and nobody has anything to stop. -/
structure Fresh (w : World) : Prop where
  started : w.memory.started = false
  state : w.memory.state = .offline ∨ w.memory.state = .idle
  process : ∀ i, w.process i = .out ∨ w.process i = .starting .state ∨
    w.process i = .starting .currentFloor

/-- Where a move goes. -/
def Bound (fresh : Prop) (s : State) (floor : Int) : Back → Prop
  | .drain => s.onboard ≠ []
  | .idle _ => IsFloor floor ∧ (IsFloor s.currentFloor ∨ fresh)
  | .up => IsFloor floor ∧ IsFloor s.currentFloor
  | .down => False

/-- Where the elevator is. -/
def Stands (fresh : Prop) (s : State) : Point → Prop
  | .head | .lockOffline | .scan _ => IsFloor s.currentFloor ∨ fresh
  | .elseIf => IsFloor s.currentFloor ∨ fresh ∧ s.state = .idle
  | .drain => IsFloor s.currentFloor ∨ fresh ∨ s.onboard ≠ []
  | .testUp | .testDown | .minLoop .. | .unloadArg false | .unloadTest _ false => s.onboard ≠ []
  | .move floor back | .setNext floor back | .setFloor floor back => Bound fresh s floor back
  | .unload floor false _ =>
    (IsFloor s.currentFloor ∨ fresh ∨ s.onboard ≠ []) ∧ (IsFloor floor → IsFloor s.currentFloor)
  | .deed _ floor .. | .loadTest floor | .loadEmpty floor | .loadFirst floor | .loadSave floor _
  | .loadBody floor .. => IsFloor floor ∧ IsFloor s.currentFloor
  | .upArg => IsFloor s.currentFloor ∧ s.currentFloor ≠ 10
  | .lockDown | .testOne | .setUpDown | .downArg => False
  | _ => IsFloor s.currentFloor

/-! ## While the scheduler does not run -/

section Others

variable {fresh fresh' : Prop} {s t : State}

theorem Bound.mono {floor : Int} {back : Back} (h : Bound fresh s floor back)
    (hfloor : IsFloor s.currentFloor → IsFloor t.currentFloor)
    (hfresh : fresh → fresh' ∨ IsFloor t.currentFloor) (hon : t.onboard = s.onboard) :
    Bound fresh' t floor back := by
  cases back with
  | drain =>
    show t.onboard ≠ []
    rw [hon]
    exact h
  | idle rest =>
    refine ⟨h.1, ?_⟩
    rcases h.2 with hin | hf
    · exact .inl (hfloor hin)
    · exact (hfresh hf).symm
  | up => exact ⟨h.1, hfloor h.2⟩
  | down => exact h

/-- Others change the floor to 1 only. -/
theorem Stands.mono {point : Point} (h : Stands fresh s point)
    (hfloor : t.currentFloor = s.currentFloor ∨ t.currentFloor = 1)
    (hfresh : fresh → fresh' ∧ (s.state = .idle → t.state = .idle) ∨ IsFloor t.currentFloor)
    (hon : t.onboard = s.onboard) : Stands fresh' t point := by
  have hin : IsFloor s.currentFloor → IsFloor t.currentFloor := by
    intro hs
    rcases hfloor with heq | heq
    · rwa [heq]
    · rw [heq]
      exact isFloor_one
  have hfresh' : fresh → fresh' ∨ IsFloor t.currentFloor := fun hf => (hfresh hf).imp_left And.left
  have hor : IsFloor s.currentFloor ∨ fresh → IsFloor t.currentFloor ∨ fresh' := by
    rintro (hs | hf)
    · exact .inl (hin hs)
    · exact (hfresh' hf).symm
  have hor' : IsFloor s.currentFloor ∨ fresh ∨ s.onboard ≠ [] →
      IsFloor t.currentFloor ∨ fresh' ∨ t.onboard ≠ [] := by
    rw [← or_assoc, ← or_assoc, hon]
    exact Or.imp_left hor
  have hon' : s.onboard ≠ [] → t.onboard ≠ [] := by
    rw [hon]
    exact id
  cases point with
  | head | lockOffline | scan => exact hor h
  | elseIf =>
    rcases h with hs | ⟨hf, hidle⟩
    · exact .inl (hin hs)
    · rcases hfresh hf with ⟨hf', hidle'⟩ | ht
      · exact .inr ⟨hf', hidle' hidle⟩
      · exact .inl ht
  | drain => exact hor' h
  | testUp | testDown | minLoop => exact hon' h
  | unloadArg service | unloadTest floor service =>
    cases service with
    | false => exact hon' h
    | true => exact hin h
  | move floor back | setNext floor back | setFloor floor back => exact Bound.mono h hin hfresh' hon
  | unload floor service ps =>
    cases service with
    | false => exact ⟨hor' h.1, fun hf => hin (h.2 hf)⟩
    | true => exact hin h
  | deed | loadTest | loadEmpty | loadFirst | loadSave | loadBody => exact ⟨h.1, hin h.2⟩
  | upArg =>
    refine ⟨hin h.1, ?_⟩
    rcases hfloor with heq | heq <;> rw [heq]
    · exact h.2
    · decide
  | lockDown | testOne | setUpDown | downArg => exact h
  | _ => exact hin h

end Others

/-! ## The scheduler -/

section Scheduler

variable {fresh : Prop} {s : State}

/-- A move that ends puts the elevator where the code behind it expects it. -/
theorem Bound.lands {floor : Int} {back : Back} (h : Bound fresh s floor back)
    (hfloor : s.currentFloor = floor) : Stands fresh s back.point := by
  cases back with
  | drain => exact h
  | idle rest =>
    show IsFloor s.currentFloor
    rw [hfloor]
    exact h.1
  | up => exact h.2
  | down => exact h.elim

theorem Bound.arrived {floor : Int} {back : Back} (h : Bound fresh s floor back) :
    Bound fresh { s with currentFloor := floor } floor back := by
  cases back with
  | drain => exact h
  | idle rest => exact ⟨h.1, .inl h.1⟩
  | up => exact ⟨h.1, h.1⟩
  | down => exact h

/-- Back in the loops after a deed. -/
theorem stands_rest {floor : Int} {rest : Rest} (hfloor : IsFloor floor)
    (hin : IsFloor s.currentFloor) : Stands fresh s (rest.point floor) := by
  cases rest with
  | load dummy => exact ⟨hfloor, hin⟩
  | unload service ps =>
    cases service with
    | false => exact ⟨.inl hin, fun _ => hin⟩
    | true => exact hin

theorem Stands.deed {d : Deed} {floor : Int} {p : Passenger} {todo : List Count} {rest : Rest}
    (h : Stands fresh s (.deed d floor p todo rest)) (ok : Bool) :
    Stands fresh (advance ok s (.deed d floor p todo rest)).2
      (advance ok s (.deed d floor p todo rest)).1 := by
  obtain ⟨hfloor, hin⟩ := h
  cases todo with
  | nil =>
    refine stands_rest hfloor ?_
    cases d <;> exact hin
  | cons c todo => exact ⟨hfloor, hin⟩

/-- The offload loop, and the tests of the service branch. -/
theorem Stands.unloading {floor : Int} {service : Bool} {ps : List Passenger}
    (h : Stands fresh s (.unload floor service ps))
    (hride : ∀ p ∈ ps, IsFloor p.destinationFloor) (ok : Bool) :
    Stands fresh s (advance ok s (.unload floor service ps)).1 := by
  cases ps with
  | nil =>
    cases service with
    | false => exact h.1
    | true => exact h
  | cons p ps =>
    simp only [Preemption.advance]
    by_cases hd : p.destinationFloor = floor
    · have hfloor : IsFloor floor := hd ▸ hride p List.mem_cons_self
      rw [if_pos hd]
      refine ⟨hfloor, ?_⟩
      cases service with
      | false => exact h.2 hfloor
      | true => exact h
    · rw [if_neg hd]
      cases service <;> exact h

/-- **A statement of the scheduler.** -/
theorem Stands.advance {point : Point} (h : Stands fresh s point) (ok : Bool)
    (hdown : s.state ≠ .down) (hfresh : fresh → s.state = .offline ∨ s.state = .idle)
    (hstart : ∀ k, ∀ p ∈ s.floors k, IsFloor p.startFloor)
    (hride : ∀ floor service ps, point = .unload floor service ps →
      ∀ p ∈ ps, IsFloor p.destinationFloor) :
    Stands fresh (advance ok s point).2 (advance ok s point).1 := by
  cases point with
  | deed d floor p todo rest => exact Stands.deed h ok
  | unload floor service ps =>
    have hnext := Stands.unloading h (hride floor service ps rfl) ok
    cases ps with
    | nil => exact hnext
    | cons p ps => exact hnext
  | head =>
    by_cases hoff : s.state = .offline
    · simp only [Preemption.advance, if_pos hoff]
      exact h
    · simp only [Preemption.advance, if_neg hoff]
      rcases h with hin | hf
      · exact .inl hin
      · exact .inr ⟨hf, (hfresh hf).resolve_left hoff⟩
  | elseIf =>
    by_cases hidle : s.state = .idle
    · simp only [Preemption.advance, if_pos hidle]
      exact h.imp_right And.left
    · simp only [Preemption.advance, if_neg hidle]
      exact h.resolve_right fun hf => hidle hf.2
  | lockOffline =>
    cases ok with
    | false => exact h
    | true => exact h.imp_right .inl
  | drain =>
    by_cases hon : s.onboard = []
    · simp only [Preemption.advance, if_pos hon]
      exact h.imp_right fun h => h.resolve_right (not_not.2 hon)
    · simp only [Preemption.advance, if_neg hon]
      exact hon
  | testUp | testDown =>
    simp only [Preemption.advance]
    split_ifs <;> exact h
  | minLoop up ps =>
    cases ps with
    | nil => exact h
    | cons p ps =>
      simp only [Preemption.advance]
      generalize (if up then _ else _ : Int) = tempNum
      split_ifs <;> exact h
  | move floor back =>
    by_cases hf : floor ≠ s.currentFloor
    · simp only [Preemption.advance, if_pos hf]
      exact h
    · simp only [Preemption.advance, if_neg hf]
      exact Bound.lands h (not_not.1 hf).symm
  | setNext floor back => exact h
  | setFloor floor back => exact Bound.lands (Bound.arrived h) rfl
  | unloadArg service => cases service <;> exact h
  | unloadTest floor service =>
    by_cases hf : s.currentFloor ≠ floor
    · simp only [Preemption.advance, if_pos hf]
      cases service with
      | false => exact .inr (.inr h)
      | true => exact h
    · simp only [Preemption.advance, if_neg hf]
      cases service with
      | false => exact ⟨.inr (.inr h), fun hfloor => (not_not.1 hf).symm ▸ hfloor⟩
      | true => exact h
  | scan is =>
    cases is with
    | nil => exact h
    | cons i is =>
      cases hq : s.floors i with
      | nil =>
        simp only [Preemption.advance, hq]
        exact h
      | cons p ps =>
        simp only [Preemption.advance, hq]
        exact ⟨hstart i p (hq ▸ List.mem_cons_self), h⟩
  | setLoading is => exact .inl h
  | lockService => cases ok <;> exact h
  | loadArg => exact ⟨h, h⟩
  | loadTest floor | loadEmpty floor =>
    simp only [Preemption.advance]
    split_ifs
    · exact h.2
    · exact h
  | loadFirst floor => exact h
  | loadSave floor temp =>
    cases temp with
    | none => exact h.2
    | some p => exact h
  | loadBody floor temp dummy =>
    cases temp with
    | none => exact h.2
    | some p =>
      simp only [Preemption.advance]
      split_ifs
      · exact h
      · exact h
      · exact h.2
  | ifUp =>
    simp only [Preemption.advance]
    split_ifs <;> exact h
  | lockUp => cases ok <;> exact h
  | testTen =>
    by_cases hten : s.currentFloor = 10
    · simp only [Preemption.advance, if_pos hten]
      exact ⟨isFloor_one, h⟩
    · simp only [Preemption.advance, if_neg hten]
      exact ⟨h, hten⟩
  | upArg =>
    obtain ⟨hin, hten⟩ := h
    refine ⟨?_, hin⟩
    have hlow := hin.1
    have hhigh := hin.2
    refine ⟨?_, ?_⟩
    · omega
    · omega
  | ifDown =>
    simp only [Preemption.advance, if_neg hdown]
    exact h
  | lockDown | testOne | setUpDown | downArg => exact h.elim
  | testEmpty =>
    simp only [Preemption.advance]
    split_ifs
    · exact h
    · exact .inl h
  | setIdle => exact .inl h
  | service | setUp => exact h

end Scheduler

/-! ## Every run -/

/-- The scheduler writes the state only once the elevator is in the building, and never `DOWN`. -/
theorem advance_state {fresh : Prop} {s : State} {point : Point} (h : Stands fresh s point)
    (ok : Bool) (hdown : s.state ≠ .down) :
    (advance ok s point).2.started = s.started ∧ (advance ok s point).2.state ≠ .down ∧
      ((advance ok s point).2.state = s.state ∨ IsFloor (advance ok s point).2.currentFloor) := by
  cases point with
  | setLoading | service | setUp | setIdle => exact ⟨rfl, by simp [advance], .inr h⟩
  | setUpDown => exact h.elim
  | deed d floor p todo rest =>
    cases todo with
    | nil => cases d <;> exact ⟨rfl, hdown, .inl rfl⟩
    | cons c todo => exact ⟨rfl, hdown, .inl rfl⟩
  | minLoop up ps => cases ps <;> exact ⟨rfl, hdown, .inl rfl⟩
  | unload floor service ps => cases ps <;> exact ⟨rfl, hdown, .inl rfl⟩
  | scan is =>
    cases is with
    | nil => exact ⟨rfl, hdown, .inl rfl⟩
    | cons i is =>
      simp only [advance]
      cases s.floors i <;> exact ⟨rfl, hdown, .inl rfl⟩
  | loadSave floor temp => cases temp <;> exact ⟨rfl, hdown, .inl rfl⟩
  | loadBody floor temp dummy => cases temp <;> exact ⟨rfl, hdown, .inl rfl⟩
  | _ => exact ⟨rfl, hdown, .inl rfl⟩

/-- The processes write 1 to the floor, and neither `DOWN` nor anything of the passengers. -/
theorem proceed_writes (stops : Bool) (s : State) (process : Process) (hdown : s.state ≠ .down) :
    ((proceed stops s process).2.currentFloor = s.currentFloor ∨
      (proceed stops s process).2.currentFloor = 1) ∧
      (proceed stops s process).2.state ≠ .down := by
  cases process with
  | out =>
    unfold proceed
    split_ifs <;> exact ⟨.inl rfl, hdown⟩
  | starting p =>
    cases p with
    | state => exact ⟨.inl rfl, by simp [proceed, startStatement]⟩
    | currentFloor => exact ⟨.inr rfl, hdown⟩
    | started => exact ⟨.inl rfl, hdown⟩
  | stopping p =>
    cases p with
    | state => exact ⟨.inl rfl, by simp [proceed, stopStatement]⟩
    | _ => exact ⟨.inl rfl, hdown⟩

/-- Until a start writes `current_floor`, nothing else but `IDLE` is written. -/
theorem Fresh.call {w : World} (h : Fresh w) (i : ℕ) (stops : Bool) :
    (Fresh (step (.call i stops) w) ∧
      (w.memory.state = .idle → (step (.call i stops) w).memory.state = .idle)) ∨
    IsFloor (step (.call i stops) w).memory.currentFloor := by
  have hothers : ∀ process : Process, (process = .out ∨ process = .starting .state ∨
      process = .starting .currentFloor) → ∀ j, Function.update w.process i process j = .out ∨
      Function.update w.process i process j = .starting .state ∨
      Function.update w.process i process j = .starting .currentFloor := by
    intro process hprocess j
    by_cases hj : j = i
    · rwa [hj, Function.update_self]
    · rw [Function.update_of_ne hj]
      exact h.process j
  rcases h.process i with hi | hi | hi
  · left
    cases stops with
    | true =>
      have hno : proceed true w.memory .out = (.out, w.memory) := if_neg (by simp [h.started])
      simp only [step, hi, hno]
      exact ⟨⟨h.started, h.state, hothers _ (.inl rfl)⟩, id⟩
    | false =>
      have hyes : proceed false w.memory .out = (.starting .state, w.memory) := if_pos h.started
      simp only [step, hi, hyes]
      exact ⟨⟨h.started, h.state, hothers _ (.inr (.inl rfl))⟩, id⟩
  · left
    simp only [step, hi]
    exact ⟨⟨h.started, .inr rfl, hothers _ (.inr (.inr rfl))⟩, fun _ => rfl⟩
  · right
    simp only [step, hi]
    exact isFloor_one

/-- The elevator stands where the scheduler expects it. -/
structure Footing (w : World) : Prop where
  stands : Stands (Fresh w) w.memory w.point
  notDown : w.memory.state ≠ .down

theorem Footing.sched {w : World} (h : Footing w) {b : Books} (hsound : Sound b w.memory w.point)
    (ok : Bool) : Footing (step (.sched ok) w) := by
  obtain ⟨hstarted, hdown, hstate⟩ := advance_state h.stands ok h.notDown
  have hnext :
      Stands (Fresh w) (advance ok w.memory w.point).2 (advance ok w.memory w.point).1 := by
    refine h.stands.advance ok h.notDown Fresh.state ?_ ?_
    · intro k p hp
      exact (hsound.1.accounting.queued k p hp).1.start
    · intro floor service ps hpoint p hp
      have hknown := hsound.2
      rw [hpoint] at hknown
      obtain ⟨-, kept, hon, -⟩ := hknown
      have hmem : p ∈ w.memory.onboard := hon ▸ List.mem_append_right _ hp
      exact (hsound.1.accounting.riding p hmem).1.destination
  refine ⟨hnext.mono (.inl rfl) ?_ rfl, hdown⟩
  intro hfresh
  rcases hstate with hsame | hin
  · exact .inl ⟨⟨hstarted.trans hfresh.started, hsame ▸ hfresh.state, hfresh.process⟩, id⟩
  · exact .inr hin

theorem Footing.call {w : World} (h : Footing w) (i : ℕ) (stops : Bool) :
    Footing (step (.call i stops) w) := by
  obtain ⟨hfloor, hdown⟩ := proceed_writes stops w.memory (w.process i) h.notDown
  have hon := (proceed_control (books w.memory) stops w.memory (w.process i)).2.1
  exact ⟨h.stands.mono hfloor (fun hfresh => hfresh.call i stops) hon, hdown⟩

theorem Footing.request {w : World} (h : Footing w) (t a b : Int) (kmalloc : Bool) :
    Footing (step (.request t a b kmalloc) w) := by
  have hcontrols := issueRequest_controls t a b kmalloc w.memory
  have hstate : (step (.request t a b kmalloc) w).memory.state = w.memory.state :=
    congrArg Controls.state hcontrols
  have hstarted : (step (.request t a b kmalloc) w).memory.started = w.memory.started :=
    congrArg Controls.started hcontrols
  refine ⟨h.stands.mono (.inl (congrArg Controls.currentFloor hcontrols)) ?_ ?_, ?_⟩
  · intro hfresh
    refine .inl ⟨⟨hstarted.trans hfresh.started, hstate ▸ hfresh.state, hfresh.process⟩, ?_⟩
    rw [hstate]
    exact id
  · rcases issueRequest_cases t a b kmalloc w.memory with hsame | ⟨p, -, -, hlink⟩
    · exact congrArg State.onboard hsame
    · exact (congrArg State.onboard hlink).trans rfl
  · rw [hstate]
    exact h.notDown

theorem footing_after (ls : List Label) : Footing (after ls) := by
  have hinit : Footing init := by
    refine ⟨.inr ⟨rfl, .inl rfl, fun _ => .inl rfl⟩, ?_⟩
    simp [init, elevatorInit]
  apply invariant_of_sound _ ls (sound_after []) hinit
  intro l w b hsound h
  cases l with
  | sched ok => exact h.sched hsound ok
  | call i stops => exact h.call i stops
  | request t a c kmalloc => exact h.request t a c kmalloc

/-- The `floor` of the index `floor - 1` that the next statement uses. -/
def Point.index : Point → Option Int
  | .deed _ floor _ (.served :: _) _ => some floor
  | .loadEmpty floor | .loadFirst floor | .loadSave floor _ => some floor
  | _ => none

/-- The scheduler is in its last branch. -/
def Point.InService : Point → Prop
  | .lockService | .service | .unloadArg true | .unloadTest _ true | .unload _ true _ => True
  | .deed _ _ _ _ (.unload true _) | .deed _ _ _ _ (.load _) => True
  | .loadArg | .loadTest _ | .loadEmpty _ | .loadFirst _ | .loadSave .. | .loadBody .. => True
  | .setUp | .ifUp | .lockUp | .testTen | .upArg => True
  | .move _ .up | .setNext _ .up | .setFloor _ .up => True
  | .ifDown | .testEmpty | .setIdle => True
  | _ => False

/-- The scheduler is in the branch for `DOWN`, its move included. -/
def Point.InDown : Point → Prop
  | .lockDown | .testOne | .setUpDown | .downArg => True
  | .move _ .down | .setNext _ .down | .setFloor _ .down => True
  | _ => False

theorem Stands.index {fresh : Prop} {s : State} {point : Point} (h : Stands fresh s point)
    {floor : Int} (hindex : point.index = some floor) : IsFloor floor := by
  cases point with
  | deed d f p todo rest =>
    cases todo with
    | nil => exact absurd hindex (by simp [Point.index])
    | cons c todo =>
      cases c with
      | served => exact Option.some.inj hindex ▸ h.1
      | _ => exact absurd hindex (by simp [Point.index])
  | loadEmpty | loadFirst | loadSave => exact Option.some.inj hindex ▸ h.1
  | _ => exact absurd hindex (by simp [Point.index])

theorem Stands.inService {fresh : Prop} {s : State} {point : Point} (h : Stands fresh s point)
    (hservice : point.InService) : IsFloor s.currentFloor := by
  cases point with
  | deed | loadTest | loadEmpty | loadFirst | loadSave | loadBody => exact h.2
  | upArg => exact h.1
  | unloadArg service | unloadTest floor service | unload floor service ps =>
    cases service with
    | false => exact hservice.elim
    | true => exact h
  | move floor back | setNext floor back | setFloor floor back =>
    cases back with
    | up => exact h.2
    | _ => exact hservice.elim
  | lockService | service | loadArg | setUp | ifUp | lockUp | testTen | ifDown | testEmpty
  | setIdle => exact h
  | _ => exact hservice.elim

/-- Nothing comes to the branch for `DOWN`. -/
theorem Stands.not_inDown {fresh : Prop} {s : State} {point : Point} (h : Stands fresh s point) :
    ¬ point.InDown := by
  intro hin
  cases point with
  | lockDown | testOne | setUpDown | downArg => exact h
  | move floor back | setNext floor back | setFloor floor back =>
    cases back with
    | down => exact h
    | _ => exact hin
  | _ => exact hin

/-- **Indices between statements.** Whatever calls come in between the accesses of the scheduler,
and wherever they are interrupted themselves: each index into `floors` and `served` is in range, the
elevator is in the building while the service branch is executed, its lock included, and its state
is never `DOWN`, so that nothing of the branch for it is ever executed, nor its move. -/
theorem indices_between_statements (ls : List Label) :
    (∀ floor ∈ (after ls).point.index, 1 ≤ floor ∧ floor ≤ 10) ∧
    ((after ls).point.InService →
      1 ≤ (after ls).memory.currentFloor ∧ (after ls).memory.currentFloor ≤ 10) ∧
    (after ls).memory.state ≠ .down ∧ ¬ (after ls).point.InDown := by
  obtain ⟨hstands, hdown⟩ := footing_after ls
  exact ⟨fun floor hindex => hstands.index hindex, hstands.inService, hdown, hstands.not_inDown⟩

end KernelElevator.Preemption
