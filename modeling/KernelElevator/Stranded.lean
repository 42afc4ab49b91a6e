import KernelElevator.Footing

/-!
# A stop that tests one state and records another

`stop_elevator` tests `elevator.state` and then reads it once more to record it. Between the two the
scheduler may begin to serve a floor, so that a stop which has found `UP` records `LOADING`. The
offload loop then has no direction: `min_onboard` answers -1, where nobody wants to get off.

* `Point.Offloading` — the branch for `OFFLINE`; nothing but starts and stops writes the state
  there.
* `Stranded` — the loop without a direction, with a passenger for another floor than 1. A start that
  comes in after the move to -1 can let somebody off at floor 1, and nowhere else.
* `stranded_forever` — nothing that comes in ever ends it.
-/

namespace KernelElevator.Preemption

open Machine

/-- A state that `min_onboard` can use. -/
def Directed (status : Status) : Prop := status = .up ∨ status = .down

instance (status : Status) : Decidable (Directed status) := inferInstanceAs (Decidable (_ ∨ _))

/-! ## The offload loop -/

/-- The scheduler is in the branch for `OFFLINE`. -/
def Point.Offloading : Point → Prop
  | .lockOffline | .drain | .testUp | .testDown | .minLoop .. => True
  | .move _ .drain | .setNext _ .drain | .setFloor _ .drain => True
  | .unloadArg false | .unloadTest _ false | .unload _ false _ => True
  | .deed _ _ _ _ (.unload false _) => True
  | _ => False

/-- In the branch for `OFFLINE` nobody has written more than a start writes. -/
def Halted (s : State) (point : Point) : Prop :=
  point.Offloading → s.state = .offline ∨ s.state = .idle

theorem Halted.advance {s : State} {point : Point} (h : Halted s point) (ok : Bool) :
    Halted (advance ok s point).2 (advance ok s point).1 := by
  cases point with
  | head =>
    by_cases hoff : s.state = .offline
    · exact fun _ => .inl hoff
    · simp only [Preemption.advance, if_neg hoff]
      exact False.elim
  | lockOffline | drain | testUp | testDown => exact fun _ => h trivial
  | minLoop up ps => cases ps <;> exact fun _ => h trivial
  | move floor back =>
    cases back with
    | drain => exact fun _ => h trivial
    | _ =>
      simp only [Preemption.advance]
      split_ifs <;> exact False.elim
  | setNext floor back | setFloor floor back =>
    cases back with
    | drain => exact fun _ => h trivial
    | _ => exact False.elim
  | unloadArg service =>
    cases service with
    | false => exact fun _ => h trivial
    | true => exact False.elim
  | unloadTest floor service =>
    cases service with
    | false => exact fun _ => h trivial
    | true =>
      simp only [Preemption.advance]
      split_ifs <;> exact False.elim
  | unload floor service ps =>
    cases service with
    | false => cases ps <;> exact fun _ => h trivial
    | true =>
      cases ps with
      | nil => exact False.elim
      | cons p ps =>
        simp only [Preemption.advance]
        split_ifs <;> exact False.elim
  | deed d floor p todo rest =>
    cases rest with
    | load dummy => cases todo <;> exact False.elim
    | unload service ps =>
      cases service with
      | true => cases todo <;> exact False.elim
      | false =>
        cases todo with
        | nil => cases d <;> exact fun _ => h trivial
        | cons c todo => exact fun _ => h trivial
  | scan is =>
    cases is with
    | nil => exact False.elim
    | cons i is =>
      simp only [Preemption.advance]
      cases s.floors i <;> exact False.elim
  | loadSave floor temp => cases temp <;> exact False.elim
  | loadBody floor temp dummy =>
    cases temp with
    | none => exact False.elim
    | some p =>
      simp only [Preemption.advance]
      split_ifs <;> exact False.elim
  | elseIf | lockService | loadTest | loadEmpty | ifUp | lockUp | testTen | ifDown | lockDown
  | testOne | testEmpty =>
    simp only [Preemption.advance]
    split_ifs <;> exact False.elim
  | _ => exact False.elim

theorem proceed_state (stops : Bool) (s : State) (process : Process) :
    (proceed stops s process).2.state = s.state ∨ (proceed stops s process).2.state = .offline ∨
      (proceed stops s process).2.state = .idle := by
  cases process with
  | out =>
    unfold proceed
    split_ifs <;> exact .inl rfl
  | starting p =>
    cases p with
    | state => exact .inr (.inr rfl)
    | _ => exact .inl rfl
  | stopping p =>
    cases p with
    | state => exact .inr (.inl rfl)
    | _ => exact .inl rfl

theorem halted_proceed {s : State} (h : s.state = .offline ∨ s.state = .idle) (stops : Bool)
    (process : Process) : (proceed stops s process).2.state = .offline ∨
      (proceed stops s process).2.state = .idle := by
  rcases proceed_state stops s process with hsame | hwritten
  · rwa [hsame]
  · exact hwritten

theorem halted_after (ls : List Label) : Halted (after ls).memory (after ls).point := by
  apply run_invariant (I := fun w : World => Halted w.memory w.point) _ ls
  · exact False.elim
  · intro l w h
    cases l with
    | sched ok => exact h.advance ok
    | call i stops => exact fun hpoint => halted_proceed (h hpoint) stops (w.process i)
    | request t a b kmalloc =>
      intro hpoint
      have hstate : (step (.request t a b kmalloc) w).memory.state = w.memory.state :=
        congrArg Controls.state (issueRequest_controls t a b kmalloc w.memory)
      rw [hstate]
      exact h hpoint

/-! ## Without a direction -/

/-- Where the loop goes when `min_onboard` answers -1. -/
def Loops (s : State) : Point → Prop
  | .drain | .testUp | .testDown => True
  | .move floor .drain | .setNext floor .drain | .setFloor floor .drain => floor = -1
  | .unloadArg false => s.currentFloor = -1 ∨ s.currentFloor = 1
  | .unloadTest floor false | .unload floor false _ | .deed .letOff floor _ _ (.unload false _) =>
    floor = -1 ∨ floor = 1
  | _ => False

/-- `q` is on board, wants to go to another floor than 1, and the loop has no direction. -/
structure Stranded (q : Passenger) (w : World) : Prop where
  rides : q ∈ w.memory.onboard
  elsewhere : q.destinationFloor ≠ 1
  direction : ¬ Directed w.memory.previousState
  state : w.memory.state = .offline ∨ w.memory.state = .idle
  stops : ∀ i status, w.process i = .stopping (.previousState status) → ¬ Directed status
  loops : Loops w.memory w.point

theorem Loops.offloading {s : State} {point : Point} (h : Loops s point) : point.Offloading := by
  cases point with
  | drain | testUp | testDown => trivial
  | move floor back | setNext floor back | setFloor floor back =>
    cases back with
    | drain => trivial
    | _ => exact h.elim
  | unloadArg service | unloadTest floor service | unload floor service ps =>
    cases service with
    | false => trivial
    | true => exact h.elim
  | deed d floor p todo rest =>
    cases d with
    | letOff =>
      cases rest with
      | load dummy => exact h.elim
      | unload service ps =>
        cases service with
        | false => trivial
        | true => exact h.elim
    | _ => exact h.elim
  | _ => exact h.elim

theorem Loops.mono {s t : State} {point : Point} (h : Loops s point)
    (hfloor : t.currentFloor = s.currentFloor ∨ t.currentFloor = 1) : Loops t point := by
  cases point with
  | unloadArg service =>
    cases service with
    | true => exact h
    | false =>
      rcases hfloor with heq | heq
      · show t.currentFloor = -1 ∨ t.currentFloor = 1
        rw [heq]
        exact h
      · exact .inr heq
  | move floor back | setNext floor back | setFloor floor back => cases back <;> exact h
  | unloadTest floor service | unload floor service ps => cases service <;> exact h
  | deed d floor p todo rest =>
    cases d with
    | letOff =>
      cases rest with
      | load dummy => exact h
      | unload service ps => cases service <;> exact h
    | _ => exact h
  | _ => exact h

/-- The next statement stays in the loop. -/
theorem Loops.advance {s : State} {point : Point} (h : Loops s point) (ok : Bool)
    (hon : s.onboard ≠ []) (hdirection : ¬ Directed s.previousState) :
    Loops (advance ok s point).2 (advance ok s point).1 := by
  cases point with
  | drain =>
    simp only [Preemption.advance, if_neg hon]
    trivial
  | testUp =>
    have hup : s.previousState ≠ .up := fun h => hdirection (.inl h)
    simp only [Preemption.advance, if_neg hup]
    trivial
  | testDown =>
    have hdown : s.previousState ≠ .down := fun h => hdirection (.inr h)
    simp only [Preemption.advance, if_neg hdown]
    exact rfl
  | move floor back =>
    cases back with
    | drain =>
      by_cases hf : floor ≠ s.currentFloor
      · simp only [Preemption.advance, if_pos hf]
        exact h
      · simp only [Preemption.advance, if_neg hf]
        exact .inl ((not_not.1 hf).symm.trans h)
    | _ => exact h.elim
  | setNext floor back =>
    cases back with
    | drain => exact h
    | _ => exact h.elim
  | setFloor floor back =>
    cases back with
    | drain => exact .inl h
    | _ => exact h.elim
  | unloadArg service =>
    cases service with
    | false => exact h
    | true => exact h.elim
  | unloadTest floor service =>
    cases service with
    | false =>
      simp only [Preemption.advance]
      split_ifs
      · trivial
      · exact h
    | true => exact h.elim
  | unload floor service ps =>
    cases service with
    | false =>
      cases ps with
      | nil => trivial
      | cons p ps =>
        simp only [Preemption.advance]
        split_ifs <;> exact h
    | true => exact h.elim
  | deed d floor p todo rest =>
    cases d with
    | letOff =>
      cases rest with
      | load dummy => exact h.elim
      | unload service ps =>
        cases service with
        | true => exact h.elim
        | false =>
          cases todo with
          | nil => exact h
          | cons c todo => exact h
    | _ => exact h.elim
  | _ => exact h.elim

/-- In the loop the scheduler writes neither the state nor the direction. -/
theorem Loops.keeps {s : State} {point : Point} (h : Loops s point) (ok : Bool) :
    (Preemption.advance ok s point).2.previousState = s.previousState ∧
      (Preemption.advance ok s point).2.state = s.state := by
  cases point with
  | unload floor service ps => cases ps <;> exact ⟨rfl, rfl⟩
  | deed d floor p todo rest =>
    cases todo with
    | nil => cases d <;> exact ⟨rfl, rfl⟩
    | cons c todo => exact ⟨rfl, rfl⟩
  | drain | testUp | testDown | move | setNext | setFloor | unloadArg | unloadTest =>
    exact ⟨rfl, rfl⟩
  | _ => exact h.elim

/-- Only passengers for floor 1 get off. -/
theorem Stranded.stays {q : Passenger} {w : World} (h : Stranded q w) {b : Books}
    (hsound : Sound b w.memory w.point) (ok : Bool) :
    q ∈ (step (.sched ok) w).memory.onboard := by
  show q ∈ (advance ok w.memory w.point).2.onboard
  by_cases hidle : w.point.Idle
  · rw [(advance_control b ok w.memory hidle).2.2.1]
    exact h.rides
  · simp only [Point.Idle, not_forall, not_not] at hidle
    obtain ⟨d, floor, p, todo, rest, hpoint⟩ := hidle
    rw [hpoint]
    have hloops := h.loops
    rw [hpoint] at hloops
    cases d with
    | serve => exact hloops.elim
    | board => exact hloops.elim
    | letOff =>
      cases todo with
      | cons c todo => exact h.rides
      | nil =>
        cases rest with
        | load dummy => exact hloops.elim
        | unload service ps =>
          cases service with
          | true => exact hloops.elim
          | false =>
            have hknown := hsound.2
            rw [hpoint] at hknown
            obtain ⟨-, hd, kept, hon, -⟩ := hknown
            have hp : p ∈ w.memory.onboard := hon ▸ List.mem_append_right _ List.mem_cons_self
            have hfloor := (hsound.1.accounting.riding p hp).1.destination
            have hone : p.destinationFloor = 1 := by
              rcases hloops with hminus | hone
              · omega
              · exact hd.trans hone
            have hne : q ≠ p := by
              rintro rfl
              exact h.elsewhere hone
            show q ∈ w.memory.onboard.erase p
            exact (List.mem_erase_of_ne hne).2 h.rides

theorem Stranded.sched {q : Passenger} {w : World} (h : Stranded q w) {b : Books}
    (hsound : Sound b w.memory w.point) (ok : Bool) : Stranded q (step (.sched ok) w) := by
  have hon : w.memory.onboard ≠ [] := List.ne_nil_of_mem h.rides
  obtain ⟨hprevious, hstate⟩ := h.loops.keeps ok
  refine ⟨h.stays hsound ok, h.elsewhere, ?_, ?_, h.stops, h.loops.advance ok hon h.direction⟩
  · show ¬ Directed (advance ok w.memory w.point).2.previousState
    rw [hprevious]
    exact h.direction
  · show (advance ok w.memory w.point).2.state = _ ∨ (advance ok w.memory w.point).2.state = _
    rw [hstate]
    exact h.state

/-- A stop that comes in finds no direction to record. -/
theorem proceed_undirected {s : State} {process : Process} (hdirection : ¬ Directed s.previousState)
    (hstate : s.state = .offline ∨ s.state = .idle)
    (hstop : ∀ status, process = .stopping (.previousState status) → ¬ Directed status)
    (stops : Bool) :
    ¬ Directed (proceed stops s process).2.previousState ∧
      ∀ status, (proceed stops s process).1 = .stopping (.previousState status) →
        ¬ Directed status := by
  have hundirected : ¬ Directed s.state := by
    rcases hstate with hs | hs <;> rw [hs] <;> decide
  cases process with
  | out =>
    unfold proceed
    cases stops <;> split_ifs <;> exact ⟨hdirection, fun status h => by cases h⟩
  | starting p => cases p <;> exact ⟨hdirection, fun status h => by cases h⟩
  | stopping p =>
    cases p with
    | previousState status => exact ⟨hstop status rfl, fun status h => by cases h⟩
    | readState =>
      refine ⟨hdirection, fun status h => ?_⟩
      cases h
      exact hundirected
    | testUp =>
      have hup : s.state ≠ .up := fun h => hundirected (.inl h)
      simp only [proceed, Switching.stopStatement, if_neg hup]
      exact ⟨hdirection, fun status h => by cases h⟩
    | testDown =>
      have hdown : s.state ≠ .down := fun h => hundirected (.inr h)
      simp only [proceed, Switching.stopStatement, if_neg hdown]
      exact ⟨hdirection, fun status h => by cases h⟩
    | _ => exact ⟨hdirection, fun status h => by cases h⟩

theorem Stranded.call {q : Passenger} {w : World} (h : Stranded q w) (i : ℕ) (stops : Bool) :
    Stranded q (step (.call i stops) w) := by
  have hdown : w.memory.state ≠ .down := by
    rcases h.state with hs | hs <;> rw [hs] <;> decide
  obtain ⟨hprevious, hstops⟩ :=
    proceed_undirected h.direction h.state (fun status => h.stops i status) stops
  refine ⟨?_, h.elsewhere, hprevious, halted_proceed h.state stops _, ?_, ?_⟩
  · show q ∈ (proceed stops w.memory (w.process i)).2.onboard
    rw [(proceed_control (books w.memory) stops w.memory (w.process i)).2.1]
    exact h.rides
  · intro j status hj
    by_cases hij : j = i
    · subst hij
      simp only [step, Function.update_self] at hj
      exact hstops status hj
    · simp only [step, Function.update_of_ne hij] at hj
      exact h.stops j status hj
  · exact h.loops.mono (proceed_writes stops w.memory (w.process i) hdown).1

theorem Stranded.request {q : Passenger} {w : World} (h : Stranded q w) (t a b : Int)
    (kmalloc : Bool) : Stranded q (step (.request t a b kmalloc) w) := by
  rcases issueRequest_cases t a b kmalloc w.memory with hsame | ⟨p, -, -, hlink⟩
  · simp only [step, hsame]
    exact h
  · simp only [step, hlink]
    exact ⟨h.rides, h.elsewhere, h.direction, h.state, h.stops, h.loops.mono (.inl rfl)⟩

/-- **A loop without a direction never ends.** If the offload loop finds somebody on board for
another floor than 1 and no direction recorded, and no stop is about to record one, then whatever
calls come in between its statements, this passenger stays on board and the scheduler in the
loop. -/
theorem stranded_forever {ls : List Label} (hpoint : (after ls).point = .drain) {q : Passenger}
    (hq : q ∈ (after ls).memory.onboard) (helsewhere : q.destinationFloor ≠ 1)
    (hdirection : ¬ Directed (after ls).memory.previousState)
    (hstops : ∀ i status, (after ls).process i = .stopping (.previousState status) →
      ¬ Directed status) (ms : List Label) :
    q ∈ (after (ls ++ ms)).memory.onboard ∧ (after (ls ++ ms)).point.Offloading := by
  have hhalted : Halted (after ls).memory (after ls).point := halted_after ls
  rw [hpoint] at hhalted
  have hstranded : Stranded q (after ls) :=
    ⟨hq, helsewhere, hdirection, hhalted trivial, hstops, hpoint ▸ trivial⟩
  have hlater : Stranded q (after (ls ++ ms)) := by
    rw [after, run_append]
    apply invariant_of_sound _ ms (sound_after ls) hstranded
    intro l w b hsound h
    cases l with
    | sched ok => exact h.sched hsound ok
    | call i stops => exact h.call i stops
    | request t a c kmalloc => exact h.request t a c kmalloc
  exact ⟨hlater.rides, hlater.loops.offloading⟩

/-- A stop finds `UP`, waits until the scheduler serves the next floor, reads `LOADING`, and goes on
when the floor has been served. -/
def lateStop : List Label :=
  .request adult 1 5 true :: (List.replicate 4 (.call 0 false) ++ List.replicate 33 (.sched true) ++
    List.replicate 2 (.call 0 true) ++ List.replicate 13 (.sched true) ++ [.call 0 true] ++
    List.replicate 8 (.sched true) ++ List.replicate 3 (.call 0 true) ++
    List.replicate 5 (.sched true))

def lateRider : Passenger := ⟨0, 2, 1, 1, 5, adult, .up⟩

/-- It has found the elevator on its way up, and the passenger stays on board. -/
theorem lateStop_strands : (after (lateStop.take 38)).memory.state = .up ∧
    (after (lateStop.take 40)).process 0 = .stopping .readState ∧
    ∀ ms, lateRider ∈ (after (lateStop ++ ms)).memory.onboard ∧
      (after (lateStop ++ ms)).point.Offloading := by
  have hprocess : ∀ i, (after lateStop).process i = .out := by
    intro i
    cases i with
    | zero => rfl
    | succ i => rfl
  have hon : (after lateStop).memory.onboard = [lateRider] := rfl
  refine ⟨rfl, rfl, stranded_forever rfl ?_ (by decide) (by decide +kernel) ?_⟩
  · rw [hon]
    exact List.mem_singleton_self _
  · intro i status hi
    rw [hprocess i] at hi
    cases hi

end KernelElevator.Preemption
