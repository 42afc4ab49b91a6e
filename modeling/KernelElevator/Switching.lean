import KernelElevator.LoopHead
import KernelElevator.Library.Gate

/-!
# Starts and stops that overlap

`start_elevator` and `stop_elevator` take no lock, and go through several statements between their
test of `started` and their write of it. Here any number of them run statement by statement, in any
order, beside requests and the scheduler.

* `protocol` — the statements; `started` is the flag that both calls test and write.
* `calls_atomic` — if no two starts and no two stops overlap, and the scheduler does not run in the
  middle of one, then what the calls answer and leave is what whole calls do, one after the other.
* `overlapping_stuck` — with two starts that overlap, a stop can leave the elevator started and
  `OFFLINE`, which no run of whole calls does.
-/

namespace KernelElevator.Switching

open Machine Gate Gate.Protocol

/-! ## The statements -/

/-- The statements of `start_elevator` after its test. -/
inductive Starting where
  | state
  | currentFloor
  | started

/-- The statements of `stop_elevator` after its test. -/
inductive Stopping where
  /-- `elevator.state == UP` -/
  | testUp
  /-- `elevator.state == DOWN` -/
  | testDown
  /-- `elevator.previous_state = elevator.state`, which reads `state` once more. -/
  | readState
  | previousState (status : Status)
  | state
  | started

/-- The kind of a call is what it has to find in `started`. -/
def Statement : Bool → Type
  | false => Starting
  | true => Stopping

def startStatement : Starting → State → State × Option Starting
  | .state, s => ({ s with state := .idle }, some .currentFloor)
  | .currentFloor, s => ({ s with currentFloor := 1 }, some .started)
  | .started, s => ({ s with started := true }, none)

def stopStatement : Stopping → State → State × Option Stopping
  | .testUp, s => (s, some (if s.state = .up then .readState else .testDown))
  | .testDown, s => (s, some (if s.state = .down then .readState else .state))
  | .readState, s => (s, some (.previousState s.state))
  | .previousState status, s => ({ s with previousState := status }, some .state)
  | .state, s => ({ s with state := .offline }, some .started)
  | .started, s => ({ s with started := false }, none)

/-- What the rest of a start does. -/
def startRest : Starting → State → State
  | .state, s => { s with state := .idle, currentFloor := 1, started := true }
  | .currentFloor, s => { s with currentFloor := 1, started := true }
  | .started, s => { s with started := true }

/-- What the rest of a stop does. -/
def stopRest : Stopping → State → State
  | .testUp, s => { s with
      previousState := if s.state = .up ∨ s.state = .down then s.state else s.previousState
      state := .offline, started := false }
  | .testDown, s => { s with
      previousState := if s.state = .down then s.state else s.previousState
      state := .offline, started := false }
  | .readState, s => { s with previousState := s.state, state := .offline, started := false }
  | .previousState status, s =>
    { s with previousState := status, state := .offline, started := false }
  | .state, s => { s with state := .offline, started := false }
  | .started, s => { s with started := false }

/-- What comes between the statements, whole: a step of the scheduler, or a request. -/
inductive Other where
  | sched (locks : Locks)
  | request (passengerType startFloor destinationFloor : Int) (kmalloc : Bool)

def Other.label : Other → Label
  | .sched locks => .sched locks
  | .request t a b kmalloc => .call (.request t a b kmalloc)

def Other.isRequest : Other → Bool
  | .sched _ => false
  | .request .. => true

/-! ## Requests keep clear of the statements -/

/-- A function that only writes the controls, by what it finds in them. -/
structure Steered (f : State → State) : Prop where
  allocate : ∀ s, f s.allocate = (f s).allocate
  link : ∀ s p, f (s.link p) = (f s).link p
  records : ∀ s, (f s).records = s.records

theorem Steered.request {f : State → State} (h : Steered f) (t a b : Int) (kmalloc : Bool)
    (s : State) : f (issueRequest t a b kmalloc s).2 = (issueRequest t a b kmalloc (f s)).2 := by
  unfold issueRequest addPassenger
  split_ifs
  · rfl
  · rfl
  · rfl
  · cases unitsOf t with
    | none => exact h.allocate s
    | some units =>
      show f (s.allocate.link _) = (f s).allocate.link _
      rw [h.link, h.allocate, h.records]
  · rfl

theorem steered_startRest (p : Starting) : Steered (startRest p) := by
  cases p <;> exact ⟨fun _ => rfl, fun _ _ => rfl, fun _ => rfl⟩

theorem steered_stopRest (p : Stopping) : Steered (stopRest p) := by
  cases p <;> exact ⟨fun _ => rfl, fun _ _ => rfl, fun _ => rfl⟩

theorem startStatement_some {p q : Starting} {s t : State} (h : startStatement p s = (t, some q)) :
    t.started = s.started ∧ startRest p s = startRest q t := by
  cases p <;> cases h
  · exact ⟨rfl, rfl⟩
  · exact ⟨rfl, rfl⟩

theorem startStatement_none {p : Starting} {s t : State} (h : startStatement p s = (t, none)) :
    startRest p s = t := by
  cases p <;> cases h
  rfl

theorem stopStatement_some {p q : Stopping} {s t : State} (h : stopStatement p s = (t, some q)) :
    t.started = s.started ∧ stopRest p s = stopRest q t := by
  cases p with
  | testUp =>
    simp only [stopStatement, Prod.mk.injEq, Option.some.injEq] at h
    obtain ⟨rfl, rfl⟩ := h
    refine ⟨rfl, ?_⟩
    by_cases hup : s.state = .up <;> simp [stopRest, hup]
  | testDown =>
    simp only [stopStatement, Prod.mk.injEq, Option.some.injEq] at h
    obtain ⟨rfl, rfl⟩ := h
    refine ⟨rfl, ?_⟩
    by_cases hdown : s.state = .down <;> simp [stopRest, hdown]
  | readState =>
    cases h
    exact ⟨rfl, rfl⟩
  | previousState status =>
    cases h
    exact ⟨rfl, rfl⟩
  | state =>
    cases h
    exact ⟨rfl, rfl⟩
  | started => cases h

theorem stopStatement_none {p : Stopping} {s t : State} (h : stopStatement p s = (t, none)) :
    stopRest p s = t := by
  cases p <;> cases h
  rfl

/-! ## The protocol -/

def protocol : Protocol State Other Statement where
  flag := State.started
  first
    | false => Starting.state
    | true => Stopping.testUp
  exec
    | false => startStatement
    | true => stopStatement
  finish
    | false => startRest
    | true => stopRest
  event o s := step o.label s
  Clear o := o.isRequest = true
  keeps := by
    intro b p m m' q h
    cases b with
    | false => exact (startStatement_some h).1
    | true => exact (stopStatement_some h).1
  finish_some := by
    intro b p m m' q h
    cases b with
    | false => exact (startStatement_some h).2
    | true => exact (stopStatement_some h).2
  finish_none := by
    intro b p m m' h
    cases b with
    | false => exact startStatement_none h
    | true => exact stopStatement_none h
  clear_flag := by
    intro o s h
    cases o with
    | sched locks => exact absurd h Bool.false_ne_true
    | request t a b kmalloc =>
      exact congrArg Controls.started (issueRequest_controls t a b kmalloc s)
  clear_finish := by
    intro o kind p s h
    cases o with
    | sched locks => exact absurd h Bool.false_ne_true
    | request t a b kmalloc =>
      cases kind with
      | false => exact (steered_startRest p).request t a b kmalloc s
      | true => exact (steered_stopRest p).request t a b kmalloc s

instance : DecidablePred protocol.Clear := fun o => inferInstanceAs (Decidable (o.isRequest = true))

/-! ## Whole calls -/

section Calls

variable {ι : Type*} (stops : ι → Bool)

/-- The call that `i` makes. -/
def callOf (i : ι) : Call := if stops i then .stop else .start

/-- The step of the model that a call or another event is when it is whole. -/
def labelOf : ι ⊕ Other → Label
  | .inl i => .call (callOf stops i)
  | .inr o => o.label

/-- What a call returns that has entered, and one that has not. -/
def answer (entered : Bool) : Int := if entered then 0 else 1

theorem whole_eq (l : ι ⊕ Other) (s : State) :
    protocol.whole stops l s = step (labelOf stops l) s := by
  cases l with
  | inr o => rfl
  | inl i =>
    show (if s.started = stops i then _ else _) = ((callOf stops i).exec s).2
    cases hi : stops i with
    | false =>
      rw [callOf, hi]
      show _ = (startElevator s).2
      cases hs : s.started with
      | false => simp [startElevator, hs, protocol, startRest]
      | true => simp [startElevator, hs]
    | true =>
      rw [callOf, hi]
      show _ = (stopElevator s).2
      cases hs : s.started with
      | false => simp [stopElevator, hs]
      | true =>
        by_cases hdir : s.state = .up ∨ s.state = .down <;>
          simp [stopElevator, hs, protocol, stopRest, hdir]

theorem answer_eq (i : ι) (s : State) :
    ((callOf stops i).exec s).1 = answer (decide (s.started = stops i)) := by
  cases hi : stops i with
  | false =>
    rw [callOf, hi]
    show (startElevator s).1 = _
    cases hs : s.started <;> simp [startElevator, hs, answer]
  | true =>
    rw [callOf, hi]
    show (stopElevator s).1 = _
    cases hs : s.started <;> simp [stopElevator, hs, answer]

theorem run_whole (ls : List (ι ⊕ Other)) (s : State) :
    run (protocol.whole stops) ls s = run step (ls.map (labelOf stops)) s := by
  induction ls generalizing s with
  | nil => rfl
  | cons l ls ih =>
    rw [run_cons, List.map_cons, run_cons, whole_eq]
    exact ih _

end Calls

/-! ## The results -/

/-- **Starts and stops are atomic** where no two starts and no two stops overlap and the scheduler
runs between them only: for any number of them, statement by statement in any order, at most one is
past its test at any time; each answers what the whole call does after what stands before it in the
history, in which it stands once; and whenever none is past its test, the state is that of the
history, a run of whole calls and steps of the scheduler. -/
theorem calls_atomic {ι : Type*} [DecidableEq ι] {stops : ι → Bool} {ls : List (ι ⊕ Other)}
    {ks : List Label}
    (h : Along protocol.step protocol.Orderly ls
      (start (after ks) : World State Other Statement stops))
    {w : World State Other Statement stops} (hw : w = run protocol.step ls (start (after ks))) :
    (∀ i j, (w.place i).Inside → (w.place j).Inside → i = j) ∧
    (∀ i entered, w.place i = .done entered → ∃ pre post, w.order = pre ++ .inl i :: post ∧
      ((callOf stops i).exec (after (ks ++ pre.map (labelOf stops)))).1 = answer entered) ∧
    (callsOf w.order).Nodup ∧
    ((∀ i, ¬ (w.place i).Inside) → w.memory = after (ks ++ w.order.map (labelOf stops))) := by
  have hinv := linearizable h
  rw [← hw] at hinv
  refine ⟨hinv.alone, ?_, hinv.once, ?_⟩
  · intro i entered hdone
    have hserial := hinv.serial i
    rw [hdone] at hserial
    obtain ⟨pre, post, horder, hentered⟩ := hserial
    refine ⟨pre, post, horder, ?_⟩
    rw [answer_eq, after_append, ← run_whole, hentered]
    rfl
  · intro hout
    rw [after_append, ← run_whole]
    exact hinv.quiet hout

/-- The steps of a start, a request in the middle of it, and a stop beside which a second start asks
in vain. -/
def inTurn : List (Option Bool ⊕ Other) :=
  [.inl (some false), .inl (some false), .inr (.request adult 2 5 true), .inl (some false),
    .inl (some false), .inl none, .inl (some true), .inl none, .inl none, .inl none, .inl none,
    .inr (.sched granted)]

/-- Two starts and a stop. -/
def isStop : Option Bool → Bool := Option.isNone

def worldAfter (ls : List (Option Bool ⊕ Other)) : World State Other Statement isStop :=
  run protocol.step ls (start (after []))

theorem inTurn_orderly : Along protocol.step protocol.Orderly inTurn
    (start (after []) : World State Other Statement isStop) := by
  decide +kernel

theorem inTurn_atomic :
    (worldAfter inTurn).order =
      [.inr (.request adult 2 5 true), .inl (some false), .inl (some true), .inl none,
        .inr (.sched granted)] ∧
    (worldAfter inTurn).memory =
      after ((worldAfter inTurn).order.map (labelOf isStop)) := by
  have hatomic := calls_atomic inTurn_orderly (w := worldAfter inTurn) rfl
  refine ⟨rfl, hatomic.2.2.2 ?_⟩
  decide +kernel

/-- Two starts that both find `started` clear, and a stop between the writes of the second. -/
def overlapping : List (Option Bool ⊕ Other) :=
  [.inl (some false), .inl (some true), .inl (some false), .inl (some false), .inl (some false),
    .inl (some true), .inl (some true), .inl none, .inl none, .inl none, .inl none, .inl none,
    .inl (some true)]

/-- **Starts that overlap can leave the elevator stuck**: all three calls have returned 0, the
elevator is started and `OFFLINE`, so that no start can help, and no run of whole calls comes to
this. -/
theorem overlapping_stuck :
    (∀ i, (worldAfter overlapping).place i = .done true) ∧
    (worldAfter overlapping).memory.started = true ∧
    (worldAfter overlapping).memory.state = .offline ∧
    (startElevator (worldAfter overlapping).memory).1 = 1 ∧
    ∀ ks, after ks ≠ (worldAfter overlapping).memory := by
  have hstarted : (worldAfter overlapping).memory.started = true := by decide +kernel
  have hoffline : (worldAfter overlapping).memory.state = .offline := by decide +kernel
  refine ⟨?_, hstarted, hoffline, ?_, ?_⟩
  · rintro (_ | _ | _) <;> rfl
  · rw [startElevator, if_pos hstarted]
  · intro ks heq
    have hpoised := poised_after ks
    rw [heq] at hpoised
    exact hpoised.running hstarted hoffline

end KernelElevator.Switching
