import KernelElevator.Effects

/-!
# What a request's answer says

`issue_request` checks its three arguments, calls `add_passenger` and answers 0, whatever
`add_passenger` returned. So 0 means that a passenger waits, unless `kmalloc` failed:
`answer_truthful_iff`.
-/

namespace KernelElevator

/-- What `issue_request` accepts. -/
structure ValidRequest (type start dest : Int) : Prop where
  type : 1 ≤ type ∧ type ≤ 4
  start : 1 ≤ start ∧ start ≤ 10
  dest : 1 ≤ dest ∧ dest ≤ 10

/-- The record says which way the passenger goes. -/
def Passenger.Directed (p : Passenger) : Prop :=
  (p.destinationFloor < p.startFloor → p.state = .down) ∧
  (p.startFloor < p.destinationFloor → p.state = .up) ∧
  (p.startFloor = p.destinationFloor → p.state = .equal)

/-- `t` is `s` with one more passenger, at the tail of the queue of its floor. -/
structure Queues (type start dest : Int) (s t : State) : Prop where
  /-- The new passenger. -/
  tail : ∃ p : Passenger, p.type = type ∧ p.startFloor = start ∧ p.destinationFloor = dest ∧
    unitsOf type = some (p.weightUnits, p.spaceUnits) ∧ p.Directed ∧
    t.queue start = s.queue start ++ [p]
  others : ∀ k, floorOf k ≠ start → t.floors k = s.floors k
  /-- Nothing else has changed; the record is a new one, and its linking is in the log. -/
  rest : { t with floors := s.floors, records := s.records, live := s.live, log := s.log } = s

/-- The answer is 0 just when the passenger has been queued, and an invalid request or a failed
allocation is answered by something else and leaves no trace. -/
structure Truthful (type start dest : Int) (kmalloc : Bool) (s : State) : Prop where
  zero : (issueRequest type start dest kmalloc s).1 = 0 ↔
    Queues type start dest s (issueRequest type start dest kmalloc s).2
  refused : ¬ ValidRequest type start dest ∨ kmalloc = false →
    (issueRequest type start dest kmalloc s).1 ≠ 0 ∧
      (issueRequest type start dest kmalloc s).2 = s

theorem directed_directionOf {p : Passenger}
    (h : p.state = directionOf p.startFloor p.destinationFloor) : p.Directed := by
  rw [Passenger.Directed, h, directionOf]
  refine ⟨?_, ?_, ?_⟩
  · intro hlt
    rw [if_pos (by omega)]
  · intro hlt
    rw [if_neg (by omega), if_pos (by omega)]
  · intro heq
    rw [if_neg (by omega), if_neg (by omega)]

section

variable {type start dest : Int} (s : State)

/-- A queue that has got longer is not the same. -/
theorem Queues.ne {s t : State} (h : Queues type start dest s t) : t ≠ s := by
  rintro rfl
  obtain ⟨p, -, -, -, -, -, hqueue⟩ := h.tail
  simpa using congrArg List.length hqueue

theorem issueRequest_invalid (h : ¬ ValidRequest type start dest) (kmalloc : Bool) :
    issueRequest type start dest kmalloc s = (1, s) := by
  unfold issueRequest
  split_ifs with ht hs hd
  · rfl
  · rfl
  · rfl
  · exact absurd ⟨by omega, by omega, by omega⟩ h

theorem issueRequest_valid (h : ValidRequest type start dest) (kmalloc : Bool) :
    issueRequest type start dest kmalloc s = (0, (addPassenger type start dest kmalloc s).2) := by
  obtain ⟨ht, hs, hd⟩ := h
  rw [issueRequest, if_neg (by omega), if_neg (by omega), if_neg (by omega)]

/-- The allocation has failed, and the answer is still 0. -/
theorem issueRequest_no_memory (h : ValidRequest type start dest) :
    issueRequest type start dest false s = (0, s) :=
  issueRequest_valid s h false

theorem queues_of_valid (h : ValidRequest type start dest) :
    Queues type start dest s (issueRequest type start dest true s).2 := by
  obtain ⟨⟨weight, space⟩, hunits⟩ := exists_unitsOf h.type
  rw [issueRequest_valid s h]
  simp only [addPassenger, hunits, if_true]
  set p : Passenger := ⟨s.records, weight, space, start, dest, type, directionOf start dest⟩
  have hqueue : (s.allocate.link p).queue =
      Function.update s.queue start (s.queue start ++ [p]) :=
    getQueue_putQueue s.floors h.start _
  refine ⟨⟨p, rfl, rfl, rfl, hunits, directed_directionOf rfl, ?_⟩, ?_, rfl⟩
  · rw [hqueue, Function.update_self]
  · intro k hk
    have hk' : (s.allocate.link p).queue (floorOf k) = s.queue (floorOf k) := by
      rw [hqueue, Function.update_of_ne hk]
    rwa [State.queue, State.queue, getQueue_floorOf, getQueue_floorOf] at hk'

/-- **The answer is truthful if and only if the request is invalid or `kmalloc` succeeds.** -/
theorem answer_truthful_iff (type start dest : Int) (kmalloc : Bool) (s : State) :
    Truthful type start dest kmalloc s ↔ ¬ ValidRequest type start dest ∨ kmalloc = true := by
  constructor
  · intro htrue
    by_contra hno
    obtain ⟨hvalid, hfail⟩ := not_or.1 hno
    have hfail : kmalloc = false := by simpa using hfail
    have hzero := (htrue.refused (.inr hfail)).1
    rw [issueRequest_valid s (not_not.1 hvalid)] at hzero
    exact hzero rfl
  · intro hcase
    by_cases hvalid : ValidRequest type start dest
    · obtain rfl : kmalloc = true := hcase.resolve_left (not_not.2 hvalid)
      refine ⟨?_, ?_⟩
      · have hzero : (issueRequest type start dest true s).1 = 0 := by
          rw [issueRequest_valid s hvalid]
        exact iff_of_true hzero (queues_of_valid s hvalid)
      · intro hno
        rcases hno with hno | hno
        · exact absurd hvalid hno
        · cases hno
    · have hsame := issueRequest_invalid s hvalid kmalloc
      refine ⟨?_, ?_⟩
      · rw [hsame]
        exact iff_of_false (by simp) fun hqueues => hqueues.ne rfl
      · intro _
        rw [hsame]
        exact ⟨by simp, rfl⟩

end

/-- `kmalloc` fails for an adult who asks for a ride from floor 1 to floor 2. -/
theorem noMemory_answered_zero : ¬ Truthful adult 1 2 false elevatorInit := by
  intro htrue
  have hrefused := (htrue.refused (.inr rfl)).1
  exact absurd hrefused (by decide)

end KernelElevator
