import KernelElevator.Position

/-!
# One stop at a floor

`unload_elevator` and then `load_elevator`, at the current floor. What boards is a prefix of the
queue: the longest one of which no part overloads the elevator, where those who are already at
their destination weigh nothing. The loop stops at the first passenger who does not fit, so that
nobody behind is served either.

* `Boardable`, `LongestBoardable` — the prefix, without the code's counters.
* `taken_longest` — it is the part of the queue that `load_elevator` takes.
* `stopAt_spec` — what one stop does, and that a second one does nothing.
-/

namespace KernelElevator

open Delivery (weigh weigh_cons weigh_nil)

/-- The stop of the service branch at `floor`. -/
def stopAt (floor : Int) (s : State) : State := (loadElevator floor (unloadElevator floor s).2).2

/-- No prefix of `ps` overloads an elevator that carries `weight` and `units`. -/
def Boardable (weight units : Int) (ps : List Passenger) : Prop :=
  ∀ pre, pre <+: ps →
    weight + weigh Passenger.weightUnits (pre.filter (·.state ≠ .equal)) ≤ maxWeight ∧
    units + weigh Passenger.spaceUnits (pre.filter (·.state ≠ .equal)) ≤ maxUnits

/-- `ps` is the longest boardable prefix of `q`. -/
structure LongestBoardable (weight units : Int) (q ps : List Passenger) : Prop where
  isPrefix : ps <+: q
  boardable : Boardable weight units ps
  longest : ∀ ps', ps' <+: q → Boardable weight units ps' → ps' <+: ps

/-! ## The prefix that `load_elevator` takes -/

section Taken

variable {weight units : Int} {p : Passenger} {ps : List Passenger}

theorem Boardable.fits (h : Boardable weight units ps) : weight ≤ maxWeight ∧ units ≤ maxUnits := by
  simpa using h [] List.nil_prefix

theorem boardable_nil (hw : weight ≤ maxWeight) (hu : units ≤ maxUnits) :
    Boardable weight units [] := by
  intro pre hpre
  rw [List.prefix_nil.1 hpre]
  simpa using ⟨hw, hu⟩

/-- Somebody who is at its destination weighs nothing. -/
theorem boardable_equal (he : p.state = .equal) :
    Boardable weight units (p :: ps) ↔ Boardable weight units ps := by
  constructor
  · intro h pre hpre
    simpa [he] using h (p :: pre) (List.cons_prefix_cons.2 ⟨rfl, hpre⟩)
  · intro h pre hpre
    rcases List.prefix_cons_iff.1 hpre with rfl | ⟨pre', rfl, hpre'⟩
    · exact h [] List.nil_prefix
    · simpa [he] using h pre' hpre'

theorem boardable_cons (he : p.state ≠ .equal) :
    Boardable weight units (p :: ps) ↔ (weight ≤ maxWeight ∧ units ≤ maxUnits) ∧
      Boardable (weight + p.weightUnits) (units + p.spaceUnits) ps := by
  constructor
  · intro h
    refine ⟨h.fits, ?_⟩
    intro pre hpre
    simpa [he, add_assoc] using h (p :: pre) (List.cons_prefix_cons.2 ⟨rfl, hpre⟩)
  · intro h pre hpre
    rcases List.prefix_cons_iff.1 hpre with rfl | ⟨pre', rfl, hpre'⟩
    · simpa using h.1
    · simpa [he, add_assoc] using h.2 pre' hpre'

theorem taken_isPrefix (q : List Passenger) (weight units : Int) : taken weight units q <+: q := by
  induction q generalizing weight units with
  | nil => exact List.nil_prefix
  | cons p q ih =>
    rw [taken]
    split_ifs
    · exact List.cons_prefix_cons.2 ⟨rfl, ih _ _⟩
    · exact List.cons_prefix_cons.2 ⟨rfl, ih _ _⟩
    · exact List.nil_prefix

theorem taken_boardable (q : List Passenger) (hw : weight ≤ maxWeight) (hu : units ≤ maxUnits) :
    Boardable weight units (taken weight units q) := by
  induction q generalizing weight units with
  | nil => exact boardable_nil hw hu
  | cons p q ih =>
    rw [taken]
    split_ifs with he hfits
    · exact (boardable_equal he).2 (ih hw hu)
    · exact (boardable_cons he).2 ⟨⟨hw, hu⟩, ih hfits.1 hfits.2⟩
    · exact boardable_nil hw hu

theorem Boardable.prefix_taken {q : List Passenger} (hpre : ps <+: q)
    (h : Boardable weight units ps) : ps <+: taken weight units q := by
  induction q generalizing weight units ps with
  | nil =>
    rw [List.prefix_nil.1 hpre]
    exact List.nil_prefix
  | cons p q ih =>
    rcases List.prefix_cons_iff.1 hpre with rfl | ⟨ps', rfl, hpre'⟩
    · exact List.nil_prefix
    · by_cases he : p.state = .equal
      · rw [taken, if_pos he]
        exact List.cons_prefix_cons.2 ⟨rfl, ih hpre' ((boardable_equal he).1 h)⟩
      · -- The head of the prefix fits, since the prefix of one overloads nothing.
        have hrest := ((boardable_cons he).1 h).2
        rw [taken, if_neg he, if_pos hrest.fits]
        exact List.cons_prefix_cons.2 ⟨rfl, ih hpre' hrest⟩

/-- **`load_elevator` takes the longest boardable prefix.** -/
theorem taken_longest (q : List Passenger) (hw : weight ≤ maxWeight) (hu : units ≤ maxUnits) :
    LongestBoardable weight units q (taken weight units q) := by
  refine ⟨taken_isPrefix q _ _, taken_boardable q hw hu, ?_⟩
  intro ps' hpre hboard
  exact hboard.prefix_taken hpre

end Taken

/-! ## A second stop -/

theorem unloadLoop_of_none {floor : Int} {ps : List Passenger} (s : State)
    (h : ∀ p ∈ ps, p.destinationFloor ≠ floor) : unloadLoop floor ps s = s := by
  induction ps with
  | nil => rfl
  | cons p ps ih =>
    rw [unloadLoop, if_neg (h p List.mem_cons_self)]
    exact ih fun q hq => h q (List.mem_cons_of_mem p hq)

theorem unloadElevator_of_none {s : State}
    (h : ∀ p ∈ s.onboard, p.destinationFloor ≠ s.currentFloor) :
    (unloadElevator s.currentFloor s).2 = s := by
  rw [unloadElevator, if_neg (not_not.2 rfl)]
  exact unloadLoop_of_none s h

/-- The head of the queue, if there is one, cannot be taken. -/
def Blocked (floor : Int) (s : State) : Prop :=
  ∀ p ∈ (s.queue floor).head?, p.state ≠ .equal ∧ ¬ Fits s p

theorem loadLoop_blocked {floor : Int} (ps : List Passenger) {s : State}
    (hq : s.queue floor = ps) : Blocked floor (loadLoop floor ps s).2 := by
  induction ps generalizing s with
  | nil =>
    intro p hp
    rw [loadLoop, hq] at hp
    cases hp
  | cons p ps ih =>
    by_cases he : p.state = .equal
    · rw [loadLoop, if_pos he]
      exact ih (queue_serveHere hq)
    · by_cases hfits : Fits s p
      · rw [loadLoop, if_neg he, if_pos hfits]
        exact ih (queue_board hq)
      · rw [loadLoop, if_neg he, if_neg hfits]
        intro p' hp'
        rw [hq] at hp'
        cases hp'
        exact ⟨he, hfits⟩

theorem loadElevator_blocked (s : State) :
    Blocked s.currentFloor (loadElevator s.currentFloor s).2 := by
  by_cases hq : s.queue s.currentFloor = []
  · rw [loadElevator_empty hq]
    intro p hp
    have hp : p ∈ (s.queue s.currentFloor).head? := hp
    rw [hq] at hp
    cases hp
  · rw [loadElevator_queue hq]
    exact loadLoop_blocked _ rfl

theorem loadElevator_of_blocked {s : State} (h : Blocked s.currentFloor s) :
    (loadElevator s.currentFloor s).2 = { s with log := s.log ++ [.opened s.currentFloor] } := by
  cases hq : s.queue s.currentFloor with
  | nil => rw [loadElevator_empty hq]
  | cons p ps =>
    obtain ⟨he, hfits⟩ := h p (by rw [hq]; rfl)
    rw [loadElevator_queue (by simp [hq]), hq, loadLoop, if_neg he]
    exact congrArg Prod.snd (if_neg hfits)

/-! ## One stop -/

/-- Those on board who do not get off at floor `k`. -/
def staying (k : Fin 10) (s : State) : List Passenger :=
  s.onboard.filter (·.destinationFloor ≠ floorOf k)

/-- How many the stop serves: those on board for floor `k`, and those of the part `ps` of its queue
that are at their destination. -/
def servedBy (k : Fin 10) (s : State) (ps : List Passenger) : Nat :=
  s.onboard.countP (·.destinationFloor = floorOf k) + ps.countP (·.state = .equal)

/-- What a stop at floor `k` makes of `s`, if `ps` is what leaves the queue. -/
structure Stop (k : Fin 10) (s t : State) (ps : List Passenger) : Prop where
  longest : LongestBoardable (weigh Passenger.weightUnits (staying k s))
    (weigh Passenger.spaceUnits (staying k s)) (s.floors k) ps
  onboard : t.onboard = staying k s ++ ps.filter (·.state ≠ .equal)
  floors : ∃ rest, s.floors k = ps ++ rest ∧ t.floors = Function.update s.floors k rest
  served : t.served = Function.update s.served k (s.served k + servedBy k s ps)
  totalServed : t.totalServed = s.totalServed + servedBy k s ps
  /-- Nobody is left on board for this floor. -/
  nobody : ∀ p ∈ t.onboard, p.destinationFloor ≠ floorOf k
  /-- The same again leaves only its entry in the history. -/
  again : stopAt (floorOf k) t = { t with log := t.log ++ [.opened (floorOf k)] }

theorem floors_of_queue {s t : State} {k : Fin 10} {q : List Passenger}
    (h : t.queue = Function.update s.queue (floorOf k) q) :
    t.floors = Function.update s.floors k q := by
  funext j
  have hj := congrFun h (floorOf j)
  rw [State.queue, getQueue_floorOf] at hj
  rw [hj]
  by_cases hjk : j = k
  · rw [hjk, Function.update_self, Function.update_self]
  · have hne : floorOf j ≠ floorOf k := fun heq => hjk (floorOf_inj heq)
    rw [Function.update_of_ne hne, Function.update_of_ne hjk, State.queue, getQueue_floorOf]

/-- Everybody waiting at the floor who boards has a way to go. -/
theorem Accounting.destination_ne {s : State} (h : Accounting s) {k : Fin 10} {p : Passenger}
    (hp : p ∈ s.floors k) (he : p.state ≠ .equal) : p.destinationFloor ≠ floorOf k := by
  obtain ⟨hwf, hstart⟩ := h.queued k p hp
  intro hd
  exact he (hwf.state_eq_equal.2 (hstart.trans hd.symm))

/-- **One stop at a floor.** -/
theorem stopAt_spec {s : State} {k : Fin 10} (hacc : Accounting s)
    (hf : s.currentFloor = floorOf k) : ∃ ps, Stop k s (stopAt (floorOf k) s) ps := by
  obtain ⟨hon, hfloors, -, htotal⟩ := unload_spec s
  have hserved := unload_served s
  have hacu := accounting_effects (unloadElevator_effects s.currentFloor s) hacc
  have huf := unloadElevator_currentFloor s.currentFloor s
  rw [hf] at hon hfloors htotal hserved hacu huf
  rw [stopAt]
  generalize (unloadElevator (floorOf k) s).2 = u at *
  obtain ⟨hon', hqueue, -, htotal'⟩ := load_spec u
  have hserved' := load_served u
  have hblocked := loadElevator_blocked u
  have htf := loadElevator_currentFloor u.currentFloor u
  rw [huf] at hon' hqueue htotal' hserved' hblocked htf
  generalize (loadElevator (floorOf k) u).2 = t at *
  have hq : u.queue (floorOf k) = s.floors k := by rw [State.queue, getQueue_floorOf, hfloors]
  have hstay : u.onboard = staying k s := hon
  have hlongest : LongestBoardable (weigh Passenger.weightUnits (staying k s))
      (weigh Passenger.spaceUnits (staying k s)) (s.floors k) (takenHere u) := by
    rw [takenHere, huf, hq, ← hstay, ← hacu.weight, ← hacu.units]
    exact taken_longest _ hacu.weight_le hacu.units_le
  obtain ⟨rest, hrest⟩ := hlongest.isPrefix
  have hnobody : ∀ p ∈ t.onboard, p.destinationFloor ≠ floorOf k := by
    intro p hp
    rw [hon', hstay] at hp
    rcases List.mem_append.1 hp with hp | hp
    · simpa using List.of_mem_filter hp
    · obtain ⟨hp, he⟩ := List.mem_filter.1 hp
      exact hacc.destination_ne (hlongest.isPrefix.subset hp) (by simpa using he)
  refine ⟨takenHere u, hlongest, by rw [hon', hstay], ⟨rest, hrest.symm, ?_⟩, ?_, ?_, hnobody, ?_⟩
  · rw [hq, ← hrest, List.drop_left] at hqueue
    rw [floors_of_queue hqueue, hfloors]
  · funext j
    rw [hserved', hserved, servedBy, Function.update_apply]
    by_cases hj : j = k
    · subst hj
      push_cast
      simp [add_assoc]
    · have hne : floorOf j ≠ floorOf k := fun heq => hj (floorOf_inj heq)
      simp [hj, hne]
  · rw [htotal', htotal, servedBy]
    push_cast
    exact add_assoc _ _ _
  · -- Nobody gets off, and the head of the queue is still blocked.
    rw [← htf] at hnobody hblocked ⊢
    rw [stopAt, unloadElevator_of_none hnobody]
    exact loadElevator_of_blocked hblocked

/-- Four bellhops weigh too much together; the visitor behind the third is served, and the one
behind the fourth is not. -/
def crowd : List Label :=
  [.call (.request bellhop 1 5 true), .call (.request bellhop 1 5 true),
    .call (.request bellhop 1 7 true), .call (.request adult 1 1 true),
    .call (.request bellhop 1 5 true), .call (.request adult 1 1 true), .call .start]

theorem crowd_stop : ∃ ps, Stop 0 (after crowd) (stopAt (floorOf 0) (after crowd)) ps :=
  stopAt_spec (accounting_after crowd) (by decide)

example : ((stopAt 1 (after crowd)).onboard.length, (stopAt 1 (after crowd)).totalServed,
    ((stopAt 1 (after crowd)).floors 0).length) = (3, 1, 2) := by decide

end KernelElevator
