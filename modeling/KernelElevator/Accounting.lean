import KernelElevator.Effects
import KernelElevator.Library.Delivery

/-!
# Load accounting and capacity

The counters of the elevator are kept by increments while the list of those on board is the truth.
`Accounting` ties the two together, and says what every record on a list looks like; every effect
keeps it, so it holds in every state of every run.
-/

namespace KernelElevator

open Delivery (weigh weigh_append weigh_erase weigh_cons weigh_nil)

/-- How many `CHILD` passengers are on the list. -/
def children (ps : List Passenger) : Int := weigh (fun p => if p.type = child then 1 else 0) ps

/-- The counters are the sums over `onboard`. -/
structure Counted (s : State) : Prop where
  weight : s.currentWeight = weigh Passenger.weightUnits s.onboard
  units : s.currentUnits = weigh Passenger.spaceUnits s.onboard
  oddChildren : s.oddChildren = children s.onboard

/-- The counters are the sums over `onboard`, within capacity, and every record is well formed. -/
structure Accounting (s : State) : Prop where
  weight : s.currentWeight = weigh Passenger.weightUnits s.onboard
  units : s.currentUnits = weigh Passenger.spaceUnits s.onboard
  oddChildren : s.oddChildren = children s.onboard
  weight_le : s.currentWeight ≤ maxWeight
  units_le : s.currentUnits ≤ maxUnits
  queued : ∀ k, ∀ p ∈ s.floors k, p.WellFormed ∧ p.startFloor = floorOf k
  riding : ∀ p ∈ s.onboard, p.WellFormed ∧ p.startFloor ≠ p.destinationFloor

/-! ## Well-formed records -/

theorem unitsOf_cases {type w u : Int} (h : unitsOf type = some (w, u)) :
    (type = adult ∧ w = 2 ∧ u = 1) ∨ (type = child ∧ w = 1 ∧ u = 1) ∨
      (type = rs ∧ w = 4 ∧ u = 2) ∨ (type = bellhop ∧ w = 8 ∧ u = 2) := by
  unfold unitsOf at h
  split_ifs at h with h1 h2 h3 h4 <;> cases h
  · exact .inl ⟨h1, rfl, rfl⟩
  · exact .inr (.inl ⟨h2, rfl, rfl⟩)
  · exact .inr (.inr (.inl ⟨h3, rfl, rfl⟩))
  · exact .inr (.inr (.inr ⟨h4, rfl, rfl⟩))

theorem Passenger.WellFormed.units_bounds {p : Passenger} (h : p.WellFormed) :
    1 ≤ p.weightUnits ∧ p.weightUnits ≤ 8 ∧ 1 ≤ p.spaceUnits ∧ p.spaceUnits ≤ 2 := by
  rcases unitsOf_cases h.units with ⟨-, hw, hu⟩ | ⟨-, hw, hu⟩ | ⟨-, hw, hu⟩ | ⟨-, hw, hu⟩ <;>
    rw [hw, hu] <;> decide

theorem Passenger.WellFormed.state_eq_equal {p : Passenger} (h : p.WellFormed) :
    p.state = .equal ↔ p.startFloor = p.destinationFloor := by
  rw [h.state, directionOf_eq_equal]

/-! ## Sums over a list -/

theorem length_le_weigh {w : Passenger → Int} {ps : List Passenger} (hw : ∀ p ∈ ps, 1 ≤ w p) :
    (ps.length : Int) ≤ weigh w ps := by
  induction ps with
  | nil => simp
  | cons p ps ih =>
    have hp := hw p List.mem_cons_self
    have hps := ih fun q hq => hw q (List.mem_cons_of_mem _ hq)
    rw [weigh_cons, List.length_cons]
    omega

theorem children_eq_countP (ps : List Passenger) :
    children ps = (ps.countP (·.type = child) : Nat) := by
  induction ps with
  | nil => rfl
  | cons p ps ih =>
    rw [children] at ih ⊢
    rw [weigh_cons, ih, List.countP_cons]
    by_cases hp : p.type = child <;> simp [hp]
    omega

/-! ## Queues -/

theorem mem_getQueue {floors : Fin 10 → List Passenger} {floor : Int} {p : Passenger}
    (h : p ∈ getQueue floors floor) : ∃ k, floor = floorOf k ∧ p ∈ floors k := by
  have hf := bounds_of_getQueue floors (List.ne_nil_of_mem h)
  obtain ⟨k, hk⟩ := slot_eq_some hf
  obtain rfl := floorOf_of_slot hk
  exact ⟨k, rfl, by simpa using h⟩

theorem mem_putQueue {floors : Fin 10 → List Passenger} {floor : Int} {q : List Passenger}
    {k : Fin 10} {p : Passenger} (h : p ∈ putQueue floors floor q k) :
    (floor = floorOf k ∧ p ∈ q) ∨ p ∈ floors k := by
  cases hj : slot floor with
  | none =>
    simp only [putQueue, hj] at h
    exact .inr h
  | some j =>
    simp only [putQueue, hj, Function.update_apply] at h
    split_ifs at h with hkj
    · exact .inl ⟨(floorOf_of_slot hj).symm.trans (by rw [hkj]), h⟩
    · exact .inr h

theorem mem_of_mem_erase_queue {s : State} {floor : Int} {k : Fin 10} {p q : Passenger}
    (h : q ∈ putQueue s.floors floor ((s.queue floor).erase p) k) : q ∈ s.floors k := by
  rcases mem_putQueue h with ⟨rfl, hq⟩ | hq
  · simpa [State.queue] using List.mem_of_mem_erase hq
  · exact hq

/-! ## The invariant -/

theorem accounting_init : Accounting elevatorInit where
  weight := rfl
  units := rfl
  oddChildren := rfl
  weight_le := by decide
  units_le := by decide
  queued := fun _ _ h => absurd h List.not_mem_nil
  riding := fun _ h => absurd h List.not_mem_nil

theorem Accounting.of_queue {s : State} (h : Accounting s) {floor : Int} {p : Passenger}
    (hp : p ∈ s.queue floor) : p.WellFormed ∧ p.startFloor = floor := by
  obtain ⟨k, rfl, hk⟩ := mem_getQueue hp
  exact h.queued k p hk

theorem accounting_admitted {s : State} (h : Accounting s) {p : Passenger} (hp : p.WellFormed) :
    Accounting (s.allocate.link p) where
  weight := h.weight
  units := h.units
  oddChildren := h.oddChildren
  weight_le := h.weight_le
  units_le := h.units_le
  queued := by
    intro k q hq
    rcases mem_putQueue hq with ⟨hf, hq⟩ | hq
    · rcases List.mem_append.1 hq with hq | hq
      · exact ⟨(h.of_queue hq).1, (h.of_queue hq).2.trans hf⟩
      · rw [List.mem_singleton.1 hq]
        exact ⟨hp, hf⟩
    · exact h.queued k q hq
  riding := h.riding

theorem Accounting.counted {s : State} (h : Accounting s) : Counted s :=
  ⟨h.weight, h.units, h.oddChildren⟩

theorem counted_boarded {s : State} (h : Counted s) (floor : Int) (p : Passenger) :
    Counted (s.board floor p) where
  weight := by
    show s.currentWeight + p.weightUnits = weigh _ (s.onboard ++ [p])
    rw [weigh_append, weigh_cons, weigh_nil, add_zero, h.weight]
  units := by
    show s.currentUnits + p.spaceUnits = weigh _ (s.onboard ++ [p])
    rw [weigh_append, weigh_cons, weigh_nil, add_zero, h.units]
  oddChildren := by
    show (if p.type = child then s.oddChildren + 1 else s.oddChildren) = children (s.onboard ++ [p])
    rw [children, weigh_append, weigh_cons, weigh_nil, ← children, ← h.oddChildren]
    split_ifs <;> omega

theorem counted_letOff {s : State} (h : Counted s) {p : Passenger} (hp : p ∈ s.onboard)
    (floor : Int) : Counted (s.letOff floor p) where
  weight := by
    show s.currentWeight - p.weightUnits = weigh _ (s.onboard.erase p)
    rw [h.weight, weigh_erase _ hp, add_sub_cancel_left]
  units := by
    show s.currentUnits - p.spaceUnits = weigh _ (s.onboard.erase p)
    rw [h.units, weigh_erase _ hp, add_sub_cancel_left]
  oddChildren := by
    show (if p.type = child then s.oddChildren - 1 else s.oddChildren) =
      children (s.onboard.erase p)
    rw [h.oddChildren, children, weigh_erase _ hp, ← children]
    split_ifs <;> omega

theorem counted_effect {s s' : State} (heff : Effect s s') (h : Counted s) : Counted s' := by
  cases heff with
  | control => exact { h with }
  | opened => exact { h with }
  | admitted p _ hp => exact { h with }
  | boarded p rest hq hne hfits => exact counted_boarded h _ p
  | servedHere p rest hq he => exact { h with }
  | letOff p hp hd => exact counted_letOff h hp _

theorem accounting_boarded {s : State} (h : Accounting s) {p : Passenger} {floor : Int}
    (hp : p ∈ s.queue floor) (hne : p.state ≠ .equal) (hfits : Fits s p) :
    Accounting (s.board floor p) where
  weight := (counted_boarded h.counted floor p).weight
  units := (counted_boarded h.counted floor p).units
  oddChildren := (counted_boarded h.counted floor p).oddChildren
  weight_le := hfits.1
  units_le := hfits.2
  queued := fun k q hq => h.queued k q (mem_of_mem_erase_queue hq)
  riding := by
    intro q hq
    have hwf := (h.of_queue hp).1
    rcases List.mem_append.1 hq with hq | hq
    · exact h.riding q hq
    · rw [List.mem_singleton.1 hq]
      exact ⟨hwf, fun heq => hne (hwf.state_eq_equal.2 heq)⟩

theorem accounting_servedHere {s : State} (h : Accounting s) (p : Passenger) (floor : Int) :
    Accounting (s.serveHere floor p) :=
  { h with queued := fun k q hq => h.queued k q (mem_of_mem_erase_queue hq) }

theorem accounting_letOff {s : State} (h : Accounting s) {p : Passenger} (hp : p ∈ s.onboard)
    (floor : Int) : Accounting (s.letOff floor p) where
  weight := (counted_letOff h.counted hp floor).weight
  units := (counted_letOff h.counted hp floor).units
  oddChildren := (counted_letOff h.counted hp floor).oddChildren
  weight_le := by
    have hpos := (h.riding p hp).1.units_bounds
    have hle := h.weight_le
    show s.currentWeight - p.weightUnits ≤ maxWeight
    omega
  units_le := by
    have hpos := (h.riding p hp).1.units_bounds
    have hle := h.units_le
    show s.currentUnits - p.spaceUnits ≤ maxUnits
    omega
  queued := h.queued
  riding := fun q hq => h.riding q (List.mem_of_mem_erase hq)

theorem accounting_effect {s s' : State} (heff : Effect s s') (h : Accounting s) :
    Accounting s' := by
  cases heff with
  | control => exact { h with }
  | opened => exact { h with }
  | admitted p _ hp => exact accounting_admitted h hp
  | boarded p rest hq hne hfits =>
    exact accounting_boarded h (hq ▸ List.mem_cons_self) hne hfits
  | servedHere p rest hq he => exact accounting_servedHere h p _
  | letOff p hp hd => exact accounting_letOff h hp _

theorem accounting_effects {s t : State} (h : Effects s t) (hs : Accounting s) : Accounting t :=
  of_effects (fun _ _ => accounting_effect) h hs

theorem accounting_step (l : Label) {s : State} (h : Accounting s) : Accounting (step l s) :=
  accounting_effects (step_effects l s) h

/-- The accounting holds in every state of every run. -/
theorem accounting_after (ls : List Label) : Accounting (after ls) :=
  run_of_effect (fun _ _ => accounting_effect) ls accounting_init

/-! ## What the accounting says of the load -/

theorem Accounting.length_le {s : State} (h : Accounting s) :
    (s.onboard.length : Int) ≤ s.currentUnits := by
  rw [h.units]
  exact length_le_weigh fun p hp => (h.riding p hp).1.units_bounds.2.2.1

theorem Accounting.weight_nonneg {s : State} (h : Accounting s) : 0 ≤ s.currentWeight := by
  have hlen := length_le_weigh fun p hp => (h.riding p hp).1.units_bounds.1
  rw [h.weight]
  omega

theorem Accounting.units_nonneg {s : State} (h : Accounting s) : 0 ≤ s.currentUnits :=
  (Int.natCast_nonneg _).trans h.length_le

/-- Anybody fits in an empty elevator. -/
theorem Accounting.fits_of_empty {s : State} (h : Accounting s) (hon : s.onboard = [])
    {p : Passenger} (hp : p.WellFormed) : Fits s p := by
  have hw := h.weight
  have hu := h.units
  have hb := hp.units_bounds
  rw [hon, weigh_nil] at hw hu
  simp only [Fits, maxWeight, maxUnits]
  omega

/-- **Load accounting and capacity.** In every state of every run the counters are the sums over
those on board and within capacity; everybody queued waits at its own floor for a floor of the
building, with the weight and space of its type; and everybody on board has a way to go. -/
theorem load_accounting (ls : List Label) :
    (after ls).currentWeight = ((after ls).onboard.map Passenger.weightUnits).sum ∧
    (after ls).currentUnits = ((after ls).onboard.map Passenger.spaceUnits).sum ∧
    (after ls).oddChildren = ((after ls).onboard.countP (·.type = child) : Nat) ∧
    (0 ≤ (after ls).currentWeight ∧ (after ls).currentWeight ≤ maxWeight) ∧
    (0 ≤ (after ls).currentUnits ∧ (after ls).currentUnits ≤ maxUnits) ∧
    (∀ k : Fin 10, ∀ p ∈ (after ls).floors k, p.startFloor = (k : Int) + 1 ∧
      (1 ≤ p.destinationFloor ∧ p.destinationFloor ≤ 10) ∧
      unitsOf p.type = some (p.weightUnits, p.spaceUnits)) ∧
    ∀ p ∈ (after ls).onboard, p.startFloor ≠ p.destinationFloor := by
  have h := accounting_after ls
  refine ⟨h.weight, h.units, ?_, ⟨h.weight_nonneg, h.weight_le⟩, ⟨h.units_nonneg, h.units_le⟩,
    fun k p hp => ?_, fun p hp => (h.riding p hp).2⟩
  · rw [h.oddChildren, children_eq_countP]
  · obtain ⟨hwf, hstart⟩ := h.queued k p hp
    exact ⟨hstart, hwf.destination, hwf.units⟩

end KernelElevator
