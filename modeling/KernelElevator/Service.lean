import KernelElevator.Accounting
import Mathlib.Algebra.BigOperators.Fin

/-!
# The elevator is a delivery service

The passengers' history, read as arrivals, boardings, services and deliveries, is a history of
`Delivery`: the module refines the abstract pickup-and-delivery service, for every run. What the
service guarantees holds of the elevator: everybody accepted is in exactly one place, each floor
is a FIFO queue, and `onboard` is in boarding order.
-/

namespace KernelElevator

open Delivery
open scoped List

/-- What an event is to the delivery service; floors are named by their number. -/
def actOf : Event → Option (Act Int Passenger)
  | .linked p => some (.arrive p.startFloor p)
  | .opened _ => none
  | .boarded floor p => some (.board floor p)
  | .servedHere floor p => some (.serve floor p)
  | .unloaded _ p => some (.deliver p)
  | .freed _ => none

def acts (log : List Event) : List (Act Int Passenger) := log.filterMap actOf

@[simp] theorem acts_snoc (log : List Event) (e : Event) :
    acts (log ++ [e]) = acts log ++ (actOf e).toList :=
  filterMap_snoc _ _ _

namespace State

/-- The abstract state: the queue of each floor, and those on board. -/
def site (s : State) : Site Int Passenger := ⟨s.queue, s.onboard⟩

/-- Everybody `add_passenger` linked, in order. -/
def accepted (s : State) : List Passenger := arrived (acts s.log)

/-- Everybody served, in order. -/
def done (s : State) : List Passenger := Delivery.done (acts s.log)

/-- Everybody accepted at `floor`, in the order of the `list_add_tail`s. -/
def acceptedAt (floor : Int) (s : State) : List Passenger := arrivedAt floor (acts s.log)

/-- Everybody that `load_elevator` took from the queue of `floor`, in that order. -/
def takenAt (floor : Int) (s : State) : List Passenger := leftAt floor (acts s.log)

/-- Everybody that boarded, in order. -/
def boardings (s : State) : List Passenger := boarded (acts s.log)

/-- Everybody that `unload_elevator` let off. -/
def unloadings (s : State) : List Passenger := delivered (acts s.log)

end State

/-- The floor an event records is the one it should happen at. -/
def Event.AtItsFloor : Event → Prop
  | .boarded floor p => floor = p.startFloor
  | .servedHere floor p => floor = p.destinationFloor ∧ p.startFloor = p.destinationFloor
  | .unloaded floor p => floor = p.destinationFloor
  | _ => True

/-- The module has served as a delivery service, and its counters say so. -/
structure Serves (s : State) : Prop where
  accounting : Accounting s
  history : History (acts s.log) s.site
  ids : ∀ p ∈ s.accepted, p.id < s.records
  starts : ∀ floor p, Act.arrive floor p ∈ acts s.log → 1 ≤ floor ∧ floor ≤ 10
  atFloor : ∀ e ∈ s.log, e.AtItsFloor
  total : s.totalServed = s.done.length
  served : s.totalServed = ∑ k, s.served k

/-! ## Counters -/

theorem sum_bump {floor : Int} (hf : 1 ≤ floor ∧ floor ≤ 10) (served : Fin 10 → Int) :
    ∑ k, bump served floor k = ∑ k, served k + 1 := by
  obtain ⟨k, hk⟩ := slot_eq_some hf
  have hsplit := Finset.add_sum_erase Finset.univ served (Finset.mem_univ k)
  rw [Finset.erase_eq] at hsplit
  simp only [bump, hk]
  rw [Finset.sum_update_of_mem (Finset.mem_univ k)]
  omega

/-! ## Refinement, effect by effect -/

theorem site_admitted {s : State} {p : Passenger} (hp : p.WellFormed) :
    (s.allocate.link p).site =
      ⟨Function.update s.queue p.startFloor (s.queue p.startFloor ++ [p]), s.onboard⟩ :=
  congrArg (Site.mk · s.onboard) (getQueue_putQueue s.floors hp.start _)

theorem queue_erase_head {s : State} {floor : Int} {p : Passenger} {rest : List Passenger}
    (hq : s.queue floor = p :: rest) :
    getQueue (putQueue s.floors floor ((s.queue floor).erase p)) =
      Function.update s.queue floor rest := by
  have hf := bounds_of_getQueue s.floors (by rw [← State.queue, hq]; simp)
  rw [getQueue_putQueue _ hf, hq, List.erase_cons_head]
  rfl

theorem serves_init : Serves elevatorInit where
  accounting := accounting_init
  history := by
    have hsite : elevatorInit.site = ⟨fun _ => [], []⟩ := by
      apply congrArg (Site.mk · [])
      funext floor
      simp only [State.queue, getQueue, elevatorInit]
      split <;> rfl
    rw [hsite]
    exact .nil
  ids := fun _ h => absurd h List.not_mem_nil
  starts := fun _ _ h => absurd h List.not_mem_nil
  atFloor := fun _ h => absurd h List.not_mem_nil
  total := rfl
  served := by simp [elevatorInit]

/-- **One act of the service**, recorded by one event. -/
theorem Serves.act {s s' : State} (h : Serves s) {e : Event} {a : Act Int Passenger}
    (hlog : s'.log = s.log ++ [e]) (hact : actOf e = some a)
    (hstep : Step (acts s.log) s.site a s'.site) (haccounting : Accounting s')
    (hrecords : s.records ≤ s'.records)
    (harrive : ∀ floor p, a = .arrive floor p → p.id < s'.records ∧ 1 ≤ floor ∧ floor ≤ 10)
    (hfloor : e.AtItsFloor)
    (htotal : s'.totalServed = s.totalServed + (serviceOf a).toList.length)
    (hserved : ∑ k, s'.served k = ∑ k, s.served k + (serviceOf a).toList.length) : Serves s' := by
  have hacts : acts s'.log = acts s.log ++ [a] := by rw [hlog, acts_snoc, hact]; rfl
  refine ⟨haccounting, hacts ▸ h.history.snoc hstep, ?_, ?_, ?_, ?_, ?_⟩
  · intro p hp
    rw [State.accepted, hacts, arrived_snoc] at hp
    rcases List.mem_append.1 hp with hp | hp
    · exact lt_of_lt_of_le (h.ids p hp) hrecords
    · cases a with
      | arrive floor q =>
        obtain rfl : p = q := by simpa [arrivalOf] using hp
        exact (harrive floor p rfl).1
      | _ => simp [arrivalOf] at hp
  · intro floor p hp
    rw [hacts] at hp
    rcases List.mem_append.1 hp with hp | hp
    · exact h.starts floor p hp
    · exact (harrive floor p (List.mem_singleton.1 hp).symm).2
  · intro e' he'
    rw [hlog] at he'
    rcases List.mem_append.1 he' with he' | he'
    · exact h.atFloor e' he'
    · rw [List.mem_singleton.1 he']
      exact hfloor
  · rw [htotal, h.total, State.done, State.done, hacts, done_snoc, List.length_append]
    exact (Nat.cast_add _ _).symm
  · rw [htotal, hserved, h.served]

theorem serves_effect {s s' : State} (heff : Effect s s') (h : Serves s) : Serves s' := by
  have haccounting := accounting_effect heff h.accounting
  cases heff with
  | control => exact { h with accounting := haccounting }
  | opened =>
    have hacts : acts (s.log ++ [.opened s.currentFloor]) = acts s.log := by
      rw [acts_snoc]
      exact List.append_nil _
    refine ⟨haccounting, hacts ▸ h.history, ?_, hacts ▸ h.starts, ?_, ?_, h.served⟩
    · show ∀ p ∈ arrived (acts (s.log ++ _)), _
      exact hacts ▸ h.ids
    · intro e he
      rcases List.mem_append.1 he with he | he
      · exact h.atFloor e he
      · rw [List.mem_singleton.1 he]
        trivial
    · show s.totalServed = (Delivery.done (acts (s.log ++ _))).length
      exact hacts ▸ h.total
  | admitted p hid hp =>
    have hfresh : p ∉ arrived (acts s.log) := by
      intro hmem
      have hlt := h.ids p hmem
      omega
    refine h.act (e := .linked p) rfl rfl (site_admitted hp ▸ .arrive s.site _ p hfresh) haccounting
      (Nat.le_succ _) ?_ trivial (add_zero _).symm (add_zero _).symm
    intro floor q hq
    cases hq
    exact ⟨hid ▸ Nat.lt_succ_self _, hp.start⟩
  | boarded p rest hq hne hfits =>
    have hp := h.accounting.of_queue (hq ▸ List.mem_cons_self)
    have hsite : (s.board s.currentFloor p).site =
        ⟨Function.update s.queue s.currentFloor rest, s.onboard ++ [p]⟩ :=
      congrArg (Site.mk · _) (queue_erase_head hq)
    exact h.act (e := .boarded s.currentFloor p) rfl rfl (hsite ▸ .board s.site _ p rest hq)
      haccounting le_rfl (fun _ _ hq => by cases hq) hp.2.symm (add_zero _).symm (add_zero _).symm
  | servedHere p rest hq he =>
    have hp := h.accounting.of_queue (hq ▸ List.mem_cons_self)
    have hstay := hp.1.state_eq_equal.1 he
    have hsite : (s.serveHere s.currentFloor p).site =
        ⟨Function.update s.queue s.currentFloor rest, s.onboard⟩ :=
      congrArg (Site.mk · _) (queue_erase_head hq)
    exact h.act (e := .servedHere s.currentFloor p) rfl rfl (hsite ▸ .serve s.site _ p rest hq)
      haccounting le_rfl (fun _ _ hq => by cases hq) ⟨hp.2.symm.trans hstay, hstay⟩ rfl
      (sum_bump (hp.2 ▸ hp.1.start) _)
  | letOff p hp hd =>
    exact h.act (e := .unloaded s.currentFloor p) rfl rfl (.deliver s.site p hp) haccounting le_rfl
      (fun _ _ hq => by cases hq) hd.symm rfl
      (sum_bump (hd ▸ (h.accounting.riding p hp).1.destination) _)

/-- **Refinement.** Every run of the module is a history of the delivery service. -/
theorem serves_after (ls : List Label) : Serves (after ls) :=
  run_of_effect (fun _ _ => serves_effect) ls serves_init

/-! ## Everybody is served exactly once -/

theorem log_grows_effect {s s' : State} (heff : Effect s s') : s.log <+: s'.log := by
  cases heff with
  | control => exact List.prefix_rfl
  | _ => exact List.prefix_append _ _

/-- The history only grows. -/
theorem log_grows (ls ms : List Label) : (after ls).log <+: (after (ls ++ ms)).log := by
  rw [after_append]
  exact run_of_effect (I := fun s => (after ls).log <+: s.log)
    (fun _ _ heff h => h.trans (log_grows_effect heff)) ms List.prefix_rfl

theorem done_subset (ls ms : List Label) : (after ls).done ⊆ (after (ls ++ ms)).done :=
  (((log_grows ls ms).filterMap _).filterMap _).subset

theorem arrive_mem_of_accepted {s : State} {p : Passenger} (hp : p ∈ s.accepted) :
    Act.arrive p.startFloor p ∈ acts s.log := by
  obtain ⟨floor, hact⟩ := mem_arrived.1 hp
  obtain ⟨e, he, hea⟩ := List.mem_filterMap.1 hact
  cases e <;> simp only [actOf, Option.some.injEq, reduceCtorEq] at hea
  cases hea
  exact hact

/-- A passenger waits at its own floor, or rides, or is done: one of them, once. -/
theorem Serves.count_eq_one {s : State} (h : Serves s) {p : Passenger} (hp : p ∈ s.accepted) :
    (s.queue p.startFloor).count p + s.onboard.count p + s.done.count p = 1 :=
  h.history.count_eq_one (arrive_mem_of_accepted hp)

theorem Serves.accepted_of_done {s : State} (h : Serves s) {p : Passenger} (hp : p ∈ s.done) :
    p ∈ s.accepted :=
  h.history.mem_arrived_of_left (.inr hp)

theorem Serves.accepted_of_onboard {s : State} (h : Serves s) {p : Passenger}
    (hp : p ∈ s.onboard) : p ∈ s.accepted :=
  h.history.mem_arrived_of_left (.inl hp)

theorem Serves.accepted_of_queue {s : State} (h : Serves s) {floor : Int} {p : Passenger}
    (hp : p ∈ s.queue floor) : p ∈ s.accepted :=
  mem_arrived.2 ⟨floor, h.history.arrive_mem_of_queue hp⟩

theorem Serves.accepted_of_floor {s : State} (h : Serves s) {k : Fin 10} {p : Passenger}
    (hp : p ∈ s.floors k) : p ∈ s.accepted := by
  have hqueue : s.queue (floorOf k) = s.floors k := getQueue_floorOf s.floors k
  exact h.accepted_of_queue (hqueue ▸ hp)

theorem Serves.not_onboard_of_done {s : State} (h : Serves s) {p : Passenger} (hp : p ∈ s.done) :
    p ∉ s.onboard := by
  intro hon
  have hone := h.count_eq_one (h.accepted_of_done hp)
  have hdone := List.count_pos_iff.2 hp
  have hride := List.count_pos_iff.2 hon
  omega

theorem Serves.not_queued_of_onboard {s : State} (h : Serves s) {p : Passenger}
    (hp : p ∈ s.onboard) (k : Fin 10) : p ∉ s.floors k := by
  intro hk
  have hone := h.count_eq_one (h.accepted_of_onboard hp)
  have hride := List.count_pos_iff.2 hp
  have hwait := List.count_pos_iff.2 hk
  rw [(h.accounting.queued k p hk).2, State.queue, getQueue_floorOf] at hone
  omega

theorem Serves.not_queued_of_done {s : State} (h : Serves s) {p : Passenger} (hp : p ∈ s.done)
    (k : Fin 10) : p ∉ s.floors k := by
  intro hk
  have hone := h.count_eq_one (h.accepted_of_done hp)
  have hdone := List.count_pos_iff.2 hp
  have hwait := List.count_pos_iff.2 hk
  rw [(h.accounting.queued k p hk).2, State.queue, getQueue_floorOf] at hone
  omega

theorem floorOf_injective : Function.Injective floorOf := fun _ _ h => floorOf_inj h

/-- Everybody accepted is waiting, riding or served. -/
theorem Serves.length_accepted {s : State} (h : Serves s) :
    (s.accepted.length : Int) =
      ∑ k, ((s.floors k).length : Int) + s.onboard.length + s.totalServed := by
  have hS : ∀ f p, Act.arrive f p ∈ acts s.log → f ∈ Finset.univ.map ⟨floorOf, floorOf_injective⟩ :=
    fun f p hp => by
      obtain ⟨k, hk⟩ := slot_eq_some (h.starts f p hp)
      exact Finset.mem_map.2 ⟨k, Finset.mem_univ k, floorOf_of_slot hk⟩
  have hweigh := h.history.conserves (fun _ => 1 : Passenger → Nat) hS
  simp only [weigh_length, Finset.sum_map, Function.Embedding.coeFn_mk] at hweigh
  have hqueue : ∀ k, s.site.queue (floorOf k) = s.floors k := getQueue_floorOf s.floors
  simp only [hqueue] at hweigh
  rw [h.total]
  exact_mod_cast hweigh

/-- **Exactly-once service.** In every state of every run, everybody accepted is once in the queue
of its floor, or once on board, or served once, and stays served; it is served at its destination,
by `load_elevator` only if it was already there; and the counters account for everybody. -/
theorem exactly_once_service (ls ms : List Label) :
    (∀ p ∈ (after ls).accepted,
      (∀ k, p ∈ (after ls).floors k → (k : Int) + 1 = p.startFloor) ∧
      ((after ls).queue p.startFloor).count p + (after ls).onboard.count p +
        (after ls).done.count p = 1) ∧
    (∀ p ∈ (after ls).done, p ∈ (after (ls ++ ms)).done ∧
      (∀ k, p ∉ (after (ls ++ ms)).floors k) ∧ p ∉ (after (ls ++ ms)).onboard) ∧
    (∀ floor p, .unloaded floor p ∈ (after ls).log → floor = p.destinationFloor) ∧
    (∀ floor p, .servedHere floor p ∈ (after ls).log →
      floor = p.destinationFloor ∧ p.startFloor = p.destinationFloor) ∧
    ((after ls).accepted.length : Int) =
      ∑ k, ((after ls).floors k).length + (after ls).onboard.length + (after ls).totalServed ∧
    (after ls).totalServed = ∑ k, (after ls).served k := by
  have h := serves_after ls
  refine ⟨fun p hp => ⟨fun k hk => ((h.accounting.queued k p hk).2).symm, h.count_eq_one hp⟩,
    fun p hp => ?_, fun floor p he => h.atFloor _ he, fun floor p he => h.atFloor _ he,
    by exact_mod_cast h.length_accepted, h.served⟩
  have h' := serves_after (ls ++ ms)
  have hdone := done_subset ls ms hp
  exact ⟨hdone, h'.not_queued_of_done hdone, h'.not_onboard_of_done hdone⟩

/-! ## Per-floor FIFO -/

/-- A list split in two without repetition: what precedes a member of the first part is in it. -/
theorem sublist_left_of_mem {α : Type*} {xs ys : List α} (hnd : (xs ++ ys).Nodup) {a b : α}
    (hsub : [a, b] <+ xs ++ ys) (hb : b ∈ xs) : [a, b] <+ xs := by
  obtain ⟨l₁, l₂, heq, h₁, h₂⟩ := List.sublist_append_iff.1 hsub
  have hb' : b ∉ l₂ := fun hmem =>
    (List.nodup_append.1 hnd).2.2 b hb b (h₂.subset hmem) rfl
  rcases List.eq_nil_or_concat l₂ with rfl | ⟨l, c, rfl⟩
  · rwa [heq, List.append_nil]
  · have hc : c = b := by
      have hlast := congrArg List.getLast? heq
      simpa using hlast.symm
    exact absurd (by simp [hc]) hb'

/-- **Per-floor FIFO over whole runs.** The passengers accepted at a floor are those taken from its
queue, in the order `load_elevator` took them, followed by the queue; so nobody is taken before
somebody accepted earlier at the same floor. Those on board are in boarding order. -/
theorem floor_fifo (ls : List Label) :
    (∀ k : Fin 10, (after ls).acceptedAt (k + 1) =
      (after ls).takenAt (k + 1) ++ (after ls).floors k) ∧
    (∀ (k : Fin 10) (p q : Passenger), [p, q] <+ (after ls).acceptedAt (k + 1) →
      q ∈ (after ls).takenAt (k + 1) → [p, q] <+ (after ls).takenAt (k + 1)) ∧
    (after ls).onboard =
      (after ls).boardings.filter (· ∉ (after ls).unloadings) := by
  have h := (serves_after ls).history
  have hfifo : ∀ k : Fin 10, (after ls).acceptedAt (floorOf k) =
      (after ls).takenAt (floorOf k) ++ (after ls).floors k := fun k => by
    rw [State.acceptedAt, h.fifo]
    congr 1
    exact getQueue_floorOf _ k
  refine ⟨hfifo, fun k p q hsub hq => ?_, h.riding_eq⟩
  have hnd : ((after ls).acceptedAt (floorOf k)).Nodup := h.nodup_arrivedAt _
  have hsub : [p, q] <+ (after ls).acceptedAt (floorOf k) := hsub
  rw [hfifo k] at hsub hnd
  exact sublist_left_of_mem hnd hsub hq

end KernelElevator
