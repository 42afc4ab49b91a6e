import KernelElevator.Arithmetic
import KernelElevator.Restart
import KernelElevator.Leaks
import KernelElevator.ReportedLoad
import KernelElevator.Buffers
import Mathlib.Algebra.Order.BigOperators.Group.Finset

/-!
# No `int` overflows

The states of the model count with integers, and the module with `int`s. The two agree as long as
the result of every operation is an `int`.

* `Spans ns s t` — what is said of the results on the way from `s` to `t`: each is small, or a
  counter that `total_served` bounds.
* `Aims s t` — who writes `next_floor`.
* `no_overflow_iff` — no operation of a run overflows just as long as fewer than 2^31 passengers
  have been served, and none of a report just as long as fewer than 2^31 half units wait at each
  floor.
-/

namespace KernelElevator

open Delivery (weigh weigh_cons weigh_nil)

/-! ## Small results and counters -/

/-- As floors, loads and units are, with their sums and differences. -/
def Small (n : Int) : Prop := -16 ≤ n ∧ n ≤ 64

/-- Small, or a counter of at most `total`. -/
def Within (total n : Int) : Prop := Small n ∨ (0 ≤ n ∧ n ≤ total)

/-- The results `ns` on the way from `s` to `t`. A count of `total_served` is one of them. -/
structure Spans (ns : List Int) (s t : State) : Prop where
  within : ∀ n ∈ ns, Within t.totalServed n
  reached : t.totalServed = s.totalServed ∨ t.totalServed ∈ ns
  le : s.totalServed ≤ t.totalServed

theorem Within.mono {m n k : Int} (h : Within m k) (hle : m ≤ n) : Within n k := by
  rcases h with h | ⟨hnonneg, hk⟩
  · exact .inl h
  · exact .inr ⟨hnonneg, hk.trans hle⟩

theorem isInt_of_nonneg {n : Int} (h : 0 ≤ n) (hlt : n < 2 ^ 31) : IsInt n := ⟨by omega, hlt⟩

theorem Small.isInt {n : Int} (h : Small n) : IsInt n := by
  simp only [Small, IsInt] at h ⊢
  omega

theorem Within.isInt {total n : Int} (h : Within total n) (htotal : total < 2 ^ 31) : IsInt n := by
  rcases h with h | ⟨hnonneg, hle⟩
  · exact h.isInt
  · exact isInt_of_nonneg hnonneg (hle.trans_lt htotal)

theorem spans_small {ns : List Int} {s t : State} (hns : ∀ n ∈ ns, Small n)
    (htotal : t.totalServed = s.totalServed) : Spans ns s t where
  within := fun n hn => .inl (hns n hn)
  reached := .inl htotal
  le := htotal.ge

theorem spans_nil {s t : State} (htotal : t.totalServed = s.totalServed) : Spans [] s t :=
  spans_small (fun _ hn => absurd hn List.not_mem_nil) htotal

theorem Spans.append {ns ms : List Int} {s t u : State} (h : Spans ns s t) (h' : Spans ms t u) :
    Spans (ns ++ ms) s u where
  within := by
    intro n hn
    rcases List.mem_append.1 hn with hn | hn
    · exact (h.within n hn).mono h'.le
    · exact h'.within n hn
  reached := by
    rcases h'.reached with heq | hmem
    · rw [heq]
      exact h.reached.imp_right fun hmem => List.mem_append_left ms hmem
    · exact .inr (List.mem_append_right ns hmem)
  le := h.le.trans h'.le

/-! ## Counters that are never negative -/

/-- The counters of a run, which add up and are not negative. -/
structure Counts (s : State) : Prop where
  serves : Serves s
  nonneg : ∀ k, 0 ≤ s.served k

theorem counts_effect {s t : State} (heff : Effect s t) (h : Counts s) : Counts t where
  serves := serves_effect heff h.serves
  nonneg := by
    intro k
    have hk := h.nonneg k
    cases heff with
    | control => exact hk
    | opened => exact hk
    | admitted => exact hk
    | boarded => exact hk
    | servedHere =>
      show 0 ≤ bump s.served _ k
      rw [bump_apply]
      split_ifs <;> omega
    | letOff =>
      show 0 ≤ bump s.served _ k
      rw [bump_apply]
      split_ifs <;> omega

theorem counts_effects {s t : State} (h : Effects s t) (hs : Counts s) : Counts t :=
  of_effects (fun _ _ => counts_effect) h hs

theorem counts_after (ls : List Label) : Counts (after ls) :=
  run_of_effect (fun _ _ => counts_effect) ls ⟨serves_init, fun _ => le_rfl⟩

theorem Counts.served_le {s : State} (h : Counts s) (k : Fin 10) : s.served k ≤ s.totalServed := by
  rw [h.serves.served]
  exact Finset.single_le_sum (fun j _ => h.nonneg j) (Finset.mem_univ k)

theorem Counts.total_nonneg {s : State} (h : Counts s) : 0 ≤ s.totalServed := by
  rw [h.serves.total]
  exact Int.natCast_nonneg _

/-! ## Loading and unloading -/

theorem spans_serve {floor : Int} {s t : State} (h : Counts s) (hf : IsFloor floor)
    (htotal : t.totalServed = s.totalServed + 1) : Spans (serveInts floor s) s t where
  within := by
    intro n hn
    have hnonneg := h.total_nonneg
    rw [serveInts, List.mem_append, List.mem_cons, List.mem_singleton] at hn
    rcases hn with (rfl | hn) | rfl
    · simp only [IsFloor] at hf
      exact .inl ⟨by omega, by omega⟩
    · obtain ⟨k, -, rfl⟩ := List.mem_map.1 hn
      have hle := h.served_le k
      have hk := h.nonneg k
      exact .inr ⟨by omega, by omega⟩
    · exact .inr ⟨by omega, by omega⟩
  reached := .inr (by simp [serveInts, htotal])
  le := by omega

theorem Accounting.children_le {s : State} (h : Accounting s) :
    0 ≤ s.oddChildren ∧ s.oddChildren ≤ 10 := by
  have hlen := h.length_le
  have hle := h.units_le
  have hcount := List.countP_le_length (p := fun p : Passenger => p.type = child) (l := s.onboard)
  rw [h.oddChildren, children_eq_countP]
  simp only [maxUnits] at hle
  omega

section Passengers

variable {s : State} (h : Accounting s) {p : Passenger} (hp : p.WellFormed)
include h hp

theorem small_test : ∀ n ∈ testInts p s, Small n := by
  have hb := hp.units_bounds
  have hw := h.weight_nonneg
  have hu := h.units_nonneg
  have hw' := h.weight_le
  have hu' := h.units_le
  simp only [maxWeight, maxUnits] at hw' hu'
  intro n hn
  simp only [testInts] at hn
  simp only [Small]
  split_ifs at hn <;> simp only [List.mem_cons, List.not_mem_nil, or_false] at hn <;> omega

theorem small_board : ∀ n ∈ boardInts p s, Small n := by
  have hb := hp.units_bounds
  have hw := h.weight_nonneg
  have hu := h.units_nonneg
  have hw' := h.weight_le
  have hu' := h.units_le
  have hc := h.children_le
  simp only [maxWeight, maxUnits] at hw' hu'
  intro n hn
  simp only [boardInts] at hn
  simp only [Small]
  split_ifs at hn <;> simp only [List.mem_append, List.mem_cons, List.not_mem_nil, or_false,
    false_or] at hn <;> omega

end Passengers

theorem loadInts_spans {floor : Int} (ps : List Passenger) {s : State} (h : Counts s)
    (hf : s.currentFloor = floor) (hq : s.queue floor = ps) :
    Spans (loadInts floor ps s) s (loadLoop floor ps s).2 := by
  induction ps generalizing s with
  | nil => exact spans_nil rfl
  | cons p ps ih =>
    have hacc := h.serves.accounting
    have hp := hacc.of_queue (hq ▸ List.mem_cons_self : p ∈ s.queue floor)
    subst hf
    simp only [loadInts, loadLoop]
    split_ifs with he hfits
    · have hfloor : IsFloor s.currentFloor := hp.2 ▸ hp.1.start
      have hserve : Spans (serveInts s.currentFloor s) s (s.serveHere s.currentFloor p) :=
        spans_serve h hfloor rfl
      exact hserve.append
        (ih (counts_effect (.servedHere s p ps hq he) h) rfl (queue_serveHere hq))
    · have htest : Spans (testInts p s) s s := spans_small (small_test hacc hp.1) rfl
      have hboard : Spans (boardInts p s) s (s.board s.currentFloor p) :=
        spans_small (small_board hacc hp.1) rfl
      exact (htest.append hboard).append
        (ih (counts_effect (.boarded s p ps hq he hfits) h) rfl (queue_board hq))
    · have htest : Spans (testInts p s) s s := spans_small (small_test hacc hp.1) rfl
      exact htest.append htest

/-- `current_floor` is a floor, or one of the two values it can have besides. -/
def InPlace (floor : Int) : Prop := -1 ≤ floor ∧ floor ≤ 10

theorem InPlace.isInt {floor : Int} (h : InPlace floor) : IsInt floor := by
  simp only [InPlace, IsInt] at h ⊢
  omega

theorem InPlace.near {floor : Int} (h : InPlace floor) : -2 ≤ floor ∧ floor ≤ 10 := by
  simp only [InPlace] at h
  omega

theorem IsFloor.inPlace {floor : Int} (h : IsFloor floor) : InPlace floor := by
  simp only [IsFloor, InPlace] at h ⊢
  omega

theorem loadElevatorInts_spans {s : State} (h : Counts s) (hf : InPlace s.currentFloor) :
    Spans (loadElevatorInts s.currentFloor s) s (loadElevator s.currentFloor s).2 := by
  have hopened := counts_effect (.opened s) h
  have hindex :
      Spans [s.currentFloor - 1] s { s with log := s.log ++ [.opened s.currentFloor] } := by
    refine spans_small ?_ rfl
    intro n hn
    rw [List.mem_singleton.1 hn]
    simp only [InPlace] at hf
    exact ⟨by omega, by omega⟩
  rw [loadElevatorInts, loadElevator, if_neg (not_not.2 rfl), if_neg (not_not.2 rfl)]
  dsimp only
  split_ifs with hq
  · exact hindex
  · exact hindex.append (loadInts_spans _ hopened rfl rfl)

theorem letOffInts_spans {s : State} (h : Counts s) {p : Passenger} (hp : p ∈ s.onboard)
    (hf : IsFloor s.currentFloor) :
    Spans (letOffInts s.currentFloor p s) s (s.letOff s.currentFloor p) := by
  have hacc := h.serves.accounting
  have hb := (hacc.riding p hp).1.units_bounds
  have hw := hacc.weight_nonneg
  have hu := hacc.units_nonneg
  have hw' := hacc.weight_le
  have hu' := hacc.units_le
  have hc := hacc.children_le
  simp only [maxWeight, maxUnits] at hw' hu'
  have hsmall : Spans ([s.currentWeight - p.weightUnits, s.currentUnits - p.spaceUnits] ++
      (if p.type = child then [s.oddChildren - 1] else [])) s s := by
    apply spans_small _ rfl
    intro n hn
    simp only [Small]
    split_ifs at hn <;> simp only [List.mem_append, List.mem_cons, List.not_mem_nil, or_false] at hn
      <;> omega
  exact hsmall.append (spans_serve h hf rfl)

theorem unloadInts_spans {floor : Int} (ps : List Passenger) {kept : List Passenger} {s : State}
    (h : Counts s) (hf : s.currentFloor = floor) (hon : s.onboard = kept ++ ps)
    (hkept : ∀ q ∈ kept, q.destinationFloor ≠ floor) :
    Spans (unloadInts floor ps s) s (unloadLoop floor ps s) := by
  induction ps generalizing s kept with
  | nil => exact spans_nil rfl
  | cons p ps ih =>
    have hmem : p ∈ s.onboard := by simp [hon]
    subst hf
    simp only [unloadInts, unloadLoop]
    split_ifs with hd
    · have hp : p ∉ kept := fun hmem => hkept p hmem hd
      have hfloor : IsFloor s.currentFloor :=
        hd ▸ (h.serves.accounting.riding p hmem).1.destination
      refine (letOffInts_spans h hmem hfloor).append
        (ih (counts_effect (.letOff s p hmem hd) h) rfl ?_ hkept)
      simp [State.letOff, hon, List.erase_append_right _ hp]
    · refine @ih (kept ++ [p]) s h rfl (by simp [hon]) fun q hq => ?_
      rcases List.mem_append.1 hq with hq | hq
      · exact hkept q hq
      · rw [List.mem_singleton.1 hq]
        exact hd

theorem unloadElevatorInts_spans {s : State} (h : Counts s) :
    Spans (unloadElevatorInts s.currentFloor s) s (unloadElevator s.currentFloor s).2 := by
  rw [unloadElevatorInts, unloadElevator, if_neg (not_not.2 rfl), if_neg (not_not.2 rfl)]
  exact @unloadInts_spans s.currentFloor s.onboard [] s h rfl rfl (by simp)

/-! ## Moving -/

theorem small_move {floor : Int} {s : State} (hf : -2 ≤ floor ∧ floor ≤ 10)
    (hs : InPlace s.currentFloor) : ∀ n ∈ moveInts floor s, Small n := by
  intro n hn
  simp only [InPlace] at hs
  simp only [moveInts] at hn
  simp only [Small]
  split_ifs at hn <;> simp only [List.mem_cons, List.not_mem_nil, or_false] at hn <;> omega

theorem inPlace_minOnboard {s : State} (h : Accounting s) : InPlace (minOnboard s) := by
  have hloop (diff : Passenger → Int) :
      InPlace (minOnboardLoop diff s.onboard (10, 0)).2 := by
    rcases (minOnboardLoop_spec diff s.onboard (10, 0)).1 with heq | ⟨p, hp, heq⟩
    · rw [heq]
      exact ⟨by decide, by decide⟩
    · rw [heq]
      exact IsFloor.inPlace (h.riding p hp).1.destination
  unfold minOnboard
  split_ifs
  · exact hloop _
  · exact hloop _
  · exact ⟨by decide, by decide⟩

theorem small_minOnboard {s : State} (h : Accounting s) (hs : InPlace s.currentFloor) :
    ∀ n ∈ minOnboardInts s, Small n := by
  simp only [InPlace] at hs
  intro n hn
  unfold minOnboardInts at hn
  split_ifs at hn
  · obtain ⟨p, hp, rfl⟩ := List.mem_map.1 hn
    have hd := (h.riding p hp).1.destination
    exact ⟨by omega, by omega⟩
  · obtain ⟨p, hp, rfl⟩ := List.mem_map.1 hn
    have hd := (h.riding p hp).1.destination
    exact ⟨by omega, by omega⟩
  · exact absurd hn List.not_mem_nil

theorem small_nil : ∀ n ∈ ([] : List Int), Small n := fun _ hn => absurd hn List.not_mem_nil

theorem small_downPart {s : State} (locks : Locks) (hs : InPlace s.currentFloor) :
    ∀ n ∈ downPartInts locks s, Small n := by
  have hfloor := hs
  simp only [InPlace] at hfloor
  unfold downPartInts
  split_ifs
  · refine List.forall_mem_cons.2 ⟨⟨by omega, by omega⟩, ?_⟩
    exact small_move ⟨by omega, by omega⟩ hs
  · exact small_nil

theorem inPlace_nextUp {floor : Int} (h : InPlace floor) : InPlace (nextUp floor) := by
  simp only [InPlace, nextUp] at h ⊢
  split_ifs <;> omega

theorem small_upPart {s : State} (locks : Locks) (hs : InPlace s.currentFloor) :
    ∀ n ∈ upPartInts locks s, Small n := by
  have hnext := inPlace_nextUp hs
  have hmove := small_move hnext.near hs
  have hup : ∀ n ∈ (if s.currentFloor = 10 then [] else [s.currentFloor + 1]), Small n := by
    have hfloor := hs
    simp only [InPlace] at hfloor
    split_ifs
    · exact small_nil
    · exact List.forall_mem_singleton.2 ⟨by omega, by omega⟩
  by_cases hgo : s.state = .up ∧ locks .up
  · rw [upPartInts, if_pos hgo]
    refine List.forall_mem_append.2 ⟨List.forall_mem_append.2 ⟨hup, hmove⟩, ?_⟩
    split
    · exact small_nil
    · exact small_downPart locks hs
  · rw [upPartInts, if_neg hgo]
    exact small_downPart locks hs

theorem small_idleScan (is : List (Fin 10)) {s : State} (h : Accounting s)
    (hs : InPlace s.currentFloor) : ∀ n ∈ idleScanInts is s, Small n := by
  induction is generalizing s with
  | nil => exact small_nil
  | cons i is ih =>
    unfold idleScanInts
    split
    · exact ih h hs
    · rename_i p rest hq
      have hstart : IsFloor p.startFloor := h.isFloor_start i p (hq ▸ List.mem_cons_self)
      have hmove := small_move hstart.inPlace.near hs
      refine List.forall_mem_append.2 ⟨hmove, ?_⟩
      split
      · exact small_nil
      · exact ih { h with } hs

/-! ## The scheduler -/

theorem Placed.inPlace_arrival {s : State} (h : Placed s) {floor : Int}
    (hpc : s.pc.arrival = some floor) : InPlace floor := by
  rcases h with h | h | h
  · simp [h.pc, Pc.arrival] at hpc
  · have hheads := h.heads
    cases hs : s.pc <;> simp only [hs, Pc.arrival, Option.some.injEq, reduceCtorEq] at hpc
    all_goals
      subst hpc
      rw [hs] at hheads
      exact IsFloor.inPlace hheads
  · rcases h.pc with hloop | hloop
    · simp [hloop, Pc.arrival] at hpc
    · simp only [hloop, Pc.arrival, Option.some.injEq] at hpc
      subst hpc
      exact ⟨by decide, by decide⟩

theorem inPlace_step {s : State} (hplaced : Placed s) (h : InPlace s.currentFloor) (l : Label) :
    InPlace (step l s).currentFloor := by
  cases l with
  | sched locks =>
    show InPlace (schedule locks s).currentFloor
    rw [schedule_currentFloor]
    cases harrival : s.pc.arrival with
    | none => exact h
    | some floor => exact hplaced.inPlace_arrival harrival
  | call c =>
    show InPlace (c.exec s).2.currentFloor
    rcases call_cases c s with hc | ⟨-, -, hc⟩ | ⟨-, -, hc⟩
    · rw [show (c.exec s).2.currentFloor = s.currentFloor from congrArg Controls.currentFloor hc]
      exact h
    · rw [hc]
      exact isFloor_one.inPlace
    · rw [hc]
      split_ifs <;> exact h

theorem inPlace_after (ls : List Label) : InPlace (after ls).currentFloor :=
  after_invariant (I := fun s => InPlace s.currentFloor) placed_after ⟨by decide, by decide⟩
    (fun l _ hplaced h => inPlace_step hplaced h l) ls

theorem drainPassInts_spans {s : State} (h : Counts s) (hs : InPlace s.currentFloor) :
    Spans (drainPassInts s) s (drainPass s) := by
  have hacc := h.serves.accounting
  have hmin := inPlace_minOnboard hacc
  have hmove := small_move hmin.near hs
  have hsmall : Spans (minOnboardInts s ++ moveInts (minOnboard s) s) s s :=
    spans_small (List.forall_mem_append.2 ⟨small_minOnboard hacc hs, hmove⟩) rfl
  unfold drainPassInts drainPass
  split_ifs
  · exact spans_nil rfl
  · cases hm : moveElevator (minOnboard s) s with
    | some s' =>
      have htotal := ((Steers.refl s).move hm).total
      exact hsmall.append (spans_nil htotal)
    | none =>
      have hunload := unloadElevatorInts_spans h
      exact hsmall.append ⟨hunload.within, hunload.reached, hunload.le⟩

theorem upPartInts_spans {s t : State} (locks : Locks) (hst : Steers s t)
    (ht : InPlace t.currentFloor) : Spans (upPartInts locks t) s (upPart locks t) :=
  spans_small (small_upPart locks ht) (hst.trans (upPart_steers locks t)).total

theorem scheduleInts_spans {s : State} (h : Counts s) (hplaced : Placed s)
    (hs : InPlace s.currentFloor) (locks : Locks) :
    Spans (scheduleInts locks s) s (schedule locks s) := by
  cases hpc : s.pc with
  | top =>
    by_cases hoff : s.state = .offline
    · rw [schedule_offline locks hpc hoff, offlineBranch]
      simp only [scheduleInts, hpc, if_pos hoff]
      split_ifs
      · have hlock : Counts (s.lock .offline locks) := counts_effect (.control s ..) h
        have hdrain := drainPassInts_spans hlock hs
        exact ⟨hdrain.within, hdrain.reached, hdrain.le⟩
      · exact spans_nil rfl
    · by_cases hidle : s.state = .idle
      · rw [schedule_idle locks hpc hidle]
        simp only [scheduleInts, hpc, if_neg hoff, if_pos hidle]
        exact spans_small (small_idleScan _ h.serves.accounting hs) (idleScan_steers _ s).total
      · rw [schedule_service locks hpc hoff hidle, serviceBranch]
        simp only [scheduleInts, hpc, if_neg hoff, if_neg hidle, serviceInts]
        split_ifs
        · have hlock : Counts ((s.lock .service locks).setState .loading) :=
            counts_effect (.control s ..) h
          have hunload := unloadElevatorInts_spans hlock
          exact ⟨hunload.within, hunload.reached, hunload.le⟩
        · exact upPartInts_spans locks (((Steers.refl s).lock _ _).unlock _) hs
  | drain =>
    rw [schedule_drain locks hpc]
    simp only [scheduleInts, hpc]
    exact drainPassInts_spans h hs
  | drainMove floor =>
    rw [schedule_drainMove locks hpc]
    simp only [scheduleInts, hpc]
    have hunload := unloadElevatorInts_spans (counts_effects (arrive_effects floor s) h)
    exact ⟨hunload.within, hunload.reached, hunload.le⟩
  | idleMove is floor =>
    have hfloor := hplaced.inPlace_arrival (by rw [hpc]; rfl)
    rw [schedule_idleMove locks hpc]
    simp only [scheduleInts, hpc]
    exact spans_small (small_idleScan is { h.serves.accounting with } hfloor)
      (idleScan_steers is _).total
  | loadSleep =>
    have hfloor : InPlace (loadElevator s.currentFloor s).2.currentFloor := by
      rw [loadElevator_currentFloor]
      exact hs
    rw [schedule_loadSleep locks hpc]
    simp only [scheduleInts, hpc]
    exact (loadElevatorInts_spans h hs).append
      (upPartInts_spans locks (((Steers.refl _).setState .up).unlock .service) hfloor)
  | upMove floor =>
    have hfloor := hplaced.inPlace_arrival (by rw [hpc]; rfl)
    rw [schedule_upMove locks hpc]
    simp only [scheduleInts, hpc]
    exact spans_small (small_downPart locks hfloor) (downPart_steers locks _).total
  | downMove floor =>
    rw [schedule_downMove locks hpc]
    simp only [scheduleInts, hpc]
    exact spans_nil (endService_steers _).total

/-! ## Requests -/

theorem small_issueRequest (t a b : Int) (kmalloc : Bool) :
    ∀ n ∈ issueRequestInts t a b kmalloc, Small n := by
  unfold issueRequestInts
  split_ifs with _ ha hb
  · exact small_nil
  · exact small_nil
  · exact small_nil
  · rw [not_or] at ha hb
    intro n hn
    simp only [addPassengerInts] at hn
    simp only [Small]
    split at hn
    · split at hn
      · split_ifs at hn <;>
          simp only [List.mem_append, List.mem_cons, List.not_mem_nil, or_false] at hn <;> omega
      · exact absurd hn List.not_mem_nil
    · exact absurd hn List.not_mem_nil

theorem stepInts_spans {s : State} (h : Counts s) (hplaced : Placed s)
    (hs : InPlace s.currentFloor) (l : Label) : Spans (stepInts l s) s (step l s) := by
  cases l with
  | sched locks => exact scheduleInts_spans h hplaced hs locks
  | call c =>
    cases c with
    | start => exact spans_nil (call_total _ s)
    | stop => exact spans_nil (call_total _ s)
    | request t a b kmalloc => exact spans_small (small_issueRequest t a b kmalloc) (call_total _ s)

/-! ## Runs -/

theorem runInts_spans (ls ms : List Label) :
    Spans (runInts ls (after ms)) (after ms) (after (ms ++ ls)) := by
  induction ls generalizing ms with
  | nil => exact spans_nil (by rw [List.append_nil])
  | cons l ls ih =>
    have hstep := stepInts_spans (counts_after ms) (placed_after ms) (inPlace_after ms) l
    rw [← after_snoc] at hstep
    have hrest := ih (ms ++ [l])
    rw [List.append_assoc, List.singleton_append] at hrest
    rw [runInts, ← after_snoc]
    exact hstep.append hrest

/-! ## `next_floor` -/

/-- On the way from `s` to `t`, `next_floor` is written only as the floor of the move that `t`
sleeps in. -/
def Aims (s t : State) : Prop := t.nextFloor = s.nextFloor ∨ t.pc.arrival = some t.nextFloor

theorem aims_move {floor : Int} {s t : State} (hm : moveElevator floor s = some t) {pc : Pc}
    (hpc : pc.arrival = some floor) (r : State) : Aims r (t.goto pc) := by
  obtain ⟨-, rfl⟩ := moveElevator_eq_some hm
  exact .inr hpc

theorem endService_aims {r s : State} (h : s.nextFloor = r.nextFloor) : Aims r (endService s) := by
  unfold endService
  split_ifs <;> exact .inl h

theorem downPart_aims (locks : Locks) {r s : State} (h : s.nextFloor = r.nextFloor) :
    Aims r (downPart locks s) := by
  unfold downPart
  dsimp only
  split_ifs
  · exact endService_aims h
  · split
    · rename_i hm
      exact aims_move hm rfl r
    · exact endService_aims h
  · exact endService_aims h
  · exact endService_aims h

theorem upPart_aims (locks : Locks) {r s : State} (h : s.nextFloor = r.nextFloor) :
    Aims r (upPart locks s) := by
  unfold upPart
  dsimp only
  split_ifs
  · split
    · rename_i hm
      exact aims_move hm rfl r
    · exact downPart_aims locks h
  · exact downPart_aims locks h
  · exact downPart_aims locks h

theorem idleScan_aims (is : List (Fin 10)) {r s : State} (h : s.nextFloor = r.nextFloor) :
    Aims r (idleScan is s) := by
  induction is generalizing s with
  | nil => exact .inl h
  | cons i is ih =>
    unfold idleScan
    split
    · exact ih h
    · split
      · rename_i hm
        exact aims_move hm rfl r
      · exact ih h

theorem unload_nextFloor (floor : Int) (s : State) :
    (unloadElevator floor s).2.nextFloor = s.nextFloor :=
  congrArg Controls.nextFloor (unloadElevator_controls floor s)

theorem drainPass_aims {r s : State} (h : s.nextFloor = r.nextFloor) : Aims r (drainPass s) := by
  unfold drainPass
  split_ifs
  · exact .inl h
  · split
    · rename_i hm
      exact aims_move hm rfl r
    · exact .inl ((unload_nextFloor _ s).trans h)

theorem schedule_aims (locks : Locks) (s : State) : Aims s (schedule locks s) := by
  have hstep := scheduled locks s
  generalize schedule locks s = t at hstep ⊢
  cases hstep with
  | offline => exact drainPass_aims rfl
  | offlineRefused => exact .inl rfl
  | idle => exact idleScan_aims _ rfl
  | service => exact .inl (unload_nextFloor _ _)
  | serviceRefused => exact upPart_aims locks rfl
  | drain => exact drainPass_aims rfl
  | drainMove floor => exact .inl (unload_nextFloor _ _)
  | idleMove is floor => exact idleScan_aims is rfl
  | loadSleep =>
    apply upPart_aims
    exact congrArg Controls.nextFloor (loadElevator_controls _ s)
  | upMove floor => exact downPart_aims locks rfl
  | downMove floor => exact endService_aims rfl

theorem call_nextFloor (c : Call) (s : State) : (c.exec s).2.nextFloor = s.nextFloor := by
  rcases call_cases c s with hc | ⟨-, -, hc⟩ | ⟨-, -, hc⟩
  · exact congrArg Controls.nextFloor hc
  · rw [hc]
  · rw [hc]

theorem inPlace_nextFloor (ls : List Label) : InPlace (after ls).nextFloor := by
  induction ls using List.reverseRecOn with
  | nil => exact ⟨by decide, by decide⟩
  | append_singleton ls l ih =>
    have hplaced := placed_after (ls ++ [l])
    rw [after_snoc] at hplaced ⊢
    cases l with
    | sched locks =>
      rcases schedule_aims locks (after ls) with hsame | harrival
      · show InPlace (schedule locks _).nextFloor
        rwa [hsame]
      · exact hplaced.inPlace_arrival harrival
    | call c =>
      show InPlace (c.exec _).2.nextFloor
      rwa [call_nextFloor]

/-! ## Reading -/

theorem Passenger.WellFormed.space_le_weight {p : Passenger} (h : p.WellFormed) :
    p.spaceUnits ≤ p.weightUnits := by
  rcases unitsOf_cases h.units with ⟨-, hw, hu⟩ | ⟨-, hw, hu⟩ | ⟨-, hw, hu⟩ | ⟨-, hw, hu⟩ <;>
    rw [hw, hu] <;> decide

/-- Of the sums of a traversal, from no less weight than space, the last weight is the greatest. -/
theorem waitingInts_le {ps : List Passenger} (hps : ∀ p ∈ ps, p.WellFormed) (sums : Int × Int)
    (hspace : 0 ≤ sums.2) (hle : sums.2 ≤ sums.1) :
    ∀ n ∈ waitingInts ps sums, 0 ≤ n ∧ n ≤ sums.1 + weigh Passenger.weightUnits ps := by
  induction ps generalizing sums with
  | nil =>
    intro n hn
    rw [List.mem_singleton.1 hn, weigh_nil, Int.tdiv_eq_ediv_of_nonneg (by omega)]
    omega
  | cons p ps ih =>
    obtain ⟨hp, hrest⟩ := List.forall_mem_cons.1 hps
    have hb := hp.units_bounds
    have hpu := hp.space_le_weight
    have htail := ih hrest (sums.1 + p.weightUnits, sums.2 + p.spaceUnits)
      (by dsimp only; omega) (by dsimp only; omega)
    have hpos := length_le_weigh fun q hq => (hrest q hq).units_bounds.1
    rw [weigh_cons]
    intro n hn
    simp only [waitingInts, List.mem_cons] at hn
    dsimp only at htail
    rcases hn with rfl | rfl | hn
    · omega
    · omega
    · have hn := htail n hn
      omega

/-- No more space than weight waits at a floor. -/
theorem waitingSums_space {ps : List Passenger} (hps : ∀ p ∈ ps, p.WellFormed) :
    0 ≤ (waitingSums ps).2 ∧ (waitingSums ps).2 ≤ (waitingSums ps).1 := by
  rw [waitingSums_eq]
  induction ps with
  | nil => exact ⟨le_rfl, le_rfl⟩
  | cons p ps ih =>
    obtain ⟨hp, hrest⟩ := List.forall_mem_cons.1 hps
    have hb := hp.units_bounds
    have hle := hp.space_le_weight
    have htail := ih hrest
    simp only [weigh_cons] at htail ⊢
    omega

/-- The last weight of a traversal is one of its sums. -/
theorem waitingInts_reached (ps : List Passenger) (sums : Int × Int) :
    ps = [] ∨ sums.1 + weigh Passenger.weightUnits ps ∈ waitingInts ps sums := by
  induction ps generalizing sums with
  | nil => exact .inl rfl
  | cons p ps ih =>
    right
    rw [weigh_cons, ← add_assoc]
    rcases ih (sums.1 + p.weightUnits, sums.2 + p.spaceUnits) with rfl | hmem
    · rw [weigh_nil, add_zero]
      exact List.mem_cons_self
    · exact List.mem_cons_of_mem _ (List.mem_cons_of_mem _ hmem)

/-- The sums over a queue are `int`s just when its weight is one. -/
theorem waitingInts_iff {ps : List Passenger} (hps : ∀ p ∈ ps, p.WellFormed) :
    (∀ n ∈ waitingInts ps (0, 0), IsInt n) ↔ (waitingSums ps).1 < 2 ^ 31 := by
  rw [waitingSums_eq]
  have hle := waitingInts_le hps (0, 0) le_rfl le_rfl
  have hreached := waitingInts_reached ps (0, 0)
  simp only [zero_add] at hle hreached
  constructor
  · intro h
    rcases hreached with rfl | hmem
    · rw [weigh_nil]
      decide
    · exact (h _ hmem).2
  · intro h n hn
    have hb := hle n hn
    exact isInt_of_nonneg hb.1 (hb.2.trans_lt h)

/-! ## All of them -/

theorem readInts_iff {s : State} (h : Accounting s) :
    (∀ n ∈ readInts s, IsInt n) ↔ ∀ k, (waitingSums (s.floors k)).1 < 2 ^ 31 := by
  have hqueue (k : Fin 10) := waitingInts_iff fun p hp => (h.queued k p hp).1
  have hchildren := h.children_le
  have hweight := h.weight_nonneg
  have hweight' := h.weight_le
  simp only [maxWeight] at hweight'
  have hodd : Small (s.oddChildren.tmod 2) := by
    rw [Int.tmod_eq_emod_of_nonneg hchildren.1]
    exact ⟨by omega, by omega⟩
  have hhalf : Small (s.currentWeight.tdiv 2) := by
    rw [Int.tdiv_eq_ediv_of_nonneg hweight]
    exact ⟨by omega, by omega⟩
  have hfloor (k : Fin 10) : IsInt (floorOf k) := by
    have hk := floorOf_bounds k
    exact Small.isInt ⟨by omega, by omega⟩
  simp only [readInts, List.forall_mem_cons, List.forall_mem_flatMap, hodd.isInt, hhalf.isInt,
    hfloor, hqueue, true_and, List.mem_finRange, forall_const]

theorem runInts_iff (ls : List Label) :
    (∀ n ∈ runInts ls elevatorInit, IsInt n) ↔ (after ls).totalServed < 2 ^ 31 := by
  have hspans : Spans (runInts ls elevatorInit) elevatorInit (after ls) :=
    runInts_spans ls []
  constructor
  · intro h
    rcases hspans.reached with heq | hmem
    · rw [heq]
      decide
    · exact (h _ hmem).2
  · exact fun h n hn => (hspans.within n hn).isInt h

theorem printed_ints_iff (ls : List Label) :
    (after ls).printed.Ints ↔ (after ls).totalServed < 2 ^ 31 ∧
      ∀ k, (waitingSums ((after ls).floors k)).1 < 2 ^ 31 := by
  have h := counts_after ls
  have hacc := h.serves.accounting
  constructor
  · exact fun hints => ⟨hints.totalServed.2, fun k => (hints.weightSum k).2⟩
  · rintro ⟨htotal, hwaiting⟩
    have hweight := hacc.weight_nonneg
    have hweight' := hacc.weight_le
    have hunits := hacc.units_nonneg
    have hunits' := hacc.units_le
    have hchildren := hacc.children_le
    have hnonneg := h.total_nonneg
    simp only [maxWeight, maxUnits] at hweight' hunits'
    have hspace (k : Fin 10) : 0 ≤ (waitingSums ((after ls).floors k)).2 ∧
        (waitingSums ((after ls).floors k)).2 ≤ (waitingSums ((after ls).floors k)).1 :=
      waitingSums_space fun p hp => (hacc.queued k p hp).1
    have hcode : Small (after ls).state.code := by
      cases (after ls).state <;> exact ⟨by decide, by decide⟩
    have hload : (after ls).currentWeight < 2 ^ 31 ∧ (after ls).oddChildren < 2 ^ 31 ∧
        (after ls).currentUnits < 2 ^ 31 := ⟨by omega, by omega, by omega⟩
    constructor
    · exact hcode.isInt
    · exact (inPlace_after ls).isInt
    · exact (inPlace_nextFloor ls).isInt
    · exact isInt_of_nonneg hweight hload.1
    · exact isInt_of_nonneg hchildren.1 hload.2.1
    · exact isInt_of_nonneg hunits hload.2.2
    · exact isInt_of_nonneg hnonneg htotal
    · exact fun k => isInt_of_nonneg (h.nonneg k) ((h.served_le k).trans_lt htotal)
    · exact fun k => isInt_of_nonneg ((hspace k).1.trans (hspace k).2) (hwaiting k)
    · exact fun k => isInt_of_nonneg (hspace k).1 ((hspace k).2.trans_lt (hwaiting k))

/-- **No `int` overflows.** In every run the results of the operations on `int`s are `int`s just as
long as fewer than 2^31 passengers have been served; those of a report of any state of it are just
as long as fewer than 2^31 half units wait at each floor, and with both bounds so is all it
prints. -/
theorem no_overflow_iff (ls : List Label) :
    ((∀ n ∈ runInts ls elevatorInit, IsInt n) ↔ (after ls).totalServed < 2 ^ 31) ∧
    ((∀ n ∈ readInts (after ls), IsInt n) ↔
      ∀ k, (waitingSums ((after ls).floors k)).1 < 2 ^ 31) ∧
    ((after ls).printed.Ints ↔ (after ls).totalServed < 2 ^ 31 ∧
      ∀ k, (waitingSums ((after ls).floors k)).1 < 2 ^ 31) :=
  ⟨runInts_iff ls, readInts_iff (accounting_after ls), printed_ints_iff ls⟩

end KernelElevator
