import KernelElevator.Iteration

/-!
# The sweep and the ride

A service stop at a floor ends one floor further up, or from 10 at 1: the *sweep*. Whatever is
requested in the meantime, an elevator with somebody on board stays on it (`OnSweep`), so everybody
on board gets off within ten iterations. `ahead` is the number of stops to a floor.
-/

namespace KernelElevator

open Machine

/-! ## The sweep -/

/-- How many stops after `floor` the sweep is at `target`. -/
def ahead (floor target : Int) : Nat := ((target - floor) % 10).toNat

theorem ahead_lt (floor target : Int) : ahead floor target < 10 := by
  unfold ahead
  omega

theorem ahead_self (floor : Int) : ahead floor floor = 0 := by
  simp [ahead]

/-- Every stop elsewhere brings the target one nearer. -/
theorem ahead_nextUp {floor target : Int} (hf : IsFloor floor) (ht : IsFloor target)
    (hne : floor ≠ target) : ahead (nextUp floor) target + 1 = ahead floor target := by
  simp only [IsFloor] at hf ht
  simp only [ahead, nextUp]
  split_ifs <;> omega

/-- The floor of the `k`-th stop from `floor`. -/
def sweep (floor : Int) (k : Nat) : Int := nextUp^[k] floor

theorem sweep_succ (floor : Int) (k : Nat) : sweep floor (k + 1) = nextUp (sweep floor k) :=
  Function.iterate_succ_apply' nextUp k floor

theorem sweep_ahead {floor target : Int} (hf : IsFloor floor) (ht : IsFloor target) :
    sweep floor (ahead floor target) = target := by
  induction hn : ahead floor target generalizing floor with
  | zero =>
    simp only [IsFloor] at hf ht
    simp only [ahead] at hn
    show floor = target
    omega
  | succ n ih =>
    have hne : floor ≠ target := by
      rintro rfl
      simp [ahead_self] at hn
    have hnext := ahead_nextUp hf ht hne
    exact ih (isFloor_nextUp hf) (by omega)

/-! ## Staying on the sweep -/

/-- A scheduler step with the locks granted, or a request. -/
def Label.Quiet : Label → Prop
  | .sched locks => locks = granted
  | .call (.request _ _ _ _) => True
  | .call _ => False

/-- After `n` steps of the thread since the loop head at `floor`, three for each service stop. -/
inductive OnSweep (floor : Int) : Nat → State → Prop
  | stop {s : State} (k : Nat) : s.pc = .top → s.state = .loading ∨ s.state = .up →
      s.currentFloor = sweep floor k → OnSweep floor (3 * k) s
  | load {s : State} (k : Nat) : s.pc = .loadSleep →
      s.currentFloor = sweep floor k → OnSweep floor (3 * k + 1) s
  | climb {s : State} (k : Nat) : s.pc = .upMove (sweep floor (k + 1)) → s.state = .up →
      s.currentFloor = sweep floor k → OnSweep floor (3 * k + 2) s

/-- On the sweep with `p` on board, none of the stops made so far was its destination. -/
structure Riding (p : Passenger) (floor : Int) (n : Nat) (s : State) : Prop where
  onSweep : OnSweep floor n s
  onboard : p ∈ s.onboard
  passed : ∀ k, 3 * k < n → sweep floor k ≠ p.destinationFloor

/-- `unload_elevator` has let `p` off at its destination. -/
def Delivered (p : Passenger) (s : State) : Prop :=
  .unloaded p.destinationFloor p ∈ s.log ∧ p ∉ s.onboard

theorem mem_unloadings {s : State} {p : Passenger} :
    p ∈ s.unloadings ↔ ∃ floor, .unloaded floor p ∈ s.log := by
  simp only [State.unloadings, Delivery.delivered, acts, List.filterMap_filterMap,
    List.mem_filterMap]
  constructor
  · intro h
    obtain ⟨e, he, hp⟩ := h
    cases e <;> simp [actOf, Delivery.deliveryOf] at hp
    exact ⟨_, hp ▸ he⟩
  · intro h
    obtain ⟨floor, he⟩ := h
    exact ⟨_, he, rfl⟩

theorem Serves.delivered {s : State} (h : Serves s) {p : Passenger} (hp : p ∈ s.unloadings) :
    Delivered p s := by
  obtain ⟨floor, he⟩ := mem_unloadings.1 hp
  refine ⟨h.atFloor _ he ▸ he, ?_⟩
  exact h.not_onboard_of_done (Delivery.delivered_subset_done _ hp)

/-- A request is not noticed. -/
theorem OnSweep.request {floor : Int} {n : Nat} {s : State} (h : OnSweep floor n s) {c : Call}
    (hc : (c.exec s).2.controls = s.controls) : OnSweep floor n (c.exec s).2 := by
  simp only [State.controls, Controls.mk.injEq] at hc
  obtain ⟨-, hstate, hfloor, -, -, hpc⟩ := hc
  cases h with
  | stop k htop hservice hat =>
    exact .stop k (hpc.trans htop) (hstate ▸ hservice) (hfloor.trans hat)
  | load k hload hat => exact .load k (hpc.trans hload) (hfloor.trans hat)
  | climb k hclimb hup hat =>
    exact .climb k (hpc.trans hclimb) (hstate.trans hup) (hfloor.trans hat)

/-- **One step of the thread** lets `p` off or keeps it riding. -/
theorem riding_schedule {p : Passenger} {floor : Int} {n : Nat} {s : State}
    (h : Riding p floor n s) (hserves : Serves (schedule granted s)) :
    Delivered p (schedule granted s) ∨ Riding p floor (n + 1) (schedule granted s) := by
  obtain ⟨hsweep, hon, hpassed⟩ := h
  cases hsweep with
  | stop k htop hservice hat =>
    have hunload : Unloads s (schedule granted s) := by
      apply schedule_unloads htop <;> rcases hservice with h | h <;> simp [h]
    by_cases hd : p.destinationFloor = s.currentFloor
    · left
      apply hserves.delivered
      rw [hunload.unloadings]
      exact List.mem_append_right _ (List.mem_filter.2 ⟨hon, by simpa using hd⟩)
    · right
      refine ⟨.load k hunload.pc (hunload.floor.trans hat), ?_, ?_⟩
      · rw [hunload.onboard]
        exact List.mem_filter.2 ⟨hon, by simpa using hd⟩
      · intro j hj
        rcases Nat.lt_or_ge j k with hlt | hge
        · exact hpassed j (by omega)
        · obtain rfl : j = k := by omega
          exact fun heq => hd (heq.symm.trans hat.symm)
  | load k hpc hat =>
    have hload := schedule_loads hpc
    right
    refine ⟨.climb k ?_ hload.state (hload.floor.trans hat), ?_, fun j hj => hpassed j (by omega)⟩
    · rw [hload.pc, hat, sweep_succ]
    · rw [hload.onboard]
      exact List.mem_append_left _ hon
  | climb k hpc hup hat =>
    have hclimb := schedule_climbs hpc hup
    have hne : s.onboard ≠ [] := List.ne_nil_of_mem hon
    right
    refine ⟨.stop (k + 1) hclimb.pc (.inr ?_) hclimb.floor, ?_, fun j hj => hpassed j (by omega)⟩
    · rw [hclimb.state, if_neg hne]
    · rw [hclimb.onboard]
      exact hon

/-- The destination is still ahead. -/
theorem Riding.le {p : Passenger} {floor : Int} {n : Nat} {s : State} (h : Riding p floor n s)
    (hf : IsFloor floor) (hd : IsFloor p.destinationFloor) :
    n ≤ 3 * ahead floor p.destinationFloor := by
  by_contra hlt
  exact h.passed _ (by omega) (sweep_ahead hf hd)

/-- **Along a quiet run** `p` has been let off or is riding. -/
theorem delivered_or_riding (base : List Label) {p : Passenger} {ls : List Label}
    (hf : IsFloor (after base).currentFloor) (hd : IsFloor p.destinationFloor)
    (hriding : Riding p (after base).currentFloor 0 (after base)) (hls : ∀ l ∈ ls, l.Quiet) :
    (∃ ms, ms <+: ls ∧ ms.countP Label.isSched ≤ 3 * 10 ∧ Delivered p (after (base ++ ms))) ∨
      Riding p (after base).currentFloor (ls.countP Label.isSched) (after (base ++ ls)) := by
  induction ls using List.reverseRecOn with
  | nil => exact .inr (by simpa using hriding)
  | append_singleton ls l ih =>
    rcases ih fun l hl => hls l (List.mem_append_left _ hl) with ⟨ms, hms, hdone⟩ | hride
    · exact .inl ⟨ms, hms.trans (List.prefix_append _ _), hdone⟩
    · have hserves := serves_after (base ++ (ls ++ [l]))
      have hle := hride.le hf hd
      have hlt := ahead_lt (after base).currentFloor p.destinationFloor
      rw [← List.append_assoc, after_snoc] at hserves ⊢
      rw [List.countP_append]
      have hquiet := hls l (by simp)
      rcases l with locks | ⟨_ | _ | ⟨t, a, b, kmalloc⟩⟩
      · obtain rfl : locks = granted := hquiet
        refine (riding_schedule hride hserves).imp_left ?_
        intro hdone
        refine ⟨ls ++ [.sched granted], List.prefix_rfl, ?_, ?_⟩
        · have hone : [Label.sched granted].countP Label.isSched = 1 := rfl
          rw [List.countP_append, hone]
          omega
        · rw [← List.append_assoc, after_snoc]
          exact hdone
      · exact hquiet.elim
      · exact hquiet.elim
      · right
        refine ⟨hride.onSweep.request (issueRequest_controls t a b kmalloc _), ?_, hride.passed⟩
        exact (call_onboard (.request t a b kmalloc) _).symm ▸ hride.onboard

/-- **Bounded ride.** Whatever is requested, everybody on board of a running elevator is let off at
its destination within ten iterations, and until then every iteration is a service stop of the
sweep from the current floor. -/
theorem bounded_ride {ops : List Op} {s : State} (hrun : SeqRun ops s)
    (hstate : s.state = .loading ∨ s.state = .up) {p : Passenger} (hp : p ∈ s.onboard)
    {ls : List Label} (hls : ∀ l ∈ ls, l.Quiet) :
    (∀ ms, ms <+: ls → p ∈ (run step ms s).onboard →
      OnSweep s.currentFloor (ms.countP Label.isSched) (run step ms s)) ∧
    (3 * 10 ≤ ls.countP Label.isSched → ∃ ms, ms <+: ls ∧
      ms.countP Label.isSched ≤ 3 * 10 ∧ Delivered p (run step ms s)) := by
  obtain ⟨hpc, base, rfl⟩ := hrun.after
  have hf : IsFloor (after base).currentFloor := by
    refine (placed_after base).isFloor hpc ?_
    rcases hstate with h | h <;> simp [h]
  have hd := ((accounting_after base).riding p hp).1.destination
  have hriding : Riding p (after base).currentFloor 0 (after base) :=
    ⟨.stop 0 hpc hstate rfl, hp, fun k hk => absurd hk (Nat.not_lt_zero _)⟩
  simp only [← after_append]
  constructor
  · intro ms hpre hon
    obtain ⟨rest, rfl⟩ := hpre
    have hms : ∀ l ∈ ms, l.Quiet := fun l hl => hls l (List.mem_append_left _ hl)
    rcases delivered_or_riding base hf hd hriding hms with ⟨ks, ⟨rest', rfl⟩, -, hdone⟩ | hride
    · refine absurd hon ((serves_after _).not_onboard_of_done ?_)
      rw [← List.append_assoc]
      refine done_subset _ _ (Delivery.delivered_subset_done _ ?_)
      exact mem_unloadings.2 ⟨_, hdone.1⟩
    · exact hride.onSweep
  · intro hcount
    rcases delivered_or_riding base hf hd hriding hls with hdone | hride
    · exact hdone
    · have hle := hride.le hf hd
      have hlt := ahead_lt (after base).currentFloor p.destinationFloor
      omega

/-- An adult from floor 1 to floor 5. -/
def rider : Passenger where
  id := 0
  weightUnits := 2
  spaceUnits := 1
  startFloor := 1
  destinationFloor := 5
  type := adult
  state := .up

/-- The adult is taken on board at floor 1. -/
def pickUp : List Op :=
  [.call (.request adult 1 5 true), .call .start, .iteration, .iteration]

def pickedUp : State := (seqAfter 12 pickUp).get (by decide)

theorem seqRun_pickUp : SeqRun pickUp pickedUp :=
  seqRun_of_seqAfter (Option.some_get _).symm

/-- A bellhop asks for a ride in the meantime. -/
theorem rider_delivered :
    ∃ ms, ms <+: .call (.request bellhop 3 4 true) :: List.replicate 30 (.sched granted) ∧
      ms.countP Label.isSched ≤ 3 * 10 ∧ Delivered rider (run step ms pickedUp) := by
  refine (bounded_ride seqRun_pickUp (.inr (by decide)) (by decide) ?_).2 (by decide)
  intro l hl
  rcases List.mem_cons.1 hl with rfl | hl
  · trivial
  · exact List.eq_of_mem_replicate hl ▸ rfl

end KernelElevator
