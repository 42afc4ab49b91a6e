import KernelElevator.Ride
import KernelElevator.Records

/-!
# Everybody is served in the end

Left to itself, a running elevator serves somebody within twelve iterations, as long as anybody is
waiting or on board: one scan to find a passenger, one stop to take it on board, and ten stops of
the sweep to its destination. So `n` passengers are served within `12 * n` iterations.
-/

namespace KernelElevator

open Machine

/-- How many are waiting or on board. -/
def pending (s : State) : Nat := ∑ k, (s.floors k).length + s.onboard.length

theorem pending_eq_zero {s : State} :
    pending s = 0 ↔ (∀ k, s.floors k = []) ∧ s.onboard = [] := by
  simp [pending, List.length_eq_zero_iff]

/-- Every record allocated is that of somebody waiting, on board or served. -/
theorem pending_add_total (ls : List Label) :
    (pending (after ls) : Int) + (after ls).totalServed = (after ls).records := by
  have hlength := congrArg List.length (ledger_after ls).ids
  have haccepted := (serves_after ls).length_accepted
  rw [List.length_map, List.length_range] at hlength
  rw [pending]
  push_cast
  omega

/-- The scheduler is at the loop head of a running elevator that has nobody on board while idle. -/
structure Running (s : State) : Prop where
  reached : ∃ ls, s = after ls
  pc : s.pc = .top
  state : s.state = .loading ∨ s.state = .up ∨ s.state = .idle ∧ s.onboard = []

theorem Running.serves {s : State} (h : Running s) : Serves s := by
  obtain ⟨ls, rfl⟩ := h.reached
  exact serves_after ls

theorem Running.poised {s : State} (h : Running s) : Poised s := by
  obtain ⟨ls, rfl⟩ := h.reached
  exact poised_after ls

theorem Running.not_idle {s : State} (h : Running s) {p : Passenger} (hp : p ∈ s.onboard) :
    s.state ≠ .idle := by
  intro hidle
  rcases h.state with hs | hs | ⟨-, hon⟩
  · simp [hidle] at hs
  · simp [hidle] at hs
  · simp [hon] at hp

theorem Running.isFloor {s : State} (h : Running s) : IsFloor s.currentFloor := by
  obtain ⟨ls, rfl⟩ := h.reached
  refine (placed_after ls).isFloor h.pc ?_
  rcases h.state with hs | hs | ⟨hs, -⟩ <;> simp [hs]

/-- An iteration serves those who are no longer pending. -/
theorem reached_of_returns {s t : State} (h : Returns s t) (hs : ∃ ls, s = after ls) :
    (∃ ls, t = after ls) ∧ (pending t : Int) + t.totalServed = pending s + s.totalServed := by
  obtain ⟨ls, rfl⟩ := hs
  obtain ⟨n, rfl⟩ := h.run
  have hrecords : ∀ n s, (run step (List.replicate n (.sched granted)) s).records = s.records := by
    intro n s
    induction n generalizing s with
    | zero => rfl
    | succ n ih => exact (ih _).trans (schedule_records granted s)
  rw [← after_append]
  refine ⟨⟨_, rfl⟩, ?_⟩
  rw [pending_add_total, pending_add_total, after_append, hrecords]

/-! ## Iterations keep it running -/

theorem Running.serviceStop {s : State} (h : Running s) (hidle : s.state ≠ .idle) :
    ∃ t, ServiceStop s (schedule granted s) t ∧ Running t := by
  have hoff : s.state ≠ .offline := by
    rcases h.state with hs | hs | ⟨hs, -⟩ <;> simp [hs]
  obtain ⟨t, ht⟩ := exists_serviceStop h.pc hoff hidle
  refine ⟨t, ht, (reached_of_returns ht.returns h.reached).1, ht.returns.pc, ?_⟩
  have hstate := ht.state
  split_ifs at hstate with hon
  · exact .inr (.inr ⟨hstate, hon⟩)
  · exact .inr (.inl hstate)

theorem ServiceStop.total_le {s u t : State} (h : ServiceStop s u t) :
    s.totalServed ≤ t.totalServed := by
  rw [h.total, h.unloads.total]
  omega

/-! ## Somebody is served -/

/-- `k` iterations later somebody has been served, and the elevator is still running. -/
def ServesWithin (bound : Nat) (s : State) : Prop :=
  ∃ k ≤ bound, ∃ t, Steps Returns k s t ∧ Running t ∧ s.totalServed < t.totalServed

theorem ServesWithin.of_stop {s u t : State} (h : ServiceStop s u t) {bound : Nat}
    (ht : ServesWithin bound t) : ServesWithin (bound + 1) s := by
  obtain ⟨k, hk, r, hsteps, hr, hlt⟩ := ht
  exact ⟨k + 1, by omega, r, .succ h.returns hsteps, hr, lt_of_le_of_lt h.total_le hlt⟩

theorem ServesWithin.mono {m n : Nat} {s : State} (h : ServesWithin m s) (hle : m ≤ n) :
    ServesWithin n s := by
  obtain ⟨k, hk, t, ht⟩ := h
  exact ⟨k, hk.trans hle, t, ht⟩

/-- Somebody on board is let off as many stops later as its destination is ahead. -/
theorem servesWithin_of_onboard {s : State} (h : Running s) {p : Passenger} (hp : p ∈ s.onboard) :
    ServesWithin (ahead s.currentFloor p.destinationFloor + 1) s := by
  have hd := (h.serves.accounting.riding p hp).1.destination
  induction hn : ahead s.currentFloor p.destinationFloor generalizing s with
  | zero =>
    have hat : s.currentFloor = p.destinationFloor := by
      have hsweep := sweep_ahead h.isFloor hd
      rwa [hn] at hsweep
    obtain ⟨t, hstop, ht⟩ := h.serviceStop (h.not_idle hp)
    refine ⟨1, le_rfl, t, .one hstop.returns, ht, ?_⟩
    have hcount : 0 < s.onboard.countP (·.destinationFloor = s.currentFloor) :=
      List.countP_pos_iff.2 ⟨p, hp, by simp [hat]⟩
    rw [hstop.total, hstop.unloads.total]
    omega
  | succ n ih =>
    have hne : s.currentFloor ≠ p.destinationFloor := by
      intro hat
      rw [hat, ahead_self] at hn
      cases hn
    obtain ⟨t, hstop, ht⟩ := h.serviceStop (h.not_idle hp)
    have hnext := ahead_nextUp h.isFloor hd hne
    rw [← hstop.floor] at hnext
    refine .of_stop hstop (ih ht ?_ (by omega))
    rw [hstop.onboard, hstop.unloads.onboard]
    exact List.mem_append_left _ (List.mem_filter.2 ⟨hp, by simpa using hne.symm⟩)

/-- A stop where somebody waits serves somebody, or ends with somebody on board. -/
theorem ServiceStop.serves_or_boards {s u t : State} (h : ServiceStop s u t) (hacc : Accounting u)
    (hqueue : s.queue s.currentFloor ≠ []) :
    s.totalServed < t.totalServed ∨ t.onboard ≠ [] := by
  obtain ⟨p, rest, hq⟩ := List.exists_cons_of_ne_nil hqueue
  have hq' : u.queue u.currentFloor = p :: rest := by rw [h.unloads.queue, h.unloads.floor, hq]
  have hwf := (hacc.of_queue (hq' ▸ List.mem_cons_self)).1
  by_cases he : p.state = .equal
  · left
    have hcount : 0 < (takenHere u).countP (·.state = .equal) := by
      rw [takenHere, hq', taken, if_pos he, List.countP_cons_of_pos (by simpa using he)]
      exact Nat.succ_pos _
    rw [h.total, h.unloads.total]
    omega
  · right
    rw [h.onboard]
    by_cases hfits : Fits u p
    · -- The head of the queue boards.
      have hboards : p ∈ takenHere u := by
        rw [takenHere, hq', taken, if_neg he]
        exact (if_pos hfits).symm ▸ List.mem_cons_self
      exact List.ne_nil_of_mem (List.mem_append_right _ (List.mem_filter.2 ⟨hboards, by simpa⟩))
    · -- It does not fit, so the elevator is not empty.
      intro hnil
      exact hfits (hacc.fits_of_empty (List.append_eq_nil_iff.1 hnil).1 hwf)

theorem servesWithin_of_loading {s : State} (h : Running s) (hstate : s.state = .loading) :
    ServesWithin 11 s := by
  obtain ⟨t, hstop, ht⟩ := h.serviceStop (by simp [hstate])
  have hacc : Accounting (schedule granted s) :=
    accounting_step (.sched granted) h.serves.accounting
  rcases hstop.serves_or_boards hacc (h.poised.loading h.pc hstate) with hserved | hon
  · exact ⟨1, by omega, t, .one hstop.returns, ht, hserved⟩
  · obtain ⟨p, hp⟩ := List.exists_mem_of_ne_nil _ hon
    have hlt := ahead_lt t.currentFloor p.destinationFloor
    exact .of_stop hstop ((servesWithin_of_onboard ht hp).mono (by omega))

/-- **Somebody is served within twelve iterations.** -/
theorem servesWithin_twelve {s : State} (h : Running s) (hpending : 0 < pending s) :
    ServesWithin 12 s := by
  rcases h.state with hstate | hstate | ⟨hstate, hon⟩
  · exact (servesWithin_of_loading h hstate).mono (by omega)
  · obtain ⟨p, hp⟩ := List.exists_mem_of_ne_nil _ (h.poised.up h.pc hstate)
    have hlt := ahead_lt s.currentFloor p.destinationFloor
    exact (servesWithin_of_onboard h hp).mono (by omega)
  · obtain ⟨t, hscan⟩ := exists_idleScan h.serves.accounting h.pc hstate
    rcases hscan.outcome with ⟨i, -, -, hloading, -⟩ | ⟨hnone, -⟩
    · have ht : Running t :=
        ⟨(reached_of_returns hscan.returns h.reached).1, hscan.returns.pc, .inl hloading⟩
      obtain ⟨k, hk, u, hsteps, hu, hlt⟩ := servesWithin_of_loading ht hloading
      have hsame : t.totalServed = s.totalServed := congrArg Cargo.totalServed hscan.cargo
      exact ⟨k + 1, by omega, u, .succ hscan.returns hsteps, hu, hsame ▸ hlt⟩
    · exact absurd (pending_eq_zero.2 ⟨hnone, hon⟩) hpending.ne'

/-! ## Everybody is served -/

theorem reached_of_steps {k : Nat} {s t : State} (h : Steps Returns k s t)
    (hs : ∃ ls, s = after ls) :
    (∃ ls, t = after ls) ∧ (pending t : Int) + t.totalServed = pending s + s.totalServed := by
  induction h with
  | zero => exact ⟨hs, rfl⟩
  | succ hret _ ih =>
    obtain ⟨hreached, hsum⟩ := reached_of_returns hret hs
    obtain ⟨hreached', hsum'⟩ := ih hreached
    exact ⟨hreached', hsum'.trans hsum⟩

/-- **Everybody is eventually served.** Left to itself, a running elevator with `n` passengers
waiting or on board has served them all, and nobody else, after at most `12 * n` iterations, and
never exceeds its capacity. -/
theorem everybody_served {ops : List Op} {s : State} (hrun : SeqRun ops s)
    (hstate : s.state = .loading ∨ s.state = .up ∨ s.state = .idle ∧ s.onboard = []) :
    (∃ k ≤ 12 * pending s, ∃ t, Steps Returns k s t ∧ (∀ i, t.floors i = []) ∧ t.onboard = [] ∧
      t.totalServed = s.totalServed + pending s) ∧
    ∀ n, let r := run step (List.replicate n (.sched granted)) s
      r.currentWeight ≤ maxWeight ∧ r.currentUnits ≤ maxUnits := by
  obtain ⟨hpc, ls, rfl⟩ := hrun.after
  refine ⟨?_, ?_⟩
  · have hprogress : ∀ s, Running s → 0 < pending s →
        ∃ k ≤ 12, ∃ t, Steps Returns k s t ∧ Running t ∧ pending t < pending s := by
      intro s hs hpos
      obtain ⟨k, hk, t, hsteps, ht, hlt⟩ := servesWithin_twelve hs hpos
      have hsum := (reached_of_steps hsteps hs.reached).2
      exact ⟨k, hk, t, hsteps, ht, by omega⟩
    obtain ⟨k, hk, t, hsteps, -, hzero⟩ :=
      exists_steps_of_progress hprogress ⟨⟨ls, rfl⟩, hpc, hstate⟩
    have hsum := (reached_of_steps hsteps ⟨ls, rfl⟩).2
    obtain ⟨hfloors, hon⟩ := pending_eq_zero.1 hzero
    exact ⟨k, hk, t, hsteps, hfloors, hon, by omega⟩
  · intro n
    have hacc := accounting_after (ls ++ List.replicate n (.sched granted))
    rw [after_append] at hacc
    exact ⟨hacc.weight_le, hacc.units_le⟩

/-- Three passengers, one of whom is already there, wait for an idle elevator. -/
def morning : List Op :=
  [.call (.request adult 1 5 true), .call (.request bellhop 7 2 true),
    .call (.request child 3 3 true), .call .start]

def dawn : State := (seqAfter 12 morning).get (by decide)

theorem seqRun_morning : SeqRun morning dawn :=
  seqRun_of_seqAfter (Option.some_get _).symm

theorem morning_served : ∃ k ≤ 12 * pending dawn, ∃ t, Steps Returns k dawn t ∧
    (∀ i, t.floors i = []) ∧ t.onboard = [] ∧ t.totalServed = dawn.totalServed + pending dawn :=
  (everybody_served seqRun_morning (.inr (.inr ⟨by decide, by decide⟩))).1

end KernelElevator
