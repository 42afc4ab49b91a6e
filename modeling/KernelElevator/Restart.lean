import KernelElevator.Iteration

/-!
# When a restart is safe

`stop_elevator` clears `started` at once, but it is the scheduler's next iteration that empties the
elevator. In a sequential run a start finds somebody on board exactly when it follows a stop with
no iteration in between and somebody was on board then. `restart_safe_iff` says so; `Tracks` is the
invariant behind it.
-/

namespace KernelElevator

open Machine

/-! ## Who writes `current_floor` -/

/-- The floor of the `move_elevator` whose sleep this is. -/
def Pc.arrival : Pc → Option Int
  | .drainMove floor => some floor
  | .idleMove _ floor => some floor
  | .upMove floor => some floor
  | .downMove floor => some floor
  | _ => none

theorem drainPass_currentFloor (s : State) : (drainPass s).currentFloor = s.currentFloor := by
  rcases drainPass_cases s with hsteers | hunload
  · exact hsteers.currentFloor
  · rw [hunload]
    exact unloadElevator_currentFloor _ s

/-- The scheduler changes `current_floor` only at the end of a move, to the floor moved to. -/
theorem schedule_currentFloor (locks : Locks) (s : State) :
    (schedule locks s).currentFloor = s.pc.arrival.getD s.currentFloor := by
  have hstep := scheduled locks s
  generalize schedule locks s = t at hstep ⊢
  cases hstep with
  | offline hpc =>
    rw [hpc]
    exact drainPass_currentFloor _
  | offlineRefused hpc =>
    rw [hpc]
    rfl
  | idle hpc =>
    rw [hpc]
    exact (idleScan_steers _ s).currentFloor
  | service hpc =>
    rw [hpc]
    exact unloadElevator_currentFloor _ _
  | serviceRefused hpc =>
    rw [hpc]
    exact (upPart_steers _ _).currentFloor
  | drain hpc =>
    rw [hpc]
    exact drainPass_currentFloor s
  | drainMove floor hpc =>
    rw [hpc]
    exact unloadElevator_currentFloor _ _
  | idleMove is floor hpc =>
    rw [hpc]
    exact (idleScan_steers _ _).currentFloor
  | loadSleep hpc =>
    rw [hpc]
    exact (upPart_steers _ _).currentFloor.trans (loadElevator_currentFloor _ s)
  | upMove floor hpc =>
    rw [hpc]
    exact (downPart_steers _ _).currentFloor
  | downMove floor hpc =>
    rw [hpc]
    exact (endService_steers _).currentFloor

/-! ## The property and the condition -/

/-- No restart of the run strands or relocates anybody. -/
structure RestartSafe (ops : List Op) : Prop where
  /-- A start that returns 0 finds the elevator empty. -/
  start : ∀ pre s, pre ++ [.call .start] <+: ops → SeqRun pre s → (startElevator s).1 = 0 →
    s.onboard = []
  idle : ∀ pre s, pre <+: ops → SeqRun pre s → s.state = .idle → s.onboard = []
  /-- No call moves somebody on board; the scheduler does so in `move_elevator` only. -/
  call : ∀ pre s c, pre ++ [.call c] <+: ops → SeqRun pre s → s.onboard ≠ [] →
    (c.exec s).2.currentFloor = s.currentFloor
  sched : ∀ pre s n, pre <+: ops → SeqRun pre s →
    (run step (List.replicate (n + 1) (.sched granted)) s).currentFloor =
      (run step (List.replicate n (.sched granted)) s).pc.arrival.getD
        (run step (List.replicate n (.sched granted)) s).currentFloor

/-- Neither an iteration nor a start. -/
def Op.Waits (op : Op) : Prop := op ≠ .iteration ∧ op ≠ .call .start

/-- Whenever a stop that returns 0 is followed by a start, with no iteration in between, nobody was
on board at the stop. -/
def Drained (ops : List Op) : Prop :=
  ∀ pre mid post s, ops = pre ++ .call .stop :: mid ++ .call .start :: post →
    (∀ op ∈ mid, op.Waits) → SeqRun pre s → s.started = true → s.onboard = []

theorem Drained.of_append {ops rest : List Op} (h : Drained (ops ++ rest)) : Drained ops := by
  intro pre mid post s heq
  subst heq
  exact h pre mid (post ++ rest) s (by simp)

/-! ## The condition is enough -/

/-- Somebody was on board at the last stop, and there has been no iteration since. -/
def Pending (ops : List Op) : Prop :=
  ∃ pre mid r, ops = pre ++ .call .stop :: mid ∧ (∀ op ∈ mid, op.Waits) ∧ SeqRun pre r ∧
    r.started = true ∧ r.onboard ≠ []

theorem Pending.snoc {ops : List Op} (h : Pending ops) {op : Op} (hop : op.Waits) :
    Pending (ops ++ [op]) := by
  obtain ⟨pre, mid, r, rfl, hmid, hr⟩ := h
  refine ⟨pre, mid ++ [op], r, by simp, ?_, hr⟩
  intro op' hop'
  rcases List.mem_append.1 hop' with hop' | hop'
  · exact hmid op' hop'
  · exact List.mem_singleton.1 hop' ▸ hop

theorem Drained.not_pending {ops rest : List Op} (h : Drained (ops ++ .call .start :: rest)) :
    ¬ Pending ops := by
  intro hpending
  obtain ⟨pre, mid, r, rfl, hmid, hr, hstarted, hon⟩ := hpending
  exact hon (h pre mid rest r rfl hmid hr hstarted)

structure Tracks (ops : List Op) (s : State) : Prop where
  offline : s.started = false → s.state = .offline
  idle : s.state = .idle → s.onboard = []
  pending : s.started = false → s.onboard = [] ∨ Pending ops

/-- An iteration of a started elevator ends `IDLE` only with nobody on board. -/
theorem Returns.onboard_of_idle {s t : State} (h : Returns s t) (hacc : Accounting s)
    (hpc : s.pc = .top) (hoff : s.state ≠ .offline) (hidle : s.state = .idle → s.onboard = [])
    (ht : t.state = .idle) : t.onboard = [] := by
  by_cases hs : s.state = .idle
  · rw [← hidle hs]
    exact congrArg Cargo.onboard (h.idleScan hacc hpc hs).cargo
  · have hstop := (h.serviceStop hpc hoff hs).state
    by_contra hon
    rw [if_neg hon, ht] at hstop
    cases hstop

theorem tracks_iteration {ops : List Op} {s t : State} (h : Tracks ops s) (hrun : SeqRun ops s)
    (hret : Returns s t) : Tracks (ops ++ [.iteration]) t := by
  obtain ⟨hpc, ls, rfl⟩ := hrun.after
  by_cases hoff : (after ls).state = .offline
  · obtain ⟨hstate, hon⟩ := hret.offload ⟨hoff, .inl hpc⟩
    exact ⟨fun _ => hstate, fun _ => hon, fun _ => .inl hon⟩
  · have hstarted : t.started = true := by
      rw [hret.started]
      by_contra hstarted
      exact hoff (h.offline (by simpa using hstarted))
    refine ⟨?_, hret.onboard_of_idle (accounting_after ls) hpc hoff h.idle, ?_⟩ <;>
      simp [hstarted]

theorem tracks_call {ops : List Op} {s : State} (h : Tracks ops s) (hrun : SeqRun ops s) {c : Call}
    (hd : Drained (ops ++ [.call c])) : Tracks (ops ++ [.call c]) (c.exec s).2 := by
  have hon := call_onboard c s
  rcases call_cases c s with hc | ⟨rfl, hclear, hc⟩ | ⟨rfl, hset, hc⟩
  · simp only [State.controls, Controls.mk.injEq] at hc
    obtain ⟨-, hstate, -, -, hstarted, -⟩ := hc
    constructor <;> simp only [hstate, hstarted, hon]
    · exact h.offline
    · exact h.idle
    · intro hclear
      refine (h.pending hclear).imp_right fun hpending => hpending.snoc ⟨by simp, ?_⟩
      -- A start that leaves the controls alone would have set `started`.
      rintro ⟨rfl⟩
      simp [Call.exec, startElevator, hclear] at hstarted
  · have hempty := (h.pending hclear).resolve_right hd.not_pending
    rw [hc]
    exact ⟨by simp, fun _ => hempty, by simp⟩
  · rw [hc]
    refine ⟨fun _ => rfl, by simp, fun _ => ?_⟩
    by_cases hempty : s.onboard = []
    · exact .inl hempty
    · exact .inr ⟨ops, [], s, rfl, by simp, hrun, hset, hempty⟩

theorem tracks {ops : List Op} {s : State} (hrun : SeqRun ops s) (hd : Drained ops) :
    Tracks ops s := by
  induction hrun with
  | nil => exact ⟨fun _ => rfl, fun _ => rfl, fun _ => .inl rfl⟩
  | snoc hrun hop ih =>
    cases hop with
    | iteration hret => exact tracks_iteration (ih hd.of_append) hrun hret
    | call c => exact tracks_call (ih hd.of_append) hrun hd

theorem restart_safe_of_drained {ops : List Op} (hd : Drained ops) : RestartSafe ops := by
  have hstart : ∀ pre s, pre ++ [.call .start] <+: ops → SeqRun pre s → s.started = false →
      s.onboard = [] := by
    intro pre s hpre hrun hclear
    obtain ⟨rest, rfl⟩ := hpre
    have htracks := tracks hrun (hd.of_append.of_append)
    exact (htracks.pending hclear).resolve_right hd.of_append.not_pending
  constructor
  · intro pre s hpre hrun hzero
    exact hstart pre s hpre hrun (startElevator_zero.1 hzero)
  · intro pre s hpre hrun
    obtain ⟨rest, rfl⟩ := hpre
    exact (tracks hrun hd.of_append).idle
  · intro pre s c hpre hrun hon
    rcases call_cases c s with hc | ⟨rfl, hclear, -⟩ | ⟨-, -, hc⟩
    · exact congrArg Controls.currentFloor hc
    · exact absurd (hstart pre s hpre hrun hclear) hon
    · rw [hc]
  · intro pre s n _ _
    rw [List.replicate_succ', run_append]
    exact schedule_currentFloor granted _

/-! ## The condition is needed -/

/-- While the elevator waits for its next iteration or start, a stop stays as it is. -/
theorem exists_waiting {pre mid : List Op} {s : State} (hrun : SeqRun pre s)
    (hstarted : s.started = true) (hmid : ∀ op ∈ mid, op.Waits) :
    ∃ t, SeqRun (pre ++ .call .stop :: mid) t ∧ t.started = false ∧ t.onboard = s.onboard := by
  induction mid using List.reverseRecOn with
  | nil =>
    refine ⟨_, hrun.snoc (.call .stop s), ?_, call_onboard .stop s⟩
    simp [Call.exec, stopElevator, hstarted]
  | append_singleton mid op ih =>
    obtain ⟨t, ht, hclear, hon⟩ := ih fun op hop => hmid op (List.mem_append_left _ hop)
    obtain ⟨hiter, hstart⟩ := hmid op (by simp)
    cases op with
    | iteration => exact absurd rfl hiter
    | call c =>
      refine ⟨_, by simpa using ht.snoc (.call c t), ?_, (call_onboard c t).trans hon⟩
      rcases call_cases c t with hc | ⟨rfl, -, -⟩ | ⟨-, -, hc⟩
      · exact (congrArg Controls.started hc).trans hclear
      · exact absurd rfl hstart
      · rw [hc]

/-- **A restart is safe if and only if the elevator was empty, or has been emptied since, at every
stop that it follows.** -/
theorem restart_safe_iff (ops : List Op) : RestartSafe ops ↔ Drained ops := by
  constructor
  · intro hsafe pre mid post s heq hmid hrun hstarted
    subst heq
    obtain ⟨t, ht, hclear, hon⟩ := exists_waiting hrun hstarted hmid
    rw [← hon]
    exact hsafe.start _ t ⟨post, by simp⟩ ht (startElevator_zero.2 hclear)
  · exact restart_safe_of_drained

/-- Somebody is on the way from floor 1 to floor 5 when the elevator is stopped and, with no
iteration in between, started again. -/
def hastyRestart : List Op :=
  [.call (.request adult 1 5 true), .call .start, .iteration, .iteration, .call .stop, .call .start]

theorem hastyRestart_strands : ¬ RestartSafe hastyRestart := by
  intro hsafe
  have hrun := seqRun_of_seqAfter
    (Option.some_get (show (seqAfter 12 hastyRestart.dropLast).isSome = true by decide)).symm
  have hempty := hsafe.start _ _ List.prefix_rfl hrun (by decide)
  exact absurd hempty (by decide)

end KernelElevator
