import KernelElevator.LoopHead

/-!
# The mutex of the scheduler

Four parts of an iteration are guarded, each by a `mutex_lock_interruptible` of its own. After the
offload, the stop and the move up, the `mutex_unlock` comes after the guarded part whether or not
the lock was granted; the move down has it inside.

* `held` — whether the operations so far leave the mutex held, if they are balanced.
* `Refused` — an attempt fails whose unlock follows all the same.
* `mutex_balanced_iff` — a run is balanced if and only if no attempt is `Refused`.
-/

namespace KernelElevator

open Machine

/-! ## Balance -/

/-- One operation: `none` if the mutex is locked while it is held, or unlocked while it is not. -/
def MutexOp.apply : Option Bool → MutexOp → Option Bool
  | some false, .lock _ ok => some ok
  | some true, .unlock _ => some false
  | _, _ => none

/-- Whether the mutex is held after these operations, if every unlock among them finds it held and
every lock finds it free. -/
def held (ops : List MutexOp) : Option Bool := ops.foldl MutexOp.apply (some false)

theorem held_snoc (ops : List MutexOp) (op : MutexOp) :
    held (ops ++ [op]) = op.apply (held ops) := by
  rw [held, List.foldl_append]
  rfl

/-- Since `base`, the operations have been balanced, and the mutex is held if `b`. -/
def Holding (base : List MutexOp) (s : State) (b : Bool) : Prop :=
  ∃ ops, s.mutexLog = base ++ ops ∧ held ops = some b

/-- Since `base`, they have not. -/
def Unbalanced (base : List MutexOp) (s : State) : Prop :=
  ∃ ops, s.mutexLog = base ++ ops ∧ held ops = none

/-- The operations have been balanced, and between two iterations the mutex is free. -/
def Balanced (base : List MutexOp) (s : State) : Prop :=
  ∃ b, Holding base s b ∧ (s.pc = .top → b = false)

section Steps

variable {base : List MutexOp} {s t : State} {b : Bool} (site : LockSite) (locks : Locks)

theorem Holding.congr (h : Holding base s b) (ht : t.mutexLog = s.mutexLog) : Holding base t b := by
  obtain ⟨ops, hlog, hheld⟩ := h
  exact ⟨ops, ht.trans hlog, hheld⟩

theorem log_snoc {h : Option Bool} {op : MutexOp}
    (hs : ∃ ops, s.mutexLog = base ++ ops ∧ held ops = h) (ht : t.mutexLog = s.mutexLog ++ [op]) :
    ∃ ops, t.mutexLog = base ++ ops ∧ held ops = op.apply h := by
  obtain ⟨ops, hlog, hheld⟩ := hs
  refine ⟨ops ++ [op], ?_, ?_⟩
  · rw [ht, hlog, List.append_assoc]
  · rw [held_snoc, hheld]

theorem Holding.lock (h : Holding base s false) :
    Holding base (s.lock site locks) (locks site) := by
  have hlog : (s.lock site locks).mutexLog = s.mutexLog ++ [.lock site (locks site)] := rfl
  exact log_snoc h hlog

theorem Holding.unlock (h : Holding base s true) : Holding base (s.unlock site) false := by
  have hlog : (s.unlock site).mutexLog = s.mutexLog ++ [.unlock site] := rfl
  exact log_snoc h hlog

/-- An unlock of a mutex that is free. -/
theorem Holding.unbalanced (h : Holding base s false) : Unbalanced base (s.unlock site) := by
  have hlog : (s.unlock site).mutexLog = s.mutexLog ++ [.unlock site] := rfl
  exact log_snoc h hlog

/-- Nothing makes up for it. -/
theorem Unbalanced.mono (h : Unbalanced base s) (ht : s.mutexLog <+: t.mutexLog) :
    Unbalanced base t := by
  obtain ⟨ops, hlog, hheld⟩ := h
  obtain ⟨more, hmore⟩ := ht
  refine ⟨ops ++ more, ?_, ?_⟩
  · rw [← hmore, hlog, List.append_assoc]
  · rw [held, List.foldl_append, ← held, hheld]
    clear hmore
    induction more with
    | nil => rfl
    | cons op more ih => exact ih

theorem Unbalanced.not_balanced (h : Unbalanced base s) : ¬ Balanced base s := by
  rintro ⟨b, ⟨ops, hlog, hheld⟩, -⟩
  obtain ⟨ops', hlog', hheld'⟩ := h
  rw [List.append_cancel_left (hlog.symm.trans hlog'), hheld'] at hheld
  cases hheld

end Steps

/-! ## The parts -/

theorem unloadElevator_mutexLog (floor : Int) (s : State) :
    (unloadElevator floor s).2.mutexLog = s.mutexLog :=
  unloadElevator_view State.mutexLog (fun _ _ _ => rfl) floor s

theorem loadElevator_mutexLog (floor : Int) (s : State) :
    (loadElevator floor s).2.mutexLog = s.mutexLog :=
  loadElevator_view State.mutexLog (fun _ _ => rfl) (fun _ _ _ => rfl) (fun _ _ _ => rfl) floor s

/-- Where the scheduler stops with the mutex in its hands. -/
def Pc.holds : Pc → Bool
  | .top => false
  | .idleMove _ _ => false
  | _ => true

/-- The mutex is held where it should be. -/
def InHand (base : List MutexOp) (s : State) : Prop := Holding base s s.pc.holds

theorem InHand.balanced {base : List MutexOp} {s : State} (h : InHand base s) : Balanced base s :=
  ⟨s.pc.holds, h, fun hpc => by rw [hpc]; rfl⟩

section Parts

variable {base : List MutexOp} {s : State} (locks : Locks)

theorem inHand_endService (h : Holding base s false) : InHand base (endService s) := by
  unfold endService
  split_ifs <;> exact h

theorem inHand_downPart (h : Holding base s false) : InHand base (downPart locks s) := by
  have hlock := h.lock .down locks
  unfold downPart
  dsimp only
  split_ifs with hdown hok
  · rw [hok] at hlock
    exact inHand_endService (hlock.unlock .down)
  · rw [hok] at hlock
    split
    · rename_i hmove
      obtain ⟨-, rfl⟩ := moveElevator_eq_some hmove
      exact hlock
    · exact inHand_endService (hlock.unlock .down)
  · -- The unlock is in the branch that is not taken.
    rw [Bool.eq_false_of_not_eq_true hok] at hlock
    exact inHand_endService hlock
  · exact inHand_endService h

theorem inHand_upPart (h : Holding base s false) (hup : s.state = .up → locks .up = true) :
    InHand base (upPart locks s) := by
  have hlock := h.lock .up locks
  by_cases hstate : s.state = .up
  · rw [hup hstate] at hlock
    simp only [upPart, if_pos hstate, if_pos (hup hstate), moveElevator_nextUp]
    exact hlock
  · rw [upPart, if_neg hstate]
    exact inHand_downPart locks h

theorem inHand_idleScan (is : List (Fin 10)) (h : Holding base s false) :
    InHand base (idleScan is s) := by
  induction is generalizing s with
  | nil => exact h
  | cons i is ih =>
    unfold idleScan
    split
    · exact ih h
    · split
      · rename_i hmove
        obtain ⟨-, rfl⟩ := moveElevator_eq_some hmove
        exact h
      · exact ih h

theorem inHand_drainPass (h : Holding base s true) : InHand base (drainPass s) := by
  unfold drainPass
  split_ifs with hon
  · exact h.unlock .offline
  · split
    · rename_i hmove
      obtain ⟨-, rfl⟩ := moveElevator_eq_some hmove
      exact h
    · exact h.congr (unloadElevator_mutexLog s.currentFloor s)

/-! ## What comes after a refused attempt -/

theorem endService_mutexLog (s : State) : (endService s).mutexLog = s.mutexLog := by
  unfold endService
  split_ifs <;> rfl

theorem downPart_mutexLog (s : State) : s.mutexLog <+: (downPart locks s).mutexLog := by
  have hlock : s.mutexLog <+: (s.lock .down locks).mutexLog := List.prefix_append _ _
  have hunlock (t : State) : t.mutexLog <+: (t.unlock .down).mutexLog := List.prefix_append _ _
  unfold downPart
  dsimp only
  split_ifs
  · rw [endService_mutexLog]
    exact hlock.trans (hunlock ((s.lock .down locks).setState .up))
  · split
    · rename_i hmove
      obtain ⟨-, rfl⟩ := moveElevator_eq_some hmove
      exact hlock
    · rw [endService_mutexLog]
      exact hlock.trans (hunlock _)
  · rw [endService_mutexLog]
    exact hlock
  · rw [endService_mutexLog]

theorem upPart_mutexLog (s : State) : s.mutexLog <+: (upPart locks s).mutexLog := by
  have hlock : s.mutexLog <+: (s.lock .up locks).mutexLog := List.prefix_append _ _
  have hunlock (t : State) : t.mutexLog <+: (t.unlock .up).mutexLog := List.prefix_append _ _
  unfold upPart
  dsimp only
  split_ifs
  · rw [moveElevator_nextUp]
    exact hlock
  · exact hlock.trans ((hunlock _).trans (downPart_mutexLog locks _))
  · exact downPart_mutexLog locks s

/-- The unlock after a refused attempt to move up. -/
theorem unbalanced_upPart (h : Holding base s false) (hup : s.state = .up)
    (hrefused : locks .up = false) : Unbalanced base (upPart locks s) := by
  have hlock := h.lock .up locks
  rw [hrefused] at hlock
  rw [upPart, if_pos hup]
  dsimp only
  rw [if_neg (by simp [hrefused])]
  exact (hlock.unbalanced .up).mono (downPart_mutexLog locks _)

end Parts

/-! ## Steps -/

/-- An attempt of the step fails, at the offload, at the stop or at the move up. -/
def Refused (s : State) : Label → Prop
  | .sched locks =>
    (s.pc = .top ∧ s.state = .offline ∧ locks .offline = false) ∨
    (s.pc = .top ∧ s.state ≠ .offline ∧ s.state ≠ .idle ∧ locks .service = false) ∨
    (s.pc = .loadSleep ∧ locks .up = false)
  | .call _ => False

instance (s : State) : ∀ l : Label, Decidable (Refused s l)
  | .sched _ => inferInstanceAs (Decidable (_ ∨ _))
  | .call _ => isFalse id

theorem call_mutexLog (c : Call) (s : State) : (c.exec s).2.mutexLog = s.mutexLog := by
  cases c with
  | start =>
    simp only [Call.exec, startElevator]
    split_ifs <;> rfl
  | stop =>
    simp only [Call.exec, stopElevator]
    split_ifs <;> rfl
  | request t a b kmalloc =>
    show (issueRequest t a b kmalloc s).2.mutexLog = s.mutexLog
    rcases issueRequest_cases t a b kmalloc s with hsame | ⟨p, -, -, hlink⟩
    · rw [hsame]
    · rw [hlink]
      rfl

section Steps

variable {base : List MutexOp} {s : State}

theorem inHand_schedule {locks : Locks} (h : InHand base s) (hl : ¬ Refused s (.sched locks)) :
    InHand base (schedule locks s) := by
  unfold InHand at h
  have hstep := scheduled locks s
  generalize schedule locks s = t at hstep ⊢
  cases hstep with
  | offline hpc hoff hok =>
    rw [hpc] at h
    have hlock := h.lock .offline locks
    rw [hok] at hlock
    exact inHand_drainPass hlock
  | offlineRefused hpc hoff hno => exact absurd (.inl ⟨hpc, hoff, hno⟩) hl
  | idle hpc =>
    rw [hpc] at h
    exact inHand_idleScan _ h
  | service hpc hoff hidle hok =>
    rw [hpc] at h
    have hlock := h.lock .service locks
    rw [hok] at hlock
    exact hlock.congr (unloadElevator_mutexLog _ _)
  | serviceRefused hpc hoff hidle hno => exact absurd (.inr (.inl ⟨hpc, hoff, hidle, hno⟩)) hl
  | drain hpc =>
    rw [hpc] at h
    exact inHand_drainPass h
  | drainMove floor hpc =>
    rw [hpc] at h
    exact h.congr (unloadElevator_mutexLog _ _)
  | idleMove is floor hpc =>
    rw [hpc] at h
    exact inHand_idleScan is (s := (arrive floor s).setState .loading) h
  | loadSleep hpc =>
    rw [hpc] at h
    have hok : locks .up = true := by
      by_contra hno
      exact hl (.inr (.inr ⟨hpc, Bool.eq_false_of_not_eq_true hno⟩))
    have hload : Holding base (((loadElevator s.currentFloor s).2).setState .up) true :=
      h.congr (loadElevator_mutexLog _ s)
    exact inHand_upPart locks (hload.unlock .service) fun _ => hok
  | upMove floor hpc =>
    rw [hpc] at h
    have harrive : Holding base (arrive floor s) true := h
    exact inHand_downPart locks (harrive.unlock .up)
  | downMove floor hpc =>
    rw [hpc] at h
    have harrive : Holding base (arrive floor s) true := h
    exact inHand_endService (harrive.unlock .down)

theorem inHand_step {l : Label} (h : InHand base s) (hl : ¬ Refused s l) :
    InHand base (step l s) := by
  cases l with
  | sched locks => exact inHand_schedule h hl
  | call c =>
    have hpc : (c.exec s).2.pc = s.pc := call_pc c s
    show Holding base (c.exec s).2 (c.exec s).2.pc.holds
    rw [hpc]
    exact h.congr (call_mutexLog c s)

/-- The unlock that follows a refused attempt finds the mutex free. -/
theorem unbalanced_step {l : Label} (h : InHand base s) (hl : Refused s l) :
    Unbalanced base (step l s) := by
  cases l with
  | call c => exact absurd hl id
  | sched locks =>
    unfold InHand at h
    rcases hl with ⟨hpc, hoff, hno⟩ | ⟨hpc, hoff, hidle, hno⟩ | ⟨hpc, hno⟩
    · rw [hpc] at h
      have hlock := h.lock .offline locks
      rw [hno] at hlock
      show Unbalanced base (schedule locks s)
      rw [schedule_offline locks hpc hoff, offlineBranch]
      rw [if_neg (by simp [hno])]
      exact hlock.unbalanced .offline
    · rw [hpc] at h
      have hlock := h.lock .service locks
      rw [hno] at hlock
      show Unbalanced base (schedule locks s)
      rw [schedule_service locks hpc hoff hidle, serviceBranch, if_neg (by simp [hno])]
      exact (hlock.unbalanced .service).mono (upPart_mutexLog locks _)
    · rw [hpc] at h
      have hload : Holding base (((loadElevator s.currentFloor s).2).setState .up) true :=
        h.congr (loadElevator_mutexLog _ s)
      show Unbalanced base (schedule locks s)
      rw [schedule_loadSleep locks hpc]
      exact unbalanced_upPart locks (hload.unlock .service) rfl hno

end Steps

/-! ## Refused parts -/

/-- What a refused attempt guards is left out: passengers, counters and controls are as they were
before it when the scheduler goes on. -/
structure Skips (locks : Locks) (s : State) : Prop where
  offline : locks .offline = false → (offlineBranch locks s).cargo = s.cargo ∧
    (offlineBranch locks s).controls = (s.goto .top).controls
  service : locks .service = false →
    ∃ t, serviceBranch locks s = upPart locks t ∧ t.cargo = s.cargo ∧ t.controls = s.controls
  up : locks .up = false →
    ∃ t, upPart locks s = downPart locks t ∧ t.cargo = s.cargo ∧ t.controls = s.controls
  down : locks .down = false →
    ∃ t, downPart locks s = endService t ∧ t.cargo = s.cargo ∧ t.controls = s.controls

theorem skips (locks : Locks) (s : State) : Skips locks s where
  offline := by
    intro hno
    rw [offlineBranch, if_neg (by simp [hno])]
    exact ⟨rfl, rfl⟩
  service := by
    intro hno
    refine ⟨(s.lock .service locks).unlock .service, ?_, rfl, rfl⟩
    rw [serviceBranch, if_neg (by simp [hno])]
  up := by
    intro hno
    by_cases hup : s.state = .up
    · refine ⟨(s.lock .up locks).unlock .up, ?_, rfl, rfl⟩
      rw [upPart, if_pos hup, if_neg (by simp [hno])]
    · exact ⟨s, by rw [upPart, if_neg hup], rfl, rfl⟩
  down := by
    intro hno
    by_cases hdown : s.state = .down
    · refine ⟨s.lock .down locks, ?_, rfl, rfl⟩
      rw [downPart, if_pos hdown, if_neg (by simp [hno])]
    · exact ⟨s, by rw [downPart, if_neg hdown], rfl, rfl⟩

/-! ## Runs -/

/-- The step leaves the operations balanced, and leaves out what it may not enter. -/
def KeepsDiscipline (base : List MutexOp) (s : State) (l : Label) : Prop :=
  Balanced base (step l s) ∧ ∀ locks, l = .sched locks → Skips locks s

/-- **The mutex is balanced if and only if no attempt fails, except at the move down.** This goes
for every run from the loop head, whatever the state is there and whatever calls come between. -/
theorem mutex_balanced_iff {s : State} (hpc : s.pc = .top) (ls : List Label) :
    Along step (KeepsDiscipline s.mutexLog) ls s ↔ Along step (fun t l => ¬ Refused t l) ls s := by
  have hfree : InHand s.mutexLog s := by
    rw [InHand, hpc]
    exact ⟨[], by simp, rfl⟩
  refine along_iff (I := InHand s.mutexLog) ?_ ?_ hfree
  · intro l t ht hl
    exact inHand_step ht hl
  · intro l t ht
    constructor
    · intro hkeeps hrefused
      exact (unbalanced_step ht hrefused).not_balanced hkeeps.1
    · intro hl
      exact ⟨(inHand_step ht hl).balanced, fun locks _ => skips locks t⟩

/-- Somebody is taken from floor 1 to floor 2, with every attempt granted. -/
theorem ride_disciplined :
    Along step (KeepsDiscipline [])
      [.call (.request adult 1 2 true), .call .start, .sched granted, .sched granted,
        .sched granted, .sched granted, .sched granted, .sched granted] elevatorInit :=
  (mutex_balanced_iff (s := elevatorInit) rfl _).2 (by decide)

/-- A signal while the scheduler waits for the mutex, before the elevator has been started. -/
theorem interrupted_unlocks :
    ¬ KeepsDiscipline [] elevatorInit (.sched fun _ => false) := by
  rintro ⟨⟨b, ⟨ops, hlog, hheld⟩, -⟩, -⟩
  have hops : ops = [.lock .offline false, .unlock .offline] := by
    rw [← List.nil_append ops, ← hlog]
    rfl
  rw [hops] at hheld
  cases hheld

end KernelElevator
