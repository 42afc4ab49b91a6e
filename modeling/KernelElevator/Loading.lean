import KernelElevator.Scheduler

/-!
# Loading and unloading the module

The three system calls are part of the kernel, and reach the module through the function pointers
`STUB_*`. `elevator_init` sets these first; if it fails afterwards it takes back the proc entry, but
not the pointers, and the kernel frees the module's code. `elevator_exit` does clear them.

* `Kernel` — what outlives the module, and the module while it is loaded.
* `Lawful` — a call is answered by the module just while it is loaded, and a failed load leaves
  nothing behind.
* `lawful_iff` — so it is in every run in which no `elevator_init` fails, and in no other.
-/

namespace KernelElevator

open Machine

/-- What happened to the module. -/
inductive LoadEvent where
  | init (value : Int)
  | exit
  deriving DecidableEq, Repr

/-- The kernel around the module. A pointer is set, to the module's function, or `NULL`. -/
structure Kernel where
  stubStartElevator : Bool
  stubStopElevator : Bool
  stubIssueRequest : Bool
  /-- There is an entry `/proc/elevator`. -/
  proc : Bool
  /-- The scheduler thread runs. -/
  thread : Bool
  /-- The module's memory, while the module is loaded. -/
  image : Option State
  /-- A history that no code reads. -/
  log : List LoadEvent

namespace Kernel

/-- The kernel has booted. -/
def boot : Kernel := ⟨false, false, false, false, false, none, []⟩

/-! ## The module's two entry points -/

/-- `elevator_init`, with the outcomes of `proc_create` and `kthread_run`. The error that
`kthread_run` packs into a pointer is one of -1 to -4095. -/
def elevatorInit (procCreate : Bool) (kthreadRun : Option (Fin 4095)) (k : Kernel) : Int × Kernel :=
  let k := { k with stubStartElevator := true, stubStopElevator := true, stubIssueRequest := true }
  if procCreate then
    let k := { k with proc := true }
    match kthreadRun with
    | some e => (-(e + 1), { k with proc := false })
    | none => (0, { k with thread := true, image := some KernelElevator.elevatorInit })
  else (-12, { k with proc := false }) -- -ENOMEM

/-- `elevator_exit`. -/
def elevatorExit (k : Kernel) : Kernel :=
  { k with
    thread := false
    image := k.image.map KernelElevator.elevatorExit
    proc := false
    stubStartElevator := false
    stubStopElevator := false
    stubIssueRequest := false }

/-- Load the module: the kernel calls `elevator_init`, unless the module is there already. The image
of a module whose init failed is freed. -/
def load (procCreate : Bool) (kthreadRun : Option (Fin 4095)) (k : Kernel) : Int × Kernel :=
  match k.image with
  | some _ => (-17, k) -- -EEXIST
  | none =>
    let (value, k) := elevatorInit procCreate kthreadRun k
    (value, { k with log := k.log ++ [.init value] })

/-- Unload the module: the kernel calls `elevator_exit` and frees the image. -/
def unload (k : Kernel) : Int × Kernel :=
  match k.image with
  | none => (-2, k) -- -ENOENT
  | some _ => (0, { elevatorExit k with image := none, log := k.log ++ [.exit] })

/-! ## The system calls -/

/-- What a caller sees of a system call. -/
inductive Reply where
  | returned (value : Int)
  /-- The pointer led to code that has been freed. -/
  | stray
  deriving DecidableEq, Repr

/-- `if (STUB) return STUB(...); else return unavailable;` -/
def dispatch (stub : Bool) (unavailable : Int) (function : State → Int × State) (k : Kernel) :
    Reply × Kernel :=
  if stub then
    match k.image with
    | some s => (.returned (function s).1, { k with image := some (function s).2 })
    | none => (.stray, k)
  else (.returned unavailable, k)

def sysStartElevator (k : Kernel) : Reply × Kernel :=
  dispatch k.stubStartElevator (-8) startElevator k

def sysStopElevator (k : Kernel) : Reply × Kernel :=
  dispatch k.stubStopElevator (-38) stopElevator k -- -ENOSYS

def sysIssueRequest (passengerType startFloor destinationFloor : Int) (kmalloc : Bool)
    (k : Kernel) : Reply × Kernel :=
  dispatch k.stubIssueRequest (-38) -- -ENOSYS
    (issueRequest passengerType startFloor destinationFloor kmalloc) k

end Kernel

/-! ## Runs -/

inductive KernelOp where
  | load (procCreate : Bool) (kthreadRun : Option (Fin 4095))
  | unload
  | syscall (c : Call)

namespace Kernel

def syscall : Call → Kernel → Reply × Kernel
  | .start => sysStartElevator
  | .stop => sysStopElevator
  | .request t a b kmalloc => sysIssueRequest t a b kmalloc

def exec : KernelOp → Kernel → Reply × Kernel
  | .load procCreate kthreadRun, k =>
    (.returned (load procCreate kthreadRun k).1, (load procCreate kthreadRun k).2)
  | .unload, k => (.returned (unload k).1, (unload k).2)
  | .syscall c, k => syscall c k

def step (op : KernelOp) (k : Kernel) : Kernel := (exec op k).2

/-- The last `elevator_init` returned 0, and no `elevator_exit` followed it. -/
def Live (k : Kernel) : Prop := k.log.getLast? = some (.init 0)

instance (k : Kernel) : Decidable k.Live := inferInstanceAs (Decidable (_ = _))

/-- What a call returns when there is no module. -/
def notAvailable : Call → Int
  | .start => -8
  | .stop => -38
  | .request .. => -38

/-- What loads, unloads and calls are to do. -/
def Lawful (k : Kernel) : KernelOp → Prop
  | .load procCreate kthreadRun =>
    (load procCreate kthreadRun k).1 ≠ 0 →
      (load procCreate kthreadRun k).2.stubStartElevator = k.stubStartElevator ∧
      (load procCreate kthreadRun k).2.stubStopElevator = k.stubStopElevator ∧
      (load procCreate kthreadRun k).2.stubIssueRequest = k.stubIssueRequest ∧
      (load procCreate kthreadRun k).2.proc = k.proc ∧
      (load procCreate kthreadRun k).2.thread = k.thread
  | .unload => True
  | .syscall c =>
    (k.Live → ∃ s, k.image = some s ∧
      syscall c k = (.returned (c.exec s).1, { k with image := some (c.exec s).2 })) ∧
    (¬ k.Live → syscall c k = (.returned (notAvailable c), k))

/-- An `elevator_init` that is called finds `proc_create` and `kthread_run` succeed. -/
def InitSucceeds (k : Kernel) : KernelOp → Prop
  | .load procCreate kthreadRun => k.image = none → procCreate = true ∧ kthreadRun = none
  | _ => True

/-- Everything is there, or nothing is. -/
structure Consistent (k : Kernel) : Prop where
  stubStartElevator : k.stubStartElevator = k.image.isSome
  stubStopElevator : k.stubStopElevator = k.image.isSome
  stubIssueRequest : k.stubIssueRequest = k.image.isSome
  proc : k.proc = k.image.isSome
  thread : k.thread = k.image.isSome
  live : k.Live ↔ k.image.isSome = true

section Steps

variable {k : Kernel}

theorem consistent_boot : Consistent boot := ⟨rfl, rfl, rfl, rfl, rfl, by decide⟩

theorem load_loaded {s : State} (h : k.image = some s) (procCreate : Bool)
    (kthreadRun : Option (Fin 4095)) : load procCreate kthreadRun k = (-17, k) := by
  rw [load, h]

theorem load_unloaded (h : k.image = none) (procCreate : Bool) (kthreadRun : Option (Fin 4095)) :
    load procCreate kthreadRun k = ((elevatorInit procCreate kthreadRun k).1,
      { (elevatorInit procCreate kthreadRun k).2 with
        log := (elevatorInit procCreate kthreadRun k).2.log ++
          [.init (elevatorInit procCreate kthreadRun k).1] }) := by
  rw [load, h]

/-- An init that fails leaves the pointers set. -/
theorem elevatorInit_fails (procCreate : Bool) (kthreadRun : Option (Fin 4095))
    (h : ¬ (procCreate = true ∧ kthreadRun = none)) :
    (elevatorInit procCreate kthreadRun k).1 ≠ 0 ∧
      (elevatorInit procCreate kthreadRun k).2.stubStartElevator = true := by
  cases procCreate with
  | false => exact ⟨show (-12 : Int) ≠ 0 by decide, rfl⟩
  | true =>
    cases kthreadRun with
    | none => exact absurd ⟨rfl, rfl⟩ h
    | some e =>
      refine ⟨?_, rfl⟩
      show -((e : Int) + 1) ≠ 0
      omega

theorem dispatch_image (stub : Bool) (unavailable : Int) (function : State → Int × State)
    (hstub : stub = k.image.isSome) :
    (∀ s, k.image = some s → dispatch stub unavailable function k =
      (.returned (function s).1, { k with image := some (function s).2 })) ∧
    (k.image = none → dispatch stub unavailable function k = (.returned unavailable, k)) := by
  refine ⟨?_, ?_⟩
  · intro s hs
    simp [dispatch, hstub, hs]
  · intro hs
    simp [dispatch, hstub, hs]

/-- With consistent pointers, a call reaches the module just while it is loaded. -/
theorem Consistent.syscall (h : Consistent k) (c : Call) :
    (∀ s, k.image = some s → syscall c k =
      (.returned (c.exec s).1, { k with image := some (c.exec s).2 })) ∧
    (k.image = none → Kernel.syscall c k = (.returned (notAvailable c), k)) := by
  cases c with
  | start => exact dispatch_image _ _ _ h.stubStartElevator
  | stop => exact dispatch_image _ _ _ h.stubStopElevator
  | request t a b kmalloc => exact dispatch_image _ _ _ h.stubIssueRequest

theorem consistent_step (op : KernelOp) (h : Consistent k) (hop : InitSucceeds k op) :
    Consistent (step op k) := by
  cases op with
  | load procCreate kthreadRun =>
    cases hs : k.image with
    | some s =>
      show Consistent (load procCreate kthreadRun k).2
      rw [load_loaded hs]
      exact h
    | none =>
      obtain ⟨rfl, rfl⟩ := hop hs
      show Consistent (load true none k).2
      rw [load_unloaded hs]
      exact ⟨rfl, rfl, rfl, rfl, rfl, by simp [Live, elevatorInit]⟩
  | unload =>
    show Consistent (unload k).2
    cases hs : k.image with
    | none =>
      rw [unload, hs]
      exact h
    | some s =>
      rw [unload, hs]
      exact ⟨rfl, rfl, rfl, rfl, rfl, by simp [Live]⟩
  | syscall c =>
    show Consistent (syscall c k).2
    cases hs : k.image with
    | none =>
      rw [(h.syscall c).2 hs]
      exact h
    | some s =>
      rw [(h.syscall c).1 s hs]
      obtain ⟨hstart, hstop, hissue, hproc, hthread, hlive⟩ := h
      rw [hs] at hstart hstop hissue hproc hthread hlive
      exact ⟨hstart, hstop, hissue, hproc, hthread, hlive⟩

theorem lawful_step_iff (op : KernelOp) (h : Consistent k) : Lawful k op ↔ InitSucceeds k op := by
  cases op with
  | load procCreate kthreadRun =>
    constructor
    · intro hlaw hs
      by_contra hfail
      obtain ⟨hvalue, hstub⟩ := elevatorInit_fails (k := k) procCreate kthreadRun hfail
      simp only [Lawful, load_unloaded hs] at hlaw
      have hsame := (hlaw hvalue).1
      rw [hstub, h.stubStartElevator, hs] at hsame
      cases hsame
    · intro hok hvalue
      cases hs : k.image with
      | some s =>
        rw [load_loaded hs]
        exact ⟨rfl, rfl, rfl, rfl, rfl⟩
      | none =>
        obtain ⟨rfl, rfl⟩ := hok hs
        rw [load_unloaded hs] at hvalue
        exact absurd rfl hvalue
  | unload => exact Iff.rfl
  | syscall c =>
    refine iff_of_true ⟨?_, ?_⟩ trivial
    · intro hlive
      obtain ⟨s, hs⟩ := Option.isSome_iff_exists.1 (h.live.1 hlive)
      exact ⟨s, hs, (h.syscall c).1 s hs⟩
    · intro hdead
      apply (h.syscall c).2
      rw [h.live] at hdead
      simpa using hdead

end Steps

/-- **System calls reach the module only while it is loaded, if and only if no `elevator_init` that
is called fails.** -/
theorem lawful_iff (ops : List KernelOp) :
    Along step Lawful ops boot ↔ Along step InitSucceeds ops boot := by
  have hstep : ∀ op k, Consistent k → InitSucceeds k op → Consistent (step op k) :=
    fun op _ => consistent_step op
  apply along_iff hstep _ consistent_boot
  intro op k h
  exact lawful_step_iff op h

/-- The thread cannot be created; a start then jumps into the module that is gone. -/
theorem failedLoad_strays :
    ¬ Along step Lawful [.load true (some 11), .syscall .start] boot ∧
      (exec (.syscall .start) (run step [.load true (some 11)] boot)).1 = .stray := by
  refine ⟨?_, rfl⟩
  intro h
  have hstubs := h.1 (by decide)
  exact absurd hstubs.1 (by decide)

end Kernel

end KernelElevator
