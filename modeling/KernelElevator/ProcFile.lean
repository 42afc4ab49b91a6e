import KernelElevator.Report
import KernelElevator.Library.Machine
import Mathlib.Data.List.Count
import Mathlib.Data.List.Induction
import Mathlib.Algebra.Group.Nat.Even

/-!
# Readers of `/proc/elevator`

The end-of-file toggle `read_p` and the buffer pointer `message` are globals of the module, so all
open files share them. An open sets the toggle and takes a new buffer, and forgets the one before; a
read flips the toggle, and writes the report through the pointer if it is clear now; a release frees
whatever the pointer points to.

* `Call`, `Proper` — sessions that open once, read while open, and are released once.
* `undisturbed_iff` — when every session reads as if it were alone.
* `disciplined_iff` — when every buffer is freed exactly once and none is used afterwards.
-/

namespace KernelElevator.ProcFile

open Machine

/-! ## The operations of the file -/

/-- The globals behind the file. A buffer is named by the `kmalloc` call that returned it. -/
structure File where
  readP : Bool
  message : Option Nat
  /-- How many buffers have been allocated: the name of the next. -/
  buffers : Nat
  /-- The arguments of `kfree`, in order. -/
  freed : List Nat

def elevatorProcOpen (kmalloc : Bool) (f : File) : Int × File :=
  if kmalloc then
    (0, { f with readP := true, message := some f.buffers, buffers := f.buffers + 1 })
  else (-12, { f with readP := true, message := none }) -- -ENOMEM

/-- What a reader gets. -/
inductive Reading where
  /-- The text copied, and its length returned; nothing and 0 at the end of the file. -/
  | text (text : String)
  /-- The report has been written through a pointer that is `NULL` or to a freed buffer. -/
  | fault
  deriving DecidableEq

def elevatorProcRead (s : State) (f : File) : Reading × File :=
  let f := { f with readP := !f.readP }
  if f.readP then (.text "", f)
  else
    match f.message with
    | some b => if b ∈ f.freed then (.fault, f) else (.text (report s), f)
    | none => (.fault, f)

/-- `kfree(message)`, which ignores `NULL` and leaves the pointer as it is. -/
def elevatorProcRelease (f : File) : Int × File :=
  match f.message with
  | some b => (0, { f with freed := f.freed ++ [b] })
  | none => (0, f)

/-! ## Sessions -/

/-- A call, by the session that makes it. A read is given the state of the elevator. -/
inductive Call where
  | open (session : Nat) (kmalloc : Bool)
  | read (session : Nat) (s : State)
  | release (session : Nat)

inductive Phase where
  | fresh
  /-- Open, after this many reads. -/
  | reading (reads : Nat)
  | closed
  deriving DecidableEq, Repr

/-- The file, and what the calls so far say: the phase of each session, and the reads and releases
since the last open. -/
structure Proc where
  file : File
  phase : Nat → Phase
  reads : Nat
  released : Bool

def init : Proc := ⟨⟨false, none, 0, []⟩, fun _ => .fresh, 0, false⟩

/-- A session goes on. -/
def Phase.read : Phase → Phase
  | .reading n => .reading (n + 1)
  | phase => phase

def step : Call → Proc → Proc
  | .open i kmalloc, p =>
    { file := (elevatorProcOpen kmalloc p.file).2
      phase := Function.update p.phase i (if kmalloc then .reading 0 else .closed)
      reads := 0
      released := false }
  | .read i s, p =>
    { p with
      file := (elevatorProcRead s p.file).2
      phase := Function.update p.phase i (p.phase i).read
      reads := p.reads + 1 }
  | .release i, p =>
    { p with
      file := (elevatorProcRelease p.file).2
      phase := Function.update p.phase i .closed
      released := true }

/-- Each session opens once, and reads and is released while it is open. -/
def Proper (p : Proc) : Call → Prop
  | .open i _ => p.phase i = .fresh
  | .read i _ => ∃ n, p.phase i = .reading n
  | .release i => ∃ n, p.phase i = .reading n

/-- Any number of sessions, in any order of their calls. -/
structure Run where
  calls : List Call
  proper : Along step Proper calls init

/-- What a read returns after the calls `pre`. -/
def readAfter (pre : List Call) (s : State) : Reading :=
  (elevatorProcRead s (run step pre init).file).1

def Call.session : Call → Nat
  | .open i _ => i
  | .read i _ => i
  | .release i => i

/-- The calls of session `i`, as if it were alone. -/
def own (i : Nat) (calls : List Call) : List Call := calls.filter (·.session = i)

/-! ## Sessions that do not disturb each other -/

/-- Every open succeeds. -/
def Call.Granted : Call → Prop
  | .open _ kmalloc => kmalloc = true
  | _ => True

/-- The first read of a session returns the report and the second the end of the file, and both the
same as without the other sessions. -/
def Run.Undisturbed (r : Run) : Prop :=
  ∀ pre i s n, pre ++ [.read i s] <+: r.calls → (run step pre init).phase i = .reading n →
    (n = 0 → readAfter pre s = .text (report s)) ∧ (n = 1 → readAfter pre s = .text "") ∧
    (n ≤ 1 → readAfter pre s = readAfter (own i pre) s)

/-- The first read of a session comes after an even number of reads since the last open, and no
release; the second after an odd number. -/
def Aligned (p : Proc) : Call → Prop
  | .read i _ => (p.phase i = .reading 0 → Even p.reads ∧ p.released = false) ∧
    (p.phase i = .reading 1 → ¬ Even p.reads)
  | _ => True

/-- Once there has been an open, and no open has failed, the pointer leads to the buffer of the last
one. -/
structure Pointing (p : Proc) : Prop where
  freed : ∀ b ∈ p.file.freed, b < p.file.buffers
  last : (∀ i, p.phase i = .fresh) ∨ (p.file.readP = decide (Even p.reads) ∧
    ∃ b, p.file.message = some b ∧ b < p.file.buffers ∧ (b ∈ p.file.freed ↔ p.released = true))

theorem pointing_init : Pointing init := ⟨by simp [init], .inl fun _ => rfl⟩

theorem Pointing.last_of_reading {p : Proc} (h : Pointing p) {i n : Nat}
    (hi : p.phase i = .reading n) : p.file.readP = decide (Even p.reads) ∧
      ∃ b, p.file.message = some b ∧ b < p.file.buffers ∧
        (b ∈ p.file.freed ↔ p.released = true) := by
  rcases h.last with hfresh | hlast
  · rw [hfresh i] at hi
    cases hi
  · exact hlast

theorem even_succ_toggle (n : Nat) : (!decide (Even n)) = decide (Even (n + 1)) := by
  rw [← decide_not, decide_eq_decide]
  exact Nat.even_add_one.symm

theorem pointing_step {c : Call} {p : Proc} (h : Pointing p) (hproper : Proper p c)
    (hgranted : c.Granted) : Pointing (step c p) := by
  cases c with
  | «open» i kmalloc =>
    obtain rfl : kmalloc = true := hgranted
    refine ⟨?_, .inr ⟨rfl, p.file.buffers, rfl, Nat.lt_succ_self _, ?_⟩⟩
    · intro b hb
      exact (h.freed b hb).trans (Nat.lt_succ_self _)
    · -- The new buffer has not been freed.
      refine iff_of_false ?_ (by simp [step])
      intro hb
      exact absurd (h.freed _ hb) (lt_irrefl _)
  | read i s =>
    obtain ⟨n, hi⟩ := hproper
    obtain ⟨hread, b, hmessage, hlt, hfreed⟩ := h.last_of_reading hi
    have hfile : (elevatorProcRead s p.file).2 = { p.file with readP := !p.file.readP } := by
      unfold elevatorProcRead
      dsimp only
      rw [hmessage]
      dsimp only
      split_ifs <;> rfl
    refine ⟨?_, .inr ⟨?_, b, ?_, ?_, ?_⟩⟩
    all_goals simp only [step, hfile]
    · exact h.freed
    · rw [hread]
      exact even_succ_toggle p.reads
    · exact hmessage
    · exact hlt
    · exact hfreed
  | release i =>
    obtain ⟨n, hi⟩ := hproper
    obtain ⟨hread, b, hmessage, hlt, hfreed⟩ := h.last_of_reading hi
    have hfile : (elevatorProcRelease p.file).2 = { p.file with freed := p.file.freed ++ [b] } := by
      simp [elevatorProcRelease, hmessage]
    refine ⟨?_, .inr ⟨?_, b, ?_, ?_, ?_⟩⟩
    all_goals simp only [step, hfile]
    · intro b' hb'
      rcases List.mem_append.1 hb' with hb' | hb'
      · exact h.freed b' hb'
      · exact List.mem_singleton.1 hb' ▸ hlt
    · exact hread
    · exact hmessage
    · exact hlt
    · simp

/-- What a read returns while the pointer leads to the last buffer. -/
theorem Pointing.read {p : Proc} (h : Pointing p) {i n : Nat} (hi : p.phase i = .reading n)
    (s : State) : (elevatorProcRead s p.file).1 =
      if Even p.reads then if p.released = true then .fault else .text (report s)
      else .text "" := by
  obtain ⟨hread, b, hmessage, -, hfreed⟩ := h.last_of_reading hi
  by_cases heven : Even p.reads
  · have hclear : (!p.file.readP) = false := by simp [hread, heven]
    by_cases hb : b ∈ p.file.freed
    · rw [if_pos heven, if_pos (hfreed.1 hb)]
      simp [elevatorProcRead, hclear, hmessage, hb]
    · rw [if_pos heven, if_neg fun hr => hb (hfreed.2 hr)]
      simp [elevatorProcRead, hclear, hmessage, hb]
  · have hset : (!p.file.readP) = true := by simp [hread, heven]
    rw [if_neg heven]
    simp [elevatorProcRead, hset]

/-- A read returns what its session is owed. -/
def Answers (p : Proc) : Call → Prop
  | .read i s => (p.phase i = .reading 0 → (elevatorProcRead s p.file).1 = .text (report s)) ∧
    (p.phase i = .reading 1 → (elevatorProcRead s p.file).1 = .text "")
  | _ => True

theorem answers_iff {c : Call} {p : Proc} (h : Pointing p) : Answers p c ↔ Aligned p c := by
  cases c with
  | «open» i kmalloc => exact Iff.rfl
  | release i => exact Iff.rfl
  | read i s =>
    refine and_congr (imp_congr_right fun hi => ?_) (imp_congr_right fun hi => ?_)
    · rw [h.read hi]
      by_cases heven : Even p.reads
      · cases hr : p.released <;> simp [heven]
      · simp [heven, (report_ne_empty s).symm]
    · rw [h.read hi]
      by_cases heven : Even p.reads
      · cases hr : p.released <;> simp [heven, report_ne_empty s]
      · simp [heven]

/-! ## A session alone -/

/-- The file after the calls of a session: as the session has left it, whatever the others do. -/
structure Own (p : Proc) (i : Nat) (calls : List Call) : Prop where
  fresh : p.phase i = .fresh → own i calls = []
  reading : ∀ n, p.phase i = .reading n →
    (run step (own i calls) init).file = ⟨decide (Even n), some 0, 1, []⟩

theorem own_snoc (i : Nat) (calls : List Call) (c : Call) :
    own i (calls ++ [c]) = if c.session = i then own i calls ++ [c] else own i calls := by
  rw [own, List.filter_append]
  split_ifs with hi
  · rw [List.filter_cons_of_pos (by simpa using hi)]
    rfl
  · rw [List.filter_cons_of_neg (by simpa using hi)]
    exact List.append_nil _

/-- The other sessions leave the phase of session `i` alone. -/
theorem step_phase_ne {c : Call} {p : Proc} {i : Nat} (h : c.session ≠ i) :
    (step c p).phase i = p.phase i := by
  cases c <;> exact Function.update_of_ne (Ne.symm h) _ _

theorem own_step {c : Call} {p : Proc} {i : Nat} {calls : List Call} (h : Own p i calls)
    (hproper : Proper p c) : Own (step c p) i (calls ++ [c]) := by
  by_cases hi : c.session = i
  · subst hi
    cases c with
    | «open» i kmalloc =>
      have hown : own i calls = [] := h.fresh hproper
      have hphase : (step (.open i kmalloc) p).phase i = if kmalloc then .reading 0 else .closed :=
        Function.update_self ..
      refine ⟨?_, ?_⟩
      · intro hf
        exact absurd (hphase.symm.trans hf) (by split_ifs <;> simp)
      · intro n hn
        cases kmalloc with
        | false => exact absurd (hphase.symm.trans hn) (by simp)
        | true =>
          obtain rfl : 0 = n := by simpa using hphase.symm.trans hn
          rw [own_snoc, if_pos rfl]
          show (run step (own i calls ++ _) init).file = _
          rw [hown]
          rfl
    | read i s =>
      obtain ⟨n, hn⟩ := hproper
      have hfile : (run step (own i calls) init).file = _ := h.reading n hn
      have hphase : (step (.read i s) p).phase i = .reading (n + 1) :=
        (Function.update_self ..).trans (congrArg Phase.read hn)
      refine ⟨?_, ?_⟩
      · intro hf
        exact absurd (hphase.symm.trans hf) (by simp)
      · intro m hm
        obtain rfl : n + 1 = m := by simpa using hphase.symm.trans hm
        rw [own_snoc, if_pos rfl, run_append]
        show (elevatorProcRead s (run step (own i calls) init).file).2 = _
        rw [hfile, ← even_succ_toggle]
        by_cases heven : Even n <;> simp [elevatorProcRead, heven]
    | release i =>
      have hphase : (step (.release i) p).phase i = .closed := Function.update_self ..
      refine ⟨?_, ?_⟩
      · intro hf
        exact absurd (hphase.symm.trans hf) (by simp)
      · intro n hn
        exact absurd (hphase.symm.trans hn) (by simp)
  · refine ⟨?_, ?_⟩
    · intro hf
      rw [step_phase_ne hi] at hf
      rw [own_snoc, if_neg hi]
      exact h.fresh hf
    · intro n hn
      rw [step_phase_ne hi] at hn
      rw [own_snoc, if_neg hi]
      exact h.reading n hn

theorem own_run (i : Nat) {calls : List Call} (h : Along step Proper calls init) :
    Own (run step calls init) i calls := by
  induction calls using List.reverseRecOn with
  | nil => exact ⟨fun _ => rfl, fun n hn => by cases hn⟩
  | append_singleton calls c ih =>
    obtain ⟨hcalls, hc, -⟩ := along_append.1 h
    rw [run_append]
    exact own_step (ih hcalls) hc

/-- Alone, a session reads the report and the end of the file in turn. -/
theorem readAfter_own {calls : List Call} {i n : Nat} (h : Along step Proper calls init)
    (hi : (run step calls init).phase i = .reading n) (s : State) :
    readAfter (own i calls) s = if Even n then .text (report s) else .text "" := by
  rw [readAfter, (own_run i h).reading n hi]
  by_cases heven : Even n <;> simp [elevatorProcRead, heven]

/-! ## Two readers -/

theorem Run.undisturbed_iff_answers (r : Run) :
    r.Undisturbed ↔ Along step Answers r.calls init := by
  rw [along_iff_forall]
  constructor
  · intro h pre c hpre
    cases c with
    | «open» i kmalloc => trivial
    | release i => trivial
    | read i s =>
      refine ⟨?_, ?_⟩
      · intro hi
        exact (h pre i s 0 hpre hi).1 rfl
      · intro hi
        exact (h pre i s 1 hpre hi).2.1 rfl
  · intro h pre i s n hpre hi
    obtain ⟨hfirst, hsecond⟩ := h pre (.read i s) hpre
    have hproper : Along step Proper pre init := by
      obtain ⟨post, hpost⟩ := hpre
      have hall := r.proper
      rw [← hpost, List.append_assoc] at hall
      exact (along_append.1 hall).1
    refine ⟨?_, ?_, ?_⟩
    · rintro rfl
      exact hfirst hi
    · rintro rfl
      exact hsecond hi
    · intro hn
      rw [readAfter_own hproper hi]
      by_cases hzero : n = 0
      · subst hzero
        exact hfirst hi
      · obtain rfl : n = 1 := by omega
        exact hsecond hi

/-- **Sessions do not disturb each other if and only if their reads are aligned.** -/
theorem undisturbed_iff (r : Run) (hgranted : ∀ c ∈ r.calls, c.Granted) :
    r.Undisturbed ↔ Along step Aligned r.calls init := by
  have hall : Along step (fun p c => Proper p c ∧ c.Granted) r.calls init := by
    refine along_and.2 ⟨r.proper, along_iff_forall.2 ?_⟩
    intro pre c hpre
    exact hgranted c (hpre.subset (List.mem_append_right _ List.mem_cons_self))
  rw [r.undisturbed_iff_answers]
  refine along_congr ?_ ?_ pointing_init hall
  · intro c p h hc
    exact pointing_step h hc.1 hc.2
  · intro c p h _
    exact answers_iff h

instance (p : Proc) : ∀ c : Call, Decidable (Aligned p c)
  | .open _ _ => isTrue trivial
  | .read _ _ => inferInstanceAs (Decidable (_ ∧ _))
  | .release _ => isTrue trivial

/-- One session reads to the end of the file, and then another does. -/
def inTurn : Run where
  calls :=
    [.open 0 true, .read 0 elevatorInit, .read 0 elevatorInit, .release 0, .open 1 true,
      .read 1 elevatorInit, .read 1 elevatorInit, .release 1]
  proper := ⟨rfl, ⟨0, rfl⟩, ⟨1, rfl⟩, ⟨2, rfl⟩, rfl, ⟨0, rfl⟩, ⟨1, rfl⟩, ⟨2, rfl⟩, trivial⟩

theorem inTurn_undisturbed : inTurn.Undisturbed :=
  (undisturbed_iff inTurn (by simp [inTurn, Call.Granted])).2 (by decide)

/-- Two sessions are open, and each reads once: the second reads the end of the file. -/
def overlapping : Run where
  calls := [.open 0 true, .open 1 true, .read 0 elevatorInit, .read 1 elevatorInit]
  proper := ⟨rfl, rfl, ⟨0, rfl⟩, ⟨0, rfl⟩, trivial⟩

theorem overlapping_disturbed : ¬ overlapping.Undisturbed := by
  intro h
  have hfirst := (h [.open 0 true, .open 1 true, .read 0 elevatorInit] 1 elevatorInit 0
    List.prefix_rfl rfl).1 rfl
  have hend : readAfter [.open 0 true, .open 1 true, .read 0 elevatorInit] elevatorInit =
      .text "" := rfl
  rw [hend] at hfirst
  exact report_ne_empty elevatorInit (Reading.text.inj hfirst).symm

/-! ## Buffers -/

/-- Nobody is reading. -/
def Quiet (p : Proc) : Prop := ∀ i n, p.phase i ≠ .reading n

/-- Every session has been released. -/
def Run.Complete (r : Run) : Prop := Quiet (run step r.calls init)

/-- The read does not write through `NULL`, or to a freed buffer. -/
def WritesSafely (p : Proc) : Call → Prop
  | .read _ s => (elevatorProcRead s p.file).1 ≠ .fault
  | _ => True

/-- Every buffer is freed once, and no report is written to one that has been. -/
structure Run.Disciplined (r : Run) : Prop where
  once : ∀ b < (run step r.calls init).file.buffers,
    (run step r.calls init).file.freed.count b = 1
  writes : Along step WritesSafely r.calls init

/-- Whoever opens the file is alone. -/
def Exclusive (p : Proc) : Call → Prop
  | .open _ _ => Quiet p
  | _ => True

/-- Every buffer but the one in use has been freed once. -/
structure Serial (p : Proc) : Prop where
  freed : ∀ b ∈ p.file.freed, b < p.file.buffers
  state : (Quiet p ∧ ∀ b < p.file.buffers, p.file.freed.count b = 1) ∨
    ∃ i b, (∃ n, p.phase i = .reading n) ∧ (∀ j ≠ i, ∀ n, p.phase j ≠ .reading n) ∧
      p.file.message = some b ∧ b < p.file.buffers ∧ p.file.freed.count b = 0 ∧
      ∀ b' < p.file.buffers, b' ≠ b → p.file.freed.count b' = 1

/-- Nothing will free buffer `b` any more. -/
def Lost (b : Nat) (p : Proc) : Prop :=
  p.file.message ≠ some b ∧ b < p.file.buffers ∧ p.file.freed.count b = 0

theorem read_file (s : State) (f : File) :
    (elevatorProcRead s f).2 = { f with readP := !f.readP } := by
  unfold elevatorProcRead
  dsimp only
  split_ifs
  · rfl
  · cases f.message with
    | none => rfl
    | some b =>
      dsimp only
      split_ifs <;> rfl

/-- An open loses whatever buffer has not been freed yet. -/
theorem lost_of_open {b : Nat} {p : Proc} (hlt : b < p.file.buffers)
    (hcount : p.file.freed.count b = 0) (i : Nat) (kmalloc : Bool) :
    Lost b (step (.open i kmalloc) p) := by
  cases kmalloc with
  | false => exact ⟨by simp [step, elevatorProcOpen], hlt, hcount⟩
  | true =>
    refine ⟨?_, hlt.trans (Nat.lt_succ_self _), hcount⟩
    intro heq
    exact absurd (Option.some.inj heq) hlt.ne'

theorem lost_step {b : Nat} {p : Proc} (h : Lost b p) (c : Call) : Lost b (step c p) := by
  obtain ⟨hmessage, hlt, hcount⟩ := h
  cases c with
  | «open» i kmalloc => exact lost_of_open hlt hcount i kmalloc
  | read i s =>
    show Lost b { p with file := (elevatorProcRead s p.file).2, phase := _, reads := _ }
    rw [read_file]
    exact ⟨hmessage, hlt, hcount⟩
  | release i =>
    show Lost b { p with file := (elevatorProcRelease p.file).2, phase := _, released := _ }
    unfold elevatorProcRelease
    split
    · rename_i b' hb'
      have hne : b' ≠ b := fun heq => hmessage (heq ▸ hb')
      refine ⟨hmessage, hlt, ?_⟩
      rw [List.count_append, hcount]
      simp [hne]
    · exact ⟨hmessage, hlt, hcount⟩

theorem serial_init : Serial init where
  freed := by simp [init]
  state := .inl ⟨fun i n => by simp [init], by simp [init]⟩

/-- Whose session it is, if somebody is reading. -/
theorem Serial.reader {p : Proc} (h : Serial p) {i n : Nat} (hi : p.phase i = .reading n) :
    ∃ b, (∀ j ≠ i, ∀ m, p.phase j ≠ .reading m) ∧ p.file.message = some b ∧
      b < p.file.buffers ∧ p.file.freed.count b = 0 ∧
      ∀ b' < p.file.buffers, b' ≠ b → p.file.freed.count b' = 1 := by
  rcases h.state with ⟨hquiet, -⟩ | ⟨j, b, -, hothers, hb⟩
  · exact absurd hi (hquiet i n)
  · by_cases hj : i = j
    · subst hj
      exact ⟨b, hothers, hb⟩
    · exact absurd hi (hothers i hj n)

theorem serial_open {p : Proc} (h : Serial p) (hquiet : Quiet p) (i : Nat) (kmalloc : Bool) :
    Serial (step (.open i kmalloc) p) := by
  have honce : ∀ b < p.file.buffers, p.file.freed.count b = 1 := by
    rcases h.state with ⟨-, honce⟩ | ⟨j, b, ⟨n, hj⟩, -⟩
    · exact honce
    · exact absurd hj (hquiet j n)
  cases kmalloc with
  | false =>
    refine ⟨h.freed, .inl ⟨?_, honce⟩⟩
    intro j n
    by_cases hj : j = i
    · simp [step, hj]
    · simpa [step, hj] using hquiet j n
  | true =>
    refine ⟨?_, .inr ⟨i, p.file.buffers, ⟨0, Function.update_self ..⟩, ?_, rfl,
      Nat.lt_succ_self _, ?_, ?_⟩⟩
    · intro b hb
      exact (h.freed b hb).trans (Nat.lt_succ_self _)
    · intro j hj n
      simpa [step, hj] using hquiet j n
    · refine List.count_eq_zero_of_not_mem ?_
      intro hb
      exact absurd (h.freed _ hb) (lt_irrefl _)
    · intro b hb hne
      exact honce b (Nat.lt_of_le_of_ne (Nat.le_of_lt_succ hb) hne)

theorem serial_read {p : Proc} (h : Serial p) {i n : Nat} (hi : p.phase i = .reading n)
    (s : State) : Serial (step (.read i s) p) := by
  obtain ⟨b, hothers, hb⟩ := h.reader hi
  have hfile : (step (.read i s) p).file = { p.file with readP := !p.file.readP } := read_file s _
  have hphase : (step (.read i s) p).phase i = .reading (n + 1) :=
    (Function.update_self ..).trans (congrArg Phase.read hi)
  refine ⟨?_, .inr ⟨i, b, ⟨_, hphase⟩, ?_, ?_⟩⟩
  · rw [hfile]
    exact h.freed
  · intro j hj m
    rw [step_phase_ne (Ne.symm hj)]
    exact hothers j hj m
  · rw [hfile]
    exact hb

theorem serial_release {p : Proc} (h : Serial p) {i n : Nat} (hi : p.phase i = .reading n) :
    Serial (step (.release i) p) := by
  obtain ⟨b, hothers, hmessage, hlt, hcount, honce⟩ := h.reader hi
  have hfile : (step (.release i) p).file = { p.file with freed := p.file.freed ++ [b] } := by
    simp [step, elevatorProcRelease, hmessage]
  refine ⟨?_, .inl ⟨?_, ?_⟩⟩
  · intro b' hb'
    rw [hfile] at hb' ⊢
    rcases List.mem_append.1 hb' with hb' | hb'
    · exact h.freed b' hb'
    · exact List.mem_singleton.1 hb' ▸ hlt
  · intro j m
    by_cases hj : j = i
    · simp [step, hj]
    · rw [step_phase_ne (Ne.symm hj)]
      exact hothers j hj m
  · intro b' hb'
    rw [hfile] at hb' ⊢
    rw [List.count_append]
    by_cases hne : b' = b
    · simp [hne, hcount]
    · simpa [Ne.symm hne] using honce b' hb' hne

theorem serial_step {c : Call} {p : Proc} (h : Serial p) (hproper : Proper p c)
    (hexcl : Exclusive p c) : Serial (step c p) := by
  cases c with
  | «open» i kmalloc => exact serial_open h hexcl i kmalloc
  | read i s =>
    obtain ⟨n, hi⟩ := hproper
    exact serial_read h hi s
  | release i =>
    obtain ⟨n, hi⟩ := hproper
    exact serial_release h hi

/-- The buffer in use has not been freed. -/
theorem Serial.writesSafely {c : Call} {p : Proc} (h : Serial p) (hproper : Proper p c) :
    WritesSafely p c := by
  cases c with
  | «open» i kmalloc => trivial
  | release i => trivial
  | read i s =>
    obtain ⟨n, hi⟩ := hproper
    obtain ⟨b, -, hmessage, -, hcount, -⟩ := h.reader hi
    have hb : b ∉ p.file.freed := List.count_eq_zero.1 hcount
    cases hread : p.file.readP <;> simp [WritesSafely, elevatorProcRead, hread, hmessage, hb]

/-- While somebody reads, that is the reader's buffer. -/
theorem lost_open {p : Proc} (h : Serial p) (hquiet : ¬ Quiet p) (i : Nat) (kmalloc : Bool) :
    ∃ b, Lost b (step (.open i kmalloc) p) := by
  simp only [Quiet, not_forall, not_not] at hquiet
  obtain ⟨j, n, hj⟩ := hquiet
  obtain ⟨b, -, hmessage, hlt, hcount, -⟩ := h.reader hj
  exact ⟨b, lost_of_open hlt hcount i kmalloc⟩

theorem Run.disciplined_of_exclusive (r : Run) (hdone : r.Complete)
    (h : Along step Exclusive r.calls init) : r.Disciplined := by
  have hguard := along_and.2 ⟨r.proper, h⟩
  have hserial : Serial (run step r.calls init) := by
    refine run_guarded ?_ serial_init hguard
    intro c p hp hc
    exact serial_step hp hc.1 hc.2
  refine ⟨?_, ?_⟩
  · rcases hserial.state with ⟨-, honce⟩ | ⟨i, b, ⟨n, hi⟩, -⟩
    · exact honce
    · exact absurd hi (hdone i n)
  · refine (along_congr (P := WritesSafely) ?_ ?_ serial_init hguard).2 hguard
    · intro c p hp hc
      exact serial_step hp hc.1 hc.2
    · intro c p hp hc
      exact iff_of_true (hp.writesSafely hc.1) hc

theorem Run.Disciplined.exclusive {r : Run} (h : r.Disciplined) :
    Along step Exclusive r.calls init := by
  by_contra hno
  obtain ⟨pre, c, post, hcalls, hpre, hc⟩ := exists_first_of_not_along hno
  have hproper := r.proper
  rw [hcalls] at hproper
  have hserial : Serial (run step pre init) := by
    refine run_guarded ?_ serial_init (along_and.2 ⟨(along_append.1 hproper).1, hpre⟩)
    intro c p hp hc
    exact serial_step hp hc.1 hc.2
  cases c with
  | read i s => exact hc trivial
  | release i => exact hc trivial
  | «open» i kmalloc =>
    obtain ⟨b, hlost⟩ := lost_open hserial hc i kmalloc
    have hend : Lost b (run step r.calls init) := by
      rw [hcalls, run_append, run_cons]
      apply run_invariant _ post hlost
      intro c p hp
      exact lost_step hp c
    have honce := h.once b hend.2.1
    rw [hend.2.2] at honce
    exact absurd honce (by decide)

/-- **Buffers are freed exactly once and not used afterwards if and only if no session is opened
while another is open.** -/
theorem disciplined_iff (r : Run) (hdone : r.Complete) :
    r.Disciplined ↔ Along step Exclusive r.calls init :=
  ⟨Run.Disciplined.exclusive, r.disciplined_of_exclusive hdone⟩

theorem quiet_of_closed {p : Proc} (h : ∀ i, p.phase i = .fresh ∨ p.phase i = .closed) :
    Quiet p := by
  intro i n hi
  rcases h i with hf | hc
  · exact absurd (hf.symm.trans hi) (by simp)
  · exact absurd (hc.symm.trans hi) (by simp)

/-- One session after another, and one in between that gets no buffer. -/
def relay : Run where
  calls := [.open 0 true, .read 0 elevatorInit, .release 0, .open 1 false, .open 2 true, .release 2]
  proper := ⟨rfl, ⟨0, rfl⟩, ⟨1, rfl⟩, rfl, rfl, ⟨0, rfl⟩, trivial⟩

theorem relay_disciplined : relay.Disciplined := by
  refine (disciplined_iff relay ?_).2 ⟨?_, trivial, trivial, ?_, ?_, trivial, trivial⟩
  all_goals
    apply quiet_of_closed
    intro i
    simp only [run_cons, run_nil, relay, step, init, Function.update_apply]
    grind

/-- The second session frees its buffer twice, and the first one's is never freed. -/
def replaced : Run where
  calls := [.open 0 true, .open 1 true, .release 0, .read 1 elevatorInit, .release 1]
  proper := ⟨rfl, rfl, ⟨0, rfl⟩, ⟨0, rfl⟩, ⟨1, rfl⟩, trivial⟩

theorem replaced_undisciplined : replaced.Complete ∧ ¬ replaced.Disciplined := by
  refine ⟨?_, ?_⟩
  · apply quiet_of_closed
    intro i
    simp only [replaced, run_cons, run_nil, step, init, Function.update_apply]
    grind
  · intro h
    exact absurd (h.once 0 (by decide)) (by decide)

end KernelElevator.ProcFile
