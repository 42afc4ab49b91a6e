import KernelElevator.ProcFile
import KernelElevator.Buffers
import Mathlib.Algebra.BigOperators.Group.List.Basic
import Mathlib.Algebra.GroupWithZero.Nat

/-!
# Reads with buffers of any size

A reader hands `elevator_proc_read` a buffer and its size, and reads until it is told 0. The
function looks at neither the size nor the offset: its first call copies the whole report, and the
second returns 0. So a reader gets what it asked for if and only if the report fits in its first
buffer.

* `Session` — a reader with the file for itself, and the sizes of its buffers.
* `reportSize` — the size of the report, from the digits of the numbers in it.
* `read_contract_iff` — when no read copies more than fits, and the parts make up the report.
-/

namespace KernelElevator

/-- The digits of a number, and its sign. -/
def width (n : Int) : Nat := strlen (toString n)

/-- The size of the report. -/
def reportSize (s : State) : Nat :=
  580 + width s.state.code + width s.currentFloor + width s.nextFloor +
    width (s.currentWeight.tdiv 2) + width s.currentUnits + width s.totalServed +
    ((List.finRange 10).map fun k => width (s.served k)).sum +
    ((List.finRange 10).map fun k =>
      width ((waitingSums (s.floors k)).1.tdiv 2) + width (waitingSums (s.floors k)).2).sum

theorem strlen_strcatLines_eq (line : Fin 10 → String) (message : String) :
    strlen (strcatLines line message) =
      strlen message + ((List.finRange 10).map fun k => strlen (line k)).sum := by
  have hloop (ks : List (Fin 10)) : strlen (ks.foldl (fun message k => message ++ line k) message) =
      strlen message + (ks.map fun k => strlen (line k)).sum := by
    induction ks generalizing message with
    | nil => rfl
    | cons k ks ih =>
      rw [List.foldl_cons, ih, strlen_append, List.map_cons, List.sum_cons, Nat.add_assoc]
  exact hloop (List.finRange 10)

theorem strlen_statusText (s : State) : strlen (statusText s) =
    90 + width s.state.code + width s.currentFloor + width s.nextFloor +
      width (s.currentWeight.tdiv 2) + width s.currentUnits + width s.totalServed := by
  have hwords : strlen "\nSTATE: " = 8 ∧ strlen "\nCurrent floor: " = 16 ∧
      strlen "\nNext floor: " = 13 ∧ strlen "\nWeight units: " = 15 ∧ strlen "." = 1 ∧
      strlen "\nPassenger units: " = 18 ∧ strlen "\nTotal serviced: " = 17 ∧ strlen "\n" = 1 := by
    decide
  have hdecimal : strlen (toString (decimalOf s.oddChildren)) = 1 := by
    rw [decimalOf]
    split_ifs <;> decide
  unfold statusText width
  simp only [strlen_append]
  omega

theorem strlen_report (s : State) : strlen (report s) = reportSize s := by
  have hwords : strlen "\n" = 1 ∧ strlen "People Waiting\n" = 15 := by decide
  have hserved (k : Fin 10) : strlen (servedLine s k) =
      18 + strlen (toString (floorOf k)) + width (s.served k) := by
    have hwords : strlen "Served on floor " = 16 ∧ strlen ":" = 1 ∧ strlen "\n" = 1 := by decide
    unfold servedLine width
    simp only [strlen_append]
    omega
  have hwaiting (k : Fin 10) : strlen (waitingLine s k) =
      27 + strlen (toString (floorOf k)) + (width ((waitingSums (s.floors k)).1.tdiv 2) +
        width (waitingSums (s.floors k)).2) := by
    have hwords : strlen "floor: " = 7 ∧ strlen ", weight: " = 10 ∧ strlen ", space: " = 9 ∧
        strlen "\n" = 1 := by decide
    unfold waitingLine width
    simp only [strlen_append]
    omega
  have hfloors : ((List.finRange 10).map fun k => strlen (toString (floorOf k))).sum = 11 := by
    decide
  have hconst (n : Nat) : ((List.finRange 10).map fun _ => n).sum = 10 * n := by
    rw [List.map_const', List.sum_replicate_nat, List.length_finRange]
  unfold report reportSize
  simp only [strlen_append, strlen_strcatLines_eq, strlen_statusText, hserved, hwaiting,
    List.sum_map_add, hconst]
  omega

namespace ProcFile

open Machine

/-! ## Sessions -/

/-- What the reads of a session return, each with the size of the buffer it was given. -/
def transcript (s : State) : List Nat → File → List (Nat × Reading)
  | [], _ => []
  | size :: sizes, f =>
    (size, (elevatorProcRead s f).1) :: transcript s sizes (elevatorProcRead s f).2

/-- The last read, and no other, has returned 0. -/
def ReadToEnd (rs : List (Nat × Reading)) : Prop :=
  ∃ parts size, rs = parts ++ [(size, .text "")] ∧ ∀ r ∈ parts, r.2 ≠ .text ""

/-- What a read returned, as a text. -/
def Reading.bytes : Reading → String
  | .text copied => copied
  | .fault => ""

/-- The calls that others have made before, and a session that has the file for itself: it opens it,
and reads with buffers of these sizes until a read returns 0. The elevator does not change. -/
structure Session where
  before : List Call
  s : State
  first : Nat
  rest : List Nat
  pos : ∀ size ∈ first :: rest, 0 < size
  toEnd : ReadToEnd
    (transcript s (first :: rest) (elevatorProcOpen true (run step before init).file).2)

namespace Session

/-- The file once the session has opened it. -/
def file (x : Session) : File := (elevatorProcOpen true (run step x.before init).file).2

def reads (x : Session) : List (Nat × Reading) := transcript x.s (x.first :: x.rest) x.file

/-- Every read copies a text that fits, and the texts make up the report. -/
def KeepsContract (x : Session) : Prop :=
  (∀ r ∈ x.reads, r.2 ≠ .fault ∧ strlen r.2.bytes ≤ r.1) ∧
  (x.reads.map fun r => r.2.bytes).foldl (· ++ ·) "" = report x.s

end Session

/-- The names of the buffers that have been used are taken. -/
def Bounded (f : File) : Prop :=
  (∀ b ∈ f.freed, b < f.buffers) ∧ ∀ b, f.message = some b → b < f.buffers

theorem bounded_step (c : Call) {p : Proc} (h : Bounded p.file) : Bounded (step c p).file := by
  obtain ⟨hfreed, hmessage⟩ := h
  cases c with
  | «open» i kmalloc =>
    cases kmalloc with
    | false => exact ⟨hfreed, fun b hb => absurd hb (by simp [step, elevatorProcOpen])⟩
    | true =>
      refine ⟨fun b hb => (hfreed b hb).trans (Nat.lt_succ_self _), ?_⟩
      intro b hb
      obtain rfl : p.file.buffers = b := Option.some.inj hb
      exact Nat.lt_succ_self _
  | read i s =>
    simp only [step, read_file]
    exact ⟨hfreed, hmessage⟩
  | release i =>
    cases hm : p.file.message with
    | none =>
      simp only [step, elevatorProcRelease, hm]
      exact ⟨hfreed, hm ▸ hmessage⟩
    | some b =>
      simp only [step, elevatorProcRelease, hm]
      refine ⟨?_, hm ▸ hmessage⟩
      intro b' hb'
      rcases List.mem_append.1 hb' with hb' | hb'
      · exact hfreed b' hb'
      · exact List.mem_singleton.1 hb' ▸ hmessage b hm

theorem bounded_run (calls : List Call) : Bounded (run step calls init).file := by
  have hinit : Bounded init.file := ⟨by simp [init], by simp [init]⟩
  exact run_invariant (I := fun p : Proc => Bounded p.file) (fun c p h => bounded_step c h) calls
    hinit

theorem read_opened {f : File} (h : Bounded f) (s : State) :
    (elevatorProcRead s (elevatorProcOpen true f).2).1 = .text (report s) := by
  have hnew : f.buffers ∉ f.freed := fun hmem => lt_irrefl _ (h.1 _ hmem)
  simp [elevatorProcRead, elevatorProcOpen, hnew]

theorem read_opened_twice (f : File) (s : State) :
    (elevatorProcRead s (elevatorProcRead s (elevatorProcOpen true f).2).2).1 = .text "" := by
  rw [read_file]
  simp [elevatorProcRead, elevatorProcOpen]

/-- A session takes two reads, whatever the sizes. -/
theorem Session.reads_eq (x : Session) :
    ∃ second, x.reads = [(x.first, .text (report x.s)), (second, .text "")] := by
  obtain ⟨parts, size, hparts, hnonzero⟩ := x.toEnd
  have hfirst := read_opened (bounded_run x.before) x.s
  cases hrest : x.rest with
  | nil =>
    -- The only read has returned the report, and not 0.
    rw [hrest, transcript, transcript, hfirst] at hparts
    have hlast : (size, Reading.text "") ∈ [(x.first, Reading.text (report x.s))] :=
      hparts ▸ List.mem_append_right parts List.mem_cons_self
    have hempty := (Prod.mk.inj (List.mem_singleton.1 hlast)).2
    exact absurd (Reading.text.inj hempty).symm (report_ne_empty x.s)
  | cons second rest =>
    refine ⟨second, ?_⟩
    rw [Session.reads, Session.file, hrest]
    rw [hrest] at hparts
    rw [transcript, transcript, hfirst, read_opened_twice] at hparts ⊢
    rcases parts with - | ⟨a, - | ⟨b, parts⟩⟩
    · exact absurd (List.cons.inj hparts).2 (by simp)
    · rw [(List.cons.inj (List.cons.inj hparts).2).2]
    · -- The second read has returned 0, so it is the last.
      have hb := (List.cons.inj (List.cons.inj hparts).2).1
      exact absurd (congrArg Prod.snd hb).symm (hnonzero b (by simp))

theorem Session.keepsContract_iff (x : Session) :
    x.KeepsContract ↔ strlen (report x.s) ≤ x.first := by
  obtain ⟨second, hreads⟩ := x.reads_eq
  have hjoin : (x.reads.map fun r => r.2.bytes).foldl (· ++ ·) "" = report x.s := by
    simp [hreads, Reading.bytes]
  rw [Session.KeepsContract, and_iff_left hjoin, hreads]
  constructor
  · intro h
    exact (h _ List.mem_cons_self).2
  · intro h r hr
    rcases List.mem_cons.1 hr with rfl | hr
    · exact ⟨by simp, h⟩
    · rw [List.mem_singleton.1 hr]
      exact ⟨by simp, Nat.zero_le _⟩

/-- A buffer as large as `message` is always enough. -/
theorem Session.keepsContract_of_entrySize (x : Session) (hints : x.s.printed.Ints)
    (h : entrySize ≤ x.first) : x.KeepsContract := by
  rw [x.keepsContract_iff, report_eq_text]
  exact hints.strlen_text.trans (le_trans (by decide) h)

/-- **A reader gets what it asked for if and only if its first buffer is as large as the
report.** -/
theorem read_contract_iff (x : Session) : x.KeepsContract ↔ reportSize x.s ≤ x.first := by
  rw [x.keepsContract_iff, strlen_report]

/-- Buffers of one byte, for a reader who wants the report byte by byte. -/
def byteByByte : Session where
  before := []
  s := elevatorInit
  first := 1
  rest := [1]
  pos := by simp
  toEnd := ⟨[(1, .text (report elevatorInit))], 1, rfl, by simp [report_ne_empty]⟩

theorem byteByByte_overrun : ¬ byteByByte.KeepsContract := by
  rw [Session.keepsContract_iff, strlen_report]
  decide

end ProcFile

end KernelElevator
