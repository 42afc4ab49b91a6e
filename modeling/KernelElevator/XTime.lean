import KernelElevator.Library.Decimal
import Mathlib.Algebra.Group.Int.Defs
import Mathlib.Data.List.Flatten
import Mathlib.Tactic.Common

/-!
# The clock file

`my_xtime.c`: a read of `/proc/my_xtime` prints the time, and the time since the previous read,
which it keeps in two `int`s. The second read of a session, which only says that the text is over,
is a read too: it stores the time and prints into the buffer, and returns 0. So what a report calls
the elapsed time starts at the end of the previous `cat`, and there is none if the nanoseconds
happened to be 0 then.

* `myXtimeOpenProc`, `myXtimeReadProc`, `myXtimeReleaseProc` — the operations of the file.
* `Run` — sessions of one reader at a time, and a clock that does not go back.
* `reports_elapsed_iff` — when every report tells the time since the previous one.
-/

namespace KernelElevator.MyXtime

/-! ## Times -/

/-- Conversion to `int`. -/
def cInt (x : Int) : Int := x.bmod (2 ^ 32)

/-- The result of an operation on `long`s. -/
def cLong (x : Int) : Int := x.bmod (2 ^ 64)

/-- What `current_kernel_time` returns: `tv_nsec` is normalised. -/
structure Timespec where
  sec : Int
  nsec : Int
  sec_range : -2 ^ 63 ≤ sec ∧ sec < 2 ^ 63
  nsec_range : 0 ≤ nsec ∧ nsec < 1000000000
  deriving DecidableEq

namespace Timespec

/-- In nanoseconds. -/
def total (t : Timespec) : Int := t.sec * 1000000000 + t.nsec

/-- The time from `u` to `t`, in seconds and nanoseconds. -/
def since (t u : Timespec) : Int × Int :=
  ((t.total - u.total) / 1000000000, (t.total - u.total) % 1000000000)

end Timespec

/-! ## The operations -/

/-- The globals of the module. -/
structure State where
  /-- The end-of-file toggle. -/
  rp1 : Bool
  oldSec : Int
  oldNsec : Int
  /-- The buffer behind `message_1`, if there is one. -/
  message : Option String

def loaded : State := ⟨false, 0, 0, none⟩

def myXtimeOpenProc (kmalloc : Bool) (s : State) : Int × State :=
  if kmalloc then (0, { s with rp1 := true, message := some "yooooo!/n" })
  else (-12, { s with rp1 := true, message := none }) -- -ENOMEM

/-- The time since the previous call, as `my_xtime_read_proc` computes it. -/
def elapsed (oldSec oldNsec : Int) (time : Timespec) : Int × Int :=
  if oldNsec > time.nsec then
    (cInt (cLong (cLong (time.sec - oldSec) - 1)),
      cInt (cLong (cLong (time.nsec - oldNsec) + 1000000000)))
  else (cInt (cLong (time.sec - oldSec)), cInt (cLong (time.nsec - oldNsec)))

/-- The text with an elapsed time. -/
def elapsedText (time : Timespec) (e : Int × Int) : String :=
  "current time: " ++ toString time.sec ++ "." ++ toString time.nsec ++ "\nelapsed time: " ++
    toString e.1 ++ "." ++ toString e.2 ++ "\n"

/-- The text without one. -/
def firstText (time : Timespec) : String :=
  "current time " ++ toString time.sec ++ "." ++ toString time.nsec ++ "\n"

/-- What a read at `time` prints into the buffer. -/
def sprintf (oldSec oldNsec : Int) (time : Timespec) : String :=
  if oldNsec ≠ 0 then elapsedText time (elapsed oldSec oldNsec time) else firstText time

/-- The text copied to the reader, empty when the call returns 0. -/
def myXtimeReadProc (time : Timespec) (s : State) : String × State :=
  let s := { s with
    message := s.message.map fun _ => sprintf s.oldSec s.oldNsec time
    oldSec := cInt time.sec
    oldNsec := cInt time.nsec
    rp1 := !s.rp1 }
  if s.rp1 then ("", s) else (s.message.getD "", s)

/-- `kfree(message_1)`; `message_2` is never allocated. -/
def myXtimeReleaseProc (s : State) : Int × State := (0, { s with message := none })

/-! ## Runs -/

inductive Call where
  | open (kmalloc : Bool)
  | read (time : Timespec)
  | release

/-- What a read returned. -/
structure Output where
  time : Timespec
  text : String

/-- What the reads among the calls return. -/
def outputs : List Call → State → List Output
  | [], _ => []
  | .open kmalloc :: cs, s => outputs cs (myXtimeOpenProc kmalloc s).2
  | .read time :: cs, s =>
    ⟨time, (myXtimeReadProc time s).1⟩ :: outputs cs (myXtimeReadProc time s).2
  | .release :: cs, s => outputs cs (myXtimeReleaseProc s).2

/-- A session of a reader: a failed open, or an open, reads at these times, and a release. -/
inductive Session where
  | refused
  | granted (times : List Timespec)

def Session.calls : Session → List Call
  | .refused => [.open false]
  | .granted times => .open true :: times.map .read ++ [.release]

def Session.times : Session → List Timespec
  | .refused => []
  | .granted times => times

/-- One reader at a time, and a clock that does not go back. -/
structure Run where
  sessions : List Session
  clock : (sessions.flatMap Session.times).Pairwise fun t u => t.total ≤ u.total

def Run.outputs (r : Run) : List Output := MyXtime.outputs (r.sessions.flatMap Session.calls) loaded

/-- Every non-empty text but the first one tells the time, and the time since the previous one. -/
def Run.ReportsElapsed (r : Run) : Prop :=
  ∀ pre x mid y post, r.outputs = pre ++ x :: mid ++ y :: post →
    x.text ≠ "" → (∀ z ∈ mid, z.text = "") → y.text ≠ "" →
    y.text = elapsedText y.time (y.time.since x.time)

/-! ## The condition -/

/-- A read of a session. Every other one, from the first on, is a report. -/
structure Read where
  time : Timespec
  reports : Bool

def alternate : Bool → List Timespec → List Read
  | _, [] => []
  | reports, t :: ts => ⟨t, reports⟩ :: alternate (!reports) ts

def Session.reads (session : Session) : List Read := alternate true session.times

def Run.reads (r : Run) : List Read := r.sessions.flatMap Session.reads

/-- Whenever a report `y` follows a report `x`, the last read before `y` was made at the time of
`x`, with a nonzero nanosecond field, and less than 2^31 seconds have passed since. -/
def Run.Steady (r : Run) : Prop :=
  ∀ pre x mid y post, r.reads = pre ++ x :: mid ++ y :: post →
    x.reports = true → (∀ z ∈ mid, z.reports = false) → y.reports = true →
    ((x :: mid).getLast (by simp)).time = x.time ∧ x.time.nsec ≠ 0 ∧
      (y.time.since x.time).1 < 2 ^ 31

/-! ## The arithmetic -/

theorem cInt_of_range {x : Int} (h : 0 ≤ x ∧ x < 2 ^ 31) : cInt x = x := by
  simp only [cInt, Int.bmod_def]
  omega

theorem cInt_le {x : Int} (h : 0 ≤ x) : cInt x ≤ x ∧ (cInt x = x → x < 2 ^ 31) := by
  simp only [cInt, Int.bmod_def]
  omega

/-- The `long` of an operation counts only modulo 2^32. -/
@[simp] theorem cInt_cLong (x : Int) : cInt (cLong x) = cInt x :=
  Int.bmod_bmod_of_dvd (by decide)

theorem cInt_congr {x y : Int} (z : Int) (h : cInt x = cInt y) : cInt (x + z) = cInt (y + z) :=
  Int.add_bmod_eq_add_bmod_right z h

theorem cInt_nsec (t : Timespec) : cInt t.nsec = t.nsec := by
  have h := t.nsec_range
  exact cInt_of_range (by omega)

theorem Timespec.eq_of_total {t u : Timespec} (h : t.total = u.total) : t = u := by
  have ht := t.nsec_range
  have hu := u.nsec_range
  simp only [Timespec.total] at h
  have hsec : t.sec = u.sec := by omega
  have hnsec : t.nsec = u.nsec := by omega
  cases t
  cases u
  simp_all

/-- The nanoseconds are exact, and the seconds are so modulo 2^32. -/
theorem elapsed_stored (t u : Timespec) :
    elapsed (cInt u.sec) (cInt u.nsec) t = (cInt (t.since u).1, (t.since u).2) := by
  have ht := t.nsec_range
  have hu := u.nsec_range
  have hsec : cInt (cLong (t.sec - cInt u.sec)) = cInt (t.sec - u.sec) := by
    rw [cInt_cLong]
    exact Int.sub_bmod_bmod
  simp only [elapsed, cInt_nsec, Timespec.since, Timespec.total]
  split_ifs with hlt
  · have hborrow : cInt (cLong (cLong (t.sec - cInt u.sec) - 1)) = cInt (t.sec - u.sec - 1) := by
      rw [cInt_cLong]
      exact cInt_congr (-1) hsec
    have hadd : cInt (cLong (cLong (t.nsec - u.nsec) + 1000000000)) =
        cInt (t.nsec - u.nsec + 1000000000) := by
      rw [cInt_cLong]
      exact cInt_congr 1000000000 (cInt_cLong _)
    rw [hborrow, hadd, cInt_of_range (x := t.nsec - u.nsec + 1000000000) (by omega)]
    refine Prod.ext ?_ ?_
    · refine congrArg cInt ?_
      omega
    · dsimp only
      omega
  · rw [hsec, cInt_cLong, cInt_of_range (x := t.nsec - u.nsec) (by omega)]
    refine Prod.ext ?_ ?_
    · refine congrArg cInt ?_
      omega
    · dsimp only
      omega

/-! ## The texts -/

/-- The two texts differ after `current time`. -/
theorem firstText_ne (t : Timespec) (e : Int × Int) : firstText t ≠ elapsedText t e := by
  intro h
  unfold firstText elapsedText at h
  have hblank : "current time " = "current time" ++ " " := by decide
  have hcolon : "current time: " = "current time" ++ ": " := by decide
  simp only [hblank, hcolon, String.append_assoc, String.append_right_inj] at h
  have hlist := congrArg String.toList h
  have hblank : " ".toList = [' '] := by simp
  have hcolon : ": ".toList = [':', ' '] := by simp
  simp only [String.toList_append, hblank, hcolon, List.cons_append] at hlist
  exact absurd (List.cons.inj hlist).1 (by decide)

theorem elapsedText_inj {t : Timespec} {e e' : Int × Int}
    (h : elapsedText t e = elapsedText t e') : e = e' := by
  obtain ⟨hsec, hnsec⟩ := Decimal.dotted_inj h
  exact Prod.ext hsec hnsec

theorem sprintf_ne (oldSec oldNsec : Int) (t : Timespec) : sprintf oldSec oldNsec t ≠ "" := by
  unfold sprintf
  split_ifs
  · exact Decimal.line_ne_empty _
  · exact Decimal.line_ne_empty _

/-- **When a report is right.** `x` is the previous report, `u` the last read before `y`. -/
theorem sprintf_right_iff {x u y : Timespec} (hxu : x.total ≤ u.total) (huy : u.total ≤ y.total) :
    sprintf (cInt u.sec) (cInt u.nsec) y = elapsedText y (y.since x) ↔
      u = x ∧ x.nsec ≠ 0 ∧ (y.since x).1 < 2 ^ 31 := by
  rw [sprintf, cInt_nsec]
  by_cases hzero : u.nsec = 0
  · rw [if_neg (not_not.2 hzero)]
    constructor
    · intro h
      exact absurd h (firstText_ne y _)
    · intro h
      obtain ⟨rfl, hne, -⟩ := h
      exact absurd hzero hne
  · rw [if_pos hzero, ← cInt_nsec u, elapsed_stored]
    have hsec := cInt_le (x := (y.since u).1) (by simp only [Timespec.since]; omega)
    constructor
    · intro h
      have hsince := elapsedText_inj h
      have hseconds : cInt (y.since u).1 = (y.since x).1 := (Prod.ext_iff.1 hsince).1
      have hnanos : (y.since u).2 = (y.since x).2 := (Prod.ext_iff.1 hsince).2
      -- The seconds printed are at most those since `u`, and those are at most those since `x`.
      have hsame : u = x := by
        apply Timespec.eq_of_total
        have hle := hsec.1
        rw [hseconds] at hle
        simp only [Timespec.since] at hle hnanos
        omega
      subst hsame
      exact ⟨rfl, hzero, hsec.2 hseconds⟩
    · intro h
      obtain ⟨rfl, -, hlt⟩ := h
      rw [cInt_of_range ⟨by simp only [Timespec.since]; omega, hlt⟩]

/-! ## What a run prints -/

/-- The fields that a read leaves behind. -/
def keep (t : Timespec) : Int × Int := (cInt t.sec, cInt t.nsec)

def stored (old : Int × Int) (rs : List Read) : Int × Int := rs.foldl (fun _ r => keep r.time) old

/-- What the reads return, from what is stored before them. -/
def render (old : Int × Int) : List Read → List Output
  | [] => []
  | r :: rs => ⟨r.time, if r.reports then sprintf old.1 old.2 r.time else ""⟩ ::
      render (keep r.time) rs

theorem render_append (old : Int × Int) (rs rs' : List Read) :
    render old (rs ++ rs') = render old rs ++ render (stored old rs) rs' := by
  induction rs generalizing old with
  | nil => rfl
  | cons r rs ih => exact congrArg _ (ih _)

def State.old (s : State) : Int × Int := (s.oldSec, s.oldNsec)

/-- The reads of a session that has been opened, and what follows. -/
theorem outputs_reads (times : List Timespec) (cs : List Call) {s : State}
    (hmessage : s.message.isSome) :
    ∃ t, outputs (times.map .read ++ cs) s = render s.old (alternate s.rp1 times) ++ outputs cs t ∧
      t.old = stored s.old (alternate s.rp1 times) := by
  induction times generalizing s with
  | nil => exact ⟨s, rfl, rfl⟩
  | cons time times ih =>
    obtain ⟨message, hm⟩ := Option.isSome_iff_exists.1 hmessage
    have hsome : (myXtimeReadProc time s).2.message.isSome := by
      cases hrp : s.rp1 <;> simp [myXtimeReadProc, hm, hrp]
    have hold : (myXtimeReadProc time s).2.old = keep time := by
      cases hrp : s.rp1 <;> simp [myXtimeReadProc, hrp, State.old, keep]
    have hrp : (myXtimeReadProc time s).2.rp1 = !s.rp1 := by
      cases hrp : s.rp1 <;> simp [myXtimeReadProc, hrp]
    have htext : (myXtimeReadProc time s).1 =
        if s.rp1 then sprintf s.old.1 s.old.2 time else "" := by
      cases hrp : s.rp1 <;> simp [myXtimeReadProc, hm, hrp, State.old]
    obtain ⟨t, hout, ht⟩ := ih hsome
    rw [hold, hrp] at hout ht
    refine ⟨t, ?_, ht⟩
    show (⟨time, (myXtimeReadProc time s).1⟩ : Output) :: outputs (times.map .read ++ cs) _ = _
    rw [hout, htext]
    rfl

theorem outputs_session (session : Session) (cs : List Call) (s : State) :
    ∃ t, outputs (session.calls ++ cs) s = render s.old session.reads ++ outputs cs t ∧
      t.old = stored s.old session.reads := by
  cases session with
  | refused => exact ⟨_, rfl, rfl⟩
  | granted times =>
    obtain ⟨t, hout, ht⟩ := outputs_reads times (.release :: cs)
      (s := (myXtimeOpenProc true s).2) rfl
    refine ⟨(myXtimeReleaseProc t).2, ?_, ht⟩
    rw [Session.calls, List.append_assoc]
    exact hout

theorem outputs_sessions (sessions : List Session) (s : State) :
    outputs (sessions.flatMap Session.calls) s = render s.old (sessions.flatMap Session.reads) := by
  induction sessions generalizing s with
  | nil => rfl
  | cons session sessions ih =>
    obtain ⟨t, hout, ht⟩ := outputs_session session (sessions.flatMap Session.calls) s
    rw [List.flatMap_cons, List.flatMap_cons, hout, ih, ht, render_append]

theorem Run.outputs_eq (r : Run) : r.outputs = render (0, 0) r.reads :=
  outputs_sessions r.sessions loaded

/-! ## Reports and reads -/

theorem text_empty_iff (old : Int × Int) (r : Read) :
    (if r.reports then sprintf old.1 old.2 r.time else "") = "" ↔ r.reports = false := by
  cases hr : r.reports with
  | false => simp
  | true => simpa using sprintf_ne old.1 old.2 r.time

theorem silent_iff (old : Int × Int) (rs : List Read) :
    (∀ z ∈ render old rs, z.text = "") ↔ ∀ r ∈ rs, r.reports = false := by
  induction rs generalizing old with
  | nil => simp [render]
  | cons r rs ih =>
    rw [render, List.forall_mem_cons, List.forall_mem_cons, ih, text_empty_iff]

/-- A split of what is printed is a split of the reads. -/
theorem render_eq_append {old : Int × Int} {rs : List Read} {xs ys : List Output}
    (h : render old rs = xs ++ ys) :
    ∃ as bs, rs = as ++ bs ∧ xs = render old as ∧ ys = render (stored old as) bs := by
  induction xs generalizing old rs with
  | nil => exact ⟨[], rs, rfl, rfl, h.symm⟩
  | cons x xs ih =>
    cases rs with
    | nil => cases h
    | cons r rs =>
      obtain ⟨rfl, htail⟩ := List.cons.inj h
      obtain ⟨as, bs, rfl, rfl, rfl⟩ := ih htail
      exact ⟨r :: as, bs, rfl, rfl, rfl⟩

theorem stored_cons (old : Int × Int) (r : Read) (rs : List Read) :
    stored old (r :: rs) = keep ((r :: rs).getLast (by simp)).time := by
  induction rs generalizing old r with
  | nil => rfl
  | cons r' rs ih =>
    rw [List.getLast_cons (by simp)]
    exact ih (keep r.time) r'

theorem times_alternate (reports : Bool) (times : List Timespec) :
    (alternate reports times).map Read.time = times := by
  induction times generalizing reports with
  | nil => rfl
  | cons t ts ih => exact congrArg _ (ih _)

theorem Run.reads_clock (r : Run) : r.reads.Pairwise fun a b => a.time.total ≤ b.time.total := by
  have htimes : r.reads.map Read.time = r.sessions.flatMap Session.times := by
    rw [Run.reads, List.map_flatMap]
    refine congrArg (List.flatMap · r.sessions) ?_
    funext session
    exact times_alternate true session.times
  have hclock := r.clock
  rw [← htimes, List.pairwise_map] at hclock
  exact hclock

/-- A report is right if and only if the last read before it was made at the time of the previous
one, and neither the nanoseconds nor the seconds since spoil it. -/
theorem Run.report_iff (r : Run) {pre : List Read} {x : Read} {mid : List Read} {y : Read}
    {post : List Read} (hsplit : r.reads = pre ++ x :: mid ++ y :: post) (hy : y.reports = true) :
    (if y.reports then sprintf (stored (0, 0) (pre ++ x :: mid)).1
        (stored (0, 0) (pre ++ x :: mid)).2 y.time else "") =
      elapsedText y.time (y.time.since x.time) ↔
    ((x :: mid).getLast (by simp)).time = x.time ∧ x.time.nsec ≠ 0 ∧
      (y.time.since x.time).1 < 2 ^ 31 := by
  set u := (x :: mid).getLast (by simp) with hu
  have hclock := r.reads_clock
  rw [hsplit] at hclock
  obtain ⟨hbefore, -, hlater⟩ := List.pairwise_append.1 hclock
  have hmem : u ∈ x :: mid := List.getLast_mem _
  have huy : u.time.total ≤ y.time.total :=
    hlater u (List.mem_append_right _ hmem) y List.mem_cons_self
  have hxu : x.time.total ≤ u.time.total := by
    rcases List.mem_cons.1 hmem with heq | hmid
    · rw [heq]
    · exact (List.pairwise_cons.1 (List.pairwise_append.1 hbefore).2.1).1 u hmid
  have hstored : stored (0, 0) (pre ++ x :: mid) = keep u.time := by
    rw [stored, List.foldl_append]
    exact stored_cons _ x mid
  rw [hstored, if_pos hy]
  exact sprintf_right_iff hxu huy

theorem Run.ReportsElapsed.steady {r : Run} (h : r.ReportsElapsed) : r.Steady := by
  intro pre x mid y post hsplit hx hmid hy
  apply (r.report_iff hsplit hy).1
  have hout := r.outputs_eq
  rw [hsplit, render_append, render_append] at hout
  refine h _ _ _ _ _ hout ?_ ?_ ?_
  · rw [Ne, text_empty_iff]
    simp [hx]
  · exact (silent_iff _ mid).2 hmid
  · rw [Ne, text_empty_iff]
    simp [hy]

theorem Run.Steady.reportsElapsed {r : Run} (h : r.Steady) : r.ReportsElapsed := by
  intro pre x mid y post hsplit hx hmid hy
  rw [r.outputs_eq] at hsplit
  obtain ⟨before, after, hreads, hpre, hpost⟩ := render_eq_append hsplit
  obtain ⟨bs, cs, rfl, rfl, hxs⟩ := render_eq_append hpre.symm
  cases cs with
  | nil => cases hxs
  | cons b cs =>
    cases after with
    | nil => cases hpost
    | cons a as =>
      obtain ⟨rfl, rfl⟩ := List.cons.inj hxs
      obtain ⟨rfl, rfl⟩ := List.cons.inj hpost
      rw [Ne, text_empty_iff] at hx hy
      have ha : a.reports = true := by simpa using hy
      exact (r.report_iff hreads ha).2
        (h bs b cs a as hreads (by simpa using hx) ((silent_iff _ cs).1 hmid) ha)

/-- **Reports tell the elapsed time if and only if the clock is steady**: the reads between two
reports happen at the time of the first, whose nanoseconds are not 0, and the seconds fit. -/
theorem reports_elapsed_iff (r : Run) : r.ReportsElapsed ↔ r.Steady :=
  ⟨Run.ReportsElapsed.steady, Run.Steady.reportsElapsed⟩

/-- Two readers, one after the other, each reading to the end of the file. The end of the first is
half a second after its text. -/
def twoReaders : Run where
  sessions :=
    [.granted [⟨100, 1, by decide, by decide⟩, ⟨100, 500000001, by decide, by decide⟩],
      .granted [⟨103, 1, by decide, by decide⟩, ⟨103, 1, by decide, by decide⟩]]
  clock := by decide

theorem twoReaders_misreport : ¬ twoReaders.ReportsElapsed := by
  intro h
  have hsteady := h.steady [] ⟨⟨100, 1, by decide, by decide⟩, true⟩
    [⟨⟨100, 500000001, by decide, by decide⟩, false⟩] ⟨⟨103, 1, by decide, by decide⟩, true⟩
    [⟨⟨103, 1, by decide, by decide⟩, false⟩] rfl rfl (by decide) rfl
  exact absurd hsteady.1 (by decide)

end KernelElevator.MyXtime
