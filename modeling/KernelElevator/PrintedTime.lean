import KernelElevator.XTime
import KernelElevator.Library.Fraction
import Mathlib.Tactic.Ring

/-!
# The times that the clock file prints

The seconds of the previous read are kept in an `int`, which a `tv_sec` outgrows in 2038; the
difference is right all the same, as long as it fits in an `int` itself. A time is printed as
`%ld.%ld`, with no zeros before the nanoseconds, so a reader takes 5 ns for half a second.

* `elapsed_exact` — the elapsed time of two consecutive reads.
* `printed_iff` — when a printed time is the time it stands for.
-/

namespace KernelElevator.MyXtime

open Decimal

/-! ## Elapsed times -/

/-- **The elapsed time is exact.** After a read at `t`, whatever came before, a read at `u` prints
the nanoseconds that have passed, in seconds and nanoseconds. -/
theorem elapsed_exact {t u : Timespec} (hle : t.total ≤ u.total) (hnsec : t.nsec ≠ 0)
    (hdiff : u.sec - t.sec < 2 ^ 31) (s : State) :
    let s' := (myXtimeReadProc t s).2
    let e := elapsed s'.oldSec s'.oldNsec u
    sprintf s'.oldSec s'.oldNsec u = elapsedText u e ∧
    (0 ≤ e.2 ∧ e.2 < 1000000000) ∧ (0 ≤ e.1 ∧ e.1 < 2 ^ 31) ∧
    e.1 * 1000000000 + e.2 = u.total - t.total := by
  intro s' e
  have hstored : s'.oldSec = cInt t.sec ∧ s'.oldNsec = cInt t.nsec := by
    cases hrp : s.rp1 <;> simp [s', myXtimeReadProc, hrp]
  have hnonzero : s'.oldNsec ≠ 0 := by
    rw [hstored.2, cInt_nsec]
    exact hnsec
  have ht := t.nsec_range
  have hu := u.nsec_range
  have hsince : 0 ≤ (u.since t).1 ∧ (u.since t).1 < 2 ^ 31 := by
    simp only [Timespec.since, Timespec.total] at hle ⊢
    omega
  have helapsed : e = u.since t := by
    show elapsed s'.oldSec s'.oldNsec u = _
    rw [hstored.1, hstored.2, elapsed_stored, cInt_of_range hsince]
  rw [helapsed]
  refine ⟨?_, ?_, hsince, ?_⟩
  · rw [sprintf, if_pos hnonzero]
    exact congrArg (elapsedText u) helapsed
  · simp only [Timespec.since]
    omega
  · simp only [Timespec.since]
    omega

/-- The last nanosecond of which an `int` can hold the seconds. -/
def beforeRollover : Timespec := ⟨2147483647, 999999999, by decide, by decide⟩

/-- An `int` takes these seconds for -2147483647. -/
def afterRollover : Timespec := ⟨2147483649, 5, by decide, by decide⟩

theorem rollover_exact :
    let s := (myXtimeReadProc beforeRollover loaded).2
    let e := elapsed s.oldSec s.oldNsec afterRollover
    e.1 * 1000000000 + e.2 = 1000000006 :=
  (elapsed_exact (t := beforeRollover) (u := afterRollover) (by decide) (by decide) (by decide)
    loaded).2.2.2

/-! ## Printed times -/

/-- `%ld.%ld` and `%d.%d`. -/
def stamp (sec nsec : Int) : String := toString sec ++ "." ++ toString nsec

theorem elapsedText_stamp (time : Timespec) (e : Int × Int) :
    elapsedText time e = "current time: " ++ stamp time.sec time.nsec ++ "\nelapsed time: " ++
      stamp e.1 e.2 ++ "\n" := by
  unfold elapsedText stamp
  simp only [String.append_assoc]

theorem firstText_stamp (time : Timespec) :
    firstText time = "current time " ++ stamp time.sec time.nsec ++ "\n" := by
  unfold firstText stamp
  simp only [String.append_assoc]

/-- A time, or the time between two, in seconds and nanoseconds. -/
structure Span where
  sec : Int
  nsec : Int
  sec_nonneg : 0 ≤ sec
  nsec_range : 0 ≤ nsec ∧ nsec < 1000000000

namespace Span

/-- In nanoseconds. -/
def total (t : Span) : Int := t.sec * 1000000000 + t.nsec

/-- In seconds. -/
def value (t : Span) : ℚ := t.sec + t.nsec / 10 ^ 9

/-- The number that the text of the time denotes. -/
def printed (t : Span) : ℚ := fractionValue (stamp t.sec t.nsec)

/-- The text denotes the time, and those of two such times compare as the times do. -/
def Faithful (t : Span) : Prop :=
  t.printed = t.value ∧ ∀ u : Span, u.printed = u.value →
    (t.total < u.total ↔ t.printed < u.printed) ∧ (u.total < t.total ↔ u.printed < t.printed)

theorem value_lt_iff (t u : Span) : t.value < u.value ↔ t.total < u.total := by
  have hvalue (x : Span) : x.value = (x.total : ℚ) / 10 ^ 9 := by
    simp only [value, total]
    push_cast
    ring
  rw [hvalue, hvalue, div_lt_div_iff_of_pos_right (by norm_num), Int.cast_lt]

theorem printed_eq (t : Span) :
    t.printed = t.sec + t.nsec / 10 ^ t.nsec.toNat.repr.length := by
  have hrepr {n : Int} (hn : 0 ≤ n) : toString n = n.toNat.repr := by
    rw [Int.toString_eq_repr, Int.repr_eq_if, if_pos hn]
  have hcast {n : Int} (hn : 0 ≤ n) : ((n.toNat : Nat) : ℚ) = n := by
    rw [← Int.cast_natCast, Int.toNat_of_nonneg hn]
  rw [printed, stamp, hrepr t.sec_nonneg, hrepr t.nsec_range.1, fractionValue_dotted,
    hcast t.sec_nonneg, hcast t.nsec_range.1]

/-- The text denotes the time if no zeros are missing. -/
theorem printed_eq_value_iff (t : Span) :
    t.printed = t.value ↔ t.nsec = 0 ∨ 100000000 ≤ t.nsec := by
  have hrange := t.nsec_range
  have hlt : t.nsec.toNat < 10 ^ (8 + 1) := by omega
  have hcast : ((t.nsec.toNat : Nat) : ℚ) = t.nsec := by
    rw [← Int.cast_natCast, Int.toNat_of_nonneg hrange.1]
  rw [printed_eq, value, add_right_inj, ← hcast, fraction_eq_iff hlt]
  omega

theorem faithful_of_printed {t : Span} (h : t.printed = t.value) : t.Faithful := by
  refine ⟨h, ?_⟩
  intro u hu
  rw [h, hu, value_lt_iff, value_lt_iff]
  exact ⟨Iff.rfl, Iff.rfl⟩

end Span

/-- **A printed time is the time it stands for if and only if it needs no zeros after the point**:
its nanoseconds are 0, or have nine digits. -/
theorem printed_iff (t : Span) : t.Faithful ↔ t.nsec = 0 ∨ 100000000 ≤ t.nsec := by
  rw [← t.printed_eq_value_iff]
  exact ⟨And.left, Span.faithful_of_printed⟩

/-- A minute and 5 nanoseconds. -/
def fiveNanoseconds : Timespec := ⟨60, 5, by decide, by decide⟩

/-- They are printed as a minute and half a second. -/
theorem fiveNanoseconds_misprinted :
    firstText fiveNanoseconds = "current time 60.5\n" ∧
    ¬ (⟨60, 5, by decide, by decide⟩ : Span).Faithful := by
  refine ⟨by decide, ?_⟩
  intro h
  exact absurd ((Span.printed_eq_value_iff _).1 h.1) (by decide)

end KernelElevator.MyXtime
