import KernelElevator.ReportedLoad

/-!
# What the report shows

The report is a text, and a reader has to get the numbers back from it. No two numbers run into each
other, and no line can be taken for another.

* `Shown` — what there is to see of a state: the elevator, the counters, and for each floor the
  weight, without its half unit, and the space of those waiting.
* `report_eq_iff` — in the states of runs, two reports are the same text just when they show the
  same.
-/

namespace KernelElevator

open Lines

structure Shown where
  state : Status
  currentFloor : Int
  nextFloor : Int
  currentWeight : Int
  currentUnits : Int
  totalServed : Int
  served : Fin 10 → Int
  /-- Half of the weight, rounded down, and the space. -/
  waiting : Fin 10 → Int × Int

def State.shown (s : State) : Shown where
  state := s.state
  currentFloor := s.currentFloor
  nextFloor := s.nextFloor
  currentWeight := s.currentWeight
  currentUnits := s.currentUnits
  totalServed := s.totalServed
  served := s.served
  waiting := fun k => ((waitingSums (s.floors k)).1 / 2, (waitingSums (s.floors k)).2)

/-! ## Lines -/

theorem unlines_injective {xs ys : List String} (hx : ∀ line ∈ xs, OneLine line)
    (hy : ∀ line ∈ ys, OneLine line) (h : unlines xs = unlines ys) : xs = ys := by
  have hsplit := splitOn_unlines hx
  rw [h, splitOn_unlines hy, List.append_cancel_right_eq] at hsplit
  exact (List.map_injective_iff.2 fun _ _ => String.toList_inj.1) hsplit.symm

theorem report_eq_report {s t : State} : report s = report t ↔ reportLines s = reportLines t := by
  rw [report_eq, report_eq]
  constructor
  · exact unlines_injective oneLine_report oneLine_report
  · exact congrArg unlines

theorem field_inj {name : String} {m n : Int} :
    name ++ toString m = name ++ toString n ↔ m = n := by
  rw [← String.toList_inj]
  simp only [String.toList_append, List.append_cancel_left_eq, Decimal.toList_toString_inj]

theorem servedRow_inj {f n f' n' : Int} : servedRow f n = servedRow f' n' ↔ f = f' ∧ n = n' := by
  have hcolon : ¬ Decimal.IsMark ':' := by decide
  rw [← String.toList_inj, toList_servedRow, toList_servedRow]
  simp only [List.append_assoc, List.append_cancel_left_eq, Decimal.printed_inj hcolon,
    Decimal.toList_toString_inj]

theorem code_injective : Function.Injective Status.code := by
  intro a b h
  cases a <;> cases b <;> first | rfl | exact absurd h (by decide)

theorem map_finRange_inj {line line' : Fin 10 → String} :
    (List.finRange 10).map line = (List.finRange 10).map line' ↔ ∀ k, line k = line' k := by
  rw [List.map_inj_left]
  exact ⟨fun h k => h k (List.mem_finRange k), fun h k _ => h k⟩

theorem reportLines_eq_iff {s t : State} : reportLines s = reportLines t ↔
    statusLines s = statusLines t ∧ s.served = t.served ∧ waitingLines s = waitingLines t := by
  constructor
  · intro h
    simp only [reportLines, List.append_assoc] at h
    obtain ⟨hstatus, h⟩ := List.append_inj h rfl
    obtain ⟨hserved, h⟩ := List.append_inj (List.append_cancel_left h) (by simp)
    refine ⟨hstatus, ?_, List.append_cancel_right (List.append_cancel_left h)⟩
    funext k
    exact (servedRow_inj.1 (map_finRange_inj.1 hserved k)).2
  · rintro ⟨hstatus, hserved, hwaiting⟩
    rw [reportLines, reportLines, hstatus, hserved, hwaiting]

theorem statusLines_eq_iff {s t : State} : statusLines s = statusLines t ↔
    s.state = t.state ∧ s.currentFloor = t.currentFloor ∧ s.nextFloor = t.nextFloor ∧
    (s.currentWeight.tdiv 2 = t.currentWeight.tdiv 2 ∧
      decimalOf s.oddChildren = decimalOf t.oddChildren) ∧
    s.currentUnits = t.currentUnits ∧ s.totalServed = t.totalServed := by
  simp only [statusLines, List.cons.injEq, field_inj, weightRow_inj, code_injective.eq_iff,
    true_and, and_true]

theorem waitingLines_eq_iff {s t : State} : waitingLines s = waitingLines t ↔
    ∀ k, (waitingSums (s.floors k)).1.tdiv 2 = (waitingSums (t.floors k)).1.tdiv 2 ∧
      (waitingSums (s.floors k)).2 = (waitingSums (t.floors k)).2 := by
  simp only [waitingLines, map_finRange_inj, waitingRow_inj, true_and]

/-! ## In the states of runs -/

/-- The half and the digit after the point determine the weight on board. -/
theorem weight_eq_iff {s t : State} (hs : Accounting s) (ht : Accounting t) :
    (s.currentWeight.tdiv 2 = t.currentWeight.tdiv 2 ∧
      decimalOf s.oddChildren = decimalOf t.oddChildren) ↔ s.currentWeight = t.currentWeight := by
  have hexact {s : State} (h : Accounting s) :
      10 * s.currentWeight.tdiv 2 + decimalOf s.oddChildren = 5 * s.currentWeight := by
    rw [h.weight, h.oddChildren]
    exact tenths_exact fun p hp => (h.riding p hp).1
  have hs := hexact hs
  have ht := hexact ht
  constructor
  · rintro ⟨hhalf, hdigit⟩
    omega
  · intro heq
    refine ⟨by rw [heq], ?_⟩
    rw [heq] at hs
    omega

theorem waiting_half {s : State} (h : Accounting s) (k : Fin 10) :
    (waitingSums (s.floors k)).1.tdiv 2 = (waitingSums (s.floors k)).1 / 2 := by
  apply Int.tdiv_eq_ediv_of_nonneg
  rw [waitingSums_eq]
  exact weight_nonneg fun p hp => (h.queued k p hp).1

/-- **A report shows what it shows, and nothing else.** In any two states of runs the reports are
the same text if and only if the state, the floors, the weight and the units on board, the counters,
and at each floor the half of the waiting weight and the waiting space are the same. -/
theorem report_eq_iff (ls ms : List Label) :
    report (after ls) = report (after ms) ↔ (after ls).shown = (after ms).shown := by
  have hs := accounting_after ls
  have ht := accounting_after ms
  rw [report_eq_report, reportLines_eq_iff, statusLines_eq_iff, waitingLines_eq_iff,
    weight_eq_iff hs ht]
  simp only [waiting_half hs, waiting_half ht]
  simp only [State.shown, Shown.mk.injEq, funext_iff, Prod.mk.injEq]
  tauto

end KernelElevator
