import KernelElevator.Accounting
import KernelElevator.Report
import KernelElevator.Library.Lines
import Mathlib.Algebra.Group.Nat.Even

/-!
# The loads in the report

Weights are half units. The report halves the weight of those on board and appends a `.5` if the
number of children on board is odd; it halves the weight of those waiting at a floor, and no more.

* `reportLines` — the report as a reader finds it, line by line.
* `reported_load` — the weight on board is exact.
* `waiting_exact_iff` — the weight at a floor is exact if and only if an even number of children
  waits there.
-/

namespace KernelElevator

open Delivery (weigh weigh_append weigh_cons weigh_nil)
open Lines

/-! ## The lines of the report -/

/-- The line for the weight on board. -/
def weightRow (units tenths : Int) : String :=
  "Weight units: " ++ toString units ++ "." ++ toString tenths

def servedRow (floor count : Int) : String :=
  "Served on floor " ++ toString floor ++ ":" ++ toString count

/-- The line for those waiting at a floor. -/
def waitingRow (floor weight space : Int) : String :=
  "floor: " ++ toString floor ++ ", weight: " ++ toString weight ++ ", space: " ++ toString space

def statusLines (s : State) : List String :=
  ["", "STATE: " ++ toString s.state.code, "Current floor: " ++ toString s.currentFloor,
    "Next floor: " ++ toString s.nextFloor,
    weightRow (s.currentWeight.tdiv 2) (decimalOf s.oddChildren),
    "Passenger units: " ++ toString s.currentUnits, "Total serviced: " ++ toString s.totalServed]

/-- The lines that the source's loop over the floors prints. -/
def waitingLines (s : State) : List String :=
  (List.finRange 10).map fun k =>
    waitingRow (floorOf k) ((waitingSums (s.floors k)).1.tdiv 2) (waitingSums (s.floors k)).2

def reportLines (s : State) : List String :=
  statusLines s ++ [""] ++ (List.finRange 10).map (fun k => servedRow (floorOf k) (s.served k)) ++
    ["", "People Waiting"] ++ waitingLines s ++ [""]

theorem statusText_eq (s : State) : statusText s = unlines (statusLines s) := by
  rw [← String.toList_inj]
  unfold statusText statusLines weightRow unlines
  simp

theorem servedLine_eq (s : State) (k : Fin 10) :
    servedLine s k = servedRow (floorOf k) (s.served k) ++ "\n" := rfl

theorem waitingLine_eq (s : State) (k : Fin 10) :
    waitingLine s k = waitingRow (floorOf k) ((waitingSums (s.floors k)).1.tdiv 2)
      (waitingSums (s.floors k)).2 ++ "\n" := rfl

theorem report_eq (s : State) : report s = unlines (reportLines s) := by
  have hserved (text : String) : strcatLines (servedLine s) text =
      text ++ unlines ((List.finRange 10).map fun k => servedRow (floorOf k) (s.served k)) := by
    simp only [strcatLines, servedLine_eq]
    exact foldl_unlines _ _ text
  have hwaiting (text : String) :
      strcatLines (waitingLine s) text = text ++ unlines (waitingLines s) := by
    simp only [strcatLines, waitingLine_eq]
    exact foldl_unlines _ _ text
  have hpeople : unlines ["", "People Waiting"] = "\n" ++ "People Waiting\n" := by decide
  have hempty : unlines [""] = "\n" := by decide
  simp only [report, reportLines, hserved, hwaiting, unlines_append, statusText_eq, hpeople, hempty,
    String.append_assoc]

theorem toList_weightRow (units tenths : Int) : (weightRow units tenths).toList =
    "Weight units: ".toList ++ (toString units).toList ++ '.' :: (toString tenths).toList := by
  unfold weightRow
  simp

theorem toList_servedRow (floor count : Int) : (servedRow floor count).toList =
    "Served on floor ".toList ++ (toString floor).toList ++ ':' :: (toString count).toList := by
  unfold servedRow
  simp

theorem toList_waitingRow (floor weight space : Int) : (waitingRow floor weight space).toList =
    "floor: ".toList ++ (toString floor).toList ++ ',' :: (" weight: ".toList ++
      (toString weight).toList ++ ',' :: (" space: ".toList ++ (toString space).toList)) := by
  unfold waitingRow
  simp

theorem oneLine_report {s : State} : ∀ line ∈ reportLines s, OneLine line := by
  intro line h
  simp only [reportLines, statusLines, waitingLines, List.mem_append, List.mem_cons, List.mem_map,
    List.not_mem_nil, or_false] at h
  have hfield {name : String} (hname : OneLine name) (n : Int) : OneLine (name ++ toString n) :=
    hname.append (oneLine_toString n)
  rcases h with ((((h | h) | ⟨k, -, h⟩) | h | h) | ⟨k, -, h⟩) | h
  · rcases h with h | h | h | h | h | h | h <;> rw [h]
    · simp [OneLine]
    · exact hfield (by simp [OneLine]) _
    · exact hfield (by simp [OneLine]) _
    · exact hfield (by simp [OneLine]) _
    · exact hfield ((hfield (by simp [OneLine]) _).append (by simp [OneLine])) _
    · exact hfield (by simp [OneLine]) _
    · exact hfield (by simp [OneLine]) _
  · simp [h, OneLine]
  · rw [← h]
    exact hfield ((hfield (by simp [OneLine]) _).append (by simp [OneLine])) _
  · simp [h, OneLine]
  · simp [h, OneLine]
  · rw [← h]
    exact hfield ((hfield ((hfield (by simp [OneLine]) _).append (by simp [OneLine])) _).append
      (by simp [OneLine])) _
  · simp [h, OneLine]

/-! ## What a reader finds -/

theorem hasLine_report {s : State} {line : String} (hne : line ≠ "") :
    HasLine (report s) line ↔ line ∈ reportLines s := by
  rw [report_eq, hasLine_unlines oneLine_report hne]

theorem weightRow_inj {a b c d : Int} : weightRow a b = weightRow c d ↔ a = c ∧ b = d := by
  have hpoint : ¬ Decimal.IsMark '.' := by decide
  rw [← String.toList_inj, toList_weightRow, toList_weightRow]
  simp only [List.append_assoc, List.append_cancel_left_eq, Decimal.printed_inj hpoint,
    Decimal.toList_toString_inj]

theorem waitingRow_inj {f w n f' w' n' : Int} :
    waitingRow f w n = waitingRow f' w' n' ↔ f = f' ∧ w = w' ∧ n = n' := by
  have hcomma : ¬ Decimal.IsMark ',' := by decide
  rw [← String.toList_inj, toList_waitingRow, toList_waitingRow]
  simp only [List.append_assoc, List.append_cancel_left_eq, Decimal.printed_inj hcomma,
    Decimal.toList_toString_inj]

/-- There is one line for the weight on board. -/
theorem hasLine_weightRow {s : State} {units tenths : Int} :
    HasLine (report s) (weightRow units tenths) ↔
      units = s.currentWeight.tdiv 2 ∧ tenths = decimalOf s.oddChildren := by
  have hne : weightRow units tenths ≠ "" := by simp [← String.toList_inj, toList_weightRow]
  have hmem : weightRow units tenths ∈ reportLines s ↔
      weightRow units tenths = weightRow (s.currentWeight.tdiv 2) (decimalOf s.oddChildren) := by
    -- The other lines begin with other letters.
    simp only [reportLines, statusLines, waitingLines, List.mem_append, List.mem_cons,
      List.mem_map, ← String.toList_inj, toList_weightRow, toList_servedRow, toList_waitingRow]
    simp
  rw [hasLine_report hne, hmem, weightRow_inj]

/-- There is one line for those waiting at a floor. -/
theorem hasLine_waitingRow {s : State} {k : Fin 10} {weight space : Int} :
    HasLine (report s) (waitingRow (floorOf k) weight space) ↔
      weight = (waitingSums (s.floors k)).1.tdiv 2 ∧ space = (waitingSums (s.floors k)).2 := by
  have hne : waitingRow (floorOf k) weight space ≠ "" := by
    simp [← String.toList_inj, toList_waitingRow]
  have hmem : waitingRow (floorOf k) weight space ∈ reportLines s ↔
      waitingRow (floorOf k) weight space ∈ waitingLines s := by
    simp only [reportLines, statusLines, List.mem_append, List.mem_cons, List.mem_map,
      ← String.toList_inj, toList_weightRow, toList_servedRow, toList_waitingRow]
    simp
  rw [hasLine_report hne, hmem, waitingLines, List.mem_map]
  constructor
  · rintro ⟨j, -, hj⟩
    obtain ⟨hfloor, rfl, rfl⟩ := waitingRow_inj.1 hj
    rw [floorOf_inj hfloor]
    exact ⟨rfl, rfl⟩
  · rintro ⟨rfl, rfl⟩
    exact ⟨k, List.mem_finRange k, rfl⟩

/-! ## Half units -/

/-- Only children have an odd weight. -/
theorem weight_parity {ps : List Passenger} (h : ∀ p ∈ ps, p.WellFormed) :
    weigh Passenger.weightUnits ps % 2 = children ps % 2 := by
  induction ps with
  | nil => rfl
  | cons p ps ih =>
    have ih := ih fun q hq => h q (List.mem_cons_of_mem _ hq)
    have hp : p.weightUnits % 2 = (if p.type = child then 1 else 0) % 2 := by
      rcases unitsOf_cases (h p List.mem_cons_self).units with
        ⟨ht, hw, -⟩ | ⟨ht, hw, -⟩ | ⟨ht, hw, -⟩ | ⟨ht, hw, -⟩ <;> rw [ht, hw] <;> decide
    rw [children] at ih ⊢
    rw [weigh_cons, weigh_cons]
    omega

theorem weight_nonneg {ps : List Passenger} (h : ∀ p ∈ ps, p.WellFormed) :
    0 ≤ weigh Passenger.weightUnits ps :=
  (Int.natCast_nonneg _).trans (length_le_weigh fun p hp => (h p hp).units_bounds.1)

theorem decimalOf_children (ps : List Passenger) :
    decimalOf (children ps) = 5 * (children ps % 2) := by
  have hpos : 0 ≤ children ps := children_eq_countP ps ▸ Int.natCast_nonneg _
  rw [decimalOf, Int.tmod_eq_emod_of_nonneg hpos]
  split_ifs with h <;> omega

/-- Half of a weight, in tenths. -/
theorem tenths_exact {ps : List Passenger} (h : ∀ p ∈ ps, p.WellFormed) :
    10 * (weigh Passenger.weightUnits ps).tdiv 2 + decimalOf (children ps) =
      5 * weigh Passenger.weightUnits ps := by
  have hparity := weight_parity h
  have hpos := weight_nonneg h
  rw [decimalOf_children, Int.tdiv_eq_ediv_of_nonneg hpos]
  omega

/-! ## The elevator -/

/-- **The weight on board is reported exactly.** Whatever a reader finds after `Weight units:`, in
tenths, is half of the weight units on board. -/
theorem reported_load (ls : List Label) :
    (∃ units tenths, HasLine (report (after ls)) (weightRow units tenths)) ∧
    ∀ units tenths, HasLine (report (after ls)) (weightRow units tenths) →
      (0 ≤ tenths ∧ tenths ≤ 9) ∧
      10 * units + tenths = 5 * ((after ls).onboard.map Passenger.weightUnits).sum := by
  have h := accounting_after ls
  refine ⟨⟨_, _, hasLine_weightRow.2 ⟨rfl, rfl⟩⟩, ?_⟩
  intro units tenths hline
  obtain ⟨rfl, rfl⟩ := hasLine_weightRow.1 hline
  rw [h.weight, h.oddChildren]
  refine ⟨?_, tenths_exact fun p hp => (h.riding p hp).1⟩
  rw [decimalOf]
  split_ifs <;> decide

/-! ## The floors -/

theorem waitingSums_from (ps : List Passenger) (sums : Int × Int) :
    ps.foldl (fun sums p => (sums.1 + p.weightUnits, sums.2 + p.spaceUnits)) sums =
      (sums.1 + weigh Passenger.weightUnits ps, sums.2 + weigh Passenger.spaceUnits ps) := by
  induction ps generalizing sums with
  | nil => simp
  | cons p ps ih => simp only [List.foldl_cons, ih, weigh_cons, add_assoc]

theorem waitingSums_eq (ps : List Passenger) :
    waitingSums ps = (weigh Passenger.weightUnits ps, weigh Passenger.spaceUnits ps) := by
  rw [waitingSums, waitingSums_from, zero_add, zero_add]

/-- The loop as the source has it: `weightSum` and `spaceSum` are set to 0 before it, and again at
the end of each pass. -/
def waitingLoop (s : State) : List (Fin 10) → String × Int × Int → String × Int × Int
  | [], acc => acc
  | k :: ks, (message, weightSum, spaceSum) =>
    let (weightSum, spaceSum) := (s.floors k).foldl
      (fun sums p => (sums.1 + p.weightUnits, sums.2 + p.spaceUnits)) (weightSum, spaceSum)
    let buffer := "floor: " ++ toString (floorOf k) ++ ", weight: " ++
      toString (weightSum.tdiv 2) ++ ", space: " ++ toString spaceSum ++ "\n"
    waitingLoop s ks (message ++ buffer, 0, 0)

/-- Nothing is carried over from one floor to the next. -/
theorem waitingLoop_eq (s : State) (message : String) :
    waitingLoop s (List.finRange 10) (message, 0, 0) =
      (strcatLines (waitingLine s) message, 0, 0) := by
  have hloop (ks : List (Fin 10)) : waitingLoop s ks (message, 0, 0) =
      (ks.foldl (fun message k => message ++ waitingLine s k) message, 0, 0) := by
    induction ks generalizing message with
    | nil => rfl
    | cons k ks ih => exact ih _
  exact hloop _

/-- The line for a floor is exact: twice the weight and the space it prints are the sums over those
waiting there. -/
def WaitingExact (s : State) (k : Fin 10) : Prop :=
  (∃ weight space, HasLine (report s) (waitingRow (floorOf k) weight space)) ∧
  ∀ weight space, HasLine (report s) (waitingRow (floorOf k) weight space) →
    2 * weight = ((s.floors k).map Passenger.weightUnits).sum ∧
    space = ((s.floors k).map Passenger.spaceUnits).sum

/-- The weight printed for those waiting at a floor is the weight printed for them when all of them
are on board. -/
def SameOnBoard (s : State) (k : Fin 10) : Prop :=
  ∀ ls units tenths weight space, (after ls).onboard.Perm (s.floors k) →
    HasLine (report (after ls)) (weightRow units tenths) →
    HasLine (report s) (waitingRow (floorOf k) weight space) → 10 * units + tenths = 10 * weight

theorem space_exact {s : State} {k : Fin 10} {weight space : Int}
    (h : HasLine (report s) (waitingRow (floorOf k) weight space)) :
    space = ((s.floors k).map Passenger.spaceUnits).sum := by
  obtain ⟨-, rfl⟩ := hasLine_waitingRow.1 h
  rw [waitingSums_eq]
  rfl

theorem waitingExact_iff {s : State} (h : Accounting s) (k : Fin 10) :
    WaitingExact s k ↔ Even ((s.floors k).countP (·.type = child)) := by
  have hwell : ∀ p ∈ s.floors k, p.WellFormed := fun p hp => (h.queued k p hp).1
  have hparity := weight_parity hwell
  have hpos := weight_nonneg hwell
  have hline : HasLine (report s) (waitingRow (floorOf k) _ _) := hasLine_waitingRow.2 ⟨rfl, rfl⟩
  rw [children_eq_countP] at hparity
  rw [Nat.even_iff]
  constructor
  · rintro ⟨-, hexact⟩
    have hhalf := (hexact _ _ hline).1
    rw [waitingSums_eq, Int.tdiv_eq_ediv_of_nonneg hpos] at hhalf
    change _ = weigh Passenger.weightUnits (s.floors k) at hhalf
    omega
  · intro heven
    refine ⟨⟨_, _, hline⟩, ?_⟩
    intro weight space hrow
    refine ⟨?_, space_exact hrow⟩
    obtain ⟨rfl, -⟩ := hasLine_waitingRow.1 hrow
    rw [waitingSums_eq, Int.tdiv_eq_ediv_of_nonneg hpos]
    change _ = weigh Passenger.weightUnits (s.floors k)
    omega

theorem WaitingExact.sameOnBoard {s : State} {k : Fin 10} (h : WaitingExact s k) :
    SameOnBoard s k := by
  intro ls units tenths weight space hperm hunits hweight
  have hboard := ((reported_load ls).2 units tenths hunits).2
  have hfloor := (h.2 weight space hweight).1
  rw [(hperm.map Passenger.weightUnits).sum_eq] at hboard
  omega

/-- **The weight at a floor is reported exactly if and only if an even number of children waits
there**: the half unit of an odd one is lost. The sums are those of integers; in the `int`s of the
source they are the same as long as fewer than 2^31 half units wait there (`no_overflow_iff`). -/
theorem waiting_exact_iff (ls : List Label) (k : Fin 10) :
    WaitingExact (after ls) k ∧ SameOnBoard (after ls) k ↔
      Even (((after ls).floors k).countP (·.type = child)) := by
  rw [← waitingExact_iff (accounting_after ls) k]
  exact ⟨And.left, fun h => ⟨h, h.sameOnBoard⟩⟩

/-- A child waits on floor 3, and weighs nothing. -/
theorem child_weighs_nothing :
    ¬ WaitingExact (after [.call (.request child 3 5 true)]) 2 := by
  intro h
  have hhalf := (h.2 _ _ (hasLine_waitingRow.2 ⟨rfl, rfl⟩)).1
  exact absurd hhalf (by decide)

end KernelElevator
