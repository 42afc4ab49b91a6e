import KernelElevator.Report
import KernelElevator.XTime

/-!
# The buffers of the texts

`elevator_proc_read` prints into `message` and into a local `buffer`, and `my_xtime_read_proc` into
`message_1`, without a look at the sizes. Here the texts are functions of the numbers they print,
and any `int`s and `long`s are allowed.

* `Printed.text` — the report as a function of the numbers in it.
* `texts_fit` — each text fits its buffer, with the `NUL` at its end.
-/

namespace KernelElevator

/-- `ENTRY_SIZE`, the size of `message`. -/
def entrySize : Nat := 1000

/-- The size of `buffer`. -/
def bufferSize : Nat := 1000

/-- The size of `message_1`. -/
def messageSize : Nat := 100

/-- `strlen`. -/
def strlen (text : String) : Nat := text.utf8ByteSize

/-- The values of an `int`. -/
def IsInt (n : Int) : Prop := -2 ^ 31 ≤ n ∧ n < 2 ^ 31

/-- The values of a `long`. -/
def IsLong (n : Int) : Prop := -2 ^ 63 ≤ n ∧ n < 2 ^ 63

/-- The variables that the report prints. -/
structure Printed where
  state : Int
  currentFloor : Int
  nextFloor : Int
  currentWeight : Int
  oddChildren : Int
  currentUnits : Int
  totalServed : Int
  served : Fin 10 → Int
  weightSum : Fin 10 → Int
  spaceSum : Fin 10 → Int

namespace Printed

variable (v : Printed)

def statusText : String :=
  "\nSTATE: " ++ toString v.state ++
  "\nCurrent floor: " ++ toString v.currentFloor ++
  "\nNext floor: " ++ toString v.nextFloor ++
  "\nWeight units: " ++ toString (v.currentWeight.tdiv 2) ++ "." ++
    toString (decimalOf v.oddChildren) ++
  "\nPassenger units: " ++ toString v.currentUnits ++
  "\nTotal serviced: " ++ toString v.totalServed ++ "\n"

def servedLine (k : Fin 10) : String :=
  "Served on floor " ++ toString (floorOf k) ++ ":" ++ toString (v.served k) ++ "\n"

def waitingLine (k : Fin 10) : String :=
  "floor: " ++ toString (floorOf k) ++ ", weight: " ++ toString ((v.weightSum k).tdiv 2) ++
    ", space: " ++ toString (v.spaceSum k) ++ "\n"

def text : String :=
  let message := v.statusText
  let message := message ++ "\n"
  let message := strcatLines v.servedLine message
  let message := message ++ "\n"
  let message := message ++ "People Waiting\n"
  let message := strcatLines v.waitingLine message
  message ++ "\n"

/-- Every variable is an `int`. -/
structure Ints : Prop where
  state : IsInt v.state
  currentFloor : IsInt v.currentFloor
  nextFloor : IsInt v.nextFloor
  currentWeight : IsInt v.currentWeight
  oddChildren : IsInt v.oddChildren
  currentUnits : IsInt v.currentUnits
  totalServed : IsInt v.totalServed
  served : ∀ k, IsInt (v.served k)
  weightSum : ∀ k, IsInt (v.weightSum k)
  spaceSum : ∀ k, IsInt (v.spaceSum k)

end Printed

/-- The variables in a state. -/
def State.printed (s : State) : Printed where
  state := s.state.code
  currentFloor := s.currentFloor
  nextFloor := s.nextFloor
  currentWeight := s.currentWeight
  oddChildren := s.oddChildren
  currentUnits := s.currentUnits
  totalServed := s.totalServed
  served := s.served
  weightSum := fun k => (waitingSums (s.floors k)).1
  spaceSum := fun k => (waitingSums (s.floors k)).2

theorem report_eq_text (s : State) : report s = s.printed.text := rfl

/-! ## Sizes -/

theorem strlen_append (a b : String) : strlen (a ++ b) = strlen a + strlen b :=
  String.utf8ByteSize_append

theorem strlen_int {n : Int} (h : IsInt n) : strlen (toString n) ≤ 11 := by
  simp only [IsInt] at h
  exact Decimal.size_le (by decide) (by omega)

theorem strlen_half {n : Int} (h : IsInt n) : strlen (toString (n.tdiv 2)) ≤ 11 := by
  have hle : (n.tdiv 2).natAbs ≤ n.natAbs := Int.natAbs_tdiv n 2 ▸ Nat.div_le_self _ _
  simp only [IsInt] at h
  exact Decimal.size_le (by decide) (by omega)

theorem strlen_long {n : Int} (h : IsLong n) : strlen (toString n) ≤ 20 := by
  simp only [IsLong] at h
  exact Decimal.size_le (by decide) (by omega)

theorem strlen_floor (k : Fin 10) : strlen (toString (floorOf k)) ≤ 2 := by
  have hk := floorOf_bounds k
  exact Decimal.size_le_of_nonneg (by decide) (by omega) (by omega)

theorem strlen_decimal (n : Int) : strlen (toString (decimalOf n)) ≤ 1 := by
  rw [decimalOf]
  split_ifs <;> decide

/-- Ten lines, none longer than `b`. -/
theorem strlen_strcatLines {line : Fin 10 → String} {b : Nat} (h : ∀ k, strlen (line k) ≤ b)
    (message : String) : strlen (strcatLines line message) ≤ strlen message + 10 * b := by
  have hloop (ks : List (Fin 10)) :
      strlen (ks.foldl (fun message k => message ++ line k) message) ≤
        strlen message + ks.length * b := by
    induction ks generalizing message with
    | nil => simp
    | cons k ks ih =>
      refine (ih (message ++ line k)).trans ?_
      have hk := h k
      rw [strlen_append, List.length_cons, Nat.succ_mul]
      omega
  exact hloop (List.finRange 10)

namespace Printed

variable {v : Printed}

theorem Ints.strlen_statusText (h : v.Ints) : strlen v.statusText ≤ 156 := by
  have hstate := strlen_int h.state
  have hcurrent := strlen_int h.currentFloor
  have hnext := strlen_int h.nextFloor
  have hweight := strlen_half h.currentWeight
  have hdecimal := strlen_decimal v.oddChildren
  have hunits := strlen_int h.currentUnits
  have htotal := strlen_int h.totalServed
  have hwords : strlen "\nSTATE: " + strlen "\nCurrent floor: " + strlen "\nNext floor: " +
      strlen "\nWeight units: " + strlen "." + strlen "\nPassenger units: " +
      strlen "\nTotal serviced: " + strlen "\n" = 89 := by decide
  unfold statusText
  simp only [strlen_append]
  omega

theorem Ints.strlen_servedLine (h : v.Ints) (k : Fin 10) : strlen (v.servedLine k) ≤ 31 := by
  have hfloor := strlen_floor k
  have hserved := strlen_int (h.served k)
  have hwords : strlen "Served on floor " + strlen ":" + strlen "\n" = 18 := by decide
  unfold servedLine
  simp only [strlen_append]
  omega

theorem Ints.strlen_waitingLine (h : v.Ints) (k : Fin 10) : strlen (v.waitingLine k) ≤ 51 := by
  have hfloor := strlen_floor k
  have hweight := strlen_half (h.weightSum k)
  have hspace := strlen_int (h.spaceSum k)
  have hwords : strlen "floor: " + strlen ", weight: " + strlen ", space: " + strlen "\n" = 27 := by
    decide
  unfold waitingLine
  simp only [strlen_append]
  omega

theorem Ints.strlen_text (h : v.Ints) : strlen v.text ≤ 994 := by
  have hstatus := h.strlen_statusText
  have hserved := strlen_strcatLines h.strlen_servedLine (v.statusText ++ "\n")
  have hwaiting := strlen_strcatLines h.strlen_waitingLine
    (strcatLines v.servedLine (v.statusText ++ "\n") ++ "\n" ++ "People Waiting\n")
  have hwords : strlen "\n" = 1 ∧ strlen "People Waiting\n" = 15 := by decide
  unfold text
  simp only [strlen_append] at hserved hwaiting ⊢
  omega

end Printed

/-! ## The clock -/

namespace MyXtime

/-- The text with an elapsed time, for any numbers. -/
def elapsedFormat (sec nsec elapsec elapnsec : Int) : String :=
  "current time: " ++ toString sec ++ "." ++ toString nsec ++ "\nelapsed time: " ++
    toString elapsec ++ "." ++ toString elapnsec ++ "\n"

/-- The text without one. -/
def firstFormat (sec nsec : Int) : String :=
  "current time " ++ toString sec ++ "." ++ toString nsec ++ "\n"

theorem elapsedText_eq (time : Timespec) (e : Int × Int) :
    elapsedText time e = elapsedFormat time.sec time.nsec e.1 e.2 := rfl

theorem firstText_eq (time : Timespec) : firstText time = firstFormat time.sec time.nsec := rfl

theorem strlen_elapsedFormat {sec nsec elapsec elapnsec : Int} (hsec : IsLong sec)
    (hnsec : IsLong nsec) (helapsec : IsInt elapsec) (helapnsec : IsInt elapnsec) :
    strlen (elapsedFormat sec nsec elapsec elapnsec) ≤ 94 := by
  have hsec := strlen_long hsec
  have hnsec := strlen_long hnsec
  have helapsec := strlen_int helapsec
  have helapnsec := strlen_int helapnsec
  have hwords : strlen "current time: " + strlen "." + strlen "\nelapsed time: " + strlen "." +
      strlen "\n" = 32 := by decide
  unfold elapsedFormat
  simp only [strlen_append]
  omega

theorem strlen_firstFormat {sec nsec : Int} (hsec : IsLong sec) (hnsec : IsLong nsec) :
    strlen (firstFormat sec nsec) ≤ 55 := by
  have hsec := strlen_long hsec
  have hnsec := strlen_long hnsec
  have hwords : strlen "current time " + strlen "." + strlen "\n" = 15 := by decide
  unfold firstFormat
  simp only [strlen_append]
  omega

theorem isInt_cInt (n : Int) : IsInt (cInt n) := by
  simp only [IsInt, cInt, Int.bmod_def]
  omega

/-- Whatever the module remembers, what a read prints fits. -/
theorem sprintf_fits (oldSec oldNsec : Int) (time : Timespec) :
    strlen (sprintf oldSec oldNsec time) + 1 ≤ messageSize := by
  have hnsec : IsLong time.nsec := by
    have hrange := time.nsec_range
    simp only [IsLong]
    omega
  have helapsed :
      IsInt (elapsed oldSec oldNsec time).1 ∧ IsInt (elapsed oldSec oldNsec time).2 := by
    unfold elapsed
    split_ifs <;> exact ⟨isInt_cInt _, isInt_cInt _⟩
  unfold sprintf
  split_ifs
  · have hle := strlen_elapsedFormat time.sec_range hnsec helapsed.1 helapsed.2
    exact Nat.succ_le_succ (hle.trans (by decide))
  · have hle := strlen_firstFormat time.sec_range hnsec
    exact Nat.succ_le_succ (hle.trans (by decide))

end MyXtime

/-! ## All of them -/

open MyXtime

/-- **The texts fit their buffers**, each with its `NUL`: the report and the lines of its two loops,
for any `int`s, and the text of the clock, for any `long`s and `int`s. -/
theorem texts_fit {v : Printed} (hv : v.Ints) {sec nsec elapsec elapnsec : Int} (hsec : IsLong sec)
    (hnsec : IsLong nsec) (helapsec : IsInt elapsec) (helapnsec : IsInt elapnsec) :
    strlen v.text + 1 ≤ entrySize ∧
    (∀ s : State, s.printed = v → strlen (report s) + 1 ≤ entrySize) ∧
    (∀ k, strlen (v.servedLine k) + 1 ≤ bufferSize ∧ strlen (v.waitingLine k) + 1 ≤ bufferSize) ∧
    strlen (elapsedFormat sec nsec elapsec elapnsec) + 1 ≤ messageSize ∧
    strlen (firstFormat sec nsec) + 1 ≤ messageSize := by
  have htext : strlen v.text + 1 ≤ entrySize := Nat.succ_le_succ (hv.strlen_text.trans (by decide))
  refine ⟨htext, ?_, fun k => ⟨?_, ?_⟩, ?_, ?_⟩
  · rintro s rfl
    exact htext
  · exact Nat.succ_le_succ ((hv.strlen_servedLine k).trans (by decide))
  · exact Nat.succ_le_succ ((hv.strlen_waitingLine k).trans (by decide))
  · have hle := strlen_elapsedFormat hsec hnsec helapsec helapnsec
    exact Nat.succ_le_succ (hle.trans (by decide))
  · exact Nat.succ_le_succ ((strlen_firstFormat hsec hnsec).trans (by decide))

/-- Every variable as long as an `int` can be. -/
def longest : Printed where
  state := -2 ^ 31
  currentFloor := -2 ^ 31
  nextFloor := -2 ^ 31
  currentWeight := -2 ^ 31
  oddChildren := -2 ^ 31
  currentUnits := -2 ^ 31
  totalServed := -2 ^ 31
  served := fun _ => -2 ^ 31
  weightSum := fun _ => -2 ^ 31
  spaceSum := fun _ => -2 ^ 31

/-- The longest texts leave 23 bytes of `message`, and 5 of `message_1`. -/
theorem longest_fits :
    (strlen longest.text + 1 = 977 ∧ strlen longest.text + 1 ≤ entrySize) ∧
    strlen (elapsedFormat (-2 ^ 63) (-2 ^ 63) (-2 ^ 31) (-2 ^ 31)) + 1 = 95 := by
  have hint : IsInt (-2 ^ 31) := ⟨le_refl _, by decide⟩
  have hlong : IsLong (-2 ^ 63) := ⟨le_refl _, by decide⟩
  have hfit := texts_fit (v := longest) ⟨hint, hint, hint, hint, hint, hint, hint, fun _ => hint,
    fun _ => hint, fun _ => hint⟩ hlong hlong hint hint
  exact ⟨⟨by decide +kernel, hfit.1⟩, by decide +kernel⟩

end KernelElevator
