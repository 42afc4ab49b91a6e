import KernelElevator.Library.Decimal
import Mathlib.Data.String.Basic

/-!
# Lines of a text

A text printed line by line is cut again at its newlines. `hasLine_unlines` says that a reader who
does so finds the lines that were printed, and no others.
-/

namespace Lines

/-- A reader who cuts the text at its newlines finds `line`. -/
def HasLine (text line : String) : Prop := line.toList ∈ text.toList.splitOn '\n'

/-- The lines, each with a newline after it. -/
def unlines (lines : List String) : String := lines.foldr (fun line text => line ++ "\n" ++ text) ""

/-- A text without a newline. -/
def OneLine (line : String) : Prop := '\n' ∉ line.toList

theorem OneLine.append {a b : String} (ha : OneLine a) (hb : OneLine b) : OneLine (a ++ b) := by
  intro h
  rw [String.toList_append] at h
  exact (List.mem_append.1 h).elim ha hb

theorem oneLine_toString (n : Int) : OneLine (toString n) :=
  fun h => absurd (Decimal.isMark_of_mem h) (by decide)

theorem unlines_cons (line : String) (lines : List String) :
    unlines (line :: lines) = line ++ "\n" ++ unlines lines := rfl

theorem unlines_append (xs ys : List String) : unlines (xs ++ ys) = unlines xs ++ unlines ys := by
  induction xs with
  | nil => exact (String.empty_append).symm
  | cons x xs ih =>
    rw [List.cons_append, unlines_cons, unlines_cons, ih]
    simp only [String.append_assoc]

/-- Lines appended one by one. -/
theorem foldl_unlines {α : Type*} (line : α → String) (xs : List α) (text : String) :
    xs.foldl (fun text x => text ++ (line x ++ "\n")) text = text ++ unlines (xs.map line) := by
  induction xs generalizing text with
  | nil => exact (String.append_empty).symm
  | cons x xs ih =>
    rw [List.foldl_cons, ih, List.map_cons, unlines_cons]
    simp only [String.append_assoc]

theorem splitOn_unlines {lines : List String} (h : ∀ line ∈ lines, OneLine line) :
    (unlines lines).toList.splitOn '\n' = lines.map String.toList ++ [[]] := by
  induction lines with
  | nil => rfl
  | cons line lines ih =>
    have hline : OneLine line := h line List.mem_cons_self
    have ih := ih fun l hl => h l (List.mem_cons_of_mem _ hl)
    have hnewline : "\n".toList = ['\n'] := by simp
    have htext :
        (unlines (line :: lines)).toList = line.toList ++ '\n' :: (unlines lines).toList := by
      simp [unlines_cons, hnewline]
    rw [htext, List.splitOn_append_cons_self_of_not_mem hline, ih]
    rfl

/-- **A text of lines has these lines and no others**, but for the empty one after the last
newline. -/
theorem hasLine_unlines {lines : List String} (h : ∀ line ∈ lines, OneLine line) {line : String}
    (hne : line ≠ "") : HasLine (unlines lines) line ↔ line ∈ lines := by
  rw [HasLine, splitOn_unlines h, List.mem_append, List.mem_singleton, String.toList_eq_nil_iff]
  simp only [hne, or_false, List.mem_map, String.toList_inj, exists_eq_right]

end Lines
