import Mathlib.Data.List.Basic
import Mathlib.Data.String.Basic

/-!
# Integers in printed texts

What `%d` and `%ld` print: a decimal numeral, with a sign if it is negative. A numeral consists of
*marks*, so it ends at the first character that is none, and a text that separates numerals by other
characters determines them.
-/

namespace Decimal

/-- A character of a numeral. -/
def IsMark (c : Char) : Prop := c.isDigit = true ∨ c = '-'

instance (c : Char) : Decidable (IsMark c) := inferInstanceAs (Decidable (_ ∨ _))

theorem isDigit_of_mem_natRepr {n : Nat} {c : Char} (h : c ∈ n.repr.toList) :
    c.isDigit = true := by
  rw [Nat.toList_repr] at h
  exact Nat.isDigit_of_mem_toDigits (by decide) (by decide) h

theorem isMark_of_mem {n : Int} {c : Char} (h : c ∈ (toString n).toList) : IsMark c := by
  rw [Int.toString_eq_repr, Int.repr_eq_if] at h
  split_ifs at h
  · exact .inl (isDigit_of_mem_natRepr h)
  · rw [String.toList_append] at h
    rcases List.mem_append.1 h with h | h
    · exact .inr (by simpa using h)
    · exact .inl (isDigit_of_mem_natRepr h)

theorem natRepr_injective {m n : Nat} (h : m.repr = n.repr) : m = n := by
  have hdigits : Nat.toDigits 10 m = Nat.toDigits 10 n := by
    rw [← Nat.toList_repr, ← Nat.toList_repr, h]
  rw [← Nat.ofDigitChars_ten_toDigits (n := m), hdigits, Nat.ofDigitChars_ten_toDigits]

/-- A nonnegative numeral has no sign. -/
theorem natRepr_ne (m n : Nat) : m.repr ≠ "-" ++ n.repr := by
  intro h
  have hsign : '-' ∈ m.repr.toList := by
    rw [h, String.toList_append]
    simp
  exact absurd (isDigit_of_mem_natRepr hsign) (by decide)

theorem toString_injective {m n : Int} (h : toString m = toString n) : m = n := by
  simp only [Int.toString_eq_repr, Int.repr_eq_if] at h
  split_ifs at h
  · have heq := natRepr_injective h
    omega
  · exact absurd h (natRepr_ne _ _)
  · exact absurd h.symm (natRepr_ne _ _)
  · have heq := natRepr_injective ((String.append_right_inj _).1 h)
    omega

/-- Two lists that are split at the first `sep` are split in the same place. -/
theorem append_sep_inj {α : Type*} {sep : α} {xs ys rs ss : List α} (hx : sep ∉ xs)
    (hy : sep ∉ ys) : xs ++ sep :: rs = ys ++ sep :: ss ↔ xs = ys ∧ rs = ss := by
  induction xs generalizing ys with
  | nil =>
    cases ys with
    | nil => simp
    | cons y ys =>
      have hne : sep ≠ y := fun heq => hy (heq ▸ List.mem_cons_self)
      simp [hne]
  | cons x xs ih =>
    cases ys with
    | nil =>
      have hne : x ≠ sep := fun heq => hx (heq ▸ List.mem_cons_self)
      simp [hne]
    | cons y ys =>
      have ih :=
        ih (fun h => hx (List.mem_cons_of_mem x h)) (fun h => hy (List.mem_cons_of_mem y h))
      simp [ih, and_assoc]

/-- **A numeral ends at the first character that is not a mark.** -/
theorem printed_inj {sep : Char} (hsep : ¬ IsMark sep) {m n : Int} {rs ss : List Char} :
    (toString m).toList ++ sep :: rs = (toString n).toList ++ sep :: ss ↔ m = n ∧ rs = ss := by
  rw [append_sep_inj (fun h => hsep (isMark_of_mem h)) (fun h => hsep (isMark_of_mem h)),
    String.toList_inj]
  constructor
  · intro h
    exact ⟨toString_injective h.1, h.2⟩
  · intro h
    exact ⟨congrArg toString h.1, h.2⟩

theorem toList_toString_inj {m n : Int} :
    (toString m).toList = (toString n).toList ↔ m = n := by
  rw [String.toList_inj]
  exact ⟨toString_injective, congrArg toString⟩

/-- Two numerals with a point between them, at the end of a line. -/
theorem dotted_inj {start : String} {a b c d : Int}
    (h : start ++ toString a ++ "." ++ toString b ++ "\n" =
      start ++ toString c ++ "." ++ toString d ++ "\n") : a = c ∧ b = d := by
  have hpoint : ".".toList = ['.'] := by simp
  have hline : "\n".toList = ['\n'] := by simp
  simp only [String.append_assoc, String.append_right_inj] at h
  have hlist := congrArg String.toList h
  simp only [String.toList_append, hpoint, hline, List.cons_append, List.nil_append] at hlist
  obtain ⟨hsec, hrest⟩ := (printed_inj (by decide)).1 hlist
  exact ⟨hsec, ((printed_inj (by decide)).1 hrest).1⟩

/-- A text that ends its last line is not empty. -/
theorem line_ne_empty (text : String) : text ++ "\n" ≠ "" := by simp

/-! ## Sizes -/

theorem size_digit : ∀ d < 10, d.repr.utf8ByteSize = 1 := by decide

theorem size_natRepr_le {n k : Nat} (hk : 0 < k) (h : n < 10 ^ k) : n.repr.utf8ByteSize ≤ k := by
  induction k generalizing n with
  | zero => exact absurd hk (Nat.lt_irrefl 0)
  | succ k ih =>
    by_cases hn : n < 10
    · rw [size_digit n hn]
      exact hk
    · have hk : 0 < k := by
        refine Nat.pos_of_ne_zero ?_
        rintro rfl
        exact hn h
      have hdiv : (n / 10).repr.utf8ByteSize ≤ k := ih hk (by rw [Nat.pow_succ] at h; omega)
      have hmod : (n % 10).repr.utf8ByteSize = 1 := size_digit _ (Nat.mod_lt n (by decide))
      rw [Nat.repr_eq_repr_append_repr (Nat.le_of_not_lt hn), String.utf8ByteSize_append, hmod]
      exact Nat.succ_le_succ hdiv

/-- A numeral has as many bytes as the number has digits. -/
theorem size_le_of_nonneg {n : Int} {k : Nat} (hk : 0 < k) (hn : 0 ≤ n) (h : n.natAbs < 10 ^ k) :
    (toString n).utf8ByteSize ≤ k := by
  rw [Int.toString_eq_repr, Int.repr_eq_if, if_pos hn]
  exact size_natRepr_le hk (by omega)

/-- A negative one has a sign too. -/
theorem size_le {n : Int} {k : Nat} (hk : 0 < k) (h : n.natAbs < 10 ^ k) :
    (toString n).utf8ByteSize ≤ k + 1 := by
  by_cases hn : 0 ≤ n
  · exact (size_le_of_nonneg hk hn h).trans (Nat.le_succ k)
  · have hsign : "-".utf8ByteSize = 1 := by decide
    have hdigits : (-n).toNat.repr.utf8ByteSize ≤ k := size_natRepr_le hk (by omega)
    rw [Int.toString_eq_repr, Int.repr_eq_if, if_neg hn, String.utf8ByteSize_append, hsign]
    omega

end Decimal
