import Mathlib.Logic.Relation
import Mathlib.Tactic.Tauto

/-!
# Labelled machines

Runs of a machine `step : L → S → S` under a list of labels, and of a relation `R : S → S → Prop`.
Six rules: an invariant of every step holds after every run; an invariant of every step that
meets a guard holds after every run that meets it; what a step does just when it meets the guard, a
run does just when it meets it; an invariant that a step may end only by reaching a goal holds until
then; a variant that enough steps lower makes them reach the goal; a variant that boundedly many
steps always lower is zero after a bounded number.
-/

namespace Machine

variable {S L : Type*}

section Runs

variable (step : L → S → S)

/-- The state after the labels `ls`. -/
def run : List L → S → S
  | [], s => s
  | l :: ls, s => run ls (step l s)

@[simp] theorem run_nil (s : S) : run step [] s = s := rfl

@[simp] theorem run_cons (l : L) (ls : List L) (s : S) :
    run step (l :: ls) s = run step ls (step l s) := rfl

@[simp] theorem run_append (ls ms : List L) (s : S) :
    run step (ls ++ ms) s = run step ms (run step ls s) := by
  induction ls generalizing s with
  | nil => rfl
  | cons l ls ih => exact ih (step l s)

variable {step}

/-- **The invariant rule.** -/
theorem run_invariant {I : S → Prop} (hstep : ∀ l s, I s → I (step l s)) (ls : List L) {s : S}
    (hs : I s) : I (run step ls s) := by
  induction ls generalizing s with
  | nil => exact hs
  | cons l ls ih => exact ih (hstep l s hs)

variable (step)

/-- Every step of the run of `ls` from `s` meets `G`. -/
def Along (G : S → L → Prop) : List L → S → Prop
  | [], _ => True
  | l :: ls, s => G s l ∧ Along G ls (step l s)

variable {step}

instance Along.decidable {G : S → L → Prop} [∀ s l, Decidable (G s l)] :
    ∀ (ls : List L) (s : S), Decidable (Along step G ls s)
  | [], _ => isTrue trivial
  | l :: ls, s =>
    have := Along.decidable (G := G) ls (step l s)
    inferInstanceAs (Decidable (_ ∧ _))

theorem along_append {G : S → L → Prop} {ls ms : List L} {s : S} :
    Along step G (ls ++ ms) s ↔ Along step G ls s ∧ Along step G ms (run step ls s) := by
  induction ls generalizing s with
  | nil => simp [Along]
  | cons l ls ih => simp [Along, ih, and_assoc]

theorem along_and {G H : S → L → Prop} {ls : List L} {s : S} :
    Along step (fun s l => G s l ∧ H s l) ls s ↔ Along step G ls s ∧ Along step H ls s := by
  induction ls generalizing s with
  | nil => simp [Along]
  | cons l ls ih =>
    simp only [Along, ih]
    tauto

theorem along_iff_forall {G : S → L → Prop} {ls : List L} {s : S} :
    Along step G ls s ↔ ∀ pre l, pre ++ [l] <+: ls → G (run step pre s) l := by
  constructor
  · intro h pre l hpre
    obtain ⟨post, rfl⟩ := hpre
    rw [List.append_assoc, along_append] at h
    exact h.2.1
  · intro h
    induction ls generalizing s with
    | nil => trivial
    | cons l ls ih =>
      refine ⟨h [] l (by simp), ?_⟩
      apply ih
      intro pre l' hpre
      exact h (l :: pre) l' (List.cons_prefix_cons.2 ⟨rfl, hpre⟩)

/-- In the runs that meet `Q`, two guards agree if they do so at every step. -/
theorem along_congr {I : S → Prop} {Q P G : S → L → Prop}
    (hstep : ∀ l s, I s → Q s l → I (step l s)) (hiff : ∀ l s, I s → Q s l → (P s l ↔ G s l))
    {ls : List L} {s : S} (hs : I s) (hQ : Along step Q ls s) :
    Along step P ls s ↔ Along step G ls s := by
  induction ls generalizing s with
  | nil => exact Iff.rfl
  | cons l ls ih =>
    rw [Along, Along, hiff l s hs hQ.1, ih (hstep l s hs hQ.1) hQ.2]

/-- A run that does not meet `G` throughout has a first step that does not. -/
theorem exists_first_of_not_along {G : S → L → Prop} {ls : List L} {s : S}
    (h : ¬ Along step G ls s) :
    ∃ pre l post, ls = pre ++ l :: post ∧ Along step G pre s ∧ ¬ G (run step pre s) l := by
  induction ls generalizing s with
  | nil => exact absurd trivial h
  | cons l ls ih =>
    by_cases hl : G s l
    · obtain ⟨pre, l', post, rfl, hpre, hl'⟩ := ih fun hls => h ⟨hl, hls⟩
      exact ⟨l :: pre, l', post, rfl, ⟨hl, hpre⟩, hl'⟩
    · exact ⟨[], l, ls, rfl, trivial, hl⟩

/-- **The guarded invariant rule.** -/
theorem run_guarded {I : S → Prop} {G : S → L → Prop}
    (hstep : ∀ l s, I s → G s l → I (step l s)) {ls : List L} {s : S} (hs : I s)
    (hG : Along step G ls s) : I (run step ls s) := by
  induction ls generalizing s with
  | nil => exact hs
  | cons l ls ih => exact ih (hstep l s hs hG.1) hG.2

/-- **The exact guard rule.** If, wherever `I` holds, a step does what `P` asks just when it meets
`G`, and a step that meets `G` keeps `I`, then a run does what `P` asks just when it meets `G`. -/
theorem along_iff {I : S → Prop} {P G : S → L → Prop}
    (hstep : ∀ l s, I s → G s l → I (step l s)) (hiff : ∀ l s, I s → (P s l ↔ G s l)) {ls : List L}
    {s : S} (hs : I s) : Along step P ls s ↔ Along step G ls s := by
  induction ls generalizing s with
  | nil => exact Iff.rfl
  | cons l ls ih =>
    constructor
    · intro h
      have hG := (hiff l s hs).1 h.1
      exact ⟨hG, (ih (hstep l s hs hG)).1 h.2⟩
    · intro h
      exact ⟨(hiff l s hs).2 h.1, (ih (hstep l s hs h.1)).2 h.2⟩

/-- **The until rule.** If each step from a state of `I` reaches `goal` or stays in `I`, then a run
meets `goal` on the way or ends in `I`. -/
theorem run_until {I : S → Prop} (goal : S → Prop)
    (hstep : ∀ l s, I s → goal (step l s) ∨ I (step l s)) (ls : List L) {s : S} (hs : I s) :
    (∃ ms, ms <+: ls ∧ goal (run step ms s)) ∨ I (run step ls s) := by
  induction ls generalizing s with
  | nil => exact .inr hs
  | cons l ls ih =>
    rcases hstep l s hs with hgoal | hI
    · exact .inl ⟨[l], by simp, hgoal⟩
    · rcases ih hI with ⟨ms, hms, hgoal⟩ | hend
      · exact .inl ⟨l :: ms, by simpa using hms, hgoal⟩
      · exact .inr hend

/-- **The variant rule.** If each tick from a state of `I` reaches `goal` or lowers `μ`, and the
other labels do not raise it, then more than `μ` ticks reach `goal` on the way. -/
theorem exists_prefix_of_variant {I : S → Prop} (goal : S → Prop) {μ : S → Nat} (tick : L → Bool)
    (htick : ∀ l s, I s → tick l = true → goal (step l s) ∨ (I (step l s) ∧ μ (step l s) < μ s))
    (hother : ∀ l s, I s → tick l = false → I (step l s) ∧ μ (step l s) ≤ μ s)
    (ls : List L) {s : S} (hs : I s) (hcount : μ s < ls.countP tick) :
    ∃ ms, ms <+: ls ∧ goal (run step ms s) := by
  induction ls generalizing s with
  | nil => exact absurd hcount (Nat.not_lt_zero _)
  | cons l ls ih =>
    have hstep : (goal (step l s)) ∨ (I (step l s) ∧ μ (step l s) < ls.countP tick) := by
      cases ht : tick l with
      | true =>
        rw [List.countP_cons_of_pos ht] at hcount
        rcases htick l s hs ht with hgoal | ⟨hI, hlt⟩
        · exact .inl hgoal
        · exact .inr ⟨hI, by omega⟩
      | false =>
        rw [List.countP_cons_of_neg (by simp [ht])] at hcount
        obtain ⟨hI, hle⟩ := hother l s hs ht
        exact .inr ⟨hI, by omega⟩
    rcases hstep with hgoal | ⟨hI, hlt⟩
    · exact ⟨[l], by simp, hgoal⟩
    · obtain ⟨ms, hms, hgoal⟩ := ih hI hlt
      exact ⟨l :: ms, by simpa using hms, hgoal⟩

end Runs

section Relation

variable (R : S → S → Prop)

/-- `n` steps of `R`. -/
inductive Steps : Nat → S → S → Prop
  | zero (s : S) : Steps 0 s s
  | succ {n : Nat} {s t u : S} : R s t → Steps n t u → Steps (n + 1) s u

variable {R}

theorem Steps.one {s t : S} (h : R s t) : Steps R 1 s t := .succ h (.zero t)

theorem Steps.trans {m n : Nat} {s t u : S} (h : Steps R m s t) (h' : Steps R n t u) :
    Steps R (m + n) s u := by
  induction h with
  | zero => rwa [Nat.zero_add]
  | succ hst _ ih =>
    rw [Nat.add_right_comm]
    exact .succ hst (ih h')

/-- **The progress rule.** If from every state of `I` where `μ` is positive at most `c` steps lower
it within `I`, then at most `c` times `μ` steps make it zero. -/
theorem exists_steps_of_progress {I : S → Prop} {μ : S → Nat} {c : Nat}
    (hprogress : ∀ s, I s → 0 < μ s → ∃ k ≤ c, ∃ t, Steps R k s t ∧ I t ∧ μ t < μ s) {s : S}
    (hs : I s) : ∃ k ≤ c * μ s, ∃ t, Steps R k s t ∧ I t ∧ μ t = 0 := by
  induction hn : μ s using Nat.strongRecOn generalizing s with
  | ind n ih =>
    rcases Nat.eq_zero_or_pos n with rfl | hpos
    · exact ⟨0, Nat.zero_le _, s, .zero s, hs, hn⟩
    · obtain ⟨k, hk, t, hsteps, ht, hlt⟩ := hprogress s hs (hn ▸ hpos)
      obtain ⟨k', hk', u, hsteps', hu, hzero⟩ := ih (μ t) (hn ▸ hlt) ht rfl
      refine ⟨k + k', ?_, u, hsteps.trans hsteps', hu, hzero⟩
      calc k + k' ≤ c + c * μ t := Nat.add_le_add hk hk'
        _ = c * (μ t + 1) := by rw [Nat.mul_succ, Nat.add_comm]
        _ ≤ c * n := Nat.mul_le_mul_left c (hn ▸ hlt)

end Relation

end Machine
